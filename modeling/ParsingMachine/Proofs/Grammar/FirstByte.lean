import ParsingMachine.Grammar.FirstByte
import ParsingMachine.Proofs.Grammar.Search
import ParsingMachine.Proofs.Semantics.Adequacy

/-!
# The first-byte analysis is sound

When the analysis rejects a slot, the expression fails at every position where the slot is next, and
when it answers that the byte is left alone, a success ends where it began. Nothing is said when it
accepts, so an answer may always be replaced by this one (`Acceptance.Sound`).

The statement is about every grammar that agrees on the expression: of an undefined rule nothing is
assumed, and tables that were made before a rule is defined stay right afterwards. Of the grammar
itself it says where walks end (`results_of_accept`).

Soundness follows the terms and not the operators. A sequence is answered by the first item that
does not leave the byte alone, a choice by its alternatives together, and in both cases an induction
over the list does it; the operators with one operand are instances of few forms of term. A rule
that is entered again where it is being looked at is accepted, which is sound since nothing is said
then, and keeps the analysis finite.

The analysis runs within a depth, and one of its answers is wrong when the depth runs out: it then
accepts, and a negated terminal that is accepted would be rejected. `sound_acceptWithin` therefore
asks for enough depth, which `analysisDepth` is: each rule is entered at most once on a path, and
between two rules the path goes down the operands. For terminals the answer is exact, which is why
their negation may be rejected at all.

## Main statements

* `Acceptance.sound_inSequence`, `Acceptance.sound_inChoice`: the answers for lists of operands.
* `sound_not_terminal`: where a terminal is accepted its negation fails.
* `sound_accept`: the analysis is right for every expression and every slot.
* `results_of_accept`: what it says about walks.
-/

namespace ParsingMachine

/-- The slot of a jump table for a position. -/
def Resident.slot (src : Resident) (pos : Nat) : Nat :=
  match src.text[pos]? with
  | some b => b.toNat
  | none => endSlot

/-- Every position has one of the slots of a table. -/
theorem Resident.slot_lt (src : Resident) (pos : Nat) : src.slot pos < slotCount := by
  unfold slot
  rcases src.text[pos]? with - | b
  · exact Nat.lt_succ_self 256
  · exact Nat.lt_succ_of_lt b.toNat_lt

section

variable {g k : Grammar} {src : Resident} {slot : Nat}

/-- The answer is right for a term. -/
structure Acceptance.Sound (answer : Acceptance) (g : Grammar) (src : Resident) (slot : Nat)
    (t : Term) : Prop where
  /-- Rejected terms fail. -/
  reject : answer = .reject → ∀ d pos s r, src.slot pos = slot → Yields g src d t pos s r → r = none
  /-- Where the byte is left alone, a success ends where it began. -/
  unconsumed : answer = .unconsumed → ∀ d pos s stop s', src.slot pos = slot →
    Yields g src d t pos s (some (stop, s')) → stop = pos

namespace Acceptance

variable {t u : Term} {answer : Acceptance}

theorem sound_accept : accept.Sound g src slot t :=
  ⟨fun h ↦ (nomatch h), fun h ↦ (nomatch h)⟩

theorem sound_unconsumed (h : ∀ d pos s stop s', src.slot pos = slot →
    Yields g src d t pos s (some (stop, s')) → stop = pos) : unconsumed.Sound g src slot t :=
  ⟨fun h ↦ (nomatch h), fun _ ↦ h⟩

theorem sound_reject (h : ∀ d pos s r, src.slot pos = slot → Yields g src d t pos s r → r = none) :
    reject.Sound g src slot t :=
  ⟨fun _ ↦ h, fun h ↦ (nomatch h)⟩

/-- A success ends where it began unless the byte is accepted. -/
theorem Sound.stop_eq (h : answer.Sound g src slot t) (ha : answer ≠ accept) {d pos stop : Nat}
    {s s' : ParseState} (hslot : src.slot pos = slot)
    (ht : Yields g src d t pos s (some (stop, s'))) : stop = pos := by
  rcases answer with - | - | -
  · exact absurd rfl ha
  · cases h.reject rfl d pos s _ hslot ht
  · exact h.unconsumed rfl d pos s stop s' hslot ht

/-- The answer for a term is right for every term that has its results. -/
theorem Sound.of_refines (h : answer.Sound g src slot u) (href : Refines g src t u) :
    answer.Sound g src slot t where
  reject ha d pos s r hslot ht := h.reject ha d pos s r hslot (href d pos s r ht)
  unconsumed ha d pos s stop s' hslot ht :=
    h.unconsumed ha d pos s stop s' hslot (href d pos s _ ht)

/-- The answer is right for a term around another that neither turns a failure into a success nor
moves the position. -/
theorem Sound.around (h : answer.Sound g src slot t) {enter : ParseState → ParseState}
    {leave : Nat → ParseState → Match → Match} (hnone : ∀ pos s, leave pos s none = none)
    (hstop : ∀ pos s stop s' x, leave pos s (some (stop, s')) = some x → x.1 = stop) :
    answer.Sound g src slot (.around enter t leave) where
  reject ha d pos s r hslot ht := by
    obtain ⟨x, hx, rfl⟩ := Yields.around_iff.mp ht
    rw [h.reject ha d pos _ x hslot hx, hnone]
  unconsumed ha d pos s stop s' hslot ht := by
    obtain ⟨- | ⟨stop', s''⟩, hx, hr⟩ := Yields.around_iff.mp ht
    · rw [hnone] at hr
      cases hr
    · rw [← h.unconsumed ha d pos _ stop' s'' hslot hx]
      exact hstop pos s stop' s'' _ hr.symm

/-- A sequence is answered for by the first item that does not leave the byte alone. -/
theorem sound_inSequence {f : ExprId → Acceptance} {items : List ExprId}
    (h : ∀ item ∈ items, (f item).Sound g src slot (.node item)) :
    (inSequence f items).Sound g src slot (.all (items.map .node)) := by
  induction items with
  | nil =>
    refine sound_unconsumed fun d pos s stop s' _ ht ↦ ?_
    cases Yields.done_iff.mp ht
    rfl
  | cons item items ih =>
    have hitem := h item List.mem_cons_self
    have hitems := ih fun x hx ↦ h x (List.mem_cons_of_mem _ hx)
    rcases hanswer : f item with - | - | -
    · simp only [inSequence, hanswer]
      exact sound_accept
    · simp only [inSequence, hanswer]
      refine sound_reject fun d pos s r hslot ht ↦ ?_
      rcases Yields.both_iff.mp ht with ⟨-, hr⟩ | ⟨mid, s', h₁, -⟩
      · exact hr
      · cases hitem.reject hanswer d pos s _ hslot h₁
    · simp only [inSequence, hanswer]
      constructor
      · intro ha d pos s r hslot ht
        rcases Yields.both_iff.mp ht with ⟨-, hr⟩ | ⟨mid, s', h₁, h₂⟩
        · exact hr
        · cases hitem.unconsumed hanswer d pos s mid s' hslot h₁
          exact hitems.reject ha d _ s' r hslot h₂
      · intro ha d pos s stop s' hslot ht
        rcases Yields.both_iff.mp ht with ⟨-, hr⟩ | ⟨mid, s'', h₁, h₂⟩
        · cases hr
        · cases hitem.unconsumed hanswer d pos s mid s'' hslot h₁
          exact hitems.unconsumed ha d _ s'' stop s' hslot h₂

/-- A choice is rejected if all alternatives are, and leaves the byte alone if none consumes it. -/
theorem sound_inChoice {f : ExprId → Acceptance} {alts : List ExprId}
    (h : ∀ alt ∈ alts, (f alt).Sound g src slot (.node alt)) :
    (inChoice f alts).Sound g src slot (.any (alts.map .node)) := by
  induction alts with
  | nil => exact sound_reject fun d pos s r _ ht ↦ Yields.fails_iff.mp ht
  | cons alt alts ih =>
    have halt := h alt List.mem_cons_self
    have halts := ih fun x hx ↦ h x (List.mem_cons_of_mem _ hx)
    rcases hanswer : f alt with - | - | -
    · simp only [inChoice, hanswer]
      exact sound_accept
    · simp only [inChoice, hanswer]
      constructor
      · intro ha d pos s r hslot ht
        rcases Yields.either_iff.mp ht with ⟨-, h₁⟩ | ⟨-, h₂⟩
        · exact halt.reject hanswer d pos s r hslot h₁
        · exact halts.reject ha d pos s r hslot h₂
      · intro ha d pos s stop s' hslot ht
        rcases Yields.either_iff.mp ht with ⟨-, h₁⟩ | ⟨-, h₂⟩
        · cases halt.reject hanswer d pos s _ hslot h₁
        · exact halts.unconsumed ha d pos s stop s' hslot h₂
    · simp only [inChoice, hanswer]
      split
      · exact sound_accept
      · rename_i hrest
        refine sound_unconsumed fun d pos s stop s' hslot ht ↦ ?_
        rcases Yields.either_iff.mp ht with ⟨-, h₁⟩ | ⟨-, h₂⟩
        · exact halt.unconsumed hanswer d pos s stop s' hslot h₁
        · exact halts.stop_eq hrest hslot h₂

/-! ### Operators with one operand -/

variable {e : ExprId}

/-- A loop whose rounds leave the byte alone leaves it alone. -/
theorem Sound.stop_eq_of_loop (h : answer.Sound g src slot (.node e)) (ha : answer ≠ accept)
    {d pos stop : Nat} {s s' : ParseState} (hslot : src.slot pos = slot)
    (ht : Yields g src d (.loop e) pos s (some (stop, s'))) : stop = pos := by
  cases ht with
  | loopDone _ => rfl
  | loopStill _ => rfl
  | loopStep hmid h₁ _ => exact absurd (h.stop_eq ha hslot h₁) hmid

theorem Sound.loop (h : answer.Sound g src slot (.node e)) (ha : answer ≠ accept) :
    Acceptance.unconsumed.Sound g src slot (.loop e) :=
  sound_unconsumed fun _ _ _ _ _ hslot ht ↦ h.stop_eq_of_loop ha hslot ht

/-- One round and more are answered for as the first is. -/
theorem Sound.both_loop (h : answer.Sound g src slot (.node e)) :
    answer.Sound g src slot (.both (.node e) (.loop e)) where
  reject ha d pos s r hslot ht := by
    rcases Yields.both_iff.mp ht with ⟨-, hr⟩ | ⟨mid, s', h₁, -⟩
    · exact hr
    · cases h.reject ha d pos s _ hslot h₁
  unconsumed ha d pos s stop s' hslot ht := by
    rcases Yields.both_iff.mp ht with ⟨-, hr⟩ | ⟨mid, s'', h₁, h₂⟩
    · cases hr
    · cases h.unconsumed ha d pos s mid s'' hslot h₁
      exact h.stop_eq_of_loop (by simp [ha]) hslot h₂

theorem Sound.either_done (h : answer.Sound g src slot (.node e)) (ha : answer ≠ accept) :
    Acceptance.unconsumed.Sound g src slot (.either (.node e) .done) := by
  refine sound_unconsumed fun d pos s stop s' hslot ht ↦ ?_
  rcases Yields.either_iff.mp ht with ⟨-, h₁⟩ | ⟨-, h₂⟩
  · exact h.stop_eq ha hslot h₁
  · cases Yields.done_iff.mp h₂
    rfl

/-- A lookahead leaves the byte alone. -/
theorem sound_and : unconsumed.Sound g src slot ((Operator.and e).term src) := by
  refine sound_unconsumed fun d pos s stop s' _ ht ↦ ?_
  obtain ⟨- | x, -, hx⟩ := Yields.around_iff.mp ht <;> cases hx
  rfl

/-- A lookahead fails where its operand does. -/
theorem Sound.and (h : Acceptance.reject.Sound g src slot (.node e)) :
    Acceptance.reject.Sound g src slot ((Operator.and e).term src) := by
  refine sound_reject fun d pos s r hslot ht ↦ ?_
  obtain ⟨x, hx, rfl⟩ := Yields.around_iff.mp ht
  rw [h.reject rfl d pos _ x hslot hx]
  rfl

theorem sound_not : unconsumed.Sound g src slot ((Operator.not e).term src) := by
  refine sound_unconsumed fun d pos s stop s' _ ht ↦ ?_
  obtain ⟨x, -, hx⟩ := Yields.around_iff.mp ht
  split at hx <;> cases hx
  rfl

end Acceptance

namespace Grammar

/-! ### Terminals -/

/-- A byte is next exactly when its slot is. -/
theorem slotIn_slot (set : ByteSet) (pos : Nat) :
    slotIn set (src.slot pos) = src.text[pos]?.any set.contains := by
  rw [Resident.slot, slotIn]
  rcases src.text[pos]? with - | b
  · simp
  · have hlt : b.toNat < endSlot := b.toNat_lt
    simp [hlt]

/-- A terminal is accepted exactly where it succeeds. -/
theorem acceptNode_terminal {e : ExprId} {test : UInt8 → Bool}
    (htest : (g.op e).test? = some test) (recur : List RuleId → ExprId → Acceptance)
    (visiting : List RuleId) (pos : Nat) :
    g.acceptNode (src.slot pos) recur visiting e =
      if src.text[pos]?.any test then .accept else .reject := by
  unfold acceptNode
  rcases hop : g.op e <;> rw [hop] at htest <;> cases htest
  · rw [Resident.slot]
    rcases src.text[pos]? with - | b
    · simp
    · have hne : b.toNat ≠ endSlot := Nat.ne_of_lt b.toNat_lt
      simp [hne]
  · rename_i a
    rw [Resident.slot]
    rcases src.text[pos]? with - | b
    · have hne : endSlot ≠ a.toNat := (Nat.ne_of_lt a.toNat_lt).symm
      simp [hne]
    · simp [UInt8.toNat_inj]
  · simp only [slotIn_slot]

/-- The answer for a terminal is right. -/
theorem sound_terminal {e : ExprId} {test : UInt8 → Bool} (htest : (g.op e).test? = some test)
    (hop : k.op e = g.op e) (recur : List RuleId → ExprId → Acceptance) (visiting : List RuleId) :
    (g.acceptNode slot recur visiting e).Sound k src slot (.node e) := by
  have htest' : (k.op e).test? = some test := hop ▸ htest
  constructor
  · rintro ha d pos s r rfl hyields
    rw [acceptNode_terminal htest] at ha
    rw [Yields.consumes_iff.mp (refines_consumes htest' d pos s r hyields)]
    split at ha
    · cases ha
    · rename_i hany
      rw [if_neg hany]
  · rintro ha d pos s stop s' rfl hyields
    rw [acceptNode_terminal htest] at ha
    split at ha <;> cases ha

/-! ### The analysis -/

/-- Where a terminal is accepted its negation fails. -/
theorem sound_not_terminal {e : ExprId} {test : UInt8 → Bool} (htest : (g.op e).test? = some test)
    (hop : k.op e = g.op e) {recur : List RuleId → ExprId → Acceptance} {visiting : List RuleId}
    (haccept : g.acceptNode slot recur visiting e = .accept) :
    Acceptance.reject.Sound k src slot ((Operator.not e).term src) := by
  have htest' : (k.op e).test? = some test := hop ▸ htest
  refine Acceptance.sound_reject fun d pos s r hslot ht ↦ ?_
  obtain ⟨x, hx, rfl⟩ := Yields.around_iff.mp ht
  rw [← hslot, acceptNode_terminal htest] at haccept
  split at haccept
  · rename_i hany
    rw [Yields.consumes_iff.mp (refines_consumes htest' d pos _ x hx), if_pos hany]
    rfl
  · cases haccept

/-- The analysis is right as long as its depth is enough. -/
theorem sound_acceptWithin (hg : g.WellFormed) (n : Nat) (visiting : List RuleId) (e : ExprId)
    (he : e < g.size) (hn : g.Enough n visiting e) (hgk : g.Agrees e k) :
    (g.acceptWithin slot n visiting e).Sound k src slot (.node e) := by
  induction n generalizing visiting e with
  | zero => exact absurd hn.pos (Nat.lt_irrefl 0)
  | succ n ih =>
    have hchild (c : ExprId) (hc : c ∈ (g.op e).children) :=
      ih visiting c (Nat.lt_trans (hg.child_lt hc) he) (hn.child (hg.child_lt hc))
        (hgk.of_mem (mem_successors_of_mem_children hc))
    have hsingle (c : ExprId) (hc : (g.op e).children = [c]) := hchild c (by simp [hc])
    rw [acceptWithin]
    by_cases hterminal : (g.op e).isTerminal
    · obtain ⟨test, htest⟩ := Operator.test?_of_isTerminal hterminal
      exact sound_terminal htest (hgk.op_eq e he) _ visiting
    · refine Acceptance.Sound.of_refines ?_ (refines_of_node _ _ e)
      rw [hgk.op_eq e he]
      unfold acceptNode
      cases hop : g.op e with
      | empty | mark _ | defIndent =>
        refine Acceptance.sound_unconsumed fun d pos s stop s' _ ht ↦ ?_
        cases Yields.prim_iff.mp ht
        rfl
      | fail => exact Acceptance.sound_reject fun d pos s r _ ht ↦ Yields.fails_iff.mp ht
      | anyByte | byte _ | byteClass _ => exact absurd (by rw [hop]; rfl) hterminal
      | sequence items | construct items _ =>
        exact Acceptance.sound_inSequence fun item hitem ↦ hchild item (by rw [hop]; exact hitem)
      | choice alts =>
        exact Acceptance.sound_inChoice fun alt halt ↦ hchild alt (by rw [hop]; exact halt)
      | star inner _ =>
        have hinner := hsingle inner (by rw [hop]; rfl)
        dsimp only
        split
        · exact Acceptance.sound_accept
        · exact hinner.loop ‹_›
      | plus inner _ => exact (hsingle inner (by rw [hop]; rfl)).both_loop
      | optional inner =>
        have hinner := hsingle inner (by rw [hop]; rfl)
        dsimp only
        split
        · exact Acceptance.sound_accept
        · exact hinner.either_done ‹_›
      | and inner =>
        have hinner := hsingle inner (by rw [hop]; rfl)
        dsimp only
        split
        · rename_i hreject
          rw [hreject] at hinner
          exact hinner.and
        · exact Acceptance.sound_and
      | not inner =>
        dsimp only
        split
        · rename_i hinner
          simp only [Bool.and_eq_true, beq_iff_eq] at hinner
          obtain ⟨test, htest⟩ := Operator.test?_of_isTerminal hinner.1
          have hlt : inner < e := hg.child_lt (by simp [hop, Operator.children])
          -- there is depth left for the terminal, so its answer is exact
          obtain ⟨m, rfl⟩ := Nat.exists_eq_succ_of_ne_zero (Nat.ne_of_gt (hn.child hlt).pos)
          exact sound_not_terminal htest (hgk.op_eq inner (Nat.lt_trans hlt he)) hinner.2
        · exact Acceptance.sound_not
      | reference rule =>
        dsimp only
        split
        · exact Acceptance.sound_accept
        · rename_i body hbody
          split
          · exact Acceptance.sound_accept
          · rename_i hvisiting
            have hlt := hg.body_lt rule body hbody
            have hbody' := hgk.of_mem (mem_successors_of_body? hop hbody)
            refine (ih (rule :: visiting) body hlt ?_ hbody').of_refines
              (refines_body (hgk.body?_of_op hop hbody))
            exact hn.body (by simpa using hvisiting) (lt_ruleCount_of_body? hbody) hlt
      | link inner _ => exact hsingle inner (by rw [hop]; rfl)
      | block inner | defSymbol table inner =>
        refine (hsingle inner (by rw [hop]; rfl)).around (fun _ _ ↦ rfl) fun pos s stop s' x hx ↦ ?_
        cases hx
        rfl
      | isSymbol table inner lastOnly =>
        refine (hsingle inner (by rw [hop]; rfl)).around (fun _ _ ↦ rfl) fun pos s stop s' x hx ↦ ?_
        obtain ⟨hx, -⟩ := Option.filter_eq_some_iff.mp hx
        cases hx
        rfl
      | isIndent => exact Acceptance.sound_accept

/-- The first-byte analysis is right for every expression and every slot. -/
theorem sound_accept (hg : g.WellFormed) {e : ExprId} (he : e < g.size) (hgk : g.Agrees e k)
    (slot : Nat) : (g.accept e slot).Sound k src slot (.node e) :=
  sound_acceptWithin hg _ [] e he (.start he []) hgk

/-- Where the slot of a rejected byte is next, no walk succeeds; and where the byte is left alone,
walks that succeed end where they began. -/
theorem results_of_accept (hg : g.WellFormed) {e : ExprId} (he : e < g.size) {slot pos : Nat}
    (hslot : src.slot pos = slot) (s : ParseState) :
    (g.accept e slot = .reject → ∀ r ∈ g.results src e pos s, r = none) ∧
      (g.accept e slot = .unconsumed →
        ∀ stop s', some (stop, s') ∈ g.results src e pos s → stop = pos) := by
  have hsound : (g.accept e slot).Sound g src slot (.node e) := sound_accept hg he (.refl g e) slot
  constructor
  · intro hreject r hr
    obtain ⟨d, hyields⟩ := mem_results.mp hr
    exact hsound.reject hreject d pos s r hslot hyields
  · intro hunconsumed stop s' hr
    obtain ⟨d, hyields⟩ := mem_results.mp hr
    exact hsound.unconsumed hunconsumed d pos s stop s' hslot hyields

/-- `S = !'b' S / !'b' U`, where `U` has no body, and the repetition of `S`. -/
def guardedRecursion : Grammar where
  nodes := #[⟨.byte 98, .synthetic⟩, ⟨.not 0, .synthetic⟩, ⟨.reference 0, .synthetic⟩,
    ⟨.reference 1, .synthetic⟩, ⟨.sequence [1, 2], .synthetic⟩, ⟨.sequence [1, 3], .synthetic⟩,
    ⟨.choice [4, 5], .synthetic⟩, ⟨.star 2 false, .synthetic⟩]
  rules := #[{ name := "S", body := some 6 }, { name := "U" }]

/-- In front of a `b` the rule fails and its repetition stops where it began. Anywhere else the rule
enters itself where it began. -/
theorem results_of_accept_guardedRecursion :
    guardedRecursion.WellFormed ∧ 7 < guardedRecursion.size ∧
      ({ text := #[98] } : Resident).slot 0 = 98 ∧
      (guardedRecursion.accept 6 98 = .reject ∧
        none ∈ guardedRecursion.results { text := #[98] } 6 0 {} ∧
        ∀ r ∈ guardedRecursion.results { text := #[98] } 6 0 {}, r = none) ∧
      guardedRecursion.accept 7 98 = .unconsumed ∧
        some (0, {}) ∈ guardedRecursion.results { text := #[98] } 7 0 {} ∧
        ∀ stop s', some (stop, s') ∈ guardedRecursion.results { text := #[98] } 7 0 {} →
          stop = 0 := by
  have hg : guardedRecursion.WellFormed := by decide
  have hslot : ({ text := #[98] } : Resident).slot 0 = 98 := by decide
  have hreject : guardedRecursion.accept 6 98 = .reject := by decide
  have hunconsumed : guardedRecursion.accept 7 98 = .unconsumed := by decide
  exact ⟨hg, by decide, hslot,
    ⟨hreject, ⟨20, 20, _, _, rfl, rfl⟩, (results_of_accept hg (by decide) hslot {}).1 hreject⟩,
    hunconsumed, ⟨20, 20, _, _, rfl, rfl⟩,
    (results_of_accept hg (by decide) hslot {}).2 hunconsumed⟩

end Grammar

end

end ParsingMachine
