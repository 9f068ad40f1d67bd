import ParsingMachine.Proofs.Machine.Brackets

/-!
# Runs that stay in a part of the program

The machine goes on at a successor of the instruction that it executes, at a return address, or at
what a frame names; and a frame names a successor of the instruction that saved it. So from a part
of the program that leads only to itself and calls nothing (`Program.Encloses`) a run with empty
stacks never comes out, whether instructions succeed or fail.

The part is a set of places given by a property and nothing is asked of its form: it need not be a
range or a block. Calls are kept out because the code of another rule would have to be in the set as
well; a return then ends the run, since there is no return address.

The invariant (`Waits`) says that there is no return address and that all frames name places of the
set. It holds at the start of a run, when there are no frames. Unlike the contexts of a typed
program it does not say which frames there are, and so it needs no typing.

The run lemmas speak of the executed instructions and not of states: an instruction that a run
executes was executed before or is in the set. `executed_of_step` splits off a first step, for a run
whose first instruction is not in the set but leads there.

## Main statements

* `gives_perform_enclosed`: an operation that is no call does not lead out of the set.
* `step_enclosed`: neither does a step.
* `executed_of_step`: once a step has come to the set, a run executes nothing else.
* `executed_enclosed`: a run from the set executes nothing else.
-/

namespace ParsingMachine

/-- Whether the operation calls a rule. -/
def Opcode.isCall : Opcode → Bool
  | call _ _ => true
  | _ => false

/-- A set of places leads only to itself, and nothing is called there. -/
structure Program.Encloses (p : Program) (T : InstrId → Prop) : Prop where
  /-- Successors are in the set. -/
  successors : ∀ (i : InstrId) instr, T i → p.code[i]? = some instr → ∀ j ∈ instr.successors, T j
  /-- There are no calls. -/
  noCall : ∀ (i : InstrId) instr, T i → p.code[i]? = some instr → instr.op.isCall = false

namespace Machine

variable {σ : Type} [Buffer σ] {T : InstrId → Prop} {s : State} {p : Program}
  {next : Option InstrId} {op : Opcode}

/-- Nothing was called, and failures lead to a set of places. -/
structure Waits (T : InstrId → Prop) (s : State) : Prop where
  /-- There is no return address. -/
  calls : s.calls.items = []
  /-- Frames name places of the set. -/
  frames : ∀ f ∈ s.frames, T f.onFail

/-- A step does not leave a set of places. -/
def Step.Enclosed (T : InstrId → Prop) : Step → Prop
  | .running s => T s.pc ∧ Waits T s
  | _ => True

/-- What an operation asks for does not lead out of a set of places. -/
def Effect.Enclosed (T : InstrId → Prop) : Effect → Prop
  | .next s | .fail s => Waits T s
  | .jump target s => T target ∧ Waits T s
  | _ => True

/-- A step does not lead out if neither its effect nor its fallthrough does. -/
theorem Effect.Enclosed.step {effect : Effect} (h : effect.Enclosed T) (hnext : ∀ j ∈ next, T j) :
    (effect.step next).Enclosed T := by
  cases effect with
  | next s =>
    rcases next with - | j
    · trivial
    · exact ⟨hnext j rfl, h.calls, h.frames⟩
  | jump target s => exact ⟨h.1, h.2.calls, h.2.frames⟩
  | fail s =>
    show (backtrack s).Enclosed T
    unfold backtrack
    rcases hframes : s.frames with - | ⟨top, frames⟩
    · trivial
    · have hmem : ∀ f ∈ top :: frames, T f.onFail := hframes ▸ h.frames
      refine ⟨hmem top List.mem_cons_self, ?_, fun f hf ↦ hmem f (List.mem_cons_of_mem _ hf)⟩
      show s.calls.items.drop _ = []
      rw [h.calls, List.drop_nil]
  | accept pos => trivial
  | fault f => trivial

/-- What keeps the stacks does not lead out of the set. -/
theorem Effect.Keeps.enclosed {effect : Effect} (h : effect.Keeps s) (hs : Waits T s) :
    effect.Enclosed T := by
  cases h with
  | next hcalls _ hframes => exact ⟨by rw [hcalls, hs.calls], by rw [hframes]; exact hs.frames⟩
  | fail => exact hs

/-- Executing an operation that is no call and branches to places of the set only. -/
theorem gives_perform_enclosed (hop : op.isCall = false) (hbranches : ∀ j ∈ op.branches, T j)
    (hs : Waits T s) : Gives (σ := σ) (perform op next s) (Effect.Enclosed T) := by
  have hplain (hop : op.isPlain) : Gives (σ := σ) (perform op next s) (Effect.Enclosed T) :=
    (gives_perform_plain hop next s).imp fun _ heffect ↦ heffect.enclosed hs
  have hposition (hop : op.usesPosition)
      (hnone : s.positions.pop? = none → Gives (σ := σ) (perform op next s) (Effect.Enclosed T)) :
      Gives (σ := σ) (perform op next s) (Effect.Enclosed T) := by
    rcases hitems : s.positions.items with - | ⟨saved, rest⟩
    · exact hnone (Stack.pop?_of_items_nil hitems)
    · refine (gives_perform_position hop hitems next).imp fun _ ⟨positions, _, heffect⟩ ↦ ?_
      exact heffect.enclosed (s := { s with positions }) ⟨hs.calls, hs.frames⟩
  have hpush (onFail : InstrId) (honFail : T onFail) :
      Waits T { s with frames := frame s onFail :: s.frames } := by
    exact ⟨hs.calls, fun f hf ↦ (List.mem_cons.mp hf).elim (fun heq ↦ heq ▸ honFail) (hs.frames f)⟩
  have hdrop {frames : List Frame} (hsub : frames ⊆ s.frames) : Waits T { s with frames } :=
    ⟨hs.calls, fun f hf ↦ hs.frames f (hsub hf)⟩
  cases op with
  | fail => exact .pure hs
  | ret =>
    -- nothing was called, so the run ends
    simp only [perform]
    rw [Stack.pop?_of_items_nil hs.calls]
    exact .pure trivial
  | byte _ _ | byteClass _ _ | anyByte | skipClass _ | notClass _ | notLiteral _ | nodePush
  | nodeStore _ | mark _ | tablePush | tablePop | defIndent | isIndent => exact hplain rfl
  | posBack | defSymbol _ | isSymbol _ _ =>
    refine hposition rfl fun hnone ↦ ?_
    simp only [perform, hnone]
    exact .pure trivial
  | failPush onFail => exact .pure (hpush onFail (hbranches onFail (List.mem_singleton_self _)))
  | failPop => exact .pure (hdrop fun f hf ↦ List.mem_of_mem_tail hf)
  | failSkip guarded =>
    simp only [perform]
    rcases hframes : s.frames with - | ⟨top, frames⟩
    · exact .pure trivial
    · have hmem : ∀ f ∈ top :: frames, T f.onFail := hframes ▸ hs.frames
      have htop := hmem top List.mem_cons_self
      have hrest : ∀ f ∈ frames, T f.onFail := fun f hf ↦ hmem f (List.mem_cons_of_mem _ hf)
      dsimp only
      split
      · exact .pure ⟨htop, hs.calls, hrest⟩
      · exact .pure ⟨hs.calls, fun f hf ↦
          (List.mem_cons.mp hf).elim (fun heq ↦ heq ▸ htop) (hrest f)⟩
  | posPush => exact .pure ⟨hs.calls, hs.frames⟩
  | dispatch table =>
    refine .bind fun b ↦ ?_
    dsimp only
    split
    · rename_i target htarget
      exact .pure ⟨hbranches target (List.mem_of_getElem? htarget), hs⟩
    · exact .pure trivial
  | call _ _ => cases hop
  | monitoredSwitch activated => exact .pure ⟨hbranches activated (List.mem_singleton_self _), hs⟩
  | lookup use child onHit onMemoFail =>
    simp only [perform]
    split
    · exact .pure ⟨hbranches onHit List.mem_cons_self, hs.calls, hs.frames⟩
    · exact .pure hs
    · exact .pure (hpush onMemoFail (hbranches onMemoFail (by simp [Opcode.branches])))
  | memoize use child =>
    simp only [perform]
    rcases hframes : s.frames with - | ⟨top, frames⟩
    · exact .pure trivial
    · refine .pure ⟨hs.calls, fun f hf ↦ hs.frames f ?_⟩
      rw [hframes]
      exact List.mem_cons_of_mem _ hf
  | memoizeFail use => exact .pure ⟨hs.calls, hs.frames⟩

variable (hp : p.Encloses T)
include hp

/-- A step does not lead out. -/
theorem step_enclosed (hpc : T s.pc) (hs : Waits T s) :
    Gives (σ := σ) (step p s) (Step.Enclosed T) := by
  unfold step
  split
  · rename_i instr hinstr
    have hsuccessors := hp.successors s.pc instr hpc hinstr
    have hperform : Gives (σ := σ) (perform instr.op instr.next s) (Effect.Enclosed T) :=
      gives_perform_enclosed (hp.noCall s.pc instr hpc hinstr)
        (fun j hj ↦ hsuccessors j (List.mem_append_right _ hj)) hs
    exact fun src ↦ (hperform src).step fun j hj ↦
      hsuccessors j (List.mem_append_left _ (Option.mem_toList.mpr hj))
  · exact .pure trivial

/-- Once a step has come to the set, a run executes nothing else, whether it succeeds or fails. -/
theorem executed_of_step (limit : Nat) (executed : Array InstrId) (src : σ)
    (hstep : (step p s src).1.Enclosed T) :
    ∀ i ∈ (runFrom p limit s executed src).1.executed, i ∈ executed.push s.pc ∨ T i := by
  induction limit generalizing s executed src with
  | zero => exact fun i hi ↦ .inl (Array.mem_push_of_mem _ hi)
  | succ limit ih =>
    intro i hi
    rw [runFrom] at hi
    rcases hnext : step p s src with ⟨s' | o | f, src'⟩
    · rw [hnext] at hstep hi
      obtain ⟨hpc, hs⟩ := hstep
      refine (ih _ _ (step_enclosed hp hpc hs src') i hi).elim (fun hmem ↦ ?_) .inr
      exact (Array.mem_push.mp hmem).imp_right fun heq ↦ by rwa [heq]
    · rw [hnext] at hi
      exact .inl hi
    · rw [hnext] at hi
      exact .inl hi

/-- A run from the set executes nothing else. -/
theorem executed_enclosed (limit : Nat) (executed : Array InstrId) (src : σ) (hpc : T s.pc)
    (hs : Waits T s) : ∀ i ∈ (runFrom p limit s executed src).1.executed, i ∈ executed ∨ T i := by
  intro i hi
  refine (executed_of_step hp limit executed src (step_enclosed hp hpc hs src) i hi).elim
    (fun hmem ↦ ?_) .inr
  exact (Array.mem_push.mp hmem).imp_right fun heq ↦ by rwa [heq]

end Machine

end ParsingMachine
