import ParsingMachine.Program.Listing
import ParsingMachine.Proofs.Byte.Reading

/-!
# Written jump tables can be read back

A jump table is written as routes, each a set of bytes and the target that they share, and the
target for end of input. No set is written with a space, so the fields between spaces are the routes
(`readDispatch?_dispatchPieces`). A byte is in the set of one route only, that of its target
(`filter_routes`), and so the table is found again (`tableOf_routesOf`).

Reading is defined here and goes with the text and not with the table: a field is a set of bytes, an
equals sign and a reference, and the last field is the target for end of input. That the writer and
the reader fit together has two parts. The text is a list of fields, each written by itself, so it
is enough to divide it and to read every field; and a field begins with a set, which the reader of
sets reads whatever comes behind it. A set may contain any byte, the equals sign and the space too.
It ends with a bracket, which is guarded inside of it, and a space is written in hexadecimal digits,
so neither is taken for a separator.

Routes are a second form of a table, and lose nothing if the table is full. They come in the order
in which their targets first occur, and this order plays no part in finding the table again, since
no byte is in two sets.

Byte classes are written as the set of a route is, so what is said of sets serves both.

## Main statements

* `filter_routes`: a byte is in the set of one route, which leads to the target of the byte.
* `tableOf_routesOf`: a table is found again from its routes.
* `readDispatch?_dispatchPieces`: the routes are found again from the text.
* `sets_and_tables_of_text`: byte classes and jump tables are found again from their texts.
-/

namespace ParsingMachine

variable {table : List InstrId}

/-! ### Reading -/

/-- The instruction that a reference names. -/
def readRef? : List Char → Option InstrId
  | 'L' :: digits => some (Nat.ofDigitChars 10 digits 0)
  | _ => none

/-- A set of bytes and its target. -/
def readRoute? (field : List Char) : Option (ByteSet × InstrId) :=
  match readSet field with
  | some (set, '=' :: target) => (readRef? target).map (set, ·)
  | _ => none

/-- The routes of a jump table and the target for end of input, each in a field of its own. -/
def readRoutes? : List (List Char) → Option (List (ByteSet × InstrId) × InstrId)
  | [] => none
  | ['e' :: 'o' :: 'f' :: '=' :: target] => (readRef? target).map ([], ·)
  | field :: fields =>
    match readRoute? field, readRoutes? fields with
    | some route, some (routes, last) => some (route :: routes, last)
    | _, _ => none

/-- The routes of a written jump table and the target for end of input. -/
def readDispatch? (text : String) : Option (List (ByteSet × InstrId) × InstrId) :=
  readRoutes? (text.toList.splitOn ' ').tail

/-- The jump table with given routes. -/
def tableOf (routes : List (ByteSet × InstrId)) (last : InstrId) : List InstrId :=
  allBytes.filterMap (fun b ↦ (routes.find? fun route ↦ route.1.contains b).map Prod.snd) ++ [last]

/-! ### The routes of a table -/

/-- Each target of a byte with the set of its bytes. -/
def routesOf (table : List InstrId) : List (ByteSet × InstrId) :=
  (table.take endSlot).eraseDups.map fun target ↦ (slotsOf table target, target)

theorem getElem?_allBytes (b : UInt8) : allBytes[b.toNat]? = some b := by
  rw [allBytes, List.getElem?_map, List.getElem?_range b.toNat_lt, Option.map_some,
    UInt8.ofNat_toNat]

/-- The bytes of a target are those for which the table has the target. -/
theorem contains_slotsOf (table : List InstrId) (target : InstrId) (b : UInt8) :
    (slotsOf table target).contains b = true ↔ table[b.toNat]? = some target := by
  rw [slotsOf, ByteSet.contains_ofList, List.contains_iff_mem, List.mem_filterMap]
  constructor
  · rintro ⟨⟨b', entry⟩, hmem, hentry⟩
    obtain ⟨rfl, rfl⟩ : entry = target ∧ b' = b := by simpa using hentry
    obtain ⟨n, hn⟩ := List.mem_iff_getElem?.mp hmem
    obtain ⟨hb, htarget⟩ := List.getElem?_zip_eq_some.mp hn
    -- a byte stands at its own place
    obtain ⟨hlt, heq⟩ := List.getElem?_eq_some_iff.mp hb
    have hplace : (UInt8.ofNat n).toNat = n :=
      UInt8.toNat_ofNat_of_lt' (by simpa [allBytes] using hlt)
    simp only [allBytes, List.getElem_map, List.getElem_range] at heq
    rwa [← heq, hplace]
  · intro htarget
    refine ⟨(b, target), List.mem_of_getElem? (i := b.toNat) ?_, if_pos rfl⟩
    exact List.getElem?_zip_eq_some.mpr ⟨getElem?_allBytes b, htarget⟩

/-- A target has one route. -/
theorem nodup_eraseDups (xs : List InstrId) : xs.eraseDups.Nodup := by
  induction h : xs.length using Nat.strongRecOn generalizing xs with
  | ind n ih =>
    cases xs with
    | nil => exact List.nodup_nil
    | cons x xs =>
      rw [List.eraseDups_cons, List.nodup_cons, List.mem_eraseDups]
      refine ⟨by simp, ih _ ?_ _ rfl⟩
      rw [← h, List.length_cons]
      exact Nat.lt_succ_of_le (List.length_filter_le _ xs)

/-- A byte is in the set of one route, which leads to the target of the byte. -/
theorem filter_routes (htable : table.length = slotCount) (b : UInt8) :
    ∃ target, table[b.toNat]? = some target ∧
      (routesOf table).filter (fun route ↦ route.1.contains b) =
        [(slotsOf table target, target)] := by
  have hb : b.toNat < endSlot := b.toNat_lt
  obtain ⟨target, htarget⟩ : ∃ target, table[b.toNat]? = some target :=
    ⟨_, List.getElem?_eq_getElem (by rw [htable]; exact Nat.lt_succ_of_lt hb)⟩
  have hmem : target ∈ (table.take endSlot).eraseDups := by
    refine List.mem_eraseDups.mpr (List.mem_of_getElem? (i := b.toNat) ?_)
    rw [List.getElem?_take_of_lt hb, htarget]
  have hcontains (other : InstrId) : (slotsOf table other).contains b = (other == target) := by
    rw [Bool.eq_iff_iff, contains_slotsOf, htarget, Option.some.injEq, beq_iff_eq, eq_comm]
  refine ⟨target, htarget, ?_⟩
  rw [routesOf, List.filter_map]
  simp only [Function.comp_def, hcontains, List.filter_beq]
  rw [(nodup_eraseDups _).count, if_pos hmem]
  rfl

theorem filterMap_getElem?_range {α : Type} (xs : List α) (n : Nat) :
    (List.range n).filterMap (xs[·]?) = xs.take n := by
  induction n with
  | zero => rfl
  | succ n ih =>
    rw [List.range_succ, List.filterMap_append, ih, List.take_add_one]
    cases h : xs[n]? <;> simp [h]

/-- A full table consists of the targets of the bytes and the target for end of input. -/
theorem take_append_endSlot (htable : table.length = slotCount) :
    table.take endSlot ++ table[endSlot]?.toList = table := by
  have hend : endSlot < table.length := by
    rw [htable]
    decide
  have hdrop : table.drop endSlot = table[endSlot]?.toList := by
    have hnil : table.drop (endSlot + 1) = [] := List.drop_eq_nil_of_le (Nat.le_of_eq htable)
    rw [List.drop_eq_getElem_cons hend, List.getElem?_eq_getElem hend, hnil]
    rfl
  rw [← hdrop, List.take_append_drop]

/-- A table is found again from its routes. -/
theorem tableOf_routesOf (htable : table.length = slotCount) {last : InstrId}
    (hlast : table[endSlot]? = some last) : tableOf (routesOf table) last = table := by
  have hfind (b : UInt8) :
      ((routesOf table).find? fun route ↦ route.1.contains b).map Prod.snd = table[b.toNat]? := by
    obtain ⟨target, htarget, hfilter⟩ := filter_routes htable b
    rw [← List.head?_filter, hfilter, htarget]
    rfl
  have hplaces : allBytes.filterMap (fun b ↦ table[b.toNat]?) = table.take endSlot := by
    rw [allBytes, List.filterMap_map, ← filterMap_getElem?_range]
    refine List.filterMap_congr fun n hn ↦ ?_
    rw [Function.comp, UInt8.toNat_ofNat_of_lt' (List.mem_range.mp hn)]
  rw [tableOf]
  simp only [hfind]
  rw [hplaces, ← Option.toList_some, ← hlast, take_append_endSlot htable]

/-! ### The text of a table -/

/-- A route as it is written. -/
def routeText (route : ByteSet × InstrId) : String :=
  route.1.text ++ "=" ++ Piece.refText route.2

/-- What the text of a jump table says. -/
structure RoutedBy (text : String) (table : List InstrId) (routes : List (ByteSet × InstrId))
    (last : InstrId) : Prop where
  /-- The text consists of the routes and the target for end of input. -/
  text_eq : text = "dispatch" ++ String.join (routes.map (" " ++ routeText ·)) ++
    " eof=" ++ Piece.refText last
  /-- A byte is in the set of exactly one route, and that leads to the target of the byte. -/
  named_once : ∀ b : UInt8, ∃ target, table[b.toNat]? = some target ∧
    (routes.filter fun route ↦ route.1.contains b).map Prod.snd = [target]
  /-- The last target is the one for end of input. -/
  last_eq : table[endSlot]? = some last

theorem renderAll_dispatchPieces {last : InstrId} (hlast : table[endSlot]? = some last) :
    Piece.renderAll (dispatchPieces table) =
      "dispatch" ++ String.join ((routesOf table).map (" " ++ routeText ·)) ++
        " eof=" ++ Piece.refText last := by
  have hroutes (targets : List InstrId) :
      String.join ((targets.flatMap fun target ↦
        [Piece.text (" " ++ (slotsOf table target).text ++ "="), .ref target]).map Piece.render) =
      String.join ((targets.map fun target ↦ (slotsOf table target, target)).map
        (" " ++ routeText ·)) := by
    induction targets with
    | nil => rfl
    | cons target targets ih =>
      rw [List.flatMap_cons, List.map_append, String.join_append, ih]
      simp [Piece.render, routeText, String.append_assoc]
  rw [Piece.renderAll, dispatchPieces, hlast, routesOf, List.map_append, String.join_append,
    List.map_cons, String.join_cons, hroutes]
  simp [Piece.render, String.append_assoc]

/-- What is written for a full table says what the table says. -/
theorem routedBy_dispatchPieces (htable : table.length = slotCount) {last : InstrId}
    (hlast : table[endSlot]? = some last) :
    RoutedBy (Piece.renderAll (dispatchPieces table)) table (routesOf table) last where
  text_eq := renderAll_dispatchPieces hlast
  named_once b := by
    obtain ⟨target, htarget, hfilter⟩ := filter_routes htable b
    exact ⟨target, htarget, congrArg _ hfilter⟩
  last_eq := hlast

/-! ### Reading the text -/

/-- A reference is read back. -/
theorem readRef?_refText (target : InstrId) :
    readRef? (Piece.refText target).toList = some target := by
  have hchars : (Piece.refText target).toList = 'L' :: Nat.toDigits 10 target := by
    simp [Piece.refText]
  rw [hchars, readRef?, Nat.ofDigitChars_toDigits (by decide) (by decide)]

/-- Routes are read back. -/
theorem readRoutes?_append (routes : List (ByteSet × InstrId)) (last : InstrId) :
    readRoutes? (routes.map (fun route ↦ (routeText route).toList) ++
      ["eof=".toList ++ (Piece.refText last).toList]) = some (routes, last) := by
  induction routes with
  | nil =>
    have hend : "eof=".toList ++ (Piece.refText last).toList =
        'e' :: 'o' :: 'f' :: '=' :: (Piece.refText last).toList := rfl
    rw [List.map_nil, List.nil_append, hend, readRoutes?, readRef?_refText]
    rfl
  | cons route routes ih =>
    have hchars : (routeText route).toList =
        route.1.chars ++ '=' :: (Piece.refText route.2).toList := by
      simp [routeText, ByteSet.text]
    have hroute : readRoute? (routeText route).toList = some route := by
      rw [readRoute?, hchars, readSet_chars]
      simp only [readRef?_refText, Option.map_some]
    have hfirst (target : List Char) : (routeText route).toList ≠ 'e' :: target := by
      rw [hchars, ByteSet.chars]
      simp
    rw [List.map_cons, List.cons_append, readRoutes?, hroute, ih]
    exact fun target h _ ↦ hfirst _ h

/-- What no field holds divides the fields. -/
theorem splitOn_append_flatMap {sep : Char} {first : List Char} {fields : List (List Char)}
    (hfirst : sep ∉ first) (hfields : ∀ field ∈ fields, sep ∉ field) :
    (first ++ fields.flatMap (sep :: ·)).splitOn sep = first :: fields := by
  induction fields generalizing first with
  | nil => rw [List.flatMap_nil, List.append_nil, List.splitOn_eq_singleton hfirst]
  | cons field fields ih =>
    obtain ⟨hfield, hrest⟩ := List.forall_mem_cons.mp hfields
    rw [List.flatMap_cons, List.cons_append, List.splitOn_append_cons_self,
      List.splitOn_eq_singleton hfirst, ih hfield hrest]
    rfl

/-- A set is written without spaces. -/
theorem space_not_mem_chars (s : ByteSet) : ' ' ∉ s.chars := by
  have hescape : ∀ b ∈ allBytes, ' ' ∉ EscapeStyle.byteClass.escape b := by
    decide +kernel
  have hbyte (b : UInt8) : ' ' ∉ EscapeStyle.byteClass.escape b :=
    hescape b (ByteSet.mem_allBytes b)
  have hrun (run : UInt8 × UInt8) : ' ' ∉ ByteSet.runChars run := by
    unfold ByteSet.runChars
    split <;> simp [hbyte]
  simp [ByteSet.chars, hrun]

theorem space_not_mem_refText (target : InstrId) : ' ' ∉ (Piece.refText target).toList := by
  have hdigits : ' ' ∉ Nat.toDigits 10 target := fun h ↦
    absurd (Nat.isDigit_of_mem_toDigits (by decide) (by decide) h) (by decide)
  simpa [Piece.refText] using hdigits

/-- The routes and the target for end of input are read back from the text of a table. -/
theorem readDispatch?_dispatchPieces {last : InstrId} (hlast : table[endSlot]? = some last) :
    readDispatch? (Piece.renderAll (dispatchPieces table)) = some (routesOf table, last) := by
  have hfields : ∀ field ∈ (routesOf table).map (fun route ↦ (routeText route).toList) ++
      ["eof=".toList ++ (Piece.refText last).toList], ' ' ∉ field := by
    intro field hfield
    rcases List.mem_append.mp hfield with hfield | hfield
    · obtain ⟨route, -, rfl⟩ := List.mem_map.mp hfield
      simp [routeText, ByteSet.text, space_not_mem_chars, space_not_mem_refText]
    · rw [List.mem_singleton.mp hfield]
      simp [space_not_mem_refText]
  have htext : (Piece.renderAll (dispatchPieces table)).toList = "dispatch".toList ++
      ((routesOf table).map (fun route ↦ (routeText route).toList) ++
        ["eof=".toList ++ (Piece.refText last).toList]).flatMap (' ' :: ·) := by
    rw [renderAll_dispatchPieces hlast]
    simp [String.toList_join, List.flatMap_map]
  rw [readDispatch?, htext, splitOn_append_flatMap (by decide) hfields]
  exact readRoutes?_append _ last

/-- A jump table read back from its text. -/
def dispatchTable? (text : String) : Option (List InstrId) :=
  (readDispatch? text).map fun (routes, last) ↦ tableOf routes last

/-- A byte class read back from its text. -/
def ByteSet.ofText? (text : String) : Option ByteSet :=
  match readSet text.toList with
  | some (set, []) => some set
  | _ => none

/-- A byte class is read back from its text. -/
theorem ByteSet.ofText?_text (s : ByteSet) : ofText? s.text = some s := by
  have h := readSet_chars s []
  rw [List.append_nil] at h
  rw [ofText?, text, String.toList_ofList, h]

/-- Byte classes and jump tables are found again from their texts, so no two are written alike. -/
theorem sets_and_tables_of_text :
    (∀ s : ByteSet, ByteSet.ofText? s.text = some s) ∧
      (∀ s t : ByteSet, s.text = t.text → s = t) ∧
      ∀ table : List InstrId, table.length = slotCount →
        dispatchTable? (Piece.renderAll (dispatchPieces table)) = some table ∧
          ∃ routes last, RoutedBy (Piece.renderAll (dispatchPieces table)) table routes last := by
  refine ⟨ByteSet.ofText?_text, fun s t h ↦ ?_, fun table htable ↦ ?_⟩
  · have hs := ByteSet.ofText?_text s
    rw [h, ByteSet.ofText?_text] at hs
    exact (Option.some.inj hs).symm
  · obtain ⟨last, hlast⟩ : ∃ last, table[endSlot]? = some last :=
      ⟨_, List.getElem?_eq_getElem (by rw [htable]; decide)⟩
    refine ⟨?_, _, last, routedBy_dispatchPieces htable hlast⟩
    rw [dispatchTable?, readDispatch?_dispatchPieces hlast]
    exact congrArg some (tableOf_routesOf htable hlast)

theorem sets_and_tables_of_text_threeTargets :
    let table := List.replicate 45 4 ++ List.replicate 49 7 ++ List.replicate 162 4 ++ [9]
    table.length = slotCount ∧
      dispatchTable? (Piece.renderAll (dispatchPieces table)) = some table := by
  intro table
  have htable : table.length = slotCount := by
    simp only [table, List.length_append, List.length_replicate, List.length_singleton]
    rfl
  exact ⟨htable, (sets_and_tables_of_text.2.2 table htable).1⟩

end ParsingMachine
