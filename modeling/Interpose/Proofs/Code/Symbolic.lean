import Interpose.Proofs.Code.Boundaries
import Interpose.Proofs.Code.Listing
/-!
# Symbolic code

What decoding has before it expands subroutines (`CodeAttribute.Symbolic`): the items that were read, with
labels in place of offsets, behind the marks of their offsets. There every label is placed once and every
label that is named is placed (`Symbolic.sound`), and labels stand in the order of their offsets
(`Symbolic.place_lt_iff`).
-/

namespace Interpose

/-- What is without repetitions under a partial function stands at one place. -/
theorem filterMap_index_unique {α β : Type} {f : α → Option β} {xs : List α} (h : (xs.filterMap f).Nodup) {i j : Nat}
    {x y : α} {b : β} (hi : xs[i]? = some x) (hx : f x = some b) (hj : xs[j]? = some y)
    (hy : f y = some b) : i = j := by
  have apart : ∀ {i j : Nat} {x y : α}, xs[i]? = some x → f x = some b → xs[j]? = some y →
      f y = some b → ¬ i < j := by
    intro i j x y hi hx hj hy hlt
    obtain ⟨hi', rfl⟩ := List.getElem?_eq_some_iff.1 hi
    obtain ⟨hj', rfl⟩ := List.getElem?_eq_some_iff.1 hj
    exact List.pairwise_iff_getElem.1 (List.pairwise_filterMap.1 h) i j hi' hj' hlt b hx b hy rfl
  have := apart hi hx hj hy
  have := apart hj hy hi hx
  omega

/-! ## Marks in front of items -/

def itemRow (labels : OffsetLabels) (lines : Std.TreeMap Nat (List UInt16)) (x : Nat × Item) :
    List Item :=
  marksAt labels lines x.1 ++ [x.2.retarget labels.of]

namespace CodeAttribute

variable {c : CodeAttribute} {items : List (Nat × Item)} {placed : List Item}

def offsetLabels (c : CodeAttribute) (items : List (Nat × Item)) : OffsetLabels :=
  numberOffsets (c.mentionedOffsets items)

def ranges (c : CodeAttribute) (items : List (Nat × Item)) : List TryCatch :=
  c.exceptions.map fun e =>
    { start := (c.offsetLabels items).of e.startPc.toNat
      stop := (c.offsetLabels items).of e.endPc.toNat
      handler := (c.offsetLabels items).of e.handlerPc.toNat, catchType := e.catchType }

def namedLocals (c : CodeAttribute) (items : List (Nat × Item)) (entries : List LocalEntry) :
    List LocalVar :=
  entries.map fun e =>
    { start := (c.offsetLabels items).of e.startPc.toNat, stop := (c.offsetLabels items).of e.endPc
      name := e.name, type := e.type, slot := e.slot }

def straightBody (c : CodeAttribute) (items : List (Nat × Item)) (placed : List Item) : Body where
  insns := placed.filterMap Item.insn?
  tryCatch := c.ranges items
  locals := c.namedLocals items c.localEntries
  localTypes := c.namedLocals items c.localTypeEntries
  maxStack := c.maxStack
  maxLocals := c.maxLocals
  declaredFrames := c.declaredFrames.map fun x => ((c.offsetLabels items).of x.1, x.2)
  nextLabel := (c.offsetLabels items).size

/-- The items are read from the code, and with their marks they are symbolic code. -/
structure Symbolic (c : CodeAttribute) (items : List (Nat × Item)) (placed : List Item) : Prop where
  read : readItems c.code = .ok items
  marked : placeMarks (items.map fun x => (x.1, x.2.retarget (c.offsetLabels items).of)) c.code.length
    (c.offsetLabels items) (linesByOffset c.lineEntries) = .ok placed

/-- A body is decoded from symbolic code, in which subroutines are expanded if there are any. -/
theorem decode_eq_ok {b : Body} : decode c = .ok b ↔ ∃ items placed, c.Symbolic items placed ∧
    ((placed.any Item.isSubroutine = false ∧ b = c.straightBody items placed) ∨
      placed.any Item.isSubroutine = true ∧ ∃ e,
        Subroutine.expand placed (c.ranges items) (c.offsetLabels items).size = .ok e ∧
        b = { c.straightBody items placed with
          insns := e.insns, tryCatch := e.tryCatch, nextLabel := e.nextLabel, declaredFrames := [] }) := by
  unfold decode
  constructor
  · intro h
    obtain ⟨items, hitems, h⟩ := bind_eq_ok.1 h
    obtain ⟨placed, hplaced, h⟩ := bind_eq_ok.1 h
    refine ⟨items, placed, ⟨hitems, hplaced⟩, ?_⟩
    cases hany : placed.any Item.isSubroutine with
    | false =>
      simp only [hany, Bool.false_eq_true, if_false] at h
      cases h
      exact .inl ⟨rfl, rfl⟩
    | true =>
      simp only [hany, if_true] at h
      obtain ⟨e, he, h⟩ := bind_eq_ok.1 h
      cases h
      exact .inr ⟨rfl, e, he, rfl⟩
  · rintro ⟨items, placed, ⟨hitems, hplaced⟩, h⟩
    refine bind_eq_ok.2 ⟨items, hitems, bind_eq_ok.2 ⟨placed, hplaced, ?_⟩⟩
    rcases h with ⟨hany, rfl⟩ | ⟨hany, e, he, rfl⟩
    · simp only [hany, Bool.false_eq_true, if_false]
      rfl
    · simp only [hany, if_true]
      exact bind_eq_ok.2 ⟨e, he, rfl⟩

namespace Symbolic

variable (h : c.Symbolic items placed)
include h

/-- Symbolic code is made of rows. -/
theorem placed_eq : placed = items.flatMap (itemRow (c.offsetLabels items) (linesByOffset c.lineEntries))
    ++ (c.offsetLabels items)[c.code.length]?.toList.map fun l => .insn (.label l) := by
  have hmarked := h.marked
  unfold placeMarks at hmarked
  simp only at hmarked
  split at hmarked
  · cases hmarked
  · cases hmarked
    rw [List.flatMap_map]
    rfl

/-- What has a label is the offset of an item, or the code ends there. -/
theorem known {o : Nat} {l : Label} (hl : (c.offsetLabels items)[o]? = some l) :
    (∃ x, (o, x) ∈ items) ∨ o = c.code.length := by
  have hmarked := h.marked
  unfold placeMarks at hmarked
  simp only at hmarked
  split at hmarked
  · cases hmarked
  · rename_i hknown
    have hkey : o ∈ (c.offsetLabels items).keys := by
      rw [Std.TreeMap.mem_keys, Std.TreeMap.mem_iff_isSome_getElem?, hl]
      rfl
    have hno := List.find?_eq_none.1 hknown o hkey
    rw [Bool.and_eq_true, Bool.not_eq_true', bne_iff_ne, not_and_or, ne_eq, not_not,
      Bool.not_eq_false, Std.TreeSet.contains_ofList, List.map_map] at hno
    refine hno.imp_left fun hstart => ?_
    obtain ⟨x, hx, rfl⟩ := List.mem_map.1 (List.contains_iff_mem.1 hstart)
    exact ⟨x.2, hx⟩

theorem run : c.code.Run 0 items := readItems_run h.read

theorem lt_length {x : Nat × Item} (hx : x ∈ items) : x.1 < c.code.length :=
  (h.run.start .first x hx).2

/-- The labels that are placed, in order. -/
theorem labels_eq : placed.filterMap Item.placed =
    (items.map (·.1) ++ [c.code.length]).filterMap ((c.offsetLabels items)[·]?) := by
  have real : ∀ x ∈ items, (x.2.retarget (c.offsetLabels items).of).placed = none := by
    intro x hx
    have hreal := readItems_real h.read x hx
    obtain ⟨o, x⟩ := x
    cases x with
    | insn i => cases i <;> first | rfl | cases hreal
    | jsr _ | ret _ => rfl
  have marks : ∀ o, (marksAt (c.offsetLabels items) (linesByOffset c.lineEntries) o).filterMap
      Item.placed = (c.offsetLabels items)[o]?.toList := by
    intro o
    unfold marksAt
    rw [List.filterMap_append, List.filterMap_map, List.filterMap_map]
    simp [Function.comp_def, Item.placed, Insn.placed]
  rw [h.placed_eq, List.filterMap_append, List.filterMap_append, List.filterMap_flatMap,
    List.filterMap_map, List.filterMap_map]
  congr 1
  · rw [List.filterMap_eq_flatMap_toList]
    refine List.flatMap_congr fun x hx => ?_
    unfold itemRow
    rw [List.filterMap_append, marks, List.filterMap_cons_none (real x hx), List.filterMap_nil,
      List.append_nil]
    rfl
  · rw [List.filterMap_cons, List.filterMap_nil]
    cases (c.offsetLabels items)[c.code.length]? <;> rfl

/-- The offsets of items and the end of the code ascend. -/
theorem ascending : (items.map (·.1) ++ [c.code.length]).Pairwise (· < ·) := by
  refine List.pairwise_append.2 ⟨h.run.ascending, List.pairwise_singleton _ _, ?_⟩
  intro o ho e he
  obtain ⟨x, hx, rfl⟩ := List.mem_map.1 ho
  rw [List.mem_singleton.1 he]
  exact h.lt_length hx

/-- Every label is placed once. -/
theorem nodup : (placed.filterMap Item.placed).Nodup := by
  rw [h.labels_eq]
  refine List.pairwise_filterMap.2 (h.ascending.imp fun hlt l hl l' hl' he => ?_)
  subst he
  exact Nat.ne_of_lt hlt ((numbered_numberOffsets _).inj _ _ _ hl hl')

/-- The label of an offset is placed. -/
theorem label_placed {o : Nat} {l : Label} (hl : (c.offsetLabels items)[o]? = some l) :
    l ∈ placed.filterMap Item.placed := by
  rw [h.labels_eq]
  refine List.mem_filterMap.2 ⟨o, ?_, hl⟩
  rcases h.known hl with ⟨x, hx⟩ | rfl
  · exact List.mem_append_left _ (List.mem_map.2 ⟨_, hx, rfl⟩)
  · exact List.mem_append_right _ (List.mem_singleton_self _)

omit h in
/-- An offset that is named has a label. -/
theorem label_of_mentioned {o : Nat} (ho : o ∈ c.mentionedOffsets items) :
    (c.offsetLabels items)[o]? = some ((c.offsetLabels items).of o) := by
  obtain ⟨l, hl⟩ := numberOffsets_isSome ho
  unfold CodeAttribute.offsetLabels OffsetLabels.of
  rw [Std.TreeMap.getD_eq_getD_getElem?, hl]
  rfl

omit h in
theorem mentioned_of_item {x : Nat × Item} (hx : x ∈ items) {o : Nat} (ho : o ∈ x.2.mentions) :
    o ∈ c.mentionedOffsets items :=
  List.mem_append_left _ (List.mem_append_left _ (List.mem_flatMap.2 ⟨x, hx, ho⟩))

omit h in
theorem mentioned_of_exception {e : ExceptionEntry} (he : e ∈ c.exceptions) {o : Nat}
    (ho : o ∈ [e.startPc.toNat, e.endPc.toNat, e.handlerPc.toNat]) : o ∈ c.mentionedOffsets items :=
  List.mem_append_left _ (List.mem_append_right _ (List.mem_flatMap.2 ⟨e, he, ho⟩))

/-- Labels stand in the order of their offsets. -/
theorem place_lt_iff {o o' i i' : Nat} {l l' : Label} (hl : (c.offsetLabels items)[o]? = some l)
    (hl' : (c.offsetLabels items)[o']? = some l') (hi : placed[i]? = some (.insn (.label l)))
    (hi' : placed[i']? = some (.insn (.label l'))) : i < i' ↔ o < o' := by
  have inj := (numbered_numberOffsets (c.mentionedOffsets items)).inj
  have ordered : (placed.filterMap Item.placed).Pairwise fun l l' =>
      ∃ o o' : Nat, (c.offsetLabels items)[o]? = some l ∧
        (c.offsetLabels items)[o']? = some l' ∧ o < o' := by
    rw [h.labels_eq]
    exact List.pairwise_filterMap.2 (h.ascending.imp fun hlt l hl l' hl' => ⟨_, _, hl, hl', hlt⟩)
  have forward : ∀ {o o' i i' : Nat} {l l' : Label}, (c.offsetLabels items)[o]? = some l →
      (c.offsetLabels items)[o']? = some l' → placed[i]? = some (.insn (.label l)) →
      placed[i']? = some (.insn (.label l')) → i < i' → o < o' := by
    intro o o' i i' l l' hl hl' hi hi' hlt
    obtain ⟨hi, hx⟩ := List.getElem?_eq_some_iff.1 hi
    obtain ⟨hi', hx'⟩ := List.getElem?_eq_some_iff.1 hi'
    obtain ⟨a, a', ha, ha', hlt⟩ := List.pairwise_iff_getElem.1 (List.pairwise_filterMap.1 ordered)
      i i' hi hi' hlt l (by rw [hx]; rfl) l' (by rw [hx']; rfl)
    rwa [inj _ _ _ hl ha, inj _ _ _ hl' ha']
  refine ⟨forward hl hl' hi hi', fun hlt => ?_⟩
  rcases Nat.lt_trichotomy i i' with hii | rfl | hii
  · exact hii
  · rw [hi] at hi'
    cases hi'
    exact absurd (inj _ _ _ hl hl') (Nat.ne_of_lt hlt)
  · exact absurd (forward hl' hl hi' hi hii) (Nat.lt_asymm hlt)

end Symbolic

/-- The code is symbolic if it can be read and an instruction starts at every offset that is named, or
the code ends there. -/
theorem symbolic_of_known (hread : readItems c.code = .ok items)
    (hknown : ∀ o ∈ c.mentionedOffsets items, (∃ x, (o, x) ∈ items) ∨ o = c.code.length) :
    ∃ placed, c.Symbolic items placed := by
  have hmarked : ∃ placed, placeMarks (items.map fun x => (x.1, x.2.retarget (c.offsetLabels items).of))
      c.code.length (c.offsetLabels items) (linesByOffset c.lineEntries) = .ok placed := by
    unfold placeMarks
    simp only
    split
    case h_1 o hfound =>
      have hmem := mem_of_numberOffsets (Std.TreeMap.mem_keys.1 (List.mem_of_find?_eq_some hfound))
      have hbad := List.find?_some hfound
      rw [Bool.and_eq_true, Bool.not_eq_true', bne_iff_ne, ne_eq, Std.TreeSet.contains_ofList,
        List.map_map] at hbad
      obtain ⟨x, hx⟩ := (hknown o hmem).resolve_right hbad.2
      have hstart : o ∈ items.map (·.1) := List.mem_map.2 ⟨_, hx, rfl⟩
      exact absurd (List.contains_iff_mem.2 hstart) (Bool.eq_false_iff.1 hbad.1)
    case h_2 => exact ⟨_, rfl⟩
  exact hmarked.imp fun placed hplaced => ⟨hread, hplaced⟩

end CodeAttribute

/-! ## What is handed on -/

namespace Subroutine

/-- Items and protected ranges as they come out of code: every label is placed once and numbered below
the next one, and every label that is named is placed. -/
structure Sound (items : List Item) (tryCatch : List TryCatch) (next : Label) : Prop where
  nodup : (items.filterMap Item.placed).Nodup
  below : ∀ l ∈ items.filterMap Item.placed, l < next
  mentions : ∀ x ∈ items, ∀ l ∈ x.mentions, l ∈ items.filterMap Item.placed
  ranges : ∀ t ∈ tryCatch, ∀ l ∈ [t.start, t.stop, t.handler], l ∈ items.filterMap Item.placed
  usual : ∀ x ∈ items, Cursor.Usual x

end Subroutine

theorem Item.mentions_retarget (f : Label → Label) (x : Item) :
    (x.retarget f).mentions = x.mentions.map f := by
  cases x with
  | insn i => exact i.mentions_retarget f
  | jsr _ | ret _ => rfl

namespace CodeAttribute

variable {c : CodeAttribute} {items : List (Nat × Item)} {placed : List Item}

theorem Symbolic.sound (h : c.Symbolic items placed) :
    Subroutine.Sound placed (c.ranges items) (c.offsetLabels items).size where
  nodup := h.nodup
  below l hl := by
    rw [h.labels_eq] at hl
    obtain ⟨o, -, ho⟩ := List.mem_filterMap.1 hl
    exact (numbered_numberOffsets _).below o l ho
  mentions x hx l hl := by
    rcases mem_placeMarks h.marked hx with ⟨y, hy, rfl⟩ | ⟨o, l', -, rfl⟩ | ⟨n, rfl⟩
    · obtain ⟨z, hz, rfl⟩ := List.mem_map.1 hy
      rw [Item.mentions_retarget] at hl
      obtain ⟨o, ho, rfl⟩ := List.mem_map.1 hl
      exact h.label_placed (label_of_mentioned (mentioned_of_item hz ho))
    · exact absurd hl List.not_mem_nil
    · exact absurd hl List.not_mem_nil
  ranges t ht l hl := by
    obtain ⟨e, he, rfl⟩ := List.mem_map.1 ht
    have named {o : Nat} (ho : o ∈ [e.startPc.toNat, e.endPc.toNat, e.handlerPc.toNat]) :=
      h.label_placed (label_of_mentioned (@mentioned_of_exception c items e he o ho))
    simp only [List.mem_cons, List.not_mem_nil, or_false] at hl
    rcases hl with rfl | rfl | rfl
    · exact named (List.mem_cons_self ..)
    · exact named (List.mem_cons_of_mem _ (List.mem_cons_self ..))
    · exact named (List.mem_cons_of_mem _ (List.mem_cons_of_mem _ (List.mem_singleton_self _)))
  usual x hx := by
    rcases mem_placeMarks h.marked hx with ⟨y, hy, rfl⟩ | ⟨o, l', -, rfl⟩ | ⟨n, rfl⟩
    · obtain ⟨z, hz, rfl⟩ := List.mem_map.1 hy
      have husual := readItems_gives Cursor.item_usual h.read z hz
      obtain ⟨o, z⟩ := z
      cases z with
      | insn i =>
        rintro _ ⟨⟩
        exact Insn.standard_retarget _ (husual i rfl)
      | jsr _ | ret _ => nofun
    · exact Cursor.usual_insn trivial
    · exact Cursor.usual_insn trivial

end CodeAttribute

end Interpose
