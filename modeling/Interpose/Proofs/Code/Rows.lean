import Interpose.Proofs.Code.RoundTrip
/-!
# Rows of decoded code

Decoded code is made of rows: an instruction with the marks in front of it, first the label of its offset
and then its source lines (`decode_rows`). A label stands for one offset only, and its place is the start
of the row at that offset (`Decoded.lastPlace`).
-/

namespace Interpose

/-! ## Labels of offsets -/

structure Numbered (labels : OffsetLabels) : Prop where
  below : ∀ (o : Nat) (l : Label), labels[o]? = some l → l < labels.size
  inj : ∀ (o o' : Nat) (l : Label), labels[o]? = some l → labels[o']? = some l → o = o'

theorem Numbered.insert {labels : OffsetLabels} (h : Numbered labels) (next : Nat) :
    Numbered (labels.insertIfNew next labels.size) := by
  by_cases hnew : next ∈ labels
  · have same : ∀ o : Nat, (labels.insertIfNew next labels.size)[o]? = labels[o]? := by
      intro o
      rw [Std.TreeMap.getElem?_insertIfNew, if_neg (fun e => e.2 hnew)]
    refine ⟨fun o l ho => ?_, fun o o' l ho ho' => h.inj o o' l (same o ▸ ho) (same o' ▸ ho')⟩
    rw [Std.TreeMap.size_insertIfNew, if_pos hnew]
    exact h.below o l (same o ▸ ho)
  · have each : ∀ (o : Nat) (l : Label), (labels.insertIfNew next labels.size)[o]? = some l →
        (o = next ∧ l = labels.size) ∨ labels[o]? = some l := by
      intro o l ho
      rw [Std.TreeMap.getElem?_insertIfNew] at ho
      split at ho
      · rename_i he
        exact .inl ⟨(Std.compare_eq_iff_eq.1 he.1).symm, (Option.some.inj ho).symm⟩
      · exact .inr ho
    refine ⟨fun o l ho => ?_, fun o o' l ho ho' => ?_⟩
    · rw [Std.TreeMap.size_insertIfNew, if_neg hnew]
      rcases each o l ho with ⟨-, rfl⟩ | ho
      · exact Nat.lt_succ_self _
      · exact Nat.lt_succ_of_lt (h.below o l ho)
    · rcases each o l ho with ⟨hnext, hl⟩ | hold
      · rcases each o' l ho' with ⟨hnext', -⟩ | hold'
        · rw [hnext, hnext']
        · exact absurd hl (Nat.ne_of_lt (h.below _ _ hold'))
      · rcases each o' l ho' with ⟨-, hl⟩ | hold'
        · exact absurd hl (Nat.ne_of_lt (h.below _ _ hold))
        · exact h.inj o o' l hold hold'

theorem numbered_numberOffsets (offsets : List Nat) : Numbered (numberOffsets offsets) := by
  suffices fold : ∀ labels : OffsetLabels, Numbered labels →
      Numbered (offsets.foldl (fun labels o => labels.insertIfNew o labels.size) labels) by
    refine fold ∅ ⟨fun o l ho => ?_, fun o o' l ho => ?_⟩ <;>
    · rw [Std.TreeMap.getElem?_emptyc] at ho
      cases ho
  induction offsets with
  | nil => exact fun labels h => h
  | cons next offsets ih => exact fun labels h => ih _ (h.insert next)

/-- Every offset that is mentioned has a label. -/
theorem numberOffsets_isSome {offsets : List Nat} {o : Nat} (h : o ∈ offsets) :
    ∃ l, (numberOffsets offsets)[o]? = some l := by
  suffices fold : ∀ labels : OffsetLabels, o ∈ offsets ∨ o ∈ labels →
      o ∈ offsets.foldl (fun labels o => labels.insertIfNew o labels.size) labels by
    have hmem := fold ∅ (.inl h)
    exact ⟨_, Std.TreeMap.getElem?_eq_some_getElem hmem⟩
  clear h
  induction offsets with
  | nil => exact fun labels h => h.resolve_left List.not_mem_nil
  | cons next offsets ih =>
    intro labels h
    refine ih _ ?_
    rw [Std.TreeMap.mem_insertIfNew]
    rcases h with h | h
    · rcases List.mem_cons.1 h with rfl | h
      · exact .inr (.inl (Std.compare_eq_iff_eq.2 rfl))
      · exact .inl h
    · exact .inr (.inr h)

/-- The labels of the protected ranges are numbered below the next label. -/
theorem decode_tableBelow {c : CodeAttribute} {b : Body} (hc : c.Straight) (h : decode c = .ok b)
    {t : TryCatch} (ht : t ∈ b.tryCatch) {l : Label} (hl : l ∈ [t.start, t.stop, t.handler]) :
    l < b.nextLabel := by
  obtain ⟨items, placed, -, -, -, hnext, -, htable⟩ := decode_straight hc h
  rw [htable] at ht
  obtain ⟨x, hx, rfl⟩ := List.mem_map.1 ht
  have below {o : Nat} (ho : o ∈ [x.startPc.toNat, x.endPc.toNat, x.handlerPc.toNat]) :
      (numberOffsets (c.mentionedOffsets items)).getD o 0 < b.nextLabel := by
    have hmem : o ∈ c.mentionedOffsets items := by
      unfold CodeAttribute.mentionedOffsets
      rw [List.mem_append, List.mem_append]
      exact .inl (.inr (List.mem_flatMap.2 ⟨x, hx, ho⟩))
    obtain ⟨l', hl'⟩ := numberOffsets_isSome hmem
    rw [Std.TreeMap.getD_eq_getD_getElem?, hl', hnext]
    exact numberOffsets_lt hl'
  simp only [List.mem_cons, List.not_mem_nil, or_false] at hl
  rcases hl with rfl | rfl | rfl
  · exact below (List.mem_cons_self ..)
  · exact below (List.mem_cons_of_mem _ (List.mem_cons_self ..))
  · exact below (List.mem_cons_of_mem _ (List.mem_cons_of_mem _ (List.mem_singleton_self _)))

theorem Insn.isPseudo_retarget (f : Label → Label) (i : Insn) :
    (i.retarget f).isPseudo = i.isPseudo := by
  cases i <;> rfl

/-! ## Rows -/

def CodeAttribute.labels (c : CodeAttribute) (items : List (Nat × Insn)) : OffsetLabels :=
  numberOffsets (c.mentionedOffsets (asItems items))

def OffsetLabels.of (labels : OffsetLabels) (o : Nat) : Label :=
  labels.getD o 0

/-- An instruction with the marks in front of it. -/
def row (labels : OffsetLabels) (lines : Std.TreeMap Nat (List UInt16)) (x : Nat × Insn) : List Insn :=
  labels[x.1]?.toList.map .label ++ ((lines.getD x.1 []).map .line ++ [x.2.retarget labels.of])

/-- The body is decoded from instructions that were read with their offsets. -/
structure Decoded (c : CodeAttribute) (items : List (Nat × Insn)) (b : Body) : Prop where
  read : readItems c.code = .ok (asItems items)
  insns : b.insns = items.flatMap (row (c.labels items) (linesByOffset c.lineEntries)) ++
    (c.labels items)[c.code.length]?.toList.map .label
  tryCatch : b.tryCatch = c.exceptions.map fun e =>
    { start := (c.labels items).of e.startPc.toNat, stop := (c.labels items).of e.endPc.toNat,
      handler := (c.labels items).of e.handlerPc.toNat, catchType := e.catchType }
  known : ∀ (o : Nat) (l : Label), (c.labels items)[o]? = some l →
    (∃ i, (o, i) ∈ items) ∨ o = c.code.length

theorem exists_asItems {items : List (Nat × Item)} (h : ∀ x ∈ items, x.2.isSubroutine = false) :
    ∃ insns, items = asItems insns := by
  induction items with
  | nil => exact ⟨[], rfl⟩
  | cons x items ih =>
    obtain ⟨insns, rfl⟩ := ih fun y hy => h y (List.mem_cons_of_mem _ hy)
    have hx := h x (List.mem_cons_self ..)
    obtain ⟨o, x⟩ := x
    cases x with
    | insn i => exact ⟨(o, i) :: insns, rfl⟩
    | jsr _ | ret _ => cases hx

/-- Decoded code is made of rows. -/
theorem decode_rows {c : CodeAttribute} {b : Body} (hc : c.Straight) (h : decode c = .ok b) :
    ∃ items, Decoded c items b := by
  obtain ⟨items, placed, hitems, hplaced, hinsns, -, -, htryCatch⟩ := decode_straight hc h
  obtain ⟨items, rfl⟩ := exists_asItems (hc items hitems)
  change b.tryCatch = c.exceptions.map _ at htryCatch
  unfold placeMarks at hplaced
  simp only at hplaced
  split at hplaced
  · cases hplaced
  · rename_i hknown
    cases hplaced
    refine ⟨items, hitems, ?_, htryCatch, fun o l ho => ?_⟩
    · rw [hinsns, List.filterMap_append]
      congr 1
      · rw [List.filterMap_flatMap, List.flatMap_map, asItems, List.flatMap_map]
        refine List.flatMap_congr fun x _ => ?_
        unfold marksAt row
        rw [List.filterMap_append, List.filterMap_append, List.filterMap_map, List.filterMap_map,
          List.append_assoc]
        simp [Function.comp_def, Item.insn?, Item.retarget, CodeAttribute.labels, asItems]
        rfl
      · rw [List.filterMap_map]
        simp [Function.comp_def, Item.insn?, CodeAttribute.labels]
    · have hmem : o ∈ (numberOffsets (c.mentionedOffsets (asItems items))).keys := by
        rw [Std.TreeMap.mem_keys]
        exact Std.TreeMap.mem_iff_isSome_getElem?.2 (by rw [show
          (numberOffsets (c.mentionedOffsets (asItems items)))[o]? = some l from ho]; rfl)
      have hno := List.find?_eq_none.1 hknown o hmem
      by_cases hend : o = c.code.length
      · exact .inr hend
      · left
        simp only [Bool.and_eq_true, Bool.not_eq_true', bne_iff_ne, ne_eq, hend, not_false_eq_true,
          and_true, Bool.not_eq_false] at hno
        rw [Std.TreeSet.contains_ofList, asItems, List.map_map, List.map_map] at hno
        obtain ⟨x, hx, rfl⟩ := List.mem_map.1 (List.contains_iff_mem.1 hno)
        exact ⟨x.2, hx⟩

theorem mem_of_numberOffsets {offsets : List Nat} {o : Nat} (h : o ∈ numberOffsets offsets) :
    o ∈ offsets := by
  suffices fold : ∀ labels : OffsetLabels,
      o ∈ offsets.foldl (fun labels o => labels.insertIfNew o labels.size) labels →
        o ∈ labels ∨ o ∈ offsets from
    (fold ∅ h).resolve_left Std.TreeMap.not_mem_emptyc
  clear h
  induction offsets with
  | nil => exact fun labels h => .inl h
  | cons next offsets ih =>
    intro labels h
    rcases ih _ h with h | h
    · rcases Std.TreeMap.mem_insertIfNew.1 h with h | h
      · exact .inr (List.mem_cons.2 (.inl (Std.compare_eq_iff_eq.1 h).symm))
      · exact .inl h
    · exact .inr (List.mem_cons_of_mem _ h)

/-- Code without subroutines is decoded if an instruction starts at every offset that is mentioned, or
the code ends there. -/
theorem decode_of_read {c : CodeAttribute} {items : List (Nat × Insn)}
    (hread : readItems c.code = .ok (asItems items))
    (hknown : ∀ o ∈ c.mentionedOffsets (asItems items), (∃ i, (o, i) ∈ items) ∨ o = c.code.length) :
    ∃ b, decode c = .ok b := by
  have hplaced : ∃ placed, placeMarks ((asItems items).map fun x => (x.1, x.2.retarget fun o =>
      (c.labels items).getD o 0)) c.code.length (c.labels items) (linesByOffset c.lineEntries)
        = .ok placed := by
    unfold placeMarks
    simp only
    split
    case h_1 o hfound =>
      have hmem := Std.TreeMap.mem_keys.1 (List.mem_of_find?_eq_some hfound)
      have hbad := List.find?_some hfound
      rw [Bool.and_eq_true, Bool.not_eq_true', bne_iff_ne, ne_eq, Std.TreeSet.contains_ofList,
        asItems, List.map_map, List.map_map] at hbad
      obtain ⟨i, hi⟩ := (hknown o (mem_of_numberOffsets hmem)).resolve_right hbad.2
      have hstart : o ∈ items.map (·.1) := List.mem_map.2 ⟨(o, i), hi, rfl⟩
      exact absurd (List.contains_iff_mem.2 hstart) (Bool.eq_false_iff.1 hbad.1)
    case h_2 => exact ⟨_, rfl⟩
  obtain ⟨placed, hplaced⟩ := hplaced
  have hnone := placeMarks_straight hplaced fun y hy => by
    obtain ⟨z, hz, rfl⟩ := List.mem_map.1 hy
    obtain ⟨x, -, rfl⟩ := List.mem_map.1 hz
    rfl
  have onward {α : Type} {x : Except CodeError α} {f : α → Except CodeError Body} {a : α}
      (hx : x = .ok a) (hf : ∃ b, f a = .ok b) : ∃ b, (x >>= f) = .ok b :=
    hf.imp fun b hb => bind_eq_ok.2 ⟨a, hx, hb⟩
  refine onward hread (onward hplaced ?_)
  simp only [hnone, Bool.false_eq_true, if_false]
  exact ⟨_, rfl⟩

/-! ## Places -/

namespace Decoded

variable {c : CodeAttribute} {items : List (Nat × Insn)} {b : Body}

def spot (c : CodeAttribute) (items : List (Nat × Insn)) (k : Nat) : Nat :=
  pieceStart (row (c.labels items) (linesByOffset c.lineEntries)) items k

/-- What is read is an instruction of the rows, with the offsets it names. -/
structure Ordered (c : CodeAttribute) (items : List (Nat × Insn)) : Prop where
  real : ∀ x ∈ items, x.2.isPseudo = false
  ascending : (items.map (·.1)).Pairwise (· < ·)
  within : ∀ x ∈ items, x.1 < c.code.length

/-- An offset of an item, or the one behind all of them. -/
def At (c : CodeAttribute) (items : List (Nat × Insn)) (o k : Nat) : Prop :=
  (∃ i, items[k]? = some (o, i)) ∨ (k = items.length ∧ o = c.code.length)

variable (hb : Decoded c items b) (ho : Ordered c items)

include ho in
theorem At.unique {o k k' : Nat} (h : At c items o k) (h' : At c items o k') : k = k' := by
  have hlt : ∀ {o k k' : Nat}, At c items o k → At c items o k' → ¬ k < k' := by
    rintro o k k' (⟨i, hi⟩ | ⟨rfl, rfl⟩) (⟨i', hi'⟩ | ⟨rfl, he⟩) hkk
    · have := List.pairwise_iff_getElem.1 ho.ascending k k'
        (by rw [List.length_map]; exact (List.getElem?_eq_some_iff.1 hi).1)
        (by rw [List.length_map]; exact (List.getElem?_eq_some_iff.1 hi').1) hkk
      simp only [List.getElem_map, (List.getElem?_eq_some_iff.1 hi).2,
        (List.getElem?_eq_some_iff.1 hi').2] at this
      omega
    · exact Nat.ne_of_lt (ho.within _ (List.mem_of_getElem? hi)) he
    · exact Nat.lt_irrefl _ (ho.within _ (List.mem_of_getElem? hi'))
    · exact Nat.lt_irrefl _ hkk
  have := hlt h h'
  have := hlt h' h
  omega

include hb in
theorem at_of_label {o : Nat} {l : Label} (hl : (c.labels items)[o]? = some l) :
    ∃ k, k ≤ items.length ∧ At c items o k := by
  rcases hb.known o l hl with ⟨i, hi⟩ | rfl
  · obtain ⟨k, hk⟩ := List.mem_iff_getElem?.1 hi
    exact ⟨k, Nat.le_of_lt (List.getElem?_eq_some_iff.1 hk).1, .inl ⟨i, hk⟩⟩
  · exact ⟨items.length, Nat.le_refl _, .inr ⟨rfl, rfl⟩⟩

include hb in
theorem insn_of_row {k j : Nat} {x : Nat × Insn} {insn : Insn} (hk : items[k]? = some x)
    (hj : (row (c.labels items) (linesByOffset c.lineEntries) x)[j]? = some insn) :
    b.insns[spot c items k + j]? = some insn := by
  have hlt := (List.getElem?_eq_some_iff.1 hj).1
  have hpiece := getElem?_piece hk hlt
  rw [hj] at hpiece
  rw [hb.insns, spot, List.getElem?_append_left (List.getElem?_eq_some_iff.1 hpiece).1, hpiece]

include hb in
/-- Every instruction is in a row, or it is the label behind all rows. -/
theorem row_of_insn {n : Nat} {insn : Insn} (hn : b.insns[n]? = some insn) :
    (∃ k x j, items[k]? = some x ∧ n = spot c items k + j ∧
      (row (c.labels items) (linesByOffset c.lineEntries) x)[j]? = some insn) ∨
    (n = spot c items items.length ∧ ∃ l, (c.labels items)[c.code.length]? = some l ∧
      insn = .label l) := by
  rw [hb.insns, List.getElem?_append] at hn
  split at hn
  · obtain ⟨k, x, j, hk, hj, rfl⟩ := exists_piece ‹_›
    rw [getElem?_piece hk hj] at hn
    exact .inl ⟨k, x, j, hk, rfl, hn⟩
  · right
    unfold spot
    rw [pieceStart_length]
    cases hl : (c.labels items)[c.code.length]? with
    | none => simp [hl] at hn
    | some l =>
      rw [hl] at hn
      simp only [Option.toList_some, List.map_cons, List.map_nil, List.getElem?_singleton] at hn
      split at hn
      · cases hn
        exact ⟨by omega, l, rfl, rfl⟩
      · cases hn

/-- The only label in a row is that of its offset, which comes first. -/
theorem label_in_row {labels : OffsetLabels} {lines : Std.TreeMap Nat (List UInt16)} {x : Nat × Insn}
    (hx : x.2.isPseudo = false) {j : Nat} {l : Label} (hj : (row labels lines x)[j]? = some (.label l)) :
    j = 0 ∧ labels[x.1]? = some l := by
  have hreal : ∀ l', x.2.retarget labels.of ≠ .label l' := by
    intro l' he
    rw [← Insn.isPseudo_retarget labels.of, he] at hx
    cases hx
  have others : Insn.label l ∉ (lines.getD x.1 []).map .line ++ [x.2.retarget labels.of] := by
    intro hmem
    rcases List.mem_append.1 hmem with hmem | hmem
    · obtain ⟨n, -, he⟩ := List.mem_map.1 hmem
      cases he
    · exact hreal l (List.mem_singleton.1 hmem).symm
  unfold row at hj
  cases hl : labels[x.1]? with
  | none =>
    rw [hl] at hj
    exact absurd (List.mem_of_getElem? hj) others
  | some l' =>
    rw [hl] at hj
    cases j with
    | zero =>
      cases hj
      exact ⟨rfl, rfl⟩
    | succ j => exact absurd (List.mem_of_getElem? (l := _ ++ _) (i := j) (by simpa using hj)) others

include hb ho in
/-- The label of an offset has its last place at the start of the row there. -/
theorem lastPlace {o k : Nat} {l : Label} (hl : (c.labels items)[o]? = some l) (hk : At c items o k) :
    LastPlace b.insns l (spot c items k) := by
  have hnumbered := numbered_numberOffsets (c.mentionedOffsets (asItems items))
  constructor
  · rcases hk with ⟨i, hi⟩ | ⟨rfl, rfl⟩
    · have hrow : (row (c.labels items) (linesByOffset c.lineEntries) (o, i))[0]? = some (.label l) := by
        unfold row
        rw [hl]
        rfl
      exact hb.insn_of_row hi hrow
    · unfold spot
      rw [hb.insns, pieceStart_length, List.getElem?_append_right (Nat.le_refl _), Nat.sub_self, hl]
      rfl
  · intro n hn hlabel
    have place : ∃ k', At c items o k' ∧ n = spot c items k' := by
      rcases hb.row_of_insn hlabel with ⟨k', x, j, hk', rfl, hj⟩ | ⟨rfl, l', hl', he⟩
      · obtain ⟨rfl, hx⟩ := label_in_row (ho.real x (List.mem_of_getElem? hk')) hj
        refine ⟨k', .inl ⟨x.2, ?_⟩, rfl⟩
        rw [hk', hnumbered.inj _ _ _ hl hx]
      · cases he
        exact ⟨items.length, .inr ⟨rfl, hnumbered.inj _ _ _ hl hl'⟩, rfl⟩
    obtain ⟨k', hk', rfl⟩ := place
    rw [At.unique ho hk hk'] at hn
    exact Nat.lt_irrefl _ hn

end Decoded

end Interpose
