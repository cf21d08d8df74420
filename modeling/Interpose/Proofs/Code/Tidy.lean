import Interpose.Proofs.Code.Wording
import Interpose.Proofs.Inference.Flow
/-!
# Decoded bodies

What decoding answers is tidy: its instructions can be encoded again, the labels it uses are placed,
and a source line mark stands in front of another one or of an instruction that takes bytes
(`decode_tidy`).
-/

namespace Interpose

structure Body.Tidy (b : Body) : Prop where
  standard : ∀ insn ∈ b.insns, insn.Standard
  closed : b.Closed
  labels : LabelsBelow b
  lines : ∀ i n, b.insns[i]? = some (.line n) →
    ∃ insn, b.insns[i + 1]? = some insn ∧ ∀ l, insn ≠ .label l

namespace Decoded

variable {c : CodeAttribute} {items : List (Nat × Insn)} {b : Body} (hb : Decoded c items b)
include hb

theorem real {x : Nat × Insn} (hx : x ∈ items) : x.2.isPseudo = false := by
  have h := readItems_real hb.read (x.1, .insn x.2) (List.mem_map.2 ⟨x, hx, rfl⟩)
  cases hreal : x.2.isPseudo with
  | false => rfl
  | true =>
    obtain ⟨o, insn⟩ := x
    cases insn <;> first | exact h | cases hreal

theorem standard {insn : Insn} (hinsn : insn ∈ b.insns) : insn.Standard := by
  rw [hb.insns] at hinsn
  rcases List.mem_append.1 hinsn with hinsn | hinsn
  · obtain ⟨x, hx, hinsn⟩ := List.mem_flatMap.1 hinsn
    simp only [row, List.mem_append, List.mem_map, List.mem_singleton] at hinsn
    rcases hinsn with ⟨_, -, rfl⟩ | ⟨_, -, rfl⟩ | rfl
    · trivial
    · trivial
    · exact Insn.standard_retarget _ (readItems_gives Cursor.item_usual hb.read (x.1, .insn x.2)
        (List.mem_map.2 ⟨x, hx, rfl⟩) x.2 rfl)
  · obtain ⟨_, -, rfl⟩ := List.mem_map.1 hinsn
    trivial

/-- A mark of a source line is followed by another one or by the instruction of its row. -/
theorem line_lead {n : Nat} {line : UInt16} (hn : b.insns[n]? = some (.line line)) :
    ∃ insn, b.insns[n + 1]? = some insn ∧ ∀ l, insn ≠ .label l := by
  rcases hb.row_of_insn hn with ⟨k, x, j, hk, rfl, hj⟩ | ⟨-, l, -, hl⟩
  · have hreal := hb.real (List.mem_of_getElem? hk)
    have hlast : j + 1 < (row (c.labels items) (linesByOffset c.lineEntries) x).length := by
      have hlt := (List.getElem?_eq_some_iff.1 hj).1
      refine Nat.lt_of_le_of_ne hlt fun hend => ?_
      have hback : (row (c.labels items) (linesByOffset c.lineEntries) x)[j]? =
          some (x.2.retarget (c.labels items).of) := by
        rw [row, ← List.append_assoc] at hend ⊢
        rw [List.length_append, List.length_singleton] at hend
        rw [Nat.add_right_cancel hend, List.getElem?_append_right (Nat.le_refl _), Nat.sub_self]
        rfl
      rw [hj, Option.some.injEq] at hback
      rw [← Insn.isPseudo_retarget (c.labels items).of, ← hback] at hreal
      cases hreal
    refine ⟨_, hb.insn_of_row hk (List.getElem?_eq_getElem hlast), fun l hl => ?_⟩
    exact Nat.succ_ne_zero j (label_in_row hreal ((List.getElem?_eq_getElem hlast).trans
      (congrArg some hl))).1
  · cases hl

theorem placed {o : Nat} (ho : o ∈ c.mentionedOffsets (asItems items)) :
    ∃ i, LastPlace b.insns ((c.labels items).of o) i := by
  obtain ⟨l, hl⟩ := numberOffsets_isSome ho
  have hof : (c.labels items).of o = l := by
    rw [OffsetLabels.of, Std.TreeMap.getD_eq_getD_getElem?]
    exact congrArg (fun x => Option.getD x 0) hl
  rw [hof]
  have hmem : .label l ∈ b.insns := by
    rw [hb.insns]
    rcases hb.known o l hl with ⟨i, hi⟩ | rfl
    · refine List.mem_append_left _ (List.mem_flatMap.2 ⟨_, hi, List.mem_append_left _ ?_⟩)
      exact List.mem_map_of_mem (Option.mem_toList.2 hl)
    · exact List.mem_append_right _ (List.mem_map_of_mem (Option.mem_toList.2 hl))
  obtain ⟨i, hi⟩ := List.mem_iff_getElem?.1 hmem
  exact labelPositions_isSome hi

theorem closed : b.Closed := by
  refine ⟨fun insn hinsn t ht => ?_, fun t ht l hl => ?_⟩
  · rw [hb.insns] at hinsn
    rcases List.mem_append.1 hinsn with hinsn | hinsn
    · obtain ⟨x, hx, hinsn⟩ := List.mem_flatMap.1 hinsn
      simp only [row, List.mem_append, List.mem_map, List.mem_singleton] at hinsn
      rcases hinsn with ⟨_, -, rfl⟩ | ⟨_, -, rfl⟩ | rfl
      · cases ht
      · cases ht
      · rw [Insn.mentions_retarget] at ht
        obtain ⟨o, ho, rfl⟩ := List.mem_map.1 ht
        refine hb.placed ?_
        rw [CodeAttribute.mentionedOffsets, List.mem_append, List.mem_append]
        exact .inl (.inl (List.mem_flatMap.2 ⟨_, List.mem_map.2 ⟨x, hx, rfl⟩, ho⟩))
    · obtain ⟨_, -, rfl⟩ := List.mem_map.1 hinsn
      cases ht
  · rw [hb.tryCatch] at ht
    obtain ⟨e, he, rfl⟩ := List.mem_map.1 ht
    have mentioned {o : Nat} (ho : o ∈ [e.startPc.toNat, e.endPc.toNat, e.handlerPc.toNat]) :
        ∃ i, LastPlace b.insns ((c.labels items).of o) i := by
      refine hb.placed ?_
      rw [CodeAttribute.mentionedOffsets, List.mem_append, List.mem_append]
      exact .inl (.inr (List.mem_flatMap.2 ⟨e, he, ho⟩))
    simp only [List.mem_cons, List.not_mem_nil, or_false] at hl
    rcases hl with rfl | rfl | rfl
    · exact mentioned (List.mem_cons_self ..)
    · exact mentioned (List.mem_cons_of_mem _ (List.mem_cons_self ..))
    · exact mentioned (List.mem_cons_of_mem _ (List.mem_cons_of_mem _ (List.mem_singleton_self _)))

end Decoded

/-- What decoding answers is tidy. -/
theorem decode_tidy {c : CodeAttribute} {b : Body} (hc : c.Straight) (h : decode c = .ok b) : b.Tidy := by
  obtain ⟨items, hb⟩ := decode_rows hc h
  exact ⟨fun _ => hb.standard, hb.closed, decode_labelsBelow hc h, fun _ _ => hb.line_lead⟩

namespace Body.Tidy

variable {b : Body} (hb : b.Tidy)
include hb

theorem target_below {insn : Insn} (hinsn : insn ∈ b.insns) {l : Label} (hl : l ∈ insn.mentions) :
    l < b.nextLabel := by
  obtain ⟨i, hi⟩ := hb.closed.1 insn hinsn l hl
  exact hb.labels l (List.mem_of_getElem? hi.1)

theorem table_below {t : TryCatch} (ht : t ∈ b.tryCatch) {l : Label} (hl : l ∈ [t.start, t.stop, t.handler]) :
    l < b.nextLabel := by
  obtain ⟨i, hi⟩ := hb.closed.2 t ht l hl
  exact hb.labels l (List.mem_of_getElem? hi.1)

/-- Behind source line marks stands an instruction that takes bytes. -/
theorem lines_end {i : Nat} {line : UInt16} (hi : b.insns[i]? = some (.line line)) :
    ∃ x y, i < x ∧ b.insns[x]? = some y ∧ y.isPseudo = false ∧
      ∀ k, i ≤ k → k < x → ∃ n, b.insns[k]? = some (.line n) := by
  obtain ⟨m, hm⟩ := Nat.exists_eq_add_of_lt (List.getElem?_eq_some_iff.1 hi).1
  induction m generalizing i line with
  | zero =>
    obtain ⟨y, hy, -⟩ := hb.lines i line hi
    have := (List.getElem?_eq_some_iff.1 hy).1
    omega
  | succ m ih =>
    obtain ⟨y, hy, hlabel⟩ := hb.lines i line hi
    cases hreal : y.isPseudo with
    | false =>
      refine ⟨i + 1, y, Nat.lt_succ_self i, hy, hreal, fun k hlo hhi => ?_⟩
      obtain rfl : k = i := by omega
      exact ⟨line, hi⟩
    | true =>
      cases y with
      | label l => exact absurd rfl (hlabel l)
      | line n =>
        obtain ⟨x, y', hx, hy', hreal', hlines⟩ := ih hy (by omega)
        refine ⟨x, y', by omega, hy', hreal', fun k hlo hhi => ?_⟩
        rcases Nat.eq_or_lt_of_le hlo with rfl | hlt
        · exact ⟨line, hi⟩
        · exact hlines k hlt hhi
      | _ => cases hreal

/-- Control that reaches source line marks reaches the instruction behind them. -/
theorem real_of_line {i : Nat} {line : UInt16} (hi : b.insns[i]? = some (.line line)) (hreached : b.Reached i) :
    ∃ x y, i < x ∧ b.insns[x]? = some y ∧ y.isPseudo = false ∧ b.Reached x ∧
      ∀ k, i ≤ k → k < x → ∃ n, b.insns[k]? = some (.line n) := by
  obtain ⟨x, y, hix, hy, hreal, hlines⟩ := hb.lines_end hi
  refine ⟨x, y, hix, hy, hreal, ?_, hlines⟩
  have along : ∀ m, i + m ≤ x → b.Reached (i + m) := by
    intro m hm
    induction m with
    | zero => exact hreached
    | succ m ih =>
      obtain ⟨n, hn⟩ := hlines (i + m) (Nat.le_add_right _ _) (by omega)
      exact .step (ih (by omega)) (.next hn rfl rfl)
  obtain ⟨m, rfl⟩ := Nat.exists_eq_add_of_le (Nat.le_of_lt hix)
  exact along m (Nat.le_refl _)

end Body.Tidy

end Interpose
