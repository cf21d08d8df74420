import Interpose.Code.StackMap
import Interpose.Proofs.Code.DeadCode
import Interpose.Proofs.Code.Layout
/-!
# Branch targets

The branch targets of an analysis are the handlers and the targets of jumps (`mem_branchTargets`). In
code that is assembled control reaches all of them. The table of frames is about the lowest of them at
each offset (`instructionsByOffset_least`).
-/

namespace Interpose

def Body.targets (b : Body) : List Label :=
  b.insns.flatMap Insn.targets ++ b.tryCatch.map (·.handler)

namespace Analysis

/-- The targets of one instruction, added to those of others. -/
theorem addTargets_eq_ok {positions : Std.TreeMap Label Nat} {ls : List Label}
    {s t : Std.TreeSet Nat}
    (h : ls.foldlM (fun s l => do return s.insert (← labelAt positions l)) s = .ok t) :
    (∀ l ∈ ls, ∃ i : Nat, positions[l]? = some i) ∧
      ∀ i, i ∈ t ↔ i ∈ s ∨ ∃ l ∈ ls, positions[l]? = some i := by
  induction ls generalizing s with
  | nil =>
    cases h
    exact ⟨nofun, fun i => by simp⟩
  | cons l ls ih =>
    rw [List.foldlM_cons] at h
    obtain ⟨s', hs', h⟩ := bind_eq_ok.1 h
    obtain ⟨k, hk, e⟩ := bind_eq_ok.1 hs'
    cases e
    rw [labelAt_eq_ok] at hk
    obtain ⟨h1, h2⟩ := ih h
    refine ⟨fun l' hl' => ?_, fun i => ?_⟩
    · rcases List.mem_cons.1 hl' with rfl | hl'
      · exact ⟨k, hk⟩
      · exact h1 l' hl'
    · rw [h2, Std.TreeSet.mem_insert, Std.compare_eq_iff_eq]
      constructor
      · rintro ((rfl | hi) | ⟨l', hl', hi⟩)
        · exact .inr ⟨l, List.mem_cons_self .., hk⟩
        · exact .inl hi
        · exact .inr ⟨l', List.mem_cons_of_mem _ hl', hi⟩
      · rintro (hi | ⟨l', hl', hi⟩)
        · exact .inl (.inr hi)
        · rcases List.mem_cons.1 hl' with rfl | hl'
          · rw [hk] at hi
            exact .inl (.inl (Option.some.inj hi))
          · exact .inr ⟨l', hl', hi⟩

theorem jumpTargets_eq_ok {insns : List Insn} {positions : Std.TreeMap Label Nat}
    {guards : List Guard} {t : Std.TreeSet Nat} (h : jumpTargets insns positions guards = .ok t) :
    (∀ insn ∈ insns, ∀ l ∈ insn.targets, ∃ i : Nat, positions[l]? = some i) ∧
      ∀ i, i ∈ t ↔ (∃ g ∈ guards, g.handler.target = i) ∨
        ∃ insn ∈ insns, ∃ l ∈ insn.targets, positions[l]? = some i := by
  unfold jumpTargets at h
  have handlers : ∀ (gs : List Guard) (s : Std.TreeSet Nat) (i : Nat),
      i ∈ gs.foldl (fun targets g => targets.insert g.handler.target) s ↔
        i ∈ s ∨ ∃ g ∈ gs, g.handler.target = i := by
    intro gs
    induction gs with
    | nil => simp
    | cons g gs ih =>
      intro s i
      rw [List.foldl_cons, ih, Std.TreeSet.mem_insert, Std.compare_eq_iff_eq]
      simp only [List.mem_cons, exists_eq_or_imp]
      tauto
  simp only at h
  have hs := handlers guards ∅
  generalize guards.foldl _ (∅ : Std.TreeSet Nat) = s at h hs
  have hs' : ∀ i, i ∈ s ↔ ∃ g ∈ guards, g.handler.target = i := fun i => by rw [hs]; simp
  simp only [← hs']
  clear hs hs' handlers
  induction insns generalizing s with
  | nil =>
    cases h
    exact ⟨nofun, fun i => by simp⟩
  | cons insn insns ih =>
    rw [List.foldlM_cons] at h
    obtain ⟨s', hs', h⟩ := bind_eq_ok.1 h
    obtain ⟨h1, h2⟩ := addTargets_eq_ok hs'
    obtain ⟨h3, h4⟩ := ih s' h
    refine ⟨fun insn' hi => ?_, fun i => ?_⟩
    · rcases List.mem_cons.1 hi with rfl | hi
      · exact h1
      · exact h3 insn' hi
    · rw [h4, h2]
      simp only [List.mem_cons, exists_eq_or_imp]
      rw [or_assoc]

/-- Placed labels are all it takes for branch targets to be found. -/
theorem jumpTargets_ok {insns : List Insn} {positions : Std.TreeMap Label Nat}
    (h : ∀ insn ∈ insns, ∀ l ∈ insn.targets, ∃ i : Nat, positions[l]? = some i)
    (guards : List Guard) : ∃ t, jumpTargets insns positions guards = .ok t := by
  refine foldlM_ok (fun insn hi s => foldlM_ok (fun l hl s => ?_) s) _
  obtain ⟨i, hi⟩ := h insn hi l hl
  exact ⟨s.insert i, bind_eq_ok.2 ⟨i, labelAt_eq_ok.2 hi, rfl⟩⟩

section Analyzed

variable {b : Body} {context : MethodContext} {pool : Pool} {h : Hierarchy} {m : Method}
  {a : Analysis} (hm : Method.ofBody b context pool h = .ok m)
  (ha : analyze b context pool h = .ok a)
include ha

/-- The analysis has looked up the labels that instructions jump to. -/
theorem placed_of_analyze {insn : Insn} (hinsn : insn ∈ b.insns) {l : Label} (hl : l ∈ insn.targets) :
    ∃ i, LastPlace b.insns l i := by
  obtain ⟨m, -, hm, ht, -⟩ := analyze_eq_ok ha
  obtain ⟨i, hi⟩ := (jumpTargets_eq_ok ht).1 insn hinsn l hl
  exact ⟨i, ((of_ofBody hm).positions l i).1 hi⟩

include hm

/-- The branch targets are the places of the labels that control is sent to. -/
theorem mem_branchTargets {i : Nat} :
    i ∈ a.branchTargets ↔ ∃ l ∈ b.targets, LastPlace b.insns l i := by
  obtain ⟨m', -, hm', ht, -⟩ := analyze_eq_ok ha
  rw [hm] at hm'
  cases hm'
  have hof := of_ofBody hm
  rw [(jumpTargets_eq_ok ht).2]
  simp only [Body.targets, List.mem_append, List.mem_flatMap, List.mem_map, hof.positions]
  constructor
  · rintro (⟨g, hg, rfl⟩ | ⟨insn, hinsn, l, hl, hi⟩)
    · obtain ⟨t, ht, -, -, hh, -⟩ := (mem_forall₂ hof.guards).2 g hg
      exact ⟨t.handler, .inr ⟨t, ht, rfl⟩, hh⟩
    · exact ⟨l, .inl ⟨insn, hinsn, hl⟩, hi⟩
  · rintro ⟨l, ⟨insn, hinsn, hl⟩ | ⟨t, ht, rfl⟩, hi⟩
    · exact .inr ⟨insn, hinsn, l, hl, hi⟩
    · obtain ⟨g, hg, -, -, hh, -⟩ := (mem_forall₂ hof.guards).1 t ht
      exact .inl ⟨g, hg, hh.unique hi⟩

/-- When control reaches all that takes bytes, it reaches all branch targets. -/
theorem branchTargets_reached
    (hlive : ∀ i insn, b.insns[i]? = some insn → insn.isPseudo = false → ∃ f, a.frame i = some f)
    {i : Nat} (hi : i ∈ a.branchTargets) : ∃ f, a.frame i = some f := by
  obtain ⟨m', -, hm', ht, -⟩ := analyze_eq_ok ha
  rw [hm] at hm'
  cases hm'
  have hof := of_ofBody hm
  rw [(jumpTargets_eq_ok ht).2] at hi
  rw [analyze_reached hm ha]
  rcases hi with ⟨g, hg, rfl⟩ | ⟨insn, hinsn, l, hl, hi⟩
  · obtain ⟨t, -, -, -, -, -, hreal, -⟩ := (mem_forall₂ hof.guards).2 g hg
    obtain ⟨k, insn, h1, h2, hk, hr⟩ := anyReal_eq_true.1 hreal
    rw [List.getElem?_toArray] at hk
    refine .step ((analyze_reached hm ha).1 (hlive k insn hk hr)) ⟨insn, ?_, .inl ⟨hr, g, hg, ?_, rfl⟩⟩
    · rw [hof.insn, hk]
    · simp only [Guard.covers, Bool.and_eq_true, decide_eq_true_eq]
      exact ⟨h1, h2⟩
  · obtain ⟨k, hk⟩ := List.mem_iff_getElem?.1 hinsn
    have hr : insn.isPseudo = false := by
      cases insn <;> first | rfl | cases hl
    refine .step ((analyze_reached hm ha).1 (hlive k insn hk hr)) ⟨insn, ?_, .inr (.inl ⟨l, hl, hi⟩)⟩
    rw [hof.insn, hk]

end Analyzed

end Analysis

namespace StackMap

/-- The first of the given instructions at an offset stands for it. -/
theorem instructionsByOffset_eq (branches : List Nat) (e : Encoded) (o : Nat) :
    (instructionsByOffset branches e)[o]? = branches.find? (fun i => e.offsets[i]? = some o) := by
  have general (choose : Std.TreeMap Nat Nat → Nat → Std.TreeMap Nat Nat)
      (hnone : ∀ chosen i, e.offsets[i]? = none → choose chosen i = chosen)
      (hsome : ∀ chosen i o, e.offsets[i]? = some o → choose chosen i = chosen.insertIfNew o i)
      (chosen : Std.TreeMap Nat Nat) : (branches.foldl choose chosen)[o]? =
        (chosen[o]?).or (branches.find? (fun i => e.offsets[i]? = some o)) := by
    induction branches generalizing chosen with
    | nil => simp
    | cons i branches ih =>
      rw [List.foldl_cons, ih, List.find?_cons]
      cases hi : e.offsets[i]? with
      | none => simp [hnone chosen i hi]
      | some o' =>
        simp only [hsome chosen i o' hi, Std.TreeMap.getElem?_insertIfNew, Std.compare_eq_iff_eq,
          Option.some.injEq]
        by_cases ho : o' = o
        · subst ho
          by_cases hm : o' ∈ chosen
          · simp [hm]
          · simp [hm]
        · simp [ho]
  unfold instructionsByOffset
  refine (general _ (fun chosen i h => ?_) (fun chosen i o h => ?_) ∅).trans (by simp)
  · rw [h]
  · rw [h]

/-- The lowest branch target at an offset stands for it. -/
theorem instructionsByOffset_least {targets : Std.TreeSet Nat} (widened : List Nat) {e : Encoded}
    {o j : Nat} (hj : j ∈ targets) (ho : e.offsets[j]? = some o) :
    ∃ i ∈ targets, e.offsets[i]? = some o ∧ i ≤ j ∧
      (instructionsByOffset (targets.toList ++ widened) e)[o]? = some i := by
  rw [instructionsByOffset_eq, List.find?_append]
  have hmem : j ∈ targets.toList := Std.TreeSet.mem_toList.2 hj
  cases hf : targets.toList.find? (fun i => e.offsets[i]? = some o) with
  | none =>
    have := List.find?_eq_none.1 hf j hmem
    simp [ho] at this
  | some i =>
    have hi := List.find?_some hf
    simp only [decide_eq_true_eq] at hi
    refine ⟨i, Std.TreeSet.mem_toList.1 (List.mem_of_find?_eq_some hf), hi, ?_, rfl⟩
    -- the targets are listed in ascending order
    obtain ⟨-, as, bs, hsplit, hbefore⟩ := List.find?_eq_some_iff_append.1 hf
    have hsorted := targets.ordered_toList
    rw [hsplit] at hmem hsorted
    rcases List.mem_append.1 hmem with hmem | hmem
    · have := hbefore j hmem
      simp [ho] at this
    · rcases List.mem_cons.1 hmem with rfl | hmem
      · exact Nat.le_refl _
      · have := List.rel_of_pairwise_cons (List.pairwise_append.1 hsorted).2.1 hmem
        exact Nat.le_of_lt (Std.compare_eq_lt.1 this)

end StackMap

end Interpose
