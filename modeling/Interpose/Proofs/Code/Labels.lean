import Mathlib.Data.List.Induction
import Interpose.Code.Analysis
import Interpose.Proofs.Outcome
/-!
# Where labels stand

The instruction number of a label is its last place (`labelPositions_eq_some`), and a protected range
is resolved to the places of its labels (`guard_eq_ok`).
-/

namespace Interpose

/-- The label has its last place at the instruction with the given number. -/
def LastPlace (insns : List Insn) (l : Label) (i : Nat) : Prop :=
  insns[i]? = some (.label l) ∧ ∀ j, i < j → insns[j]? ≠ some (.label l)

def TryCatch.Covers (insns : List Insn) (t : TryCatch) (k : Nat) : Prop :=
  ∃ a b, LastPlace insns t.start a ∧ LastPlace insns t.stop b ∧ a ≤ k ∧ k < b

/-- Every label that the body places is numbered below its next label. -/
def LabelsBelow (b : Body) : Prop :=
  ∀ l, .label l ∈ b.insns → l < b.nextLabel

/-- Control goes on behind a mark. -/
theorem Insn.isTerminal_pseudo {insn : Insn} (h : insn.isPseudo = true) : insn.isTerminal = false := by
  cases insn <;> first | rfl | cases h

theorem LastPlace.unique {insns : List Insn} {l : Label} {i j : Nat} (hi : LastPlace insns l i)
    (hj : LastPlace insns l j) : i = j := by
  rcases Nat.lt_trichotomy i j with h | h | h
  · exact absurd hj.1 (hi.2 j h)
  · exact h
  · exact absurd hi.1 (hj.2 i h)

theorem LastPlace.lt {insns : List Insn} {l : Label} {i : Nat} (h : LastPlace insns l i) :
    i < insns.length :=
  (List.getElem?_eq_some_iff.1 h.1).1

theorem lastPlace_append {insns : List Insn} {insn : Insn} {l : Label} {i : Nat} :
    LastPlace (insns ++ [insn]) l i ↔
      (insn = .label l ∧ i = insns.length) ∨ (insn ≠ .label l ∧ LastPlace insns l i) := by
  have last : (insns ++ [insn])[insns.length]? = some insn := by simp
  have front : ∀ j, j ≠ insns.length → (insns ++ [insn])[j]? = insns[j]? := by
    intro j hj
    rw [List.getElem?_append]
    split
    · rfl
    · rw [List.getElem?_eq_none (by simp; omega), List.getElem?_eq_none (by omega)]
  constructor
  · rintro ⟨hi, hlater⟩
    by_cases h : insn = .label l
    · refine .inl ⟨h, ?_⟩
      have hlt := (List.getElem?_eq_some_iff.1 hi).1
      rw [List.length_append, List.length_singleton] at hlt
      have := hlater insns.length
      rw [last, h] at this
      by_contra hne
      exact this (by omega) rfl
    · have hne : i ≠ insns.length := by
        rintro rfl
        rw [last] at hi
        exact h (Option.some.inj hi)
      refine .inr ⟨h, by rw [← front i hne, hi], fun j hj hjl => ?_⟩
      have := (List.getElem?_eq_some_iff.1 hjl).1
      exact hlater j hj (by rw [front j (by omega), hjl])
  · rintro (⟨rfl, rfl⟩ | ⟨h, hi, hlater⟩)
    · refine ⟨last, fun j hj => ?_⟩
      rw [List.getElem?_eq_none (by simp; omega)]
      exact Option.some_ne_none _ ∘ Eq.symm
    · have hlt := (List.getElem?_eq_some_iff.1 hi).1
      refine ⟨by rw [front i (by omega), hi], fun j hj => ?_⟩
      by_cases hne : j = insns.length
      · rw [hne, last]
        exact fun e => h (Option.some.inj e)
      · rw [front j hne]
        exact hlater j hj

def placeLabel : Std.TreeMap Label Nat × Nat → Insn → Std.TreeMap Label Nat × Nat
  | (positions, i), insn =>
    match insn.placed with
    | some l => (positions.insert l i, i + 1)
    | none => (positions, i + 1)

theorem labelPositions_eq (insns : List Insn) :
    labelPositions insns = (insns.foldl placeLabel (∅, 0)).1 := by
  unfold labelPositions
  refine congrArg (fun place => (insns.foldl place (∅, 0)).1) (funext fun r => funext fun insn => ?_)
  obtain ⟨positions, i⟩ := r
  cases insn <;> rfl

/-- Where labels stand depends on what the instructions place only. -/
theorem labelPositions_congr {xs ys : List Insn} (h : xs.map Insn.placed = ys.map Insn.placed) :
    labelPositions xs = labelPositions ys := by
  have same : ∀ r x y, x.placed = y.placed → placeLabel r x = placeLabel r y := by
    intro r x y hxy
    simp only [placeLabel, hxy]
  rw [labelPositions_eq, labelPositions_eq]
  generalize ((∅, 0) : Std.TreeMap Label Nat × Nat) = r
  induction xs generalizing ys r with
  | nil => rw [List.map_eq_nil_iff.1 h.symm]
  | cons x xs ih =>
    cases ys with
    | nil => cases h
    | cons y ys =>
      obtain ⟨hxy, h⟩ := List.cons.inj h
      rw [List.foldl_cons, List.foldl_cons, same r x y hxy, ih h]

theorem placed_eq_some {insn : Insn} {l : Label} : insn.placed = some l ↔ insn = .label l := by
  cases insn <;> simp [Insn.placed]

/-- The number that a label is given is that of its last place. -/
theorem labelPositions_eq_some {insns : List Insn} {l : Label} {i : Nat} :
    (labelPositions insns)[l]? = some i ↔ LastPlace insns l i := by
  rw [labelPositions_eq]
  suffices h : (insns.foldl placeLabel (∅, 0)).2 = insns.length ∧
      ∀ l i, (insns.foldl placeLabel (∅, 0)).1[l]? = some i ↔ LastPlace insns l i from h.2 l i
  induction insns using List.reverseRecOn with
  | nil =>
    refine ⟨rfl, fun l i => ?_⟩
    simp [LastPlace]
  | append_singleton insns insn ih =>
    obtain ⟨hn, hl⟩ := ih
    rw [List.foldl_append, List.foldl_cons, List.foldl_nil]
    generalize insns.foldl placeLabel (∅, 0) = r at hn hl
    obtain ⟨positions, n⟩ := r
    simp only at hn hl
    subst hn
    cases hp : insn.placed with
    | none =>
      have other : ∀ l, insn ≠ .label l := fun l h => by rw [placed_eq_some.2 h] at hp; cases hp
      simp only [placeLabel, hp]
      refine ⟨by simp, fun l i => ?_⟩
      rw [lastPlace_append, hl]
      simp [other l]
    | some k =>
      rw [placed_eq_some] at hp
      subst hp
      simp only [placeLabel, Insn.placed]
      refine ⟨by simp, fun l i => ?_⟩
      rw [lastPlace_append, Std.TreeMap.getElem?_insert]
      by_cases hkl : k = l
      · subst hkl
        simp [eq_comm]
      · simp [hkl, hl]

instance (insns : List Insn) (t : TryCatch) (k : Nat) : Decidable (t.Covers insns k) :=
  decidable_of_iff (((labelPositions insns)[t.start]?.any fun a =>
      (labelPositions insns)[t.stop]?.any fun b => a ≤ k && k < b) = true) (by
    simp only [Option.any_eq_true, labelPositions_eq_some, Bool.and_eq_true, decide_eq_true_eq]
    exact ⟨fun ⟨a, ha, b, hb, h⟩ => ⟨a, b, ha, hb, h⟩, fun ⟨a, b, ha, hb, h⟩ => ⟨a, ha, b, hb, h⟩⟩)

theorem labelPositions_isSome {insns : List Insn} {l : Label} {i : Nat}
    (h : insns[i]? = some (.label l)) : ∃ j, LastPlace insns l j := by
  induction insns using List.reverseRecOn with
  | nil => cases h
  | append_singleton insns insn ih =>
    by_cases hl : insn = .label l
    · exact ⟨_, lastPlace_append.2 (.inl ⟨hl, rfl⟩)⟩
    · rw [List.getElem?_append] at h
      split at h
      · obtain ⟨j, hj⟩ := ih h
        exact ⟨j, lastPlace_append.2 (.inr ⟨hl, hj⟩)⟩
      · rw [List.getElem?_singleton] at h
        split at h
        · exact absurd (Option.some.inj h) hl
        · cases h

/-- Whether an instruction that takes bytes lies between two numbers. -/
theorem anyReal_eq_true {code : Array Insn} {start stop : Nat} :
    anyReal code start stop = true ↔
      ∃ i insn, start ≤ i ∧ i < stop ∧ code[i]? = some insn ∧ insn.isPseudo = false := by
  fun_induction anyReal code start stop with
  | case1 start hlt hnone =>
    constructor
    · intro h
      cases h
    · rintro ⟨i, insn, hi, -, hc, -⟩
      rw [Array.getElem?_eq_none_iff] at hnone
      have := (Array.getElem?_eq_some_iff.1 hc).1
      omega
  | case2 start hlt insn hc ih =>
    rw [Bool.or_eq_true, Bool.not_eq_true', ih]
    constructor
    · rintro (h | ⟨i, insn', h1, h2, h3, h4⟩)
      · exact ⟨start, insn, Nat.le_refl _, hlt, hc, h⟩
      · exact ⟨i, insn', by omega, h2, h3, h4⟩
    · rintro ⟨i, insn', h1, h2, h3, h4⟩
      rcases Nat.eq_or_lt_of_le h1 with rfl | h1
      · rw [hc] at h3
        cases h3
        exact .inl h4
      · exact .inr ⟨i, insn', h1, h2, h3, h4⟩
  | case3 start hlt =>
    constructor
    · intro h
      cases h
    · rintro ⟨i, -, h1, h2, -⟩
      exact absurd (Nat.lt_of_le_of_lt h1 h2) hlt

theorem labelAt_eq_ok {positions : Std.TreeMap Label Nat} {l : Label} {i : Nat} :
    labelAt positions l = .ok i ↔ positions[l]? = some i := by
  unfold labelAt
  split
  · rename_i j h
    rw [h, Except.ok.injEq, Option.some.injEq]
  · rename_i h
    rw [h]
    simp

/-- The range of a table entry that is resolved covers what it covers by its labels. -/
theorem Guard.covers_eq_true {insns : List Insn} {t : TryCatch} {g : Guard}
    (hstart : LastPlace insns t.start g.start) (hstop : LastPlace insns t.stop g.stop) {k : Nat} :
    g.covers k = true ↔ t.Covers insns k := by
  simp only [Guard.covers, Bool.and_eq_true, decide_eq_true_eq]
  constructor
  · exact fun ⟨h1, h2⟩ => ⟨_, _, hstart, hstop, h1, h2⟩
  · rintro ⟨a, b, ha, hb, h1, h2⟩
    rw [ha.unique hstart] at h1
    rw [hb.unique hstop] at h2
    exact ⟨h1, h2⟩

namespace Analysis

/-- The class that a table entry catches. -/
def Catches (pool : Pool) (t : TryCatch) (caught : String) : Prop :=
  (t.catchType = 0 ∧ caught = throwableClass) ∨
    (t.catchType ≠ 0 ∧ pool.className t.catchType = .ok caught)

theorem catches_unique {pool : Pool} {t : TryCatch} {c c' : String} (h : Catches pool t c)
    (h' : Catches pool t c') : c = c' := by
  rcases h with ⟨h0, rfl⟩ | ⟨h0, hc⟩
  · rcases h' with ⟨-, rfl⟩ | ⟨h0', -⟩
    · rfl
    · exact absurd h0 h0'
  · rcases h' with ⟨h0', -⟩ | ⟨-, hc'⟩
    · exact absurd h0' h0
    · rw [hc] at hc'
      exact Except.ok.inj hc'

/-- The range a table entry is resolved to. -/
theorem guard_eq_ok {pool : Pool} {code : Array Insn} {positions : Std.TreeMap Label Nat}
    {t : TryCatch} {g : Guard} :
    guard pool code positions t = .ok g ↔
      positions[t.start]? = some g.start ∧ positions[t.stop]? = some g.stop ∧
      positions[t.handler]? = some g.handler.target ∧ g.start < g.stop ∧
      anyReal code g.start g.stop = true ∧ Catches pool t g.handler.caught := by
  obtain ⟨start, stop, target, caught⟩ := g
  unfold guard Catches
  constructor
  · intro h
    obtain ⟨start', hs, h⟩ := bind_eq_ok.1 h
    obtain ⟨stop', ht, h⟩ := bind_eq_ok.1 h
    obtain ⟨target', hh, h⟩ := bind_eq_ok.1 h
    cases hr : decide (start' < stop') && anyReal code start' stop' with
    | false =>
      simp only [hr, Bool.not_false, if_true] at h
      cases h
    | true =>
      simp only [hr, Bool.not_true, Bool.false_eq_true, if_false] at h
      rw [Bool.and_eq_true, decide_eq_true_eq] at hr
      by_cases hc : t.catchType = 0
      · simp only [hc, if_true] at h
        cases h
        exact ⟨labelAt_eq_ok.1 hs, labelAt_eq_ok.1 ht, labelAt_eq_ok.1 hh, hr.1, hr.2, .inl ⟨hc, rfl⟩⟩
      · simp only [hc, if_false] at h
        obtain ⟨name, hn, h⟩ := bind_eq_ok.1 h
        cases h
        exact ⟨labelAt_eq_ok.1 hs, labelAt_eq_ok.1 ht, labelAt_eq_ok.1 hh, hr.1, hr.2,
          .inr ⟨hc, mapError_eq_ok.1 hn⟩⟩
  · rintro ⟨hs, ht, hh, hlt, hr, hc⟩
    refine bind_eq_ok.2 ⟨start, labelAt_eq_ok.2 hs, bind_eq_ok.2 ⟨stop, labelAt_eq_ok.2 ht,
      bind_eq_ok.2 ⟨target, labelAt_eq_ok.2 hh, ?_⟩⟩⟩
    simp only at hlt hr hc
    simp only [hlt, hr, decide_true, Bool.and_true, Bool.not_true, Bool.false_eq_true, if_false]
    rcases hc with ⟨hc, rfl⟩ | ⟨hc, hn⟩
    · simp only [hc, if_true]
      rfl
    · simp only [hc, if_false]
      exact bind_eq_ok.2 ⟨caught, mapError_eq_ok.2 hn, rfl⟩

end Analysis

end Interpose
