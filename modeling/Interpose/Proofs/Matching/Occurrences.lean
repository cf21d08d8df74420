import Mathlib.Logic.Relation
import Interpose.Matching.Regex
/-!
# What an expression matches

An expression relates the position where a match begins to the one where it ends (`Regex.Spans`). The
engine works on sets of positions instead. Each of its steps carries a set of positions to all positions
that some relation leads to from there (`Marks.Computes`), and these relations are put together like the
expression. A repetition without bound is taken as often as there are positions, which is enough: as long
as a round marks nothing new there is nothing more to find, and every other round marks one position more.

Results:
* `Computes.closure`: repeating a step finds all that any number of steps leads to.
* `Regex.computes_ends`: the engine carries positions where a match begins to those where it ends.
* `Regex.occursIn_iff`: an expression occurs in a text exactly if it spans some part of it.
-/

namespace Interpose

/-- A relation taken a number of times. -/
def Times (R : Nat → Nat → Prop) : Nat → Nat → Nat → Prop
  | 0 => Eq
  | n + 1 => Relation.Comp R (Times R n)

def StepOver (accepts : Char → Bool) (text : List Char) (i j : Nat) : Prop :=
  j = i + 1 ∧ ∃ c, text[i]? = some c ∧ accepts c = true

def RunOver (accepts : Char → Bool) (text : List Char) (i j : Nat) : Prop :=
  i ≤ j ∧ ∀ k, i ≤ k → k < j → ∃ c, text[k]? = some c ∧ accepts c = true

theorem exists_times_stepOver {accepts : Char → Bool} {text : List Char} {i j : Nat} :
    (∃ n, Times (StepOver accepts text) n i j) ↔ RunOver accepts text i j := by
  constructor
  · rintro ⟨n, h⟩
    induction n generalizing i with
    | zero =>
      cases h
      exact ⟨Nat.le_refl _, fun k hle hlt => absurd hlt (Nat.not_lt.2 hle)⟩
    | succ n ih =>
      obtain ⟨_, ⟨rfl, hc⟩, hrest⟩ := h
      obtain ⟨hle, hrun⟩ := ih hrest
      refine ⟨Nat.le_of_succ_le hle, fun k hk hlt => ?_⟩
      rcases Nat.eq_or_lt_of_le hk with rfl | hk
      · exact hc
      · exact hrun k hk hlt
  · rintro ⟨hle, hrun⟩
    obtain ⟨n, rfl⟩ := Nat.exists_eq_add_of_le hle
    refine ⟨n, ?_⟩
    clear hle
    induction n generalizing i with
    | zero => rfl
    | succ n ih =>
      refine ⟨i + 1, ⟨rfl, hrun i (Nat.le_refl _) (by omega)⟩, ?_⟩
      have hrest := ih (i := i + 1) fun k hk hlt => hrun k (by omega) (by omega)
      rwa [Nat.add_right_comm] at hrest

namespace Marks

variable {size : Nat} {f g : Marks → Marks} {R S : Nat → Nat → Prop} {a b ms : Marks}
  {text : List Char} {accepts : Char → Bool}

def Has (ms : Marks) (i : Nat) : Prop :=
  ms[i]? = some true

theorem Has.lt {i : Nat} (h : ms.Has i) : i < ms.length :=
  (List.getElem?_eq_some_iff.1 h).1

@[simp] theorem has_cons_zero {m : Bool} : Marks.Has (m :: ms) 0 ↔ m = true := by
  simp [Has]

@[simp] theorem has_cons_succ {m : Bool} {i : Nat} : Marks.Has (m :: ms) (i + 1) ↔ ms.Has i := Iff.rfl

theorem has_union (h : a.length = b.length) {i : Nat} : (a.union b).Has i ↔ a.Has i ∨ b.Has i := by
  rw [Has, Has, Has, union, List.getElem?_zipWith]
  by_cases hi : i < a.length
  · simp [List.getElem?_eq_getElem hi, List.getElem?_eq_getElem (h ▸ hi)]
  · simp [List.getElem?_eq_none (Nat.le_of_not_lt hi), List.getElem?_eq_none (h ▸ Nat.le_of_not_lt hi)]

theorem has_inter {i : Nat} : (a.inter b).Has i ↔ a.Has i ∧ b.Has i := by
  rw [Has, Has, Has, inter, List.getElem?_zipWith]
  cases a[i]? <;> cases b[i]? <;> simp

theorem length_union (h : a.length = b.length) : (a.union b).length = a.length := by
  rw [union, List.length_zipWith, ← h, Nat.min_self]

theorem has_first {i : Nat} : (first text).Has i ↔ i = 0 := by
  cases i with
  | zero => simp [first]
  | succ i =>
    rw [Has, first, List.getElem?_cons_succ, List.getElem?_map]
    cases text[i]? <;> simp

theorem has_last {i : Nat} : (last text).Has i ↔ i = text.length := by
  induction text generalizing i with
  | nil => cases i <;> simp [last, Has]
  | cons c text ih =>
    cases i with
    | zero => simp [last]
    | succ i => exact ih.trans (by simp)

theorem length_first : (first text).length = text.length + 1 := by
  simp [first]

theorem length_last : (last text).length = text.length + 1 := by
  induction text with
  | nil => rfl
  | cons c text ih => exact congrArg (· + 1) ih

theorem has_every {i : Nat} : (every text).Has i ↔ i ≤ text.length := by
  cases i with
  | zero => simp [every]
  | succ i =>
    rw [Has, every, List.getElem?_cons_succ, List.getElem?_map, Nat.succ_le_iff]
    cases h : text[i]? with
    | none => simpa using h
    | some c => simpa using (List.getElem?_eq_some_iff.1 h).1

theorem length_every : (every text).length = text.length + 1 := by
  simp [every]

theorem any_iff_exists_has : ms.any id = true ↔ ∃ i, ms.Has i := by
  simp only [List.any_eq_true, id, exists_eq_right, List.mem_iff_getElem?, Has]

/-! ## Maps between sets of positions -/

/-- The map carries a set of positions to those that the relation leads to. -/
structure Computes (size : Nat) (f : Marks → Marks) (R : Nat → Nat → Prop) : Prop where
  length : ∀ ms : Marks, ms.length = size → (f ms).length = size
  has : ∀ ms : Marks, ms.length = size → ∀ j, (f ms).Has j ↔ ∃ i, ms.Has i ∧ R i j

theorem Computes.congr (h : Computes size f R) (hRS : ∀ i j, R i j ↔ S i j) : Computes size f S where
  length := h.length
  has ms hms j := by
    rw [h.has ms hms]
    exact exists_congr fun i => and_congr_right fun _ => hRS i j

theorem computes_id (size : Nat) : Computes size (fun ms => ms) Eq where
  length _ h := h
  has _ _ j := ⟨fun h => ⟨j, h, rfl⟩, fun ⟨_, h, e⟩ => e ▸ h⟩

theorem Computes.comp (hf : Computes size f R) (hg : Computes size g S) :
    Computes size (fun ms => g (f ms)) (Relation.Comp R S) where
  length ms h := hg.length _ (hf.length ms h)
  has ms h j := by
    rw [hg.has _ (hf.length ms h)]
    constructor
    · rintro ⟨k, hk, hS⟩
      obtain ⟨i, hi, hR⟩ := (hf.has ms h k).1 hk
      exact ⟨i, hi, k, hR, hS⟩
    · rintro ⟨i, hi, k, hR, hS⟩
      exact ⟨k, (hf.has ms h k).2 ⟨i, hi, hR⟩, hS⟩

theorem Computes.union (hf : Computes size f R) (hg : Computes size g S) :
    Computes size (fun ms => (f ms).union (g ms)) (fun i j => R i j ∨ S i j) where
  length ms h := by
    have hlen := (hf.length ms h).trans (hg.length ms h).symm
    rw [length_union hlen, hf.length ms h]
  has ms h j := by
    have hlen := (hf.length ms h).trans (hg.length ms h).symm
    rw [has_union hlen, hf.has ms h, hg.has ms h, ← exists_or]
    exact exists_congr fun i => and_or_left.symm

/-- Only some position is left. -/
theorem computes_inter {place : Nat} (hb : b.length = size) (hplace : ∀ i, b.Has i ↔ i = place) :
    Computes size (fun ms => ms.inter b) (fun i j => i = place ∧ j = i) where
  length ms h := by rw [inter, List.length_zipWith, h, hb, Nat.min_self]
  has ms _ j := by
    rw [has_inter, hplace]
    constructor
    · rintro ⟨hj, rfl⟩
      exact ⟨j, hj, rfl, rfl⟩
    · rintro ⟨i, hi, rfl, rfl⟩
      exact ⟨hi, rfl⟩

theorem computes_step (accepts : Char → Bool) (text : List Char) :
    Computes (text.length + 1) (step accepts text) (StepOver accepts text) where
  length ms h := by simp [step, h]
  has ms h j := by
    cases j with
    | zero => simp [step, StepOver]
    | succ j =>
      rw [step, has_cons_succ, Has, List.getElem?_zipWith]
      have hstep : (∃ i, ms.Has i ∧ StepOver accepts text i (j + 1)) ↔
          ms.Has j ∧ ∃ c, text[j]? = some c ∧ accepts c = true :=
        ⟨fun ⟨i, hi, e, hc⟩ => Nat.succ.inj e ▸ ⟨hi, hc⟩, fun ⟨hj, hc⟩ => ⟨j, hj, rfl, hc⟩⟩
      rw [hstep, Has]
      cases text[j]? <;> cases ms[j]? <;> simp

/-! ## Repetition -/

theorem Computes.iterate (hf : Computes size f R) (n : Nat) : Computes size (iterate f n) (Times R n) := by
  induction n with
  | zero => exact computes_id size
  | succ n ih => exact hf.comp ih

theorem Computes.upTo (hf : Computes size f R) (n : Nat) :
    Computes size (upTo f n) (fun i j => ∃ k, k ≤ n ∧ Times R k i j) := by
  induction n with
  | zero =>
    refine (computes_id size).congr fun i j => ⟨fun h => ⟨0, Nat.le_refl 0, h⟩, ?_⟩
    rintro ⟨k, hk, h⟩
    cases Nat.le_zero.1 hk
    exact h
  | succ n ih =>
    refine (((computes_id size).union hf).comp ih).congr fun i j => ⟨?_, ?_⟩
    · rintro ⟨l, rfl | hR, k, hk, h⟩
      · exact ⟨k, Nat.le_succ_of_le hk, h⟩
      · exact ⟨k + 1, Nat.succ_le_succ hk, l, hR, h⟩
    · rintro ⟨k, hk, h⟩
      cases k with
      | zero => exact ⟨i, .inl rfl, 0, Nat.zero_le n, h⟩
      | succ k =>
        obtain ⟨l, hR, h⟩ := h
        exact ⟨l, .inr hR, k, Nat.le_of_succ_le_succ hk, h⟩

theorem count_union_le (h : a.length = b.length) : (a.union b).count false ≤ a.count false := by
  induction a generalizing b with
  | nil => exact Nat.le_refl _
  | cons x a ih =>
    cases b with
    | nil => cases h
    | cons y b =>
      have := ih (Nat.succ.inj h)
      cases x <;> cases y <;> simp [union] at this ⊢ <;> omega

/-- What makes a difference leaves fewer positions without a mark. -/
theorem count_union_lt (h : a.length = b.length) (hne : a.union b ≠ a) :
    (a.union b).count false < a.count false := by
  induction a generalizing b with
  | nil => exact absurd rfl hne
  | cons x a ih =>
    cases b with
    | nil => cases h
    | cons y b =>
      have hle : List.count false (List.zipWith or a b) ≤ List.count false a :=
        count_union_le (Nat.succ.inj h)
      have hlt : List.zipWith or a b ≠ a → List.count false (List.zipWith or a b) < List.count false a :=
        ih (Nat.succ.inj h)
      cases x with
      | true =>
        simp only [union, List.zipWith_cons_cons, Bool.true_or, ne_eq, List.cons.injEq, true_and] at hne
        simpa [union] using hlt hne
      | false =>
        cases y with
        | true => simpa [union] using Nat.lt_succ_of_le hle
        | false =>
          simp only [union, List.zipWith_cons_cons, Bool.or_self, ne_eq, List.cons.injEq, true_and] at hne
          simpa [union] using hlt hne

/-- Any number of steps stays in a set that no step leads out of. -/
theorem has_iff_of_closed (hclosed : ∀ i j, ms.Has i → R i j → ms.Has j) (j : Nat) :
    ms.Has j ↔ ∃ i, ms.Has i ∧ ∃ n, Times R n i j := by
  refine ⟨fun hj => ⟨j, hj, 0, rfl⟩, ?_⟩
  rintro ⟨i, hi, n, h⟩
  induction n generalizing i with
  | zero => exact h ▸ hi
  | succ n ih =>
    obtain ⟨k, hR, h⟩ := h
    exact ih k (hclosed i k hi hR) h

theorem Computes.length_closure (hf : Computes size f R) (fuel : Nat) (h : ms.length = size) :
    (closure f fuel ms).length = size := by
  induction fuel generalizing ms with
  | zero => exact h
  | succ fuel ih =>
    rw [closure]
    split
    · exact h
    · exact ih (by rw [length_union (h.trans (hf.length ms h).symm), h])

/-- With as many rounds as there are positions without a mark, nothing is missed. -/
theorem Computes.has_closure (hf : Computes size f R) {fuel : Nat} (h : ms.length = size)
    (hfuel : ms.count false ≤ fuel) (j : Nat) :
    (closure f fuel ms).Has j ↔ ∃ i, ms.Has i ∧ ∃ n, Times R n i j := by
  induction fuel generalizing ms with
  | zero =>
    rw [closure]
    refine has_iff_of_closed (fun i j hi hR => ?_) j
    have hj : j < ms.length := by
      rw [h, ← hf.length ms h]
      exact Has.lt ((hf.has ms h j).2 ⟨i, hi, hR⟩)
    have hall : false ∉ ms := List.count_eq_zero.1 (Nat.le_zero.1 hfuel)
    have hmem := List.getElem_mem hj
    rw [Has, List.getElem?_eq_getElem hj]
    cases hm : ms[j] with
    | false => exact absurd (hm ▸ hmem) hall
    | true => rfl
  | succ fuel ih =>
    have hlen := h.trans (hf.length ms h).symm
    rw [closure]
    split
    · rename_i hsame
      refine has_iff_of_closed (fun i j hi hR => ?_) j
      rw [← hsame, has_union hlen]
      exact .inr ((hf.has ms h j).2 ⟨i, hi, hR⟩)
    · rename_i hmore
      have hlt := count_union_lt hlen hmore
      rw [ih (by rw [length_union hlen, h]) (by omega)]
      constructor
      · rintro ⟨i, hi, n, ht⟩
        rcases (has_union hlen).1 hi with hi | hi
        · exact ⟨i, hi, n, ht⟩
        · obtain ⟨l, hl, hR⟩ := (hf.has ms h i).1 hi
          exact ⟨l, hl, n + 1, i, hR, ht⟩
      · rintro ⟨i, hi, n, ht⟩
        exact ⟨i, (has_union hlen).2 (.inl hi), n, ht⟩

theorem Computes.closure (hf : Computes size f R) :
    Computes size (closure f size) (fun i j => ∃ n, Times R n i j) where
  length _ h := hf.length_closure size h
  has _ h j := hf.has_closure h (h ▸ List.count_le_length) j

end Marks

/-! ## Expressions -/

namespace Regex

/-- A part of the text from the first position to the second matches. -/
def Spans (text : List Char) : Regex → Nat → Nat → Prop
  | empty => Eq
  | set s => StepOver s.contains text
  | textStart => fun i j => i = 0 ∧ j = i
  | textEnd => fun i j => i = text.length ∧ j = i
  | seq a b => Relation.Comp (a.Spans text) (b.Spans text)
  | alt a b => fun i j => a.Spans text i j ∨ b.Spans text i j
  | repeated r least more => Relation.Comp (Times (r.Spans text) least)
      fun i j => ∃ k, (∀ most, more = some most → k ≤ most) ∧ Times (r.Spans text) k i j

theorem computes_ends (text : List Char) (r : Regex) :
    Marks.Computes (text.length + 1) (r.ends text) (r.Spans text) := by
  induction r with
  | empty => exact Marks.computes_id _
  | set s => exact Marks.computes_step _ text
  | textStart => exact Marks.computes_inter Marks.length_first fun _ => Marks.has_first
  | textEnd => exact Marks.computes_inter Marks.length_last fun _ => Marks.has_last
  | seq a b iha ihb => exact iha.comp ihb
  | alt a b iha ihb => exact iha.union ihb
  | repeated r least more ih =>
    cases more with
    | none => exact (ih.iterate least).comp (ih.closure.congr (by simp))
    | some most => exact (ih.iterate least).comp ((ih.upTo most).congr (by simp))

/-- An expression occurs in a text if it matches some part of it. -/
theorem occursIn_iff (r : Regex) (name : String) :
    r.occursIn name = true ↔ ∃ i j, i ≤ name.toList.length ∧ r.Spans name.toList i j := by
  have hhas := (computes_ends name.toList r).has _ Marks.length_every
  simp only [occursIn, Marks.any_iff_exists_has, hhas, Marks.has_every]
  exact exists_comm

end Regex

end Interpose
