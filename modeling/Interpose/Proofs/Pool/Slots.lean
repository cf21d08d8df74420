import Mathlib.Algebra.GroupWithZero.Nat
import Interpose.Proofs.Pool.Interning
/-!
# The slots of a pool

Which slots of a pool are empty follows from its constants: slot 0, and the second slot of every wide
constant. A pool is `Regular` if it is so and its slots can be numbered; the slots are then those of its
constants in order (`Regular.slots_toList`). A pool that is put together constant by constant is regular
as long as there is room, and stays so when it grows (`Regular.grows`).
-/

namespace Interpose

/-- Slots of which exactly those behind a wide constant are empty. -/
def SecondsEmpty (slots : List (Option Constant)) : Prop :=
  ∀ i, slots[i]? = some none ↔ ∃ j c, i = j + 1 ∧ slots[j]? = some (some c) ∧ c.isWide

namespace SecondsEmpty

theorem nil : SecondsEmpty [] := by
  simp [SecondsEmpty]

theorem cons_narrow {c : Constant} {rest : List (Option Constant)} (hnarrow : ¬ c.isWide) :
    SecondsEmpty (some c :: rest) ↔ SecondsEmpty rest := by
  have shift (i : Nat) : (∃ j d, i + 1 = j + 1 ∧ (some c :: rest)[j]? = some (some d) ∧ d.isWide) ↔
      ∃ j d, i = j + 1 ∧ rest[j]? = some (some d) ∧ d.isWide := by
    constructor
    · rintro ⟨j, d, hj, hd, hwide⟩
      obtain rfl : j = i := by omega
      cases j with
      | zero =>
        cases hd
        exact absurd hwide hnarrow
      | succ j => exact ⟨j, d, rfl, hd, hwide⟩
    · rintro ⟨j, d, rfl, hd, hwide⟩
      exact ⟨j + 1, d, rfl, hd, hwide⟩
  refine ⟨fun h i => (h (i + 1)).trans (shift i), fun h i => ?_⟩
  cases i with
  | zero => exact ⟨nofun, fun ⟨_, _, hj, _⟩ => nomatch hj⟩
  | succ i => exact (h i).trans (shift i).symm

theorem cons_wide {c : Constant} {rest : List (Option Constant)} (hwide : c.isWide) :
    SecondsEmpty (some c :: none :: rest) ↔ SecondsEmpty rest := by
  have shift (i : Nat) :
      (∃ j d, i + 2 = j + 1 ∧ (some c :: none :: rest)[j]? = some (some d) ∧ d.isWide) ↔
      ∃ j d, i = j + 1 ∧ rest[j]? = some (some d) ∧ d.isWide := by
    constructor
    · rintro ⟨j, d, hj, hd, hwide⟩
      obtain rfl : j = i + 1 := by omega
      cases i with
      | zero => cases hd
      | succ i => exact ⟨i, d, rfl, hd, hwide⟩
    · rintro ⟨j, d, rfl, hd, hwide⟩
      exact ⟨j + 2, d, rfl, hd, hwide⟩
  refine ⟨fun h i => (h (i + 2)).trans (shift i), fun h i => ?_⟩
  match i with
  | 0 => exact ⟨nofun, fun ⟨_, _, hj, _⟩ => nomatch hj⟩
  | 1 => exact ⟨fun _ => ⟨0, c, rfl, rfl, hwide⟩, fun _ => rfl⟩
  | i + 2 => exact (h i).trans (shift i).symm

/-- Such slots are those of the constants in them. -/
theorem eq_flatMap {slots : List (Option Constant)} (h : SecondsEmpty slots) :
    slots = (slots.filterMap id).flatMap Constant.slots := by
  induction hlength : slots.length using Nat.strongRecOn generalizing slots with
  | ind n ih =>
  cases slots with
  | nil => rfl
  | cons slot rest =>
  cases slot with
  | none =>
    obtain ⟨j, c, hj, -⟩ := (h 0).1 rfl
    cases hj
  | some c =>
    have hhead : ((some c :: rest).filterMap id).flatMap Constant.slots
        = c.slots ++ (rest.filterMap id).flatMap Constant.slots := rfl
    rw [hhead, Constant.slots]
    by_cases hwide : c.isWide
    · have hsecond : rest[0]? = some none := (h 1).2 ⟨0, c, rfl, rfl, hwide⟩
      cases rest with
      | nil => cases hsecond
      | cons second rest =>
        cases hsecond
        rw [if_pos hwide]
        exact congrArg (fun slots => some c :: none :: slots)
          (ih rest.length (by rw [← hlength, List.length_cons, List.length_cons]; omega)
            ((cons_wide hwide).1 h) rfl)
    · rw [if_neg hwide]
      exact congrArg (some c :: ·)
        (ih rest.length (by rw [← hlength]; simp) ((cons_narrow hwide).1 h) rfl)

theorem flatMap (cs : List Constant) : SecondsEmpty (cs.flatMap Constant.slots) := by
  induction cs with
  | nil => exact .nil
  | cons c cs ih =>
    rw [List.flatMap_cons, Constant.slots]
    split
    case isTrue hwide => exact (cons_wide hwide).2 ih
    case isFalse hnarrow => exact (cons_narrow hnarrow).2 ih

end SecondsEmpty

namespace Pool

/-- Slots are numbered by 16 bits; slot 0 is empty, and so is the second slot of a wide constant, but no
other. -/
structure Regular (p : Pool) : Prop where
  count_lt : p.count < 0x10000
  empty_iff : ∀ i, p.slots[i]? = some none ↔
    i = 0 ∨ ∃ j c, i = j + 1 ∧ p.slots[j]? = some (some c) ∧ c.isWide

variable {p q : Pool}

theorem Regular.sound (hp : p.Regular) : p.Sound :=
  ⟨(hp.empty_iff 0).2 (.inl rfl), Nat.le_of_lt hp.count_lt⟩

/-- A pool whose slots are those of constants, behind slot 0. -/
theorem Regular.of_slots {cs : List Constant} (hcount : p.count < 0x10000)
    (hslots : p.slots.toList = none :: cs.flatMap Constant.slots) : p.Regular := by
  refine ⟨hcount, fun i => ?_⟩
  have hslot (i : Nat) : p.slots[i]? = (none :: cs.flatMap Constant.slots)[i]? := by
    rw [← hslots, Array.getElem?_toList]
  cases i with
  | zero => exact iff_of_true (hslot 0) (.inl rfl)
  | succ i =>
    rw [hslot, List.getElem?_cons_succ, SecondsEmpty.flatMap cs i]
    constructor
    · rintro ⟨j, c, rfl, hc, hwide⟩
      exact .inr ⟨j + 1, c, rfl, by rw [hslot]; exact hc, hwide⟩
    · rintro (hi | ⟨j, c, hj, hc, hwide⟩)
      · cases hi
      rw [hslot] at hc
      obtain rfl : j = i := by omega
      cases j with
      | zero => cases hc
      | succ j => exact ⟨j, c, rfl, hc, hwide⟩

theorem constants_map_snd (p : Pool) : p.constants.map (·.2) = p.slots.toList.filterMap id := by
  have hfst : p.slots.toList = p.slots.toList.zipIdx.map (·.1) := (List.zipIdx_map_fst 0 _).symm
  rw [constants, List.map_filterMap, hfst, List.filterMap_map, ← hfst]
  congr 1
  funext ⟨slot, i⟩
  cases slot <;> rfl

/-- The slots of a regular pool follow from its constants. -/
theorem Regular.slots_toList (hp : p.Regular) :
    p.slots.toList = none :: (p.constants.map (·.2)).flatMap Constant.slots := by
  have hslot (i) : p.slots.toList[i]? = some none ↔
      i = 0 ∨ ∃ j c, i = j + 1 ∧ p.slots.toList[j]? = some (some c) ∧ c.isWide := by
    simpa using hp.empty_iff i
  rw [constants_map_snd]
  generalize p.slots.toList = slots at hslot
  have hfirst := (hslot 0).2 (.inl rfl)
  match slots, hfirst with
  | none :: rest, _ =>
    have hrest : SecondsEmpty rest := by
      refine fun i => (hslot (i + 1)).trans ⟨?_, ?_⟩
      · rintro (hi | ⟨j, c, hj, hc, hwide⟩)
        · cases hi
        obtain rfl : j = i := by omega
        cases j with
        | zero => cases hc
        | succ j => exact ⟨j, c, rfl, hc, hwide⟩
      · rintro ⟨j, c, rfl, hc, hwide⟩
        exact .inr ⟨j + 1, c, rfl, hc, hwide⟩
    exact congrArg (none :: ·) hrest.eq_flatMap

theorem length_flatMap_slots (cs : List Constant) :
    (cs.flatMap Constant.slots).length = (cs.map Constant.width).sum := by
  rw [List.length_flatMap]
  congr 2
  funext c
  unfold Constant.slots Constant.width
  split <;> rfl

theorem Regular.count_eq (hp : p.Regular) :
    p.count = ((p.constants.map (·.2)).map Constant.width).sum + 1 := by
  rw [count, ← Array.length_toList, hp.slots_toList, List.length_cons, length_flatMap_slots]

theorem foldl_appendConstant_slots (cs : List Constant) (p : Pool) :
    (cs.foldl appendConstant p).slots.toList = p.slots.toList ++ cs.flatMap Constant.slots := by
  induction cs generalizing p with
  | nil => simp
  | cons c cs ih =>
    rw [List.foldl_cons, ih, appendConstant_slots, List.flatMap_cons, List.append_assoc]

/-- A regular pool stays regular when it grows. -/
theorem Regular.grows (hp : p.Regular) (h : p.Grows q) : q.Regular := by
  obtain ⟨cs, hcs⟩ := h.added
  have hcount := h.count_le
  have hlt := hp.count_lt
  have hslots : q.slots.toList = none :: (p.constants.map (·.2) ++ cs).flatMap Constant.slots := by
    rw [hcs, hp.slots_toList, List.flatMap_append, List.cons_append]
  exact .of_slots (by omega) hslots

end Pool

end Interpose
