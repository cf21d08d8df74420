import Mathlib.Data.List.Flatten
import Mathlib.Data.List.Forall2
/-!
# Pieces of a list

A list that is put together from pieces, one for each element of another list: where the pieces start,
and which piece a place is in.
-/

namespace Interpose

variable {α β : Type} (f : α → List β)

/-- Where the pieces of the elements from a number on start. -/
def pieceStart (xs : List α) (i : Nat) : Nat :=
  ((xs.take i).flatMap f).length

variable {f} {xs : List α} {x : α} {i j : Nat}

theorem pieceStart_succ (h : xs[i]? = some x) :
    pieceStart f xs (i + 1) = pieceStart f xs i + (f x).length := by
  obtain ⟨hi, rfl⟩ := List.getElem?_eq_some_iff.1 h
  unfold pieceStart
  rw [List.take_succ_eq_append_getElem hi, List.flatMap_append, List.length_append]
  simp

theorem pieceStart_mono (h : i ≤ j) : pieceStart f xs i ≤ pieceStart f xs j := by
  unfold pieceStart
  obtain ⟨k, rfl⟩ := Nat.exists_eq_add_of_le h
  rw [List.take_add, List.flatMap_append, List.length_append]
  exact Nat.le_add_right _ _

theorem pieceStart_length : pieceStart f xs xs.length = (xs.flatMap f).length := by
  unfold pieceStart
  rw [List.take_length]

theorem getElem?_piece (h : xs[i]? = some x) (hj : j < (f x).length) :
    (xs.flatMap f)[pieceStart f xs i + j]? = (f x)[j]? := by
  obtain ⟨hi, rfl⟩ := List.getElem?_eq_some_iff.1 h
  have hsplit : xs.flatMap f =
      (xs.take i).flatMap f ++ (f xs[i] ++ (xs.drop (i + 1)).flatMap f) := by
    rw [← List.flatMap_cons, ← List.flatMap_append, List.getElem_cons_drop, List.take_append_drop]
  rw [hsplit, pieceStart, List.getElem?_append_right (Nat.le_add_right _ _), Nat.add_sub_cancel_left,
    List.getElem?_append_left hj]

theorem exists_piece {k : Nat} (hk : k < (xs.flatMap f).length) :
    ∃ i x j, xs[i]? = some x ∧ j < (f x).length ∧ k = pieceStart f xs i + j := by
  induction xs generalizing k with
  | nil => simp at hk
  | cons x xs ih =>
    rw [List.flatMap_cons, List.length_append] at hk
    by_cases hx : k < (f x).length
    · exact ⟨0, x, k, rfl, hx, by simp [pieceStart]⟩
    · obtain ⟨i, y, j, hy, hj, hkj⟩ := ih (k := k - (f x).length) (by omega)
      refine ⟨i + 1, y, j, hy, hj, ?_⟩
      have : pieceStart f (x :: xs) (i + 1) = (f x).length + pieceStart f xs i := by
        simp [pieceStart]
      omega

theorem forall₂_getElem? {R : α → β → Prop} {ys : List β} (h : List.Forall₂ R xs ys)
    (hx : xs[i]? = some x) : ∃ y, ys[i]? = some y ∧ R x y := by
  induction h generalizing i with
  | nil => simp at hx
  | cons hxy _ ih =>
    cases i with
    | zero =>
      cases hx
      exact ⟨_, rfl, hxy⟩
    | succ i => exact ih hx

/-- What stands beside a list in two parts is in two parts. -/
theorem forall₂_append_left {R : α → β → Prop} {xs xs' : List α} {ys : List β}
    (h : List.Forall₂ R (xs ++ xs') ys) : ∃ zs zs', ys = zs ++ zs' ∧ List.Forall₂ R xs zs ∧
      List.Forall₂ R xs' zs' :=
  ⟨_, _, (List.take_append_drop xs.length ys).symm,
    (List.forall₂_take_append ys xs xs' h.flip).flip, (List.forall₂_drop_append ys xs xs' h.flip).flip⟩

/-- Searches that agree on elements that stand beside each other find such elements. -/
theorem forall₂_find? {R : α → β → Prop} {p : α → Bool} {q : β → Bool}
    (hpq : ∀ x y, R x y → p x = q y) {xs : List α} {ys : List β} (h : List.Forall₂ R xs ys) :
    Option.Rel R (xs.find? p) (ys.find? q) := by
  induction h with
  | nil => exact .none
  | @cons x y _ _ hxy _ ih =>
    rw [List.find?_cons, List.find?_cons, hpq x y hxy]
    split
    · exact .some hxy
    · exact ih

end Interpose
