/-!
# Reachability

The positions below a bound that a successor function leads to. `reachFrom` keeps a stack of
positions to visit and a mark per position; a position is expanded once, so the pair of unmarked
positions and stack height goes down in every step.
-/

namespace Interpose

theorem count_set_true_lt (seen : Array Bool) (i : Nat) (h : i < seen.size) (hm : ¬ seen[i] = true) :
    (seen.set i true h).count false < seen.count false := by
  have unmarked : seen[i] = false := Bool.eq_false_iff.2 hm
  have positive : 0 < seen.count false := Array.count_pos_iff.2 (unmarked ▸ Array.getElem_mem h)
  have fewer := Array.count_set (a := true) (b := false) h
  rw [unmarked] at fewer
  rw [fewer]
  exact Nat.sub_lt positive Nat.one_pos

/-- The marks after following successors from every position of the stack. -/
def reachFrom (next : Nat → List Nat) (seen : Array Bool) (work : List Nat) : Array Bool :=
  match work with
  | [] => seen
  | i :: rest =>
    if h : i < seen.size then
      if hm : seen[i] = true then reachFrom next seen rest
      else reachFrom next (seen.set i true h) (next i ++ rest)
    else reachFrom next seen rest
termination_by (seen.count false, work.length)
decreasing_by
  · apply Prod.Lex.right; simp
  · exact Prod.Lex.left _ _ (count_set_true_lt seen i h hm)
  · apply Prod.Lex.right; simp

/-- Which positions below `n` can be reached from a position, the position itself included. -/
def reachable (n : Nat) (next : Nat → List Nat) (start : Nat) : Array Bool :=
  reachFrom next (Array.replicate n false) [start]

end Interpose
