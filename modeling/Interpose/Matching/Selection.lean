import Interpose.Structure.Type
/-!
# Selections

The behaviors of one type that a matcher chose, in the order of choice. No two have the same
signature code, so a selection is a set of codes with an order on it.
-/

namespace Interpose

/-- Chosen behaviors; their signature codes are distinct. -/
structure Selection where
  behaviors : List Behavior
  codes_nodup : (behaviors.map Behavior.signCode).Nodup
deriving DecidableEq

namespace Selection

/-- Nothing chosen. -/
def empty : Selection :=
  ⟨[], List.nodup_nil⟩

/-- The signature codes of the chosen behaviors, in order. -/
def signCodes (s : Selection) : List String :=
  s.behaviors.map Behavior.signCode

/-- Whether a behavior with a signature code is chosen. -/
def contains (s : Selection) (code : String) : Bool :=
  s.signCodes.contains code

/-- The number of chosen behaviors. -/
def size (s : Selection) : Nat :=
  s.behaviors.length

/-- Whether anything is chosen. -/
def isMatched (s : Selection) : Bool :=
  !s.behaviors.isEmpty

/-- A selection with one more behavior at its end, unless its signature code is there. -/
def add (s : Selection) (b : Behavior) : Selection :=
  if h : b.signCode ∈ s.behaviors.map Behavior.signCode then s
  else ⟨s.behaviors ++ [b], by
    rw [List.map_append, List.nodup_append]
    refine ⟨s.codes_nodup, by simp, ?_⟩
    intro x hx y hy hxy
    simp at hy
    exact h (hy ▸ hxy ▸ hx)⟩

/-- The behaviors of a list; of those with one signature code the first. -/
def ofList (bs : List Behavior) : Selection :=
  bs.foldl add empty

/-- All behaviors of a type. -/
def all (t : StructuralType) : Selection :=
  ofList t.behaviors

/-- The behaviors of a type that satisfy a predicate. -/
def filter (t : StructuralType) (keep : Behavior → Bool) : Selection :=
  ofList (t.behaviors.filter keep)

/-- The behaviors of the first selection whose signature codes the second has too. -/
def inter (a b : Selection) : Selection :=
  ofList (a.behaviors.filter fun x => b.contains x.signCode)

/-- The first selection, followed by what only the second has. -/
def union (a b : Selection) : Selection :=
  b.behaviors.foldl add a

end Selection

end Interpose
