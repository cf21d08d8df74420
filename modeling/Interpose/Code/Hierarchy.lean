import Std.Data.TreeMap
import Interpose.Names
/-!
# Class hierarchies

Where two paths meet with objects of different classes, the meeting point holds an object of a
common superclass. A `Hierarchy` answers which. The root class is an answer that is always safe;
known superclass links give a closer one.

Results:
* `SuperclassLinks.ancestry` follows links upwards and stops in front of a class it has met, so it
  ends for cyclic links too.
-/

namespace Interpose

/-- Answers a common superclass of two classes. -/
structure Hierarchy where
  common : String → String → String

namespace Hierarchy

/-- Answers the root class always. -/
def rootOnly : Hierarchy := ⟨fun _ _ => objectClass⟩

end Hierarchy

/-- Known superclasses; every class has at most one. -/
structure SuperclassLinks where
  supers : Std.TreeMap String String := ∅

namespace SuperclassLinks

/-- A further link; it replaces an earlier one of the same class. -/
def insert (l : SuperclassLinks) (className superName : String) : SuperclassLinks :=
  ⟨l.supers.insert className superName⟩

/-- The links of a list of pairs, in order. -/
def ofList (pairs : List (String × String)) : SuperclassLinks :=
  pairs.foldl (fun l (c, s) => l.insert c s) {}

/-- Climbs at most `limit` links from the last class of a chain (latest first). -/
def climb (l : SuperclassLinks) : (limit : Nat) → (current : String) → (chain : List String) →
    List String
  | 0, _, chain => chain
  | limit + 1, current, chain =>
    match l.supers[current]? with
    | none => chain
    | some parent => if parent ∈ chain then chain else l.climb limit parent (parent :: chain)

/-- A class and its known superclasses, nearest first; no class occurs twice. -/
def ancestry (l : SuperclassLinks) (className : String) : List String :=
  (l.climb (l.supers.size + 1) className [className]).reverse

/-- The nearest superclass of the second class that is also one of the first; the root class when
the links show none. -/
def common (l : SuperclassLinks) (a b : String) : String :=
  let left := l.ancestry a
  ((l.ancestry b).find? (left.contains ·)).getD objectClass

/-- The hierarchy the links describe. -/
def hierarchy (l : SuperclassLinks) : Hierarchy := ⟨l.common⟩

end SuperclassLinks

end Interpose
