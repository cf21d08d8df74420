/-!
# Event kinds

The points of a method's execution that can be observed, and sets of them. A set is the sum of the
flags of its members; a flag that belongs to no kind is kept and means nothing.
-/

namespace Interpose

/-- A point of execution that can be observed. -/
inductive EventKind where
  /-- A method is about to run its body. -/
  | before
  /-- A method is about to return. -/
  | return
  /-- An exception is about to leave a method. -/
  | throws
  /-- A source line is reached. -/
  | line
  /-- A method is about to be invoked. -/
  | callBefore
  /-- An invoked method has returned. -/
  | callReturn
  /-- An invoked method has thrown. -/
  | callThrows
deriving DecidableEq

namespace EventKind

/-- Every kind, in the order of the flags. -/
def all : List EventKind :=
  [before, .return, throws, line, callBefore, callReturn, callThrows]

/-- The flag of a kind. -/
def flag : EventKind → UInt8
  | before => 1
  | .return => 2
  | throws => 4
  | line => 8
  | callBefore => 16
  | callReturn => 32
  | callThrows => 64

/-- The name of a kind. -/
def name : EventKind → String
  | before => "BEFORE"
  | .return => "RETURN"
  | throws => "THROWS"
  | line => "LINE"
  | callBefore => "CALL_BEFORE"
  | callReturn => "CALL_RETURN"
  | callThrows => "CALL_THROWS"

end EventKind

/-- A set of event kinds. -/
structure EventKinds where
  bits : UInt8
deriving DecidableEq

namespace EventKinds

/-- No kind. -/
def empty : EventKinds := ⟨0⟩

/-- Whether a kind is in the set. -/
def has (s : EventKinds) (k : EventKind) : Bool :=
  s.bits &&& k.flag == k.flag

/-- The set with one more kind. -/
def insert (s : EventKinds) (k : EventKind) : EventKinds :=
  ⟨s.bits ||| k.flag⟩

/-- The set of the kinds of a list. -/
def ofList (ks : List EventKind) : EventKinds :=
  ks.foldl insert empty

/-- The kinds of the set in the order of their flags. -/
def toList (s : EventKinds) : List EventKind :=
  EventKind.all.filter s.has

/-- The kinds that observe the invocations a method makes. -/
def calls : EventKinds :=
  ofList [.callBefore, .callReturn, .callThrows]

/-- Whether two sets have a flag in common. -/
def meets (a b : EventKinds) : Bool :=
  a.bits &&& b.bits != 0

end EventKinds

end Interpose
