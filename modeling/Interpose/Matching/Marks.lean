/-!
# Marked positions of a text

A text of `n` characters has `n + 1` positions, the one behind the last character included. A set of
positions is a list of flags. An expression maps the positions where it may begin to those where it may
end; such maps are put together from steps over one character.
-/

namespace Interpose

/-- One flag per position of a text. -/
abbrev Marks := List Bool

namespace Marks

/-- Only the first position. -/
def first (text : List Char) : Marks :=
  true :: text.map fun _ => false

/-- Only the last position. -/
def last (text : List Char) : Marks :=
  text.foldr (fun _ ms => false :: ms) [true]

/-- Every position. -/
def every (text : List Char) : Marks :=
  true :: text.map fun _ => true

/-- The positions of either set. -/
def union (a b : Marks) : Marks :=
  List.zipWith or a b

/-- The positions of both sets. -/
def inter (a b : Marks) : Marks :=
  List.zipWith and a b

/-- The positions behind an accepted character that starts at a marked position. -/
def step (accepts : Char → Bool) (text : List Char) (ms : Marks) : Marks :=
  false :: List.zipWith (fun c m => m && accepts c) text ms

/-- The positions a step reaches when it is taken any number of times, at most `fuel`. -/
def closure (f : Marks → Marks) : (fuel : Nat) → Marks → Marks
  | 0, ms => ms
  | fuel + 1, ms =>
    let more := ms.union (f ms)
    if more = ms then ms else closure f fuel more

/-- A step taken a given number of times. -/
def iterate (f : Marks → Marks) : Nat → Marks → Marks
  | 0, ms => ms
  | n + 1, ms => iterate f n (f ms)

/-- The positions a step reaches when it is taken at most a given number of times. -/
def upTo (f : Marks → Marks) : Nat → Marks → Marks
  | 0, ms => ms
  | n + 1, ms => upTo f n (ms.union (f ms))

end Marks

end Interpose
