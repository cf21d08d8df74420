import Interpose.Matching.Marks
import Interpose.Text.WordChar
/-!
# An engine for regular expressions

The engine that the library runs with when the host brings none. An expression maps the positions of a text where it may begin to those where it may end. As only the
question whether there is a match is asked, greedy and lazy repetition mean the same, and a group is
what it holds. The engine works on sets of positions: its time is bounded by the expression and the
text, without backtracking.
-/

namespace Interpose

/-- A set of characters. -/
inductive CharSet where
  | empty
  | range (lo hi : Char)
  | digit
  | word
  | blank
  | union (a b : CharSet)
  | except (a : CharSet)
deriving DecidableEq

namespace CharSet

/-- Whether a character is in the set. -/
def contains (c : Char) : CharSet → Bool
  | empty => false
  | range lo hi => lo ≤ c && c ≤ hi
  | digit => isDigitChar c
  | word => isWordChar c
  | blank => isBlank c
  | union a b => a.contains c || b.contains c
  | except a => !a.contains c

/-- The set of one character. -/
def only (c : Char) : CharSet :=
  range c c

/-- Every character but the line feed. -/
def anyOfLine : CharSet :=
  except (only '\n')

end CharSet

/-- A regular expression. -/
inductive Regex where
  | empty
  | set (s : CharSet)
  | textStart
  | textEnd
  | seq (a b : Regex)
  | alt (a b : Regex)
  /-- At least `least` times, and at most `least + more` times or without bound. -/
  | repeated (r : Regex) (least : Nat) (more : Option Nat)
deriving DecidableEq

namespace Regex

/-- The positions where a match may end, given those where it may begin. -/
def ends (text : List Char) : Regex → Marks → Marks
  | empty, ms => ms
  | set s, ms => Marks.step s.contains text ms
  | textStart, ms => ms.inter (Marks.first text)
  | textEnd, ms => ms.inter (Marks.last text)
  | seq a b, ms => b.ends text (a.ends text ms)
  | alt a b, ms => (a.ends text ms).union (b.ends text ms)
  | repeated r least more, ms =>
    let ms := Marks.iterate (r.ends text) least ms
    match more with
    | some n => Marks.upTo (r.ends text) n ms
    | none => Marks.closure (r.ends text) (text.length + 1) ms

/-- Whether some part of a text matches. -/
def occursIn (r : Regex) (name : String) : Bool :=
  let text := name.toList
  (r.ends text (Marks.every text)).any id

end Regex

end Interpose
