import Interpose.Matching.Regex
import Interpose.Matching.RegexEngine
/-!
# The text form of regular expressions

Reading goes in two steps. `Regex.tokens` cuts the text into character sets, assertions, brackets,
bars and repetition counts; `Regex.ofTokens` keeps one level per open group, each with the
alternatives that are complete and the items of the one that is not. A repetition without an item
before it, an unbalanced group, an unfinished class or an escape without meaning is refused.
-/

namespace Interpose

/-- A piece of the text of an expression. -/
inductive RegexToken where
  | set (s : CharSet)
  | textStart
  | textEnd
  | groupOpen
  | groupClose
  | bar
  | count (least : Nat) (more : Option Nat)
deriving DecidableEq

namespace RegexToken

/-- The set that an escape letter or an escaped sign of punctuation stands for. -/
def escape (c : Char) : Option CharSet :=
  match c with
  | 'd' => some .digit
  | 'D' => some (.except .digit)
  | 'w' => some .word
  | 'W' => some (.except .word)
  | 's' => some .blank
  | 'S' => some (.except .blank)
  | 'n' => some (.only '\n')
  | 't' => some (.only '\t')
  | 'r' => some (.only '\r')
  | 'f' => some (.only '\x0c')
  | 'v' => some (.only '\x0b')
  | 'a' => some (.only '\x07')
  | c =>
    let n := c.toNat
    if n < 128 ∧ 32 < n ∧ n ≠ 127 ∧ !c.isAlphanum ∧ c ≠ '<' ∧ c ≠ '>' then some (.only c) else none

/-- The number at the front of a text, and what follows it; there must be a digit. -/
def number (text : List Char) : Option (Nat × List Char) :=
  let digits := text.takeWhile Char.isDigit
  let n := digits.foldl (fun n d => n * 10 + (d.toNat - 48)) 0
  if digits.isEmpty || 0x100000000 ≤ n then none else some (n, text.drop digits.length)

/-- The bounds of a repetition behind its opening brace, and what follows the closing one. -/
def bounds (text : List Char) : Option ((Nat × Option Nat) × List Char) := do
  let (least, rest) ← number text
  match rest with
  | '}' :: rest => return ((least, some 0), rest)
  | ',' :: '}' :: rest => return ((least, none), rest)
  | ',' :: rest =>
    let (most, rest) ← number rest
    match rest with
    | '}' :: rest => if least ≤ most then return ((least, some (most - least)), rest) else none
    | _ => none
  | _ => none

/-- A member of a class and what follows it: a character or an escape. The flag tells a single
character, which may bound a range. -/
def member : List Char → Option ((CharSet × Option Char) × List Char)
  | '\\' :: c :: rest => do
    let s ← escape c
    match s with
    | .range lo _ => return ((s, some lo), rest)
    | _ => return ((s, none), rest)
  | '\\' :: [] => none
  | '[' :: _ => none
  | c :: rest => some ((.only c, some c), rest)
  | [] => none

/-- The members of a class up to its closing bracket, and what follows it. -/
def members : (fuel : Nat) → CharSet → List Char → Option (CharSet × List Char)
  | 0, _, _ => none
  | _, _, [] => none
  | _ + 1, found, ']' :: rest => some (found, rest)
  | fuel + 1, found, text => do
    let ((s, lo), rest) ← member text
    match rest with
    | '-' :: ']' :: _ | '-' :: '-' :: _ => members fuel (.union found s) rest
    | '-' :: rest =>
      let ((_, hi), rest) ← member rest
      match lo, hi with
      | some lo, some hi => if lo ≤ hi then members fuel (.union found (.range lo hi)) rest else none
      | _, _ => none
    | rest => members fuel (.union found s) rest

/-- A class behind its opening bracket, and what follows it. A bracket that comes first is a member,
and so are the dashes in front of it. -/
def charClass (text : List Char) : Option (CharSet × List Char) := do
  let (negated, text) := match text with
    | '^' :: rest => (true, rest)
    | text => (false, text)
  let dashes := text.takeWhile (· == '-')
  let text := text.drop dashes.length
  let found : CharSet := if dashes.isEmpty then .empty else .only '-'
  let (found, text) := match text, dashes with
    | ']' :: rest, [] => (found.union (.only ']'), rest)
    | text, _ => (found, text)
  let (s, rest) ← members (text.length + 1) found text
  return (if negated then .except s else s, rest)

/-- A text without the mark of a lazy repetition at its front. -/
def withoutLazyMark : List Char → List Char
  | '?' :: rest => rest
  | rest => rest

/-- The first token of a text that is not empty, and what follows it. -/
def next (c : Char) (rest : List Char) : Option (RegexToken × List Char) :=
  match c with
  | '\\' =>
    match rest with
    | 'A' :: rest => some (textStart, rest)
    | 'z' :: rest => some (textEnd, rest)
    | c :: rest => (escape c).map fun s => (set s, rest)
    | [] => none
  | '[' => (charClass rest).map fun (s, rest) => (set s, rest)
  | '(' =>
    match rest with
    | '?' :: ':' :: rest => some (groupOpen, rest)
    | '?' :: _ => none
    | rest => some (groupOpen, rest)
  | ')' => some (groupClose, rest)
  | '|' => some (bar, rest)
  | '^' => some (textStart, rest)
  | '$' => some (textEnd, rest)
  | '.' => some (set .anyOfLine, rest)
  | '*' => some (count 0 none, withoutLazyMark rest)
  | '+' => some (count 1 none, withoutLazyMark rest)
  | '?' => some (count 0 (some 1), withoutLazyMark rest)
  | '{' => (bounds rest).map fun ((least, more), rest) => (count least more, withoutLazyMark rest)
  | c => some (set (.only c), rest)

/-- The tokens of a text. -/
def ofText : (fuel : Nat) → List Char → Option (List RegexToken)
  | _, [] => some []
  | 0, _ => none
  | fuel + 1, c :: rest => do
    let (t, rest) ← next c rest
    return t :: (← ofText fuel rest)

end RegexToken

namespace Regex

/-- A group that is still open: the alternatives that are complete, and the items of the last one,
the newest first. -/
structure Level where
  complete : Option Regex := none
  items : List Regex := []

/-- The expression of a group. -/
def Level.close (l : Level) : Regex :=
  let last := l.items.foldl (fun r item => match r with
    | empty => item
    | r => seq item r) empty
  match l.complete with
  | some r => alt r last
  | none => last

/-- Reads tokens into the innermost open group; `outer` are the groups around it. -/
def ofTokens (level : Level) (outer : List Level) : List RegexToken → Option Regex
  | [] => if outer.isEmpty then some level.close else none
  | .set s :: ts => ofTokens { level with items := set s :: level.items } outer ts
  | .textStart :: ts => ofTokens { level with items := textStart :: level.items } outer ts
  | .textEnd :: ts => ofTokens { level with items := textEnd :: level.items } outer ts
  | .groupOpen :: ts => ofTokens {} (level :: outer) ts
  | .bar :: ts => ofTokens { complete := some level.close } outer ts
  | .groupClose :: ts =>
    match outer with
    | parent :: outer => ofTokens { parent with items := level.close :: parent.items } outer ts
    | [] => none
  | .count least more :: ts =>
    match level.items with
    | r :: items => ofTokens { level with items := repeated r least more :: items } outer ts
    | [] => none

/-- The expression that a text denotes. -/
def ofText (text : String) : Option Regex := do
  ofTokens {} [] (← RegexToken.ofText text.length text.toList)

/-- The characters that have a meaning in expressions. -/
def metaCharacters : List Char :=
  ['\\', '.', '+', '*', '?', '(', ')', '|', '[', ']', '{', '}', '^', '$', '#', '&', '-', '~']

/-- A character as an expression for itself. -/
def escapedChar (c : Char) : List Char :=
  if c ∈ metaCharacters then ['\\', c] else [c]

/-- Reading, matching and escaping, as one engine. -/
def engine : RegexEngine where
  compile text := (ofText text).map fun r => { text, isMatch := r.occursIn }
  escape text := String.ofList (text.toList.flatMap escapedChar)

end Regex

end Interpose
