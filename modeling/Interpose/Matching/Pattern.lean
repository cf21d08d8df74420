import Interpose.Matching.RegexEngine
import Interpose.Text.Described
/-!
# Name patterns

A predicate on names: an exact text, a wildcard pattern or a regular expression over the whole name. A
pattern with wildcards is translated to an expression between anchors, piece by piece: a `*` is `.*`, a
`?` is `.`, and the characters between two wildcards are escaped together.
-/

namespace Interpose

/-- A predicate on names. -/
inductive NamePattern where
  | exact (text : String)
  | wildcard (source : String) (compiled : CompiledRegex)
  | regex (compiled : CompiledRegex)

namespace NamePattern

/-- What a pattern was translated to, and the characters since the last wildcard. -/
structure Translation where
  expr : String := "^"
  literal : String := ""

variable (E : RegexEngine)

/-- The expression with the characters that are left over. -/
def Translation.flushed (t : Translation) : String :=
  t.expr ++ E.escape t.literal

/-- Takes one more character of the pattern. -/
def Translation.next (t : Translation) (c : Char) : Translation :=
  if c = '*' ∨ c = '?' then
    { expr := t.flushed E ++ if c = '*' then ".*" else "." }
  else { t with literal := t.literal.push c }

/-- A pattern as an expression. -/
def wildcardExpression (pattern : String) : String :=
  (pattern.toList.foldl (Translation.next E) {}).flushed E ++ "$"

/-- Whether a text has a wildcard in it. -/
def hasWildcard (pattern : String) : Bool :=
  pattern.toList.any fun c => c == '*' || c == '?'

/-- The pattern of a text with wildcards. Without any it is that very name, and so it is if the engine
refuses the expression. -/
def ofWildcard (pattern : String) : NamePattern :=
  if hasWildcard pattern then
    match E.compile (wildcardExpression E pattern) with
    | some compiled => wildcard pattern compiled
    | none => exact pattern
  else exact pattern

/-- The pattern of a regular expression that is to cover the whole name. The expression is put
between anchors as text, before it is compiled. -/
def ofRegex (text : String) : Option NamePattern :=
  (E.compile ("^(?:" ++ text ++ ")$")).map regex

/-- Whether a name satisfies the pattern. -/
def holds (name : String) : NamePattern → Bool
  | exact text => text == name
  | wildcard _ compiled => compiled.isMatch name
  | regex compiled => compiled.isMatch name

/-- The description of a pattern. -/
def describe : NamePattern → String
  | exact text => "Exact(" ++ quoted text ++ ")"
  | wildcard source _ => "Wildcard(" ++ quoted source ++ ")"
  | regex compiled => "Regex(" ++ quoted compiled.text ++ ")"

end NamePattern

end Interpose
