/-!
# Regular expressions as a service

Expressions are compiled and run by an engine that is not part of this library. All that is asked of it
is to compile a text, which it may refuse, to say whether some part of a name matches what was compiled,
and to escape a text so that it stands for itself.
-/

namespace Interpose

/-- A compiled expression. -/
structure CompiledRegex where
  text : String
  /-- Whether the expression matches some part of a name. -/
  isMatch : String → Bool

/-- An engine for regular expressions. -/
structure RegexEngine where
  compile : String → Option CompiledRegex
  escape : String → String

end Interpose
