import Interpose.Matching.Pattern
import Interpose.Matching.Selection
/-!
# Matchers

A matcher chooses behaviors of one type. The algebra of matchers is that of sets of signature codes:
`and` intersects, `or` unites and `not` takes the complement in the type. A guarded matcher chooses
nothing of a type that must not be woven, and does not ask the matcher behind it. A matcher that the
host supplies may fail.
-/

namespace Interpose

/-- Why a matcher gave no selection. -/
inductive MatchError where
  | failed (reason : String)
  | panicked (reason : String)
deriving DecidableEq

/-- The text of an error. -/
def MatchError.message : MatchError → String
  | failed reason => "matcher failed: " ++ reason
  | panicked reason => "matcher panicked: " ++ reason

/-- A choice of behaviors. -/
inductive Matcher where
  | all
  /-- All behaviors of the types with a name; with subtypes also of those that declare it as their
  superclass or as an interface. -/
  | typeName (pattern : NamePattern) (subtypes : Bool)
  /-- The behaviors with a name and, if given, exactly these parameter types. -/
  | behaviorName (pattern : NamePattern) (parameters : Option (List String))
  | typeAnnotated (pattern : NamePattern)
  | behaviorAnnotated (pattern : NamePattern)
  | and (a b : Matcher)
  | or (a b : Matcher)
  | not (a : Matcher)
  | guarded (a : Matcher) (enableUnsafe : Bool)
  | custom (choose : StructuralType → Except MatchError Selection)

namespace Matcher

/-- Whether a type satisfies a pattern by its name or, with subtypes, by a declared parent's. -/
def acceptsType (pattern : NamePattern) (subtypes : Bool) (t : StructuralType) : Bool :=
  pattern.holds t.javaName ||
    subtypes && (t.superName.any (pattern.holds ·) || t.interfaces.any (pattern.holds ·))

/-- Whether a behavior satisfies a pattern and a list of parameter types. -/
def acceptsBehavior (pattern : NamePattern) (parameters : Option (List String)) (b : Behavior) :
    Bool :=
  pattern.holds b.name && parameters.all (· == b.parameters)

/-- All behaviors of a type, or none. -/
def allIf (t : StructuralType) (accepted : Bool) : Selection :=
  if accepted then Selection.all t else Selection.empty

/-- Whether a type must not be woven: a type of the engine, and without unsafe mode any type of the
root scope. -/
def refuses (enableUnsafe : Bool) (t : StructuralType) : Bool :=
  t.isEngineType || t.boundary.isBootstrap && !enableUnsafe

/-- The behaviors of a type that the matcher chooses. The second side of an `and` is asked only if
the first one chose something. -/
def choose (t : StructuralType) : Matcher → Except MatchError Selection
  | all => return Selection.all t
  | typeName pattern subtypes => return allIf t (acceptsType pattern subtypes t)
  | behaviorName pattern parameters => return Selection.filter t (acceptsBehavior pattern parameters)
  | typeAnnotated pattern => return allIf t (t.annotations.any (pattern.holds ·))
  | behaviorAnnotated pattern =>
    return Selection.filter t fun b => b.annotations.any (pattern.holds ·)
  | and a b => do
    let left ← a.choose t
    if left.isMatched then return left.inter (← b.choose t) else return left
  | or a b => do
    let left ← a.choose t
    let right ← b.choose t
    return left.union right
  | not a => do
    let excluded ← a.choose t
    return Selection.filter t fun b => !excluded.contains b.signCode
  | guarded a enableUnsafe =>
    if refuses enableUnsafe t then return Selection.empty else a.choose t
  | custom choose => choose t

end Matcher

end Interpose
