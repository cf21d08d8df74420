import Interpose.Matching.Matcher
/-!
# Building matchers

The criteria "this type, these behaviors" and any further ones, collected in any order. A later
criterion on the type's name or the behavior's name replaces an earlier one; the further criteria add
up. The matcher is the conjunction of all of them, the type first and the behavior second.
-/

namespace Interpose

/-- Collected criteria. -/
structure MatcherBuilder where
  typePattern : Option NamePattern := none
  subtypes : Bool := false
  /-- The pattern and the parameter types of the behavior criterion. -/
  behavior : Option (NamePattern × Option (List String)) := none
  further : List Matcher := []

namespace MatcherBuilder

/-- With the given type. -/
def onType (b : MatcherBuilder) (pattern : NamePattern) : MatcherBuilder :=
  { b with typePattern := some pattern }

/-- With declared subtypes of the type too. -/
def includeSubtypes (b : MatcherBuilder) : MatcherBuilder :=
  { b with subtypes := true }

/-- With the given behaviors; parameter types given before are dropped. -/
def onBehavior (b : MatcherBuilder) (pattern : NamePattern) : MatcherBuilder :=
  { b with behavior := some (pattern, none) }

/-- With one list of parameter types; without a behavior criterion any name that `*` covers will do. -/
def withParameters (E : RegexEngine) (b : MatcherBuilder) (parameters : List String) : MatcherBuilder :=
  { b with behavior := some ((b.behavior.map (·.1)).getD (.ofWildcard E "*"), some parameters) }

/-- With one more criterion. -/
def and (b : MatcherBuilder) (m : Matcher) : MatcherBuilder :=
  { b with further := b.further ++ [m] }

/-- The criteria in the order in which they are asked. -/
def criteria (b : MatcherBuilder) : List Matcher :=
  (b.typePattern.map (Matcher.typeName · b.subtypes)).toList ++
    (b.behavior.map fun (pattern, parameters) => Matcher.behaviorName pattern parameters).toList ++
    b.further

/-- The conjunction of the criteria; without any it chooses everything. -/
def build (b : MatcherBuilder) : Matcher :=
  b.criteria.foldl Matcher.and .all

end MatcherBuilder

end Interpose
