import Interpose.Text.Path
import Interpose.Transform.Affected
import Interpose.Weave.Weaver
/-!
# Transforming classes for a listener

For every class that is loaded or redefined: classes of the engine are left alone unseen; of all
others the structure is matched, and what the matcher chose is woven. A class that cannot be
transformed stays as it is. What was woven is recorded.
-/

namespace Interpose

/-- What the host knows of common superclasses: per scope and pair of classes an answer, or none. -/
abbrev KnownSupers := Boundary → String → String → Option String

/-- The hierarchy as one scope sees it; where the host knows nothing, the root class. -/
def KnownSupers.hierarchy (known : KnownSupers) (boundary : Boundary) : Hierarchy :=
  ⟨fun a b => (known boundary a b).getD (Hierarchy.rootOnly.common a b)⟩

/-- What the host knows of one pair of classes in the scope with a number. -/
structure SuperRule where
  scope : Int32
  left : String
  right : String
  answer : String
deriving DecidableEq

/-- Whether the rule is about two classes, in either order, as a scope sees them. -/
def SuperRule.concerns (r : SuperRule) (boundary : Boundary) (a b : String) : Bool :=
  r.scope == boundary.objectId && (r.left == a && r.right == b || r.left == b && r.right == a)

/-- What a list of rules says: the first one about a pair counts. -/
def KnownSupers.ofRules (rules : List SuperRule) : KnownSupers := fun boundary a b =>
  (rules.find? (·.concerns boundary a b)).map (·.answer)

/-- Matches and weaves classes for one listener. -/
structure Coordinator where
  space : String
  listener : Int32
  kinds : EventKinds
  enableUnsafe : Bool
  matcher : Matcher
  /-- The directory that gets a copy of every woven class. -/
  dumpPath : Option Path := none
  affected : Affected := {}

/-- A class that is loaded or redefined. -/
structure LoadRequest where
  boundary : Boundary
  /-- The class-file spelling of the name. -/
  className : String
  /-- What the host knows of the class, if it is redefined. -/
  redefined : Option TypeHandle
  bytes : Bytes

/-- What became of a class, and the file with a copy of it, below the dump directory. -/
structure Transformed where
  result : Except TransformError (Option Bytes)
  dumped : Option (String × Bytes) := none

namespace Coordinator

/-- Whether a class belongs to the engine, by its scope or its name. -/
def leavesAlone (r : LoadRequest) : Bool :=
  r.boundary.isEngine || inEnginePackage (toJavaName r.className)

/-- The structure that is matched. The scope is the one that loads the class, whatever the host's
description says. -/
def structureOf (r : LoadRequest) : Except TransformError StructuralType :=
  match r.redefined with
  | none => (StructuralType.ofBytes r.bytes r.boundary).mapError .malformed
  | some h =>
    match StructuralType.ofHandle h with
    | .ok t => .ok { t with boundary := r.boundary }
    | .error (.malformed e) => .error (.malformed e)
    | .error .crashed => .error .crashed

/-- The weaver for a class. -/
def weaver (c : Coordinator) (known : Option KnownSupers) (boundary : Boundary) : Weaver :=
  { space := c.space, listener := c.listener, kinds := c.kinds
    hierarchy := known.map (·.hierarchy boundary) }

/-- The woven class, if the matcher chose anything and weaving changed it. -/
def weave (c : Coordinator) (known : Option KnownSupers) (r : LoadRequest) :
    Except TransformError (Option Woven) := do
  if leavesAlone r then return none
  else
    let t ← structureOf r
    let selection ← ((c.matcher.guarded c.enableUnsafe).choose t).mapError .matching
    if !selection.isMatched then return none
    else
      let woven ← (c.weaver known r.boundary).weave r.boundary.objectId r.bytes selection.signCodes
      return if woven.isModified && woven.bytes != r.bytes then some woven else none

/-- The class as a loaded class in reports. -/
def loadedClass (r : LoadRequest) : LoadedClass :=
  (r.boundary, toJavaName r.className)

/-- Transforms a class and records what was woven. -/
def transformClass (c : Coordinator) (known : Option KnownSupers) (r : LoadRequest) :
    Transformed × Coordinator :=
  match c.weave known r with
  | .error e => ({ result := .error e }, c)
  | .ok none => ({ result := .ok none }, c)
  | .ok (some woven) =>
    ({ result := .ok (some woven.bytes)
       dumped := c.dumpPath.map fun _ => (r.className ++ ".class", woven.bytes) },
      { c with affected := c.affected.record (loadedClass r) woven.behaviors })

/-- Transforms a class; whatever goes wrong, the class just stays as it is. -/
def transform (c : Coordinator) (known : Option KnownSupers) (r : LoadRequest) :
    Option Bytes × Coordinator :=
  let (t, c) := c.transformClass known r
  (t.result.toOption.bind id, c)

end Coordinator

end Interpose
