import Interpose.Structure.Boundary
import Interpose.Structure.Behavior
import Interpose.ClassFile.Read
/-!
# Types as matching sees them

What matching may know of a class: the names its class file declares, its behaviors and the scope
that defines it. Nothing beyond the class file itself is looked up. A view is built from the bytes
of a class, or from what the host knows of a class that is loaded already.
-/

namespace Interpose

/-- The package of the engine's own classes, with the dot behind it. -/
def enginePackage : String := "jvmweaver."

/-- Whether a class, by its source-level name, is in the engine's package. -/
def inEnginePackage (javaName : String) : Bool :=
  enginePackage.toList.isPrefixOf javaName.toList

/-- A type as matching sees it. Names are in source-level spelling. -/
structure StructuralType where
  javaName : String
  superName : Option String
  /-- Declared interfaces, each once. -/
  interfaces : List String
  access : UInt16
  /-- Annotation types in ascending order. -/
  annotations : List String
  /-- Constructors and methods in the order of the class; the static initialiser is left out. -/
  behaviors : List Behavior
  boundary : Boundary
deriving DecidableEq

/-- Why the host has no behaviors for a loaded type. -/
inductive HandleFault where
  | malformed (cause : FormatError)
  | crashed
deriving DecidableEq

/-- A loaded type as the host describes it. Listing the behaviors may fail. -/
structure TypeHandle where
  javaName : String
  superName : Option String
  interfaces : List String
  access : UInt16
  annotations : List String
  behaviors : Except HandleFault (List Behavior)
  boundary : Boundary

namespace StructuralType

/-- Names without repetition, in order of first occurrence. -/
def distinct (names : List String) : List String :=
  names.foldl (fun seen n => if seen.contains n then seen else seen ++ [n]) []

/-- The name of an annotation type, by the slot of its descriptor. -/
def annotationName (pool : Pool) (a : AnnotationEntry) : Except FormatError String := do
  let text ← pool.getUtf8 a.type
  match JavaType.ofDescriptor text with
  | .ok t => return t.javaName
  | .error _ => return toJavaName text

/-- The annotation types among attributes, visible at run time or not, in ascending order. -/
def annotationNames (pool : Pool) (attributes : List Attribute) :
    Except FormatError (List String) := do
  let entries := attributes.flatMap fun
    | .runtimeVisibleAnnotations as | .runtimeInvisibleAnnotations as => as
    | _ => []
  return sortedNames (← entries.mapM (annotationName pool))

/-- The exceptions a method declares, in ascending order. -/
def exceptionNames (pool : Pool) (attributes : List Attribute) :
    Except FormatError (List String) := do
  let classes := attributes.flatMap fun
    | .exceptions classes => classes
    | _ => []
  return sortedNames (← classes.mapM fun i => do return toJavaName (← pool.className i))

/-- The behavior of a method; the static initialiser has none. -/
def behaviorOf (pool : Pool) (javaName : String) (m : Member) :
    Except FormatError (Option Behavior) := do
  let name ← pool.getUtf8 m.name
  if name = staticInitializerName then return none
  else
    let descriptor ← pool.getUtf8 m.descriptor
    let b ← Behavior.ofDescriptor javaName name descriptor m.access
    let exceptions ← exceptionNames pool m.attributes
    let annotations ← annotationNames pool m.attributes
    return some { b with exceptions, annotations }

/-- The view of a class file. -/
def ofClassFile (c : ClassFile) (boundary : Boundary) : Except FormatError StructuralType := do
  let javaName := toJavaName (← c.thisClassName)
  let superName := (← c.superClassName).map toJavaName
  let interfaces := distinct ((← c.interfaceNames).map toJavaName)
  let behaviors ← c.methods.mapM (behaviorOf c.pool javaName)
  let annotations ← annotationNames c.pool c.attributes
  return { javaName, superName, interfaces, access := c.access, annotations
           behaviors := behaviors.filterMap id, boundary }

/-- The view of the bytes of a class. -/
def ofBytes (bytes : Bytes) (boundary : Boundary) : Except FormatError StructuralType := do
  ofClassFile (← ClassFile.parse bytes) boundary

/-- The view of a loaded type. -/
def ofHandle (h : TypeHandle) : Except HandleFault StructuralType := do
  return { javaName := h.javaName
           superName := h.superName
           interfaces := distinct h.interfaces
           access := h.access
           annotations := sortedNames h.annotations
           behaviors := ← h.behaviors
           boundary := h.boundary }

/-- Whether the type is an interface. -/
def isInterface (t : StructuralType) : Bool :=
  Access.has t.access Access.interfaceFlag

/-- Whether the type is an annotation type. -/
def isAnnotationType (t : StructuralType) : Bool :=
  Access.has t.access Access.annotationFlag

/-- Whether the type belongs to the engine, by package or by scope. -/
def isEngineType (t : StructuralType) : Bool :=
  t.boundary.isEngine || inEnginePackage t.javaName

/-- The first behavior with a signature code. -/
def behavior? (t : StructuralType) (code : String) : Option Behavior :=
  t.behaviors.find? (·.signCode == code)

end StructuralType

end Interpose
