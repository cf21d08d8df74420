import Interpose.Descriptor
import Interpose.ClassFile.Model
/-!
# Behaviors

A constructor or method as matching sees it. Its signature code, `Type#name(param,param)`, tells
overloads apart: the return type is no part of it.

Results:
* `mem_insertName`: inserting into a sorted list of names adds that name and nothing else.
-/

namespace Interpose

/-- A sorted list of names with one more name; a name that is there stays single. -/
def insertName (name : String) : List String → List String
  | [] => [name]
  | n :: rest =>
    if name = n then n :: rest
    else if name < n then name :: n :: rest
    else n :: insertName name rest

theorem mem_insertName (name x : String) (names : List String) :
    x ∈ insertName name names ↔ x = name ∨ x ∈ names := by
  induction names with
  | nil => simp [insertName]
  | cons n rest ih =>
    simp only [insertName]
    split
    · subst_vars; simp
    · split
      · simp
      · simp only [List.mem_cons, ih]
        exact or_left_comm

/-- The distinct names of a list in ascending order. -/
def sortedNames (names : List String) : List String :=
  names.foldl (fun sorted n => insertName n sorted) []

/-- A constructor or method of a type. Names of types are in source-level spelling. -/
structure Behavior where
  declaringType : String
  name : String
  descriptor : String
  access : UInt16
  parameters : List String
  returns : String
  /-- Declared exceptions in ascending order. -/
  exceptions : List String := []
  /-- Annotation types in ascending order. -/
  annotations : List String := []
deriving DecidableEq

/-- The identity of an overload. -/
def signCode (declaringType name : String) (parameters : List String) : String :=
  declaringType ++ "#" ++ name ++ "(" ++ ",".intercalate parameters ++ ")"

namespace Behavior

/-- The behavior with the given name and descriptor. -/
def ofDescriptor (declaringType name descriptor : String) (access : UInt16) :
    Except FormatError Behavior := do
  let d ← MethodDescriptor.ofDescriptor descriptor
  return { declaringType, name, descriptor, access
           parameters := d.parameters.map JavaType.javaName
           returns := d.returnType.javaName }

/-- The signature code. -/
def signCode (b : Behavior) : String :=
  Interpose.signCode b.declaringType b.name b.parameters

/-- Whether the behavior initialises a new object. -/
def isConstructor (b : Behavior) : Bool :=
  b.name == constructorName

/-- Whether the behavior has no receiver. -/
def isStatic (b : Behavior) : Bool :=
  Access.has b.access Access.staticFlag

/-- Whether the behavior has no body by declaration. -/
def isAbstract (b : Behavior) : Bool :=
  Access.has b.access Access.abstractFlag

/-- Whether the behavior is implemented outside the class file. -/
def isNative (b : Behavior) : Bool :=
  Access.has b.access Access.nativeFlag

end Behavior

end Interpose
