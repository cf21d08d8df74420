import Interpose.Descriptor
/-!
# Verification types

The type of one slot of a frame. A `long` or `double` takes two slots, of which the second is
`top`. Objects are named by class, arrays by descriptor.
-/

namespace Interpose

/-- The type of one slot. -/
inductive VType where
  | top | int | float | long | double | null | uninitializedThis
  /-- Made by the `new` at an instruction and not constructed yet. -/
  | uninitialized (site : Nat) (className : String)
  | object (name : String)
deriving DecidableEq

namespace VType

/-- The type of the first slot of a value. -/
def ofJava : JavaType → VType
  | .long => long
  | .float => float
  | .double => double
  | .object name => object name
  | .array component => object (JavaType.array component).descriptor
  | _ => int

/-- Whether the value takes a second slot. -/
def isWide : VType → Bool
  | long | double => true
  | _ => false

/-- Whether the value is a reference. -/
def isReference : VType → Bool
  | null | uninitializedThis | uninitialized _ _ | object _ => true
  | _ => false

/-- Whether the value is a constructed object or null. -/
def isObject : VType → Bool
  | null | object _ => true
  | _ => false

/-- The slots of a value, first slot first. -/
def slots (v : VType) : List VType :=
  if v.isWide then [v, top] else [v]

end VType

/-- Whether a type name is the descriptor of an array. -/
def isArrayName (name : String) : Bool :=
  name.toList.head? == some '['

/-- The component type of an array by name: an object type by its class, any other by descriptor. -/
def componentName (arrayName : String) : String :=
  match arrayName.toList.tail with
  | 'L' :: rest =>
    if rest.getLast? = some ';' then String.ofList rest.dropLast else String.ofList ('L' :: rest)
  | component => String.ofList component

/-- The array with the given component type by name. -/
def arrayNameOf (component : String) : String :=
  if isArrayName component then "[" ++ component else "[L" ++ component ++ ";"

end Interpose
