import Interpose.Number.Shortest
import Interpose.Text.Described
/-!
# Values

What crosses the dispatch bridge: the primitive values, strings and objects of the woven process.
Floating point values are kept as bits. An object is known by its identity alone; what the host
attached to it is carried along.
-/

namespace Interpose

/-- An object of the woven process. -/
structure ObjectRef where
  /-- The source-level name of its class. -/
  className : String
  identity : Nat
  /-- What the host attached to it. -/
  payload : Int
deriving DecidableEq

/-- A value of the woven process. -/
inductive Value where
  | null
  | boolean (b : Bool)
  | byte (n : Int8)
  | char (unit : UInt16)
  | short (n : Int16)
  | int (n : Int32)
  | long (n : Int64)
  | float (bits : UInt32)
  | double (bits : UInt64)
  | string (text : String)
  | object (o : ObjectRef)
deriving DecidableEq

namespace Value

/-- Whether the value is the null reference. -/
def isNull : Value → Bool
  | null => true
  | _ => false

/-- The source-level name of the class of the value as an object; null has none. -/
def className : Value → Option String
  | null => none
  | boolean _ => some "java.lang.Boolean"
  | byte _ => some "java.lang.Byte"
  | char _ => some "java.lang.Character"
  | short _ => some "java.lang.Short"
  | int _ => some "java.lang.Integer"
  | long _ => some "java.lang.Long"
  | float _ => some "java.lang.Float"
  | double _ => some "java.lang.Double"
  | string _ => some "java.lang.String"
  | object o => some o.className

/-- The value as an integer of 32 bits, if its type is not wider. -/
def toInt32 : Value → Option Int32
  | byte n => some n.toInt32
  | char unit => some unit.toUInt32.toInt32
  | short n => some n.toInt32
  | int n => some n
  | _ => none

/-- Whether two values are equal: floating point values as numbers and objects by identity. -/
def same : Value → Value → Bool
  | float a, float b => BinaryFormat.single.equal a.toNat b.toNat
  | double a, double b => BinaryFormat.double.equal a.toNat b.toNat
  | object a, object b => a.identity == b.identity
  | a, b => a == b

/-- The description of a value. -/
def describe : Value → String
  | null => "Null"
  | boolean b => "Boolean(" ++ describedBool b ++ ")"
  | byte n => "Byte(" ++ toString n.toInt ++ ")"
  | char unit => "Char(" ++ toString unit.toNat ++ ")"
  | short n => "Short(" ++ toString n.toInt ++ ")"
  | int n => "Int(" ++ toString n.toInt ++ ")"
  | long n => "Long(" ++ toString n.toInt ++ ")"
  | float bits => "Float(" ++ BinaryFormat.single.render bits.toNat ++ ")"
  | double bits => "Double(" ++ BinaryFormat.double.render bits.toNat ++ ")"
  | string text => "String(" ++ quoted text ++ ")"
  | object o => "Object(ObjectRef(" ++ o.className ++ "))"

end Value

end Interpose
