import Interpose.Names
import Interpose.ClassFile.Error
import Interpose.Code.Opcode
/-!
# Descriptors

The compact spelling of types inside a class file. A field type is one of eight letters,
`L` name `;` or `[` followed by a field type; `V` stands for "no value" where a method returns
none. A method descriptor is `(` field types `)` and the return type.

`JavaType.read` takes one type off the front of a text; `JavaType.spell` is the printer beside it,
and `JavaType.slots` is the number of local variable or operand slots a value takes.
-/

namespace Interpose

/-- A field type, or `void` in return position. Class names are in class-file spelling. -/
inductive JavaType where
  | boolean | byte | char | short | int | long | float | double | void
  | object (name : String)
  | array (component : JavaType)
deriving DecidableEq

namespace JavaType

/-- The characters of a type's descriptor. -/
def spell : JavaType → List Char
  | boolean => ['Z']
  | byte => ['B']
  | char => ['C']
  | short => ['S']
  | int => ['I']
  | long => ['J']
  | float => ['F']
  | double => ['D']
  | void => ['V']
  | object name => 'L' :: (name.toList ++ [';'])
  | array component => '[' :: component.spell

/-- The descriptor of a type. -/
def descriptor (t : JavaType) : String :=
  String.ofList t.spell

/--
Takes one type off the front of a text. A class name is not empty and ends at the first `;`; no
array holds `void`. A failure names the part of the text at which no type can start.
-/
def read : List Char → Except (List Char) (JavaType × List Char)
  | [] => .error []
  | 'Z' :: rest => .ok (boolean, rest)
  | 'B' :: rest => .ok (byte, rest)
  | 'C' :: rest => .ok (char, rest)
  | 'S' :: rest => .ok (short, rest)
  | 'I' :: rest => .ok (int, rest)
  | 'J' :: rest => .ok (long, rest)
  | 'F' :: rest => .ok (float, rest)
  | 'D' :: rest => .ok (double, rest)
  | 'V' :: rest => .ok (void, rest)
  | 'L' :: rest =>
    match rest.takeWhile (· != ';'), rest.dropWhile (· != ';') with
    | [], _ => .error ('L' :: rest)
    | _, [] => .error ('L' :: rest)
    | name, _ :: after => .ok (object (String.ofList name), after)
  | '[' :: rest =>
    match read rest with
    | .error at' => .error at'
    | .ok (void, _) => .error ('[' :: rest)
    | .ok (component, after) => .ok (array component, after)
  | c :: rest => .error (c :: rest)

/-- The type a whole text spells. Text left over makes the whole text invalid. -/
def ofDescriptor (text : String) : Except FormatError JavaType :=
  match read text.toList with
  | .error at' => .error (.invalidDescriptor (String.ofList at'))
  | .ok (t, []) => .ok t
  | .ok (_, _ :: _) => .error (.invalidDescriptor text)

/-- The source-level name: `int`, `java.lang.String`, `long[][]`. -/
def javaName : JavaType → String
  | boolean => "boolean"
  | byte => "byte"
  | char => "char"
  | short => "short"
  | int => "int"
  | long => "long"
  | float => "float"
  | double => "double"
  | void => "void"
  | object name => toJavaName name
  | array component => component.javaName ++ "[]"

/-- What names the type in a class constant: a class by its name, an array by its descriptor. -/
def classOperand : JavaType → Option String
  | object name => some name
  | array component => some (array component).descriptor
  | _ => none

/-- Whether values of the type are references. -/
def isReference : JavaType → Bool
  | object _ | array _ => true
  | _ => false

/-- Whether the type is one of the eight primitive value types. -/
def isPrimitive : JavaType → Bool
  | object _ | array _ | void => false
  | _ => true

/-- Local variable or operand slots a value of the type takes. -/
def slots : JavaType → Nat
  | long | double => 2
  | void => 0
  | _ => 1

/-- The instruction that pushes a local variable of the type. -/
def loadOpcode : JavaType → Opcode
  | long => Op.lload
  | float => Op.fload
  | double => Op.dload
  | object _ | array _ => Op.aload
  | _ => Op.iload

/-- The instruction that pops into a local variable of the type. -/
def storeOpcode : JavaType → Opcode
  | long => Op.lstore
  | float => Op.fstore
  | double => Op.dstore
  | object _ | array _ => Op.astore
  | _ => Op.istore

/-- The instruction that returns a value of the type. -/
def returnOpcode : JavaType → Opcode
  | void => Op.returnVoid
  | long => Op.lreturn
  | float => Op.freturn
  | double => Op.dreturn
  | object _ | array _ => Op.areturn
  | _ => Op.ireturn

/-- The class whose instances wrap values of a primitive type. -/
def boxClass : JavaType → Option String
  | boolean => some "java/lang/Boolean"
  | byte => some "java/lang/Byte"
  | char => some "java/lang/Character"
  | short => some "java/lang/Short"
  | int => some "java/lang/Integer"
  | long => some "java/lang/Long"
  | float => some "java/lang/Float"
  | double => some "java/lang/Double"
  | _ => none

/-- Reading a type consumes at least one character. -/
theorem length_lt_of_read {s : List Char} {t : JavaType} {rest : List Char}
    (h : read s = .ok (t, rest)) : rest.length < s.length := by
  fun_induction read s generalizing t rest with
  | case13 tail =>
    have shorter := (List.dropWhile_sublist (· != ';') (l := tail)).length_le
    simp_all
    omega
  | case16 tail =>
    simp_all
    omega
  | _ => simp_all

end JavaType

/-- The parameter types and the return type of a method. -/
structure MethodDescriptor where
  parameters : List JavaType
  returnType : JavaType
deriving DecidableEq

namespace MethodDescriptor

/-- The characters of a method descriptor. -/
def spell (d : MethodDescriptor) : List Char :=
  '(' :: (d.parameters.flatMap JavaType.spell ++ (')' :: d.returnType.spell))

/-- The text of a method descriptor. -/
def descriptor (d : MethodDescriptor) : String :=
  String.ofList d.spell

/-- Parameter types up to the closing parenthesis, and the text behind it; no parameter is void. -/
def readParameters (s : List Char) : Option (List JavaType × List Char) :=
  if s.head? = some ')' then some ([], s.tail)
  else
    match h : JavaType.read s with
    | .error _ => none
    | .ok (t, rest) =>
      have : rest.length < s.length := JavaType.length_lt_of_read h
      if t = .void then none
      else (readParameters rest).map fun (ts, after) => (t :: ts, after)
termination_by s.length

/-- The method descriptor that a whole list of characters spells. -/
def read? : List Char → Option MethodDescriptor
  | '(' :: rest =>
    match readParameters rest with
    | none => none
    | some (parameters, after) =>
      match JavaType.read after with
      | .ok (returnType, []) => some ⟨parameters, returnType⟩
      | _ => none
  | _ => none

/-- The method descriptor a text spells; every failure names the whole text. -/
def ofDescriptor (text : String) : Except FormatError MethodDescriptor :=
  match read? text.toList with
  | some d => .ok d
  | none => .error (.invalidDescriptor text)

/-- Slots the parameters take, the receiver not counted. -/
def parameterSlots (d : MethodDescriptor) : Nat :=
  (d.parameters.map JavaType.slots).foldr (· + ·) 0

end MethodDescriptor

end Interpose
