import Interpose.Code.Insn
import Interpose.Code.Opcode
import Interpose.ClassFile.Constant
import Interpose.Descriptor
/-!
# Templates

Instructions whose constants are still named and not yet slots of a pool. A block of injected code is
a list of templates; settling it adds the constants it names, from left to right.
-/

namespace Interpose

/-- An instruction with its constants by name. -/
inductive Template where
  /-- An instruction without constants. -/
  | plain (i : Insn)
  /-- Pushes an integer. -/
  | pushInt (n : Int32)
  /-- Pushes a string. -/
  | pushString (text : String)
  | type (op : Opcode) (className : String)
  | field (op : Opcode) (field : MemberRef)
  | method (op : Opcode) (method : MemberRef)
deriving DecidableEq

namespace Template

/-- An opcode without operands. -/
def op (o : Opcode) : Template :=
  plain (.simple o)

/-- A load or store of a local variable. -/
def var (o : Opcode) (slot : UInt16) : Template :=
  plain (.var o slot)

/-- Places a label. -/
def place (l : Label) : Template :=
  plain (.label l)

/-- A branch. -/
def jump (o : Opcode) (l : Label) : Template :=
  plain (.jump o l)

/-- The shortest instruction that pushes an integer. -/
def pushing (n : Int32) : Pool.Interning Insn := do
  let v := n.toInt
  if -1 ≤ v ∧ v ≤ 5 then return .simple (UInt8.ofNat (Op.iconst0.toNat + v).toNat)
  else if -128 ≤ v ∧ v ≤ 127 then return .int Op.bipush n
  else if -32768 ≤ v ∧ v ≤ 32767 then return .int Op.sipush n
  else return .ldc (← Pool.addInteger n)

/-- The instruction with its constants in the pool. -/
def settle : Template → Pool.Interning Insn
  | plain i => return i
  | pushInt n => pushing n
  | pushString text => return .ldc (← Pool.addString text)
  | type op className => return .type op (← Pool.addClass className)
  | field op f => return .field op (← Pool.addFieldRef f.owner f.name f.descriptor)
  | method op m => return .method op (← Pool.addMethodRef m.owner m.name m.descriptor)

end Template

/-- What every number object can be converted to a primitive with. -/
def numberClass : String := "java/lang/Number"

namespace JavaType

/-- Turns a value of the type on top of the stack into an object; for `void` a `null` is pushed. -/
def boxing (t : JavaType) : List Template :=
  if t = void then [.op Op.aconstNull]
  else match t.boxClass with
    | some wrapper =>
      [.method Op.invokestatic ⟨wrapper, "valueOf", "(" ++ t.descriptor ++ ")L" ++ wrapper ++ ";"⟩]
    | none => []

/-- Casts the object on top of the stack and asks it for a primitive value. -/
def unwrapping (owner name descriptor : String) : List Template :=
  [.type Op.checkcast owner, .method Op.invokevirtual ⟨owner, name, descriptor⟩]

/-- Turns the object on top of the stack into a value of the type. Any number object will do for a
numeric type; `void` drops the object. -/
def unboxing (t : JavaType) : List Template :=
  match t with
  | void => [.op Op.pop]
  | object _ | array _ =>
    match t.classOperand with
    | some c => if c = objectClass then [] else [.type Op.checkcast c]
    | none => []
  | boolean => unwrapping "java/lang/Boolean" "booleanValue" "()Z"
  | char => unwrapping "java/lang/Character" "charValue" "()C"
  | byte => unwrapping numberClass "byteValue" "()B"
  | short => unwrapping numberClass "shortValue" "()S"
  | int => unwrapping numberClass "intValue" "()I"
  | long => unwrapping numberClass "longValue" "()J"
  | float => unwrapping numberClass "floatValue" "()F"
  | double => unwrapping numberClass "doubleValue" "()D"

/-- Duplicates a value of the type on top of the stack. -/
def duplicating (t : JavaType) : List Template :=
  match t.slots with
  | 0 => []
  | 1 => [.op Op.dup]
  | _ => [.op Op.dup2]

end JavaType

end Interpose
