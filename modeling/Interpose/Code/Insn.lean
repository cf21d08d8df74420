import Interpose.Code.Opcode
/-!
# Instructions

The symbolic form of an instruction. Branches name labels, and a label is placed by a pseudo
instruction of its own; a second pseudo instruction marks source lines. Neither takes bytes.
Several byte forms of one instruction are one here: loads and stores carry their slot, constants
their slot in the pool, and short and wide branches are the same.
-/

namespace Interpose

/-- A position in a method body. -/
abbrev Label := Nat

/-- An instruction of a method body. -/
inductive Insn where
  /-- Places a label. -/
  | label (l : Label)
  /-- The instructions that follow stem from this source line. -/
  | line (number : UInt16)
  /-- An opcode without operands. -/
  | simple (op : Opcode)
  /-- Pushes a small integer, or makes an array of a primitive type. -/
  | int (op : Opcode) (value : Int32)
  /-- Loads or stores a local variable. -/
  | var (op : Opcode) (slot : UInt16)
  /-- Adds to a local variable. -/
  | iinc (slot : UInt16) (delta : Int16)
  /-- Object and array creation and type tests, with a class constant. -/
  | type (op : Opcode) (classIndex : UInt16)
  /-- Field access. -/
  | field (op : Opcode) (index : UInt16)
  /-- Invocation of a method. -/
  | method (op : Opcode) (index : UInt16)
  /-- Invocation through a bootstrap method. -/
  | dynamic (index : UInt16)
  /-- Pushes a constant of the pool. -/
  | ldc (index : UInt16)
  /-- A branch. -/
  | jump (op : Opcode) (target : Label)
  /-- A jump table for consecutive keys. -/
  | tableSwitch (fallback : Label) (low : Int32) (targets : List Label)
  /-- A jump table for single keys. -/
  | lookupSwitch (fallback : Label) (pairs : List (Int32 × Label))
  /-- Makes an array of arrays. -/
  | multiNewArray (classIndex : UInt16) (dims : UInt8)
deriving DecidableEq

namespace Insn

/-- Whether the instruction is a mark that takes no bytes. -/
def isPseudo : Insn → Bool
  | label _ | line _ => true
  | _ => false

/-- The opcode; marks have none. -/
def opcode : Insn → Option Opcode
  | label _ | line _ => none
  | simple op | int op _ | var op _ | type op _ | field op _ | method op _ | jump op _ => some op
  | iinc _ _ => some Op.iinc
  | dynamic _ => some Op.invokedynamic
  | ldc _ => some Op.ldc
  | tableSwitch _ _ _ => some Op.tableswitch
  | lookupSwitch _ _ => some Op.lookupswitch
  | multiNewArray _ _ => some Op.multianewarray

/-- Whether control never continues with the next instruction. -/
def isTerminal : Insn → Bool
  | tableSwitch _ _ _ | lookupSwitch _ _ => true
  | i => i.opcode.any Op.isTerminal

/-- The labels control may be transferred to; the fallback of a switch comes last. -/
def targets : Insn → List Label
  | jump _ target => [target]
  | tableSwitch fallback _ targets => targets ++ [fallback]
  | lookupSwitch fallback pairs => pairs.map (·.2) ++ [fallback]
  | _ => []

/-- The labels control may be transferred to in the order of the bytes: a fallback comes first. -/
def mentions : Insn → List Label
  | jump _ target => [target]
  | tableSwitch fallback _ targets => fallback :: targets
  | lookupSwitch fallback pairs => fallback :: pairs.map (·.2)
  | _ => []

/-- The instruction with every label it may jump to replaced. -/
def retarget (f : Label → Label) : Insn → Insn
  | jump op target => jump op (f target)
  | tableSwitch fallback low targets => tableSwitch (f fallback) low (targets.map f)
  | lookupSwitch fallback pairs => lookupSwitch (f fallback) (pairs.map fun (k, l) => (k, f l))
  | i => i

/-- The label the instruction places. -/
def placed : Insn → Option Label
  | label l => some l
  | _ => none

end Insn

end Interpose
