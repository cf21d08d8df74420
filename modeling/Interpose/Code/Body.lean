import Std.Data.TreeMap
import Interpose.Code.Insn
import Interpose.Code.Error
import Interpose.ClassFile.Model
import Interpose.Descriptor
/-!
# Method bodies

A method body is a list of instructions with the tables that refer to it by label: protected
ranges, named local variables and the stack map frames the class file declared. Weaving works on
this form; offsets exist only in the bytes.
-/

namespace Interpose

/-- A protected range and its handler. A catch type of 0 catches everything. -/
structure TryCatch where
  start : Label
  stop : Label
  handler : Label
  catchType : UInt16
deriving DecidableEq

/-- A named local variable; its type is a descriptor or a signature. -/
structure LocalVar where
  start : Label
  stop : Label
  name : UInt16
  type : UInt16
  slot : UInt16
deriving DecidableEq

/-- The code of a method in symbolic form. -/
structure Body where
  insns : List Insn
  tryCatch : List TryCatch := []
  locals : List LocalVar := []
  localTypes : List LocalVar := []
  maxStack : UInt16 := 0
  maxLocals : UInt16 := 0
  /-- The frames the class file declared, in table order. -/
  declaredFrames : List (Label × StackMapFrame) := []
  /-- Every label from here on is unused. -/
  nextLabel : Label := 0

namespace Body

/-- The first label above every label that the instructions place or jump to. -/
def freshLabel (insns : List Insn) : Label :=
  insns.foldl (fun next i => (i.placed.toList ++ i.targets).foldl (fun n l => max n (l + 1)) next) 0

/-- A body of instructions alone. -/
def ofInsns (insns : List Insn) : Body :=
  { insns, nextLabel := freshLabel insns }

/-- The first place of a label. -/
def labelPosition (b : Body) (l : Label) : Option Nat :=
  b.insns.findIdx? (· == .label l)

end Body

/-- The instruction number of every placed label; a label placed twice stands at its last place. -/
def labelPositions (insns : List Insn) : Std.TreeMap Label Nat :=
  (insns.foldl (fun (positions, i) insn =>
    match insn with
    | .label l => (positions.insert l i, i + 1)
    | _ => (positions, i + 1)) ((∅ : Std.TreeMap Label Nat), 0)).1

/-- The instruction number of a label that has to be placed. -/
def labelAt (positions : Std.TreeMap Label Nat) (l : Label) : Except CodeError Nat :=
  match positions[l]? with
  | some i => .ok i
  | none => .error (.undefinedLabel l)

/-- The method a body belongs to. -/
structure MethodContext where
  owner : String
  access : UInt16
  name : String
  descriptor : MethodDescriptor

namespace MethodContext

/-- Whether the method has no receiver. -/
def isStatic (m : MethodContext) : Bool :=
  Access.has m.access Access.staticFlag

/-- Whether the method initialises a new object. -/
def isConstructor (m : MethodContext) : Bool :=
  m.name == constructorName

/-- Whether the method starts with a receiver that is not constructed yet. -/
def startsUninitialized (m : MethodContext) : Bool :=
  m.isConstructor && m.owner != objectClass

end MethodContext

end Interpose
