import Interpose.Code.Layout
/-!
# Encoding

The bytes of a body under its layout, and the tables that go with them. A conditional branch that
has to be wide becomes the opposite branch over a wide jump; the instruction behind it is then the
target of a branch (`Encoded.widened`).
-/

namespace Interpose

/-- The largest length of code. -/
def maxCodeLength : Nat := 0xFFFF

/-- A body as bytes. -/
structure Encoded where
  code : Bytes
  exceptions : List ExceptionEntry
  /-- Source lines with their offsets, in the order of the instructions. -/
  lines : List (Nat × UInt16)
  /-- The offset of every instruction. -/
  offsets : Array Nat
  labels : Std.TreeMap Label Nat
  /-- Instructions behind a conditional branch that was widened. -/
  widened : List Nat

/-- The start and the length of the code between two labels that are placed and in order. -/
def Encoded.range (e : Encoded) (start stop : Label) : Option (UInt16 × UInt16) := do
  let s ← e.labels[start]?
  let t ← e.labels[stop]?
  if s ≤ t then some (UInt16.ofNat s, UInt16.ofNat (t - s)) else none

namespace Encode

/-- A signed number in two bytes. -/
def bytesOfI2 (n : Int) : Bytes := bytesOfU2 (Int16.ofInt n).toUInt16

/-- A signed number in four bytes. -/
def bytesOfI4 (n : Int) : Bytes := bytesOfU4 (Int32.ofInt n).toUInt32

/-- A load or store: slots up to 3 have opcodes of their own, slots above 255 need `wide`. -/
def bytesOfVar (op : Opcode) (slot : UInt16) : Bytes :=
  let shortest :=
    if Op.istore ≤ op then Op.istore0 + (op - Op.istore) * 4 else Op.iload0 + (op - Op.iload) * 4
  if slot.toNat ≤ 3 then [shortest + slot.toUInt8]
  else if slot.toNat ≤ 255 then [op, slot.toUInt8]
  else Op.wide :: op :: bytesOfU2 slot

/-- An addition to a local variable, wide when the slot or the number does not fit a byte. -/
def bytesOfIinc (slot : UInt16) (delta : Int16) : Bytes :=
  if slot.toNat ≤ 255 && Layout.fitsByte delta.toInt then
    [Op.iinc, slot.toUInt8, delta.toInt8.toUInt8]
  else Op.wide :: Op.iinc :: bytesOfU2 slot ++ bytesOfU2 delta.toUInt16

/-- A constant: the pool decides whether it takes two slots, the index whether one byte is enough. -/
def bytesOfLdc (pool : Pool) (index : UInt16) : Bytes :=
  if pool.isWideAt index then Op.ldc2W :: bytesOfU2 index
  else if index.toNat ≤ 255 then [Op.ldc, index.toUInt8]
  else Op.ldcW :: bytesOfU2 index

/-- An invocation. That of an interface method also counts its argument slots. -/
def bytesOfMethod (pool : Pool) (op : Opcode) (index : UInt16) : Except CodeError Bytes :=
  if op = Op.invokeinterface then do
    let ref ← (pool.memberRef index).mapError .format
    let descriptor ← (MethodDescriptor.ofDescriptor ref.descriptor).mapError .format
    return op :: bytesOfU2 index ++ [UInt8.ofNat (descriptor.parameterSlots + 1), 0]
  else .ok (op :: bytesOfU2 index)

/-- A branch over a distance. -/
def bytesOfJump (op : Opcode) (pc : Nat) (wide : Bool) (delta : Int) : Except CodeError Bytes :=
  if !wide then .ok (op :: bytesOfI2 delta)
  else if op = Op.goto then .ok (Op.gotoW :: bytesOfI4 delta)
  else
    match Op.invertBranch op with
    | some opposite => .ok (opposite :: bytesOfI2 8 ++ Op.gotoW :: bytesOfI4 (delta - 3))
    | none => .error (.invalidOpcode op pc)

/-- Zero bytes in front of the operands of a switch. -/
def padding (pc : Nat) : Bytes :=
  List.replicate (Layout.switchPadding pc) 0

/-- The pairs of a switch in the order of their keys; equal keys keep their order. -/
def sortedPairs (pairs : List (Int32 × Label)) : List (Int32 × Label) :=
  pairs.mergeSort fun a b => a.1.toInt ≤ b.1.toInt

/-- The distance in four bytes from an offset to a label. -/
def bytesOfTarget (l : Layout) (pc : Nat) (target : Label) : Except CodeError Bytes := do
  return bytesOfI4 ((← l.offsetOf target) - pc : Int)

/-- The bytes of an instruction at an offset, with its branch short or wide. -/
def bytesOfInsn (pool : Pool) (l : Layout) (pc : Nat) (wide : Bool) :
    Insn → Except CodeError Bytes
  | .label _ | .line _ => .ok []
  | .simple op => .ok [op]
  | .int op value =>
    if op = Op.sipush then .ok (op :: bytesOfI2 value.toInt)
    else .ok [op, value.toInt8.toUInt8]
  | .var op slot => .ok (bytesOfVar op slot)
  | .iinc slot delta => .ok (bytesOfIinc slot delta)
  | .type op index | .field op index => .ok (op :: bytesOfU2 index)
  | .method op index => bytesOfMethod pool op index
  | .dynamic index => .ok (Op.invokedynamic :: bytesOfU2 index ++ [0, 0])
  | .ldc index => .ok (bytesOfLdc pool index)
  | .jump op target => do
    let there ← l.offsetOf target
    bytesOfJump op pc wide (there - pc : Int)
  | .tableSwitch fallback low targets => do
    let first ← bytesOfTarget l pc fallback
    let others ← targets.mapM (bytesOfTarget l pc)
    let high := low.toInt + targets.length - 1
    return Op.tableswitch :: padding pc ++ first ++ bytesOfI4 low.toInt ++ bytesOfI4 high
      ++ others.flatten
  | .lookupSwitch fallback pairs => do
    let first ← bytesOfTarget l pc fallback
    let others ← (sortedPairs pairs).mapM fun (key, target) => do
      return bytesOfI4 key.toInt ++ (← bytesOfTarget l pc target)
    return Op.lookupswitch :: padding pc ++ first ++ bytesOfI4 pairs.length ++ others.flatten
  | .multiNewArray index dims => .ok (Op.multianewarray :: bytesOfU2 index ++ [dims])

/-- A protected range in offsets; it must not be empty. -/
def exceptionEntry (l : Layout) (t : TryCatch) : Except CodeError ExceptionEntry := do
  let start ← l.offsetOf t.start
  let stop ← l.offsetOf t.stop
  if stop ≤ start then throw (.emptyHandlerRange t.start)
  let handler ← l.offsetOf t.handler
  return ⟨UInt16.ofNat start, UInt16.ofNat stop, UInt16.ofNat handler, t.catchType⟩

/-- The source lines of a body with their offsets. -/
def lines (l : Layout) (insns : List Insn) : List (Nat × UInt16) :=
  (insns.zip l.offsets).filterMap fun (insn, pc) =>
    match insn with
    | .line n => some (pc, n)
    | _ => none

/-- Whether an instruction is a wide branch that becomes two branches. -/
def splits (insn : Insn) (wide : Bool) : Bool :=
  match insn with
  | .jump op _ => wide && op != Op.goto
  | _ => false

/-- The instructions behind a conditional branch that is wide. -/
def widenedFallthroughs (l : Layout) (insns : List Insn) : List Nat :=
  (insns.zip l.widths).zipIdx.filterMap fun ((insn, wide), i) =>
    if splits insn wide then some (i + 1) else none

end Encode

/-- The bytes of a body. -/
def encode (body : Body) (pool : Pool) : Except CodeError Encoded := do
  let l ← Layout.ofInsns pool body.insns
  if l.length > maxCodeLength then throw (.codeTooLarge l.length)
  let parts ← ((body.insns.zip l.offsets).zip l.widths).mapM fun ((insn, pc), wide) =>
    Encode.bytesOfInsn pool l pc wide insn
  let exceptions ← body.tryCatch.mapM (Encode.exceptionEntry l)
  return {
    code := parts.flatten
    exceptions
    lines := Encode.lines l body.insns
    offsets := l.offsets.toArray
    labels := l.labels
    widened := Encode.widenedFallthroughs l body.insns }

end Interpose
