import Std.Data.TreeSet
import Std.Data.TreeMap
import Interpose.Code.Body
import Interpose.Code.Subroutine
/-!
# Decoding

From the bytes of a code attribute to a symbolic body. First the bytes are cut into instructions
whose branches name byte offsets (`readItems`). Then every offset that anything mentions, be it a
branch, a protected range, a local variable or a stack map frame, gets one label, numbered in the
order of first mention (`numberOffsets`), and the label is placed in front of the instruction at
that offset or at the end (`placeMarks`). An offset that is neither is refused. Last, subroutines
are expanded.
-/

namespace Interpose

/-- Where reading stands: the start of the current instruction, the offset and the bytes left. -/
structure Cursor where
  start : Nat
  pos : Nat
  rest : Bytes

namespace Cursor

/-- Takes operands off the bytes of a method's code. -/
abbrev CodeReader := StateT Cursor (Except CodeError)

/-- One byte; without one, the current instruction is truncated. -/
def u1 : CodeReader UInt8 := fun c =>
  match c.rest with
  | a :: rest => .ok (a, { c with pos := c.pos + 1, rest })
  | _ => .error (.truncated c.start)

/-- A number in two bytes. -/
def u2 : CodeReader UInt16 := fun c =>
  match c.rest with
  | a :: b :: rest => .ok (u2OfBytes a b, { c with pos := c.pos + 2, rest })
  | _ => .error (.truncated c.start)

/-- A signed number in four bytes. -/
def i4 : CodeReader Int32 := fun c =>
  match c.rest with
  | a :: b :: x :: y :: rest =>
    .ok ((u4OfBytes a b x y).toInt32, { c with pos := c.pos + 4, rest })
  | _ => .error (.truncated c.start)

/-- Leaves out the bytes up to the next offset divisible by 4. -/
def align : CodeReader Unit := fun c =>
  let padding := (4 - c.pos % 4) % 4
  .ok ((), { c with pos := c.pos + padding, rest := c.rest.drop padding })

/-- `n` operands one after the other, put behind those read so far (latest first). -/
def manyOnto {α : Type} (item : CodeReader α) : Nat → List α → CodeReader (List α)
  | 0, done, c => .ok (done.reverse, c)
  | n + 1, done, c =>
    match item c with
    | .error e => .error e
    | .ok (a, c) => manyOnto item n (a :: done) c

/-- `n` operands one after the other. -/
def many {α : Type} (n : Nat) (item : CodeReader α) : CodeReader (List α) :=
  manyOnto item n []

/-- The offset at a distance from the current instruction; none lies before the code. -/
def offsetBy (delta : Int) : CodeReader Nat := fun c =>
  let offset := c.start + delta
  if offset < 0 then .error (.badBranchTarget offset) else .ok (offset.toNat, c)

/-- An offset given by a two-byte distance. -/
def target2 : CodeReader Nat := do
  offsetBy (← u2).toInt16.toInt

/-- An offset given by a four-byte distance. -/
def target4 : CodeReader Nat := do
  offsetBy (← i4).toInt

/-- Refuses the current instruction as incomplete. -/
def truncated {α : Type} : CodeReader α := fun c =>
  .error (.truncated c.start)

/-- Refuses an opcode that stands a number of bytes behind the start of the current instruction. -/
def invalid {α : Type} (op : Opcode) (behind : Nat) : CodeReader α := fun c =>
  .error (.invalidOpcode op (c.start + behind))

/-- The operands of a `wide` instruction: its opcode and two-byte operands. -/
def wideItem : CodeReader Item := do
  let op ← u1
  if op = Op.ret then return .ret (← u2)
  else if op = Op.iinc then return .insn (.iinc (← u2) (← u2).toInt16)
  else if Op.between Op.iload Op.aload op || Op.between Op.istore Op.astore op then
    return .insn (.var op (← u2))
  else invalid op 1

/-- The operands of a jump table for the keys from a low to a high one. -/
def tableSwitch : CodeReader Item := do
  align
  let fallback ← target4
  let low ← i4
  let high ← i4
  if high.toInt < low.toInt then truncated
  else
    let targets ← many (high.toInt - low.toInt + 1).toNat target4
    return .insn (.tableSwitch fallback low targets)

/-- The operands of a jump table for single keys. -/
def lookupSwitch : CodeReader Item := do
  align
  let fallback ← target4
  let count ← i4
  if count.toInt < 0 then truncated
  else
    let pairs ← many count.toInt.toNat (do return (← i4, ← target4))
    return .insn (.lookupSwitch fallback pairs)

/-- Opcodes that stand alone. -/
def standsAlone (op : Opcode) : Bool :=
  Op.between Op.nop Op.dconst1 op || Op.between Op.iaload Op.saload op
    || Op.between Op.iastore Op.lxor op || Op.between Op.i2l Op.dcmpg op
    || Op.between Op.ireturn Op.returnVoid op || op == Op.arraylength || op == Op.athrow
    || op == Op.monitorenter || op == Op.monitorexit

/-- The operands of an instruction with the given opcode. Branches name byte offsets. -/
def item (op : Opcode) : CodeReader Item := do
  if standsAlone op then return .insn (.simple op)
  else if op = Op.jsr then return .jsr (← target2)
  else if op = Op.jsrW then return .jsr (← target4)
  else if op = Op.ret then return .ret (← u1).toUInt16
  else if op = Op.bipush then return .insn (.int op (← u1).toInt8.toInt32)
  else if op = Op.sipush then return .insn (.int op (← u2).toInt16.toInt32)
  else if op = Op.newarray then return .insn (.int op (← u1).toUInt32.toInt32)
  else if op = Op.ldc then return .insn (.ldc (← u1).toUInt16)
  else if op = Op.ldcW || op = Op.ldc2W then return .insn (.ldc (← u2))
  else if Op.between Op.iload Op.aload op || Op.between Op.istore Op.astore op then
    return .insn (.var op (← u1).toUInt16)
  else if Op.between Op.iload0 Op.aload3 op then
    return .insn (.var (Op.iload + (op - Op.iload0) / 4) ((op - Op.iload0) % 4).toUInt16)
  else if Op.between Op.istore0 Op.astore3 op then
    return .insn (.var (Op.istore + (op - Op.istore0) / 4) ((op - Op.istore0) % 4).toUInt16)
  else if op = Op.iinc then return .insn (.iinc (← u1).toUInt16 (← u1).toInt8.toInt16)
  else if Op.between Op.ifeq Op.goto op || op = Op.ifnull || op = Op.ifnonnull then
    return .insn (.jump op (← target2))
  else if op = Op.gotoW then return .insn (.jump Op.goto (← target4))
  else if op = Op.tableswitch then tableSwitch
  else if op = Op.lookupswitch then lookupSwitch
  else if Op.between Op.getstatic Op.putfield op then return .insn (.field op (← u2))
  else if Op.between Op.invokevirtual Op.invokestatic op then return .insn (.method op (← u2))
  else if op = Op.invokeinterface then
    let index ← u2
    let _ ← u2
    return .insn (.method op index)
  else if op = Op.invokedynamic then
    let index ← u2
    let _ ← u2
    return .insn (.dynamic index)
  else if op = Op.newObject || op = Op.anewarray || op = Op.checkcast || op = Op.instanceOf then
    return .insn (.type op (← u2))
  else if op = Op.wide then wideItem
  else if op = Op.multianewarray then return .insn (.multiNewArray (← u2) (← u1))
  else invalid op 0

end Cursor

/-- Items with their offsets up to the end of the code, put behind those read so far (latest first).
Each takes at least one byte, so the length of the code bounds their number. -/
def readItemsOnto : (limit : Nat) → (pos : Nat) → Bytes → List (Nat × Item) →
    Except CodeError (List (Nat × Item))
  | 0, _, _, done => .ok done.reverse
  | _ + 1, _, [], done => .ok done.reverse
  | limit + 1, pos, op :: rest, done =>
    match Cursor.item op ⟨pos, pos + 1, rest⟩ with
    | .error e => .error e
    | .ok (item, c) => readItemsOnto limit c.pos c.rest ((pos, item) :: done)

/-- The instructions of a method's code with their offsets. Branches name byte offsets. -/
def readItems (code : Bytes) : Except CodeError (List (Nat × Item)) :=
  readItemsOnto code.length 0 code []

namespace Item

/-- The offsets or labels the item names, in the order of its bytes. -/
def mentions : Item → List Nat
  | insn i => i.mentions
  | jsr target => [target]
  | ret _ => []

/-- The item with every label it may jump to replaced. -/
def retarget (f : Label → Label) : Item → Item
  | insn i => insn (i.retarget f)
  | jsr target => jsr (f target)
  | ret slot => ret slot

end Item

/-- The frames of a stack map table with their offsets; the first counts from the start of the code,
every other from behind the one before it. -/
def framesWithOffsets (frames : List StackMapFrame) : List (Nat × StackMapFrame) :=
  go 0 frames
where
  go (base : Nat) : List StackMapFrame → List (Nat × StackMapFrame)
    | [] => []
    | f :: rest => (base + f.delta.toNat, f) :: go (base + f.delta.toNat + 1) rest

/-- The offset behind the range of a local variable. -/
def LocalEntry.endPc (e : LocalEntry) : Nat :=
  e.startPc.toNat + e.length.toNat

namespace CodeAttribute

/-- The declared stack map frames with their offsets, table by table. -/
def declaredFrames (c : CodeAttribute) : List (Nat × StackMapFrame) :=
  c.attributes.flatMap fun
    | .stackMapTable frames => framesWithOffsets frames
    | _ => []

/-- The line number entries, table by table. -/
def lineEntries (c : CodeAttribute) : List LineEntry :=
  c.attributes.flatMap fun
    | .lineNumberTable entries => entries
    | _ => []

/-- The named local variables, table by table. -/
def localEntries (c : CodeAttribute) : List LocalEntry :=
  c.attributes.flatMap fun
    | .localVariableTable entries => entries
    | _ => []

/-- The local variables with signatures, table by table. -/
def localTypeEntries (c : CodeAttribute) : List LocalEntry :=
  c.attributes.flatMap fun
    | .localVariableTypeTable entries => entries
    | _ => []

/-- The offsets a table beside the code names. -/
def tableOffsets : Attribute → List Nat
  | .stackMapTable frames => (framesWithOffsets frames).map (·.1)
  | .localVariableTable entries | .localVariableTypeTable entries =>
    entries.flatMap fun e => [e.startPc.toNat, e.endPc]
  | _ => []

/-- Every offset that the instructions or the tables name, in order. -/
def mentionedOffsets (c : CodeAttribute) (items : List (Nat × Item)) : List Nat :=
  items.flatMap (fun (_, i) => i.mentions)
    ++ c.exceptions.flatMap (fun e => [e.startPc.toNat, e.endPc.toNat, e.handlerPc.toNat])
    ++ c.attributes.flatMap tableOffsets

end CodeAttribute

/-- The labels of offsets, in order of offset. -/
abbrev OffsetLabels := Std.TreeMap Nat Label

/-- One label per offset, numbered in order of first mention. -/
def numberOffsets (offsets : List Nat) : OffsetLabels :=
  offsets.foldl (fun labels o => labels.insertIfNew o labels.size) ∅

/-- The source lines of each offset, in table order. -/
def linesByOffset (entries : List LineEntry) : Std.TreeMap Nat (List UInt16) :=
  entries.foldr (fun e lines =>
    lines.insert e.startPc.toNat (e.line :: lines.getD e.startPc.toNat [])) ∅

/-- The marks in front of the instruction at an offset: its label, then its source lines. -/
def marksAt (labels : OffsetLabels) (lines : Std.TreeMap Nat (List UInt16)) (o : Nat) : List Item :=
  labels[o]?.toList.map (fun l => .insn (.label l))
    ++ (lines.getD o []).map (fun n => .insn (.line n))

/-- The items with labels and source lines placed. The lowest named offset at which neither an
instruction starts nor the code ends is refused. -/
def placeMarks (items : List (Nat × Item)) (length : Nat) (labels : OffsetLabels)
    (lines : Std.TreeMap Nat (List UInt16)) : Except CodeError (List Item) :=
  let starts := Std.TreeSet.ofList (items.map (·.1))
  match labels.keys.find? fun o => !starts.contains o && o != length with
  | some o => .error (.badBranchTarget o)
  | none =>
    .ok (items.flatMap (fun (pc, i) => marksAt labels lines pc ++ [i])
      ++ labels[length]?.toList.map fun l => .insn (.label l))

/-- The symbolic body of a code attribute. -/
def decode (c : CodeAttribute) : Except CodeError Body := do
  let items ← readItems c.code
  let labels := numberOffsets (c.mentionedOffsets items)
  let label (o : Nat) : Label := labels.getD o 0
  let symbolic := items.map fun (pc, i) => (pc, i.retarget label)
  let placed ← placeMarks symbolic c.code.length labels (linesByOffset c.lineEntries)
  let tryCatch := c.exceptions.map fun e =>
    { start := label e.startPc.toNat, stop := label e.endPc.toNat,
      handler := label e.handlerPc.toNat, catchType := e.catchType : TryCatch }
  let localVar (e : LocalEntry) : LocalVar :=
    { start := label e.startPc.toNat, stop := label e.endPc, name := e.name, type := e.type,
      slot := e.slot }
  let body : Body :=
    { insns := placed.filterMap Item.insn?
      tryCatch
      locals := c.localEntries.map localVar
      localTypes := c.localTypeEntries.map localVar
      maxStack := c.maxStack
      maxLocals := c.maxLocals
      declaredFrames := c.declaredFrames.map fun (o, f) => (label o, f)
      nextLabel := labels.size }
  if placed.any Item.isSubroutine then
    let e ← Subroutine.expand placed tryCatch labels.size
    -- declared frames describe return addresses, which no longer exist
    return { body with
      insns := e.insns, tryCatch := e.tryCatch, nextLabel := e.nextLabel, declaredFrames := [] }
  else return body

end Interpose
