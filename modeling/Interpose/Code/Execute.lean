import Interpose.Code.Frame
/-!
# The effect of an instruction on types

What an instruction takes off the operand stack, puts on it and changes in the local variables, in
terms of types (`execute`). The machine also keeps the greatest height the stack has had after a
push.

Opcodes without operands are given by a table (`simpleEffect`): nearly all take a number of slots
without looking at them and push one value.
-/

namespace Interpose

/-- A frame, and the greatest height of the stack after a push so far. -/
structure Machine extends Frame where
  peak : Nat := 0

namespace Machine

/-- Puts slots on the stack; the first of them ends up on top. -/
def pushSlots (m : Machine) (slots : List VType) : Machine :=
  let stack := slots ++ m.stack
  { m with stack, peak := max m.peak stack.length }

/-- Puts a value on the stack. -/
def push (m : Machine) (v : VType) : Machine :=
  m.pushSlots v.slots.reverse

/-- Puts a value of a field or method type on the stack; `void` puts none. -/
def pushJava (m : Machine) (t : JavaType) : Machine :=
  if t = .void then m else m.push (.ofJava t)

/-- Takes slots off the stack, top first. -/
def popSlots (i n : Nat) (m : Machine) : Except CodeError (List VType × Machine) :=
  if m.stack.length < n then .error (.stackUnderflow i)
  else .ok (m.stack.take n, { m with stack := m.stack.drop n })

/-- Takes slots off the stack without looking at them. -/
def dropSlots (i n : Nat) (m : Machine) : Except CodeError Machine :=
  (m.popSlots i n).map (·.2)

/-- Takes one slot off the stack. -/
def pop (i : Nat) (m : Machine) : Except CodeError (VType × Machine) :=
  match m.stack with
  | v :: stack => .ok (v, { m with stack })
  | [] => .error (.stackUnderflow i)

/-- Takes a reference off the stack. -/
def popReference (i : Nat) (m : Machine) : Except CodeError (VType × Machine) := do
  let (v, m) ← m.pop i
  if v.isReference then return (v, m) else throw (.typeMismatch i)

/-- Pushes the value of a local variable. The opcode decides the type, except that a reference keeps
its own. -/
def load (i : Nat) (op : Opcode) (slot : Nat) (m : Machine) : Except CodeError Machine :=
  match m.locals[slot]? with
  | none => .error (.badLocal slot i)
  | some v =>
    if op = Op.iload then .ok (m.push .int)
    else if op = Op.lload then .ok (m.push .long)
    else if op = Op.fload then .ok (m.push .float)
    else if op = Op.dload then .ok (m.push .double)
    else if v.isReference then .ok (m.push v)
    else .error (.typeMismatch i)

/-- Locals that reach at least to a length. -/
def padLocals (length : Nat) (locals : List VType) : List VType :=
  locals ++ List.replicate (length - locals.length) .top

/-- Locals in which a store to the slot behind a wide value has broken that value. -/
def breakBefore (slot : Nat) (locals : List VType) : List VType :=
  match slot with
  | 0 => locals
  | before + 1 =>
    if (locals[before]?).any VType.isWide then locals.set before .top else locals

/-- Stores a value. Locals grow as needed; a wide value in front that loses its second half is gone. -/
def storeLocal (slot : Nat) (v : VType) (locals : List VType) : List VType :=
  let padded := padLocals (slot + v.slots.length) locals
  let stored := (breakBefore slot padded).set slot v
  if v.isWide then stored.set (slot + 1) .top else stored

/-- Pops a value into a local variable. -/
def store (i : Nat) (op : Opcode) (slot : Nat) (m : Machine) : Except CodeError Machine := do
  let (v, m) ←
    if op = Op.lstore || op = Op.dstore then do
      let (slots, m) ← m.popSlots i 2
      pure (slots.getLast?.getD .top, m)
    else if op = Op.astore then m.popReference i
    else m.pop i
  return { m with locals := storeLocal slot v m.locals }

/-- Replaces every occurrence of a type. -/
def replaceAll (old new : VType) (m : Machine) : Machine :=
  let swap (v : VType) := if v = old then new else v
  { m with locals := m.locals.map swap, stack := m.stack.map swap }

end Machine

/-- What an opcode without operands does to the stack. -/
inductive SimpleEffect where
  /-- Takes slots and pushes at most one value. -/
  | slots (taken : Nat) (pushed : Option VType)
  /-- Takes a reference and pushes at most one value. -/
  | reference (pushed : Option VType)
  /-- Takes an index and an array and pushes an element: of the given type, or as the array says. -/
  | element (type : Option VType)
  /-- Puts copies of the topmost slots below further slots. -/
  | copy (copied below : Nat)
  /-- Exchanges the two topmost slots. -/
  | swap

/-- The result type of a row of four arithmetic opcodes, by opcode, and its slots. -/
def arithmeticKind (row op : Opcode) : VType × Nat :=
  match (op - row).toNat % 4 with
  | 0 => (.int, 1)
  | 1 => (.long, 2)
  | 2 => (.float, 1)
  | _ => (.double, 2)

/-- What a conversion takes and pushes. -/
def conversion (op : Opcode) : Nat × VType :=
  if op = Op.i2l then (1, .long)
  else if op = Op.i2f then (1, .float)
  else if op = Op.i2d then (1, .double)
  else if op = Op.l2i then (2, .int)
  else if op = Op.l2f then (2, .float)
  else if op = Op.l2d then (2, .double)
  else if op = Op.f2i then (1, .int)
  else if op = Op.f2l then (1, .long)
  else if op = Op.f2d then (1, .double)
  else if op = Op.d2i then (2, .int)
  else if op = Op.d2l then (2, .long)
  else (2, .float)

/-- The effect of the opcodes that stand alone. -/
def simpleEffect (op : Opcode) : Option SimpleEffect :=
  if op = Op.nop || op = Op.returnVoid then some (.slots 0 none)
  else if op = Op.aconstNull then some (.slots 0 (some .null))
  else if Op.between Op.iconstM1 Op.iconst5 op then some (.slots 0 (some .int))
  else if Op.between Op.lconst0 Op.lconst1 op then some (.slots 0 (some .long))
  else if Op.between Op.fconst0 Op.fconst2 op then some (.slots 0 (some .float))
  else if Op.between Op.dconst0 Op.dconst1 op then some (.slots 0 (some .double))
  else if op = Op.laload then some (.element (some .long))
  else if op = Op.faload then some (.element (some .float))
  else if op = Op.daload then some (.element (some .double))
  else if op = Op.aaload then some (.element none)
  else if Op.between Op.iaload Op.saload op then some (.element (some .int))
  else if op = Op.lastore || op = Op.dastore then some (.slots 4 none)
  else if Op.between Op.iastore Op.sastore op then some (.slots 3 none)
  else if op = Op.pop then some (.slots 1 none)
  else if op = Op.pop2 then some (.slots 2 none)
  else if op = Op.dup then some (.copy 1 0)
  else if op = Op.dupX1 then some (.copy 1 1)
  else if op = Op.dupX2 then some (.copy 1 2)
  else if op = Op.dup2 then some (.copy 2 0)
  else if op = Op.dup2X1 then some (.copy 2 1)
  else if op = Op.dup2X2 then some (.copy 2 2)
  else if op = Op.swap then some .swap
  else if Op.between Op.iadd Op.drem op then
    let (v, size) := arithmeticKind Op.iadd op
    some (.slots (size * 2) (some v))
  else if Op.between Op.ineg Op.dneg op then
    let (v, size) := arithmeticKind Op.ineg op
    some (.slots size (some v))
  else if op = Op.lshl || op = Op.lshr || op = Op.lushr then some (.slots 3 (some .long))
  else if op = Op.land || op = Op.lor || op = Op.lxor then some (.slots 4 (some .long))
  else if Op.between Op.ishl Op.lxor op then some (.slots 2 (some .int))
  else if Op.between Op.i2l Op.d2f op then
    let (size, v) := conversion op
    some (.slots size (some v))
  else if Op.between Op.i2b Op.i2s op then some (.slots 1 (some .int))
  else if op = Op.fcmpl || op = Op.fcmpg then some (.slots 2 (some .int))
  else if Op.between Op.lcmp Op.dcmpg op then some (.slots 4 (some .int))
  else if op = Op.ireturn || op = Op.freturn then some (.slots 1 none)
  else if op = Op.lreturn || op = Op.dreturn then some (.slots 2 none)
  else if op = Op.areturn || op = Op.athrow || op = Op.monitorenter || op = Op.monitorexit then
    some (.reference none)
  else if op = Op.arraylength then some (.reference (some .int))
  else none

namespace Machine

/-- Pushes a value if there is one. -/
def pushOption (m : Machine) : Option VType → Machine
  | some v => m.push v
  | none => m

/-- The type of an element of an array whose elements are references. -/
def elementType : VType → VType
  | .object name => if isArrayName name then .object (componentName name) else .object objectClass
  | .null => .null
  | _ => .object objectClass

/-- The effect of an opcode that stands alone. -/
def simple (i : Nat) (op : Opcode) (m : Machine) : Except CodeError Machine :=
  match simpleEffect op with
  | none => .error (.invalidOpcode op i)
  | some (.slots taken pushed) => do
    let m ← m.dropSlots i taken
    return m.pushOption pushed
  | some (.reference pushed) => do
    let (_, m) ← m.popReference i
    return m.pushOption pushed
  | some (.element type) => do
    let (_, m) ← m.pop i
    let (array, m) ← m.popReference i
    return m.push (type.getD (elementType array))
  | some (.copy copied below) => do
    let (slots, m) ← m.popSlots i (copied + below)
    return m.pushSlots (slots ++ slots.take copied)
  | some .swap => do
    let (slots, m) ← m.popSlots i 2
    return m.pushSlots slots.reverse

end Machine

/-- The array type that an element type code of `newarray` stands for. -/
def primitiveArray (code : UInt8) : Option String :=
  match code.toNat with
  | 4 => some "[Z"
  | 5 => some "[C"
  | 6 => some "[F"
  | 7 => some "[D"
  | 8 => some "[B"
  | 9 => some "[S"
  | 10 => some "[I"
  | 11 => some "[J"
  | _ => none

/-- The type of the constant at a slot. -/
def constantType (pool : Pool) (i : Nat) (index : UInt16) : Except CodeError VType := do
  match ← (pool.get index).mapError .format with
  | .integer _ => return .int
  | .float _ => return .float
  | .long _ => return .long
  | .double _ => return .double
  | .stringRef _ => return .object stringClass
  | .classRef _ => return .object "java/lang/Class"
  | .methodType _ => return .object "java/lang/invoke/MethodType"
  | .methodHandle _ _ => return .object "java/lang/invoke/MethodHandle"
  | .dynamic _ nat =>
    let (_, descriptor) ← (pool.nameAndType nat).mapError .format
    let type ← (JavaType.ofDescriptor descriptor).mapError .format
    return .ofJava type
  | _ => throw (.typeMismatch i)

/-- The descriptor of a call site whose target a bootstrap method chooses. -/
def callSiteDescriptor (pool : Pool) (i : Nat) (index : UInt16) :
    Except CodeError MethodDescriptor := do
  match ← (pool.get index).mapError .format with
  | .invokeDynamic _ nat =>
    let (_, descriptor) ← (pool.nameAndType nat).mapError .format
    (MethodDescriptor.ofDescriptor descriptor).mapError .format
  | _ => throw (.typeMismatch i)

/-- The frame after a constructor has run on a receiver: every copy of it is constructed. -/
def Machine.construct (owner : String) (receiver : VType) (m : Machine) : Machine :=
  match receiver with
  | .uninitializedThis => m.replaceAll receiver (.object owner)
  | .uninitialized _ name => m.replaceAll receiver (.object name)
  | _ => m

/-- The effect of instruction number `i` of a method of the class `owner`. -/
def execute (pool : Pool) (owner : String) (i : Nat) (insn : Insn) (m : Machine) :
    Except CodeError Machine :=
  match insn with
  | .label _ | .line _ => .ok m
  | .simple op => m.simple i op
  | .int op value =>
    if op = Op.newarray then do
      let (_, m) ← m.pop i
      match primitiveArray value.toInt8.toUInt8 with
      | some name => return m.push (.object name)
      | none => throw (.typeMismatch i)
    else .ok (m.push .int)
  | .var op slot => if op ≤ Op.aload then m.load i op slot.toNat else m.store i op slot.toNat
  | .iinc slot _ => if slot.toNat < m.locals.length then .ok m else .error (.badLocal slot.toNat i)
  | .type op index => do
    let name ← (pool.className index).mapError .format
    if op = Op.newObject then return m.push (.uninitialized i name)
    else if op = Op.anewarray then
      let (_, m) ← m.pop i
      return m.push (.object (arrayNameOf name))
    else
      let (_, m) ← m.popReference i
      return m.push (if op = Op.checkcast then .object name else .int)
  | .field op index => do
    let ref ← (pool.memberRef index).mapError .format
    let type ← (JavaType.ofDescriptor ref.descriptor).mapError .format
    if op = Op.getstatic then return m.pushJava type
    else if op = Op.putstatic then m.dropSlots i type.slots
    else if op = Op.getfield then
      let (_, m) ← m.popReference i
      return m.pushJava type
    else
      let m ← m.dropSlots i type.slots
      let (_, m) ← m.popReference i
      return m
  | .method op index => do
    let ref ← (pool.memberRef index).mapError .format
    let descriptor ← (MethodDescriptor.ofDescriptor ref.descriptor).mapError .format
    let m ← m.dropSlots i descriptor.parameterSlots
    if op = Op.invokestatic then return m.pushJava descriptor.returnType
    else
      let (receiver, m) ← m.popReference i
      let constructs := op = Op.invokespecial && ref.name = constructorName
      let m := if constructs then m.construct owner receiver else m
      return m.pushJava descriptor.returnType
  | .dynamic index => do
    let descriptor ← callSiteDescriptor pool i index
    let m ← m.dropSlots i descriptor.parameterSlots
    return m.pushJava descriptor.returnType
  | .ldc index => do return m.push (← constantType pool i index)
  | .jump op _ =>
    if op = Op.goto then .ok m
    else if Op.between Op.ifIcmpeq Op.ifAcmpne op then m.dropSlots i 2
    else m.dropSlots i 1
  | .tableSwitch _ _ _ | .lookupSwitch _ _ => m.dropSlots i 1
  | .multiNewArray index dims => do
    let m ← m.dropSlots i dims.toNat
    let name ← (pool.className index).mapError .format
    return m.push (.object name)

end Interpose
