import Interpose.Weave.Emission
import Interpose.Code.Decode
import Interpose.Code.Assemble
/-!
# Weaving a method

A woven method has this shape:

* for a constructor, its code up to the call of another constructor;
* the report of its start, which may change the parameters;
* the rest of its code, with reports before returns, behind source line marks and around invocations;
* a handler for whatever leaves that rest by an exception.

The protected ranges around single invocations come first in the exception table and the one around
the method last, so the method's own handlers keep their precedence. Code between the markers of an
earlier pass is copied without reports.
-/

namespace Interpose

/-- The method that is woven, and how. -/
structure WeaveSite where
  plan : WeavePlan
  context : MethodContext

namespace WeaveSite

/-- Whether events of a kind are reported. -/
def wants (s : WeaveSite) (k : EventKind) : Bool :=
  s.plan.kinds.has k

/-- The type the method returns. -/
def returnType (s : WeaveSite) : JavaType :=
  s.context.descriptor.returnType

/-- The first slot of the parameters. -/
def firstParameter (s : WeaveSite) : UInt16 :=
  if s.context.isStatic then 0 else 1

/-- The parameters with their slots. -/
def parameters (s : WeaveSite) : List (JavaType × UInt16) :=
  Block.parameterSlots s.firstParameter s.context.descriptor.parameters

/-- Reports an event whose own operands are on the stack, and acts on the verdict. -/
def dispatch (s : WeaveSite) (k : EventKind) : Emit Unit :=
  Emit.dispatch s.plan s.returnType k

/-- Reports the start of the method. -/
def before (s : WeaveSite) : Emit Unit := Emit.injected do
  Emit.block (Block.packing s.parameters)
  let arguments ← Emit.newLocal
  Emit.block (Block.beforeDispatch s.plan s.context.name s.context.descriptor.descriptor
    s.context.isStatic arguments)
  Emit.verdictCheck s.returnType
  Emit.block (Block.unpacking arguments s.parameters)

/-- Reports a return; the value that is returned is on the stack and stays there. -/
def onReturn (s : WeaveSite) : Emit Unit := Emit.injected do
  Emit.block (s.returnType.duplicating ++ s.returnType.boxing)
  s.dispatch .return

/-- Reports a source line. -/
def onLine (s : WeaveSite) (line : UInt16) : Emit Unit := Emit.injected do
  Emit.block [.pushInt (Int32.ofNat line.toNat)]
  s.dispatch .line

/-- Reports an invocation that is about to happen. -/
def onCallBefore (s : WeaveSite) (line : Int32) (m : MemberRef) : Emit Unit := Emit.injected do
  Emit.block [.pushInt line, .pushString (toJavaName m.owner), .pushString m.name,
    .pushString m.descriptor]
  s.dispatch .callBefore

/-- Reports an invocation that has returned, if that is wanted. -/
def onCallReturn (s : WeaveSite) : Emit Unit :=
  if s.wants .callReturn then Emit.injected (s.dispatch .callReturn) else pure ()

/-- An invocation with a handler of its own, which reports what was thrown and throws it again. -/
def guardedCall (s : WeaveSite) (call : Insn) : Emit Unit := do
  let start ← Emit.newLabel
  let stop ← Emit.newLabel
  let handler ← Emit.newLabel
  let after ← Emit.newLabel
  Emit.block [.place start, .plain call, .place stop]
  s.onCallReturn
  Emit.block [.jump Op.goto after, .place handler]
  Emit.injected do
    Emit.block Block.className
    s.dispatch .callThrows
  Emit.block [.op Op.athrow, .place after]
  Emit.callRange ⟨start, stop, handler, ← Emit.throwable⟩

/-- An invocation with the reports around it. -/
def call (s : WeaveSite) (call : Insn) (index : UInt16) (line : Int32) : Emit Unit := do
  let m ← Emit.member index
  if s.wants .callBefore then s.onCallBefore line m
  if s.wants .callThrows then s.guardedCall call
  else do
    Emit.insn call
    s.onCallReturn

/-- The handler of the method: reports what was thrown and throws it again. -/
def onThrows (s : WeaveSite) : Emit Unit := do
  Emit.block Marker.opening
  let thrown ← Emit.newLocal
  Emit.block [.var Op.astore thrown, .var Op.aload thrown]
  s.dispatch .throws
  Emit.block (Marker.closing ++ [Template.var Op.aload thrown, .op Op.athrow])

/-- What is known where the next instruction of the method is copied. -/
structure Position where
  scan : MarkerScan := {}
  /-- The source line, or -1 before the first. -/
  line : Int32

/-- Copies an instruction of the method with its reports. -/
def copy (s : WeaveSite) (p : Position) (i : Insn) : Emit Position := do
  let scan := p.scan.observe i
  let line := match i with
    | .line n => Int32.ofNat n.toNat
    | _ => p.line
  match i with
  | .line n =>
    Emit.insn i
    if s.wants .line && !scan.inside then s.onLine n
  | .simple op =>
    if Op.isReturn op && !scan.inside && s.wants .return then s.onReturn
    Emit.insn i
  | .method _ index =>
    if s.plan.kinds.meets EventKinds.calls && !scan.inside then s.call i index line
    else Emit.insn i
  | _ => Emit.insn i
  return { scan, line }

/-- Copies instructions of the method with their reports, starting behind a source line. -/
def copyAll (s : WeaveSite) (line : Int32) (insns : List Insn) : Emit Unit := do
  let _ ← insns.foldlM s.copy { line }

/-- The source line that a run of instructions ends in, or -1. -/
def lastLine (insns : List Insn) : Int32 :=
  insns.foldl (fun line i => match i with
    | .line n => Int32.ofNat n.toNat
    | _ => line) (-1)

/-- Rebuilds a method from its code up to the entry point and its code from there on. Gives the range
of its own handler, if it has one. -/
def rebuild (s : WeaveSite) (prologue rest : List Insn) : Emit (Option TryCatch) := do
  prologue.forM Emit.insn
  if s.wants .before then s.before
  let start ← Emit.newLabel
  let stop ← Emit.newLabel
  Emit.block [.place start]
  s.copyAll (lastLine prologue) rest
  Emit.block [.place stop]
  if s.wants .throws then do
    let handler ← Emit.newLabel
    Emit.block [.place handler]
    s.onThrows
    return some ⟨start, stop, handler, ← Emit.throwable⟩
  else return none

end WeaveSite

namespace Weave

/-- The first invocation of a constructor on the object under construction. -/
def constructorCall (pool : Pool) (frames : Array (Option Frame)) :
    (i : Nat) → List Insn → Except CodeError Nat
  | _, [] => .error .missingConstructorCall
  | i, .method Op.invokespecial index :: rest => do
    let m ← (pool.memberRef index).mapError .format
    match frames[i]? with
    | some (some f) =>
      if m.name = constructorName then
        let d ← (MethodDescriptor.ofDescriptor m.descriptor).mapError .format
        if f.stack[d.parameterSlots]? = some .uninitializedThis then return i
        else constructorCall pool frames (i + 1) rest
      else constructorCall pool frames (i + 1) rest
    | _ => constructorCall pool frames (i + 1) rest
  | i, _ :: rest => constructorCall pool frames (i + 1) rest

/-- The number of instructions before the first one that may be woven: in a constructor all up to the
call of another constructor, elsewhere none. -/
def entryPoint (body : Body) (context : MethodContext) (pool : Pool) (hierarchy : Hierarchy) :
    Except CodeError Nat :=
  if context.startsUninitialized then do
    let a ← analyze body context pool hierarchy
    return (← constructorCall pool a.frames 0 body.insns) + 1
  else return 0

/-- The slots of the parameters and the receiver. -/
def argumentSlots (context : MethodContext) : UInt16 :=
  UInt16.ofNat context.descriptor.parameterSlots + (if context.isStatic then 0 else 1)

/-- The body with the reports of a plan. -/
def body (plan : WeavePlan) (context : MethodContext) (given : Body) (entry : Nat) :
    Pool.Interning Body := do
  let firstFree := max given.maxLocals (argumentSlots context)
  let s : WeaveSite := { plan, context }
  let (own, e) ← (s.rebuild (given.insns.take entry) (given.insns.drop entry)).run
    { nextLabel := given.nextLabel, nextLocal := firstFree, maxLocals := firstFree }
  return { given with
    insns := e.insns.toList
    tryCatch := e.callRanges ++ given.tryCatch ++ own.toList
    maxLocals := e.maxLocals
    nextLabel := e.nextLabel }

/-- The code attribute of a method with the reports of a plan. -/
def method (plan : WeavePlan) (context : MethodContext) (hierarchy : Hierarchy)
    (majorVersion : UInt16) (code : CodeAttribute) : Assembly CodeAttribute := do
  let given ← Assembly.ofExcept (decode code)
  let pool ← get
  let entry ← Assembly.ofExcept (entryPoint given context pool hierarchy)
  let woven ← Assembly.adding (body plan context given entry)
  assemble woven context hierarchy majorVersion

end Weave

end Interpose
