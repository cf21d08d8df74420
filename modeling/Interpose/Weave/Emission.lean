import Interpose.Weave.Block
import Interpose.Code.Body
/-!
# Emission

The state of a method that is being rebuilt: the instructions so far, the next free label and local
variable, and the protected ranges around single invocations. Constants go to the pool as the
instructions that name them are emitted.

Results:
* `Emission.insns_push`: emitting puts instructions behind those that are there.
-/

namespace Interpose

/-- A method that is being rebuilt. -/
structure Emission where
  insns : Array Insn := #[]
  nextLabel : Label
  /-- The first slot above all that the method uses. -/
  nextLocal : UInt16
  maxLocals : UInt16
  /-- The protected ranges around single invocations. -/
  callRanges : List TryCatch := []

/-- A step of rebuilding a method. -/
abbrev Emit := StateT Emission Pool.Interning

namespace Emission

/-- The state with one more instruction. -/
def push (e : Emission) (i : Insn) : Emission :=
  { e with insns := e.insns.push i }

theorem insns_push (e : Emission) (i : Insn) : (e.push i).insns.toList = e.insns.toList ++ [i] := by
  simp [push]

end Emission

namespace Emit

/-- Emits an instruction as it is. -/
def insn (i : Insn) : Emit Unit :=
  modify (·.push i)

/-- Emits a template. -/
def template (t : Template) : Emit Unit := do
  insn (← (t.settle : Pool.Interning Insn))

/-- Emits templates in order. -/
def block (ts : List Template) : Emit Unit :=
  ts.forM template

/-- A label that nothing else uses. -/
def newLabel : Emit Label :=
  modifyGet fun e => (e.nextLabel, { e with nextLabel := e.nextLabel + 1 })

/-- A local variable that nothing else uses. Slots are numbered by 16 bits. -/
def newLocal : Emit UInt16 :=
  modifyGet fun e =>
    let next := e.nextLocal + 1
    (e.nextLocal, { e with nextLocal := next, maxLocals := max e.maxLocals next })

/-- Remembers a protected range around one invocation. -/
def callRange (t : TryCatch) : Emit Unit :=
  modify fun e => { e with callRanges := e.callRanges ++ [t] }

/-- The slot of the class of everything that can be thrown. -/
def throwable : Emit UInt16 :=
  (Pool.addClass throwableClass : Pool.Interning UInt16)

/-- The member that an instruction refers to. -/
def member (index : UInt16) : Emit MemberRef := do
  let pool ← (get : StateM Pool Pool)
  (MonadExcept.ofExcept (pool.memberRef index) : Pool.Interning MemberRef)

/-- The check of a verdict for a method of the given return type. -/
def verdictCheck (returnType : JavaType) : Emit Unit := do
  let notReturn ← newLabel
  let finish ← newLabel
  block (Block.verdictCheck returnType notReturn finish)

/-- Reports an event whose own operands are on the stack, and acts on the verdict. -/
def dispatch (plan : WeavePlan) (returnType : JavaType) (k : EventKind) : Emit Unit := do
  block (Block.address plan ++ [Block.invocation k])
  verdictCheck returnType

/-- Emits code between the markers of injected code. -/
def injected (code : Emit Unit) : Emit Unit := do
  block Marker.opening
  code
  block Marker.closing

end Emit

end Interpose
