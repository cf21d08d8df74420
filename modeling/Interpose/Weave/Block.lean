import Interpose.Weave.Marker
import Interpose.Weave.Spy
import Interpose.Names
/-!
# Injected blocks

The straight pieces of injected code. A dispatch leaves a verdict on top of the stack; the check
behind it takes the verdict away and returns, throws or goes on, with the stack below as it was.
-/

namespace Interpose

/-- What is woven, and where the events are sent. -/
structure WeavePlan where
  space : String
  listener : Int32
  loader : Int32
  kinds : EventKinds
  /-- The source-level name of the class that is woven. -/
  className : String

namespace Block

/-- Acts on the verdict on top of the stack: return its value as the method's type, throw it, or go
on without it. -/
def verdictCheck (returnType : JavaType) (notReturn finish : Label) : List Template :=
  [Template.op Op.dup, .field Op.getfield Spy.stateField, .op Op.dup, .pushInt Spy.stateReturn,
    .jump Op.ifIcmpne notReturn,
    .op Op.pop, .field Op.getfield Spy.valueField] ++ returnType.unboxing ++
  [Template.op returnType.returnOpcode,
    .place notReturn, .pushInt Spy.stateThrow, .jump Op.ifIcmpne finish,
    .field Op.getfield Spy.valueField, .type Op.checkcast throwableClass, .op Op.athrow,
    .place finish, .op Op.pop]

/-- Pushes the receiver of an event. -/
def address (plan : WeavePlan) : List Template :=
  [.pushString plan.space, .pushInt plan.listener]

/-- Invokes the dispatch method for a kind of event. -/
def invocation (k : EventKind) : Template :=
  .method Op.invokestatic (Spy.method k)

/-- Parameter types with the slots of the parameters. -/
def parameterSlots : (first : UInt16) → List JavaType → List (JavaType × UInt16)
  | _, [] => []
  | first, t :: rest => (t, first) :: parameterSlots (first + UInt16.ofNat t.slots) rest

/-- Pushes an array with the parameters as objects. -/
def packing (parameters : List (JavaType × UInt16)) : List Template :=
  [Template.pushInt (Int32.ofNat parameters.length), .type Op.anewarray objectClass] ++
  parameters.zipIdx.flatMap fun ((t, slot), i) =>
    [Template.op Op.dup, .pushInt (Int32.ofNat i), .var t.loadOpcode slot] ++ t.boxing ++ [.op Op.aastore]

/-- Stores the elements of an array into the parameters. -/
def unpacking (arguments : UInt16) (parameters : List (JavaType × UInt16)) : List Template :=
  parameters.zipIdx.flatMap fun ((t, slot), i) =>
    [Template.var Op.aload arguments, .pushInt (Int32.ofNat i), .op Op.aaload] ++ t.unboxing ++
      [Template.var t.storeOpcode slot]

/-- Pushes what describes the start of a method, arguments first, and reports it. -/
def beforeDispatch (plan : WeavePlan) (name descriptor : String) (isStatic : Bool)
    (arguments : UInt16) : List Template :=
  [Template.var Op.astore arguments, .var Op.aload arguments] ++ address plan ++
  [Template.pushInt plan.loader, .pushString plan.className, .pushString name, .pushString descriptor,
    if isStatic then .op Op.aconstNull else .var Op.aload 0,
    invocation .before]

/-- Pushes the name of the class of the exception on top of the stack, which stays. -/
def className : List Template :=
  [.op Op.dup, .method Op.invokevirtual ⟨objectClass, "getClass", "()Ljava/lang/Class;"⟩,
    .method Op.invokevirtual ⟨"java/lang/Class", "getName", "()Ljava/lang/String;"⟩]

end Block

end Interpose
