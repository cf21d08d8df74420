import Interpose.Event.Kind
import Interpose.ClassFile.Constant
/-!
# The dispatch class

Woven code reports to a class with one static method per kind of event. Each of them answers with an
object that carries a verdict: a state, and the value that goes with it.
-/

namespace Interpose

namespace Spy

/-- The class with the dispatch methods. -/
def className : String := "jvmweaver/spy/Spy"

/-- The class of verdicts. -/
def verdictClass : String := "jvmweaver/spy/Spy$Ret"

/-- The field type of verdicts. -/
def verdictType : String := "Ljvmweaver/spy/Spy$Ret;"

/-- The field type of any object. -/
def objectType : String := "Ljava/lang/Object;"

/-- The field type of strings. -/
def stringType : String := "Ljava/lang/String;"

/-- The verdict field that tells what to do. -/
def stateField : MemberRef := ⟨verdictClass, "state", "I"⟩

/-- The verdict field with the value to return or throw. -/
def valueField : MemberRef := ⟨verdictClass, "respond", objectType⟩

/-- The state of a verdict to go on. -/
def stateContinue : Int32 := 0

/-- The state of a verdict to return at once. -/
def stateReturn : Int32 := 1

/-- The state of a verdict to throw at once. -/
def stateThrow : Int32 := 2

/-- The name of the dispatch method for a kind of event. -/
def methodName : EventKind → String
  | .before => "spyMethodOnBefore"
  | .return => "spyMethodOnReturn"
  | .throws => "spyMethodOnThrows"
  | .line => "spyMethodOnLine"
  | .callBefore => "spyMethodOnCallBefore"
  | .callReturn => "spyMethodOnCallReturn"
  | .callThrows => "spyMethodOnCallThrows"

/-- The parameter types of the dispatch method for a kind of event. Namespace and listener come last,
but for the start of a method, which has its arguments before and its site behind them. -/
def parameterTypes : EventKind → List String
  | .before => ["[" ++ objectType, stringType, "I", "I", stringType, stringType, stringType, objectType]
  | .return => [objectType, stringType, "I"]
  | .throws => ["Ljava/lang/Throwable;", stringType, "I"]
  | .line => ["I", stringType, "I"]
  | .callBefore => ["I", stringType, stringType, stringType, stringType, "I"]
  | .callReturn => [stringType, "I"]
  | .callThrows => [stringType, stringType, "I"]

/-- The descriptor of the dispatch method for a kind of event. -/
def methodDescriptor (k : EventKind) : String :=
  "(" ++ String.join (parameterTypes k) ++ ")" ++ verdictType

/-- The dispatch method for a kind of event. -/
def method (k : EventKind) : MemberRef :=
  ⟨className, methodName k, methodDescriptor k⟩

end Spy

end Interpose
