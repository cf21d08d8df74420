import Interpose.Event.Kind
import Interpose.Event.Value
/-!
# Events and verdicts

An event reports that a woven method has come to a point that is observed. A listener answers with a
verdict, and woven code acts on it: it goes on, returns at once or throws at once.
-/

namespace Interpose

/-- A report of woven code. -/
inductive Event where
  /-- A method starts; its arguments may be exchanged. -/
  | before (loader : Int32) (className methodName methodDescriptor : String) (target : Value)
      (arguments : List Value)
  | return (value : Value)
  | throws (throwable : Value)
  | line (line : Int32)
  | callBefore (line : Int32) (owner name descriptor : String)
  | callReturn
  | callThrows (throwableClass : String)
deriving DecidableEq

namespace Event

/-- The kind of an event. -/
def kind : Event → EventKind
  | before .. => .before
  | .return _ => .return
  | throws _ => .throws
  | line _ => .line
  | callBefore .. => .callBefore
  | callReturn => .callReturn
  | callThrows _ => .callThrows

/-- The arguments an event carries; only the start of a method has any. -/
def arguments : Event → List Value
  | before _ _ _ _ _ arguments => arguments
  | _ => []

/-- The event with other arguments, if it carries any. -/
def withArguments (new : List Value) : Event → Event
  | before loader className methodName methodDescriptor target _ =>
    before loader className methodName methodDescriptor target new
  | e => e

end Event

/-- What woven code does when a listener has answered. -/
inductive Verdict where
  | continue
  | return (value : Value)
  | throw (throwable : Value)
deriving DecidableEq

namespace Verdict

/-- The number by which woven code tells verdicts apart. -/
def state : Verdict → Int32
  | .continue => 0
  | .return _ => 1
  | .throw _ => 2

/-- The description of a verdict. -/
def describe : Verdict → String
  | .continue => "Continue"
  | .return v => "Return(" ++ v.describe ++ ")"
  | .throw v => "Throw(" ++ v.describe ++ ")"

end Verdict

namespace EventKinds

/-- The flags that belong to no kind. -/
def restBits (s : EventKinds) : UInt8 :=
  s.bits &&& ~~~(EventKinds.ofList EventKind.all).bits

/-- The description of a set of kinds. -/
def describe (s : EventKinds) : String :=
  let rest := if s.restBits = 0 then [] else ["0x" ++ hexDigits s.restBits.toNat]
  let items := s.toList.map EventKind.name ++ rest
  "EventTypes(" ++ (if items.isEmpty then "0x0" else " | ".intercalate items) ++ ")"

end EventKinds

end Interpose
