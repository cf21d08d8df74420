import Interpose.Event.Basic
/-!
# Listeners

A listener is asked to react to an event. It may exchange the arguments of the event, dispatch events
of its own, and ends in one of four ways: it lets the method go on, gives a verdict, fails, or breaks
down. Its reaction is a value: either the end, or a dispatch of its own together with what it does
when that has been answered.

A thread remembers whether it runs a listener. What a listener dispatches goes the way of every other
dispatch, on the same thread.
-/

namespace Interpose

/-- An event that is addressed to a listener of a namespace. -/
structure Dispatch where
  space : String
  listener : Int32
  event : Event
deriving DecidableEq

/-- A listener failed, or broke down. -/
structure CallbackFault where
  listener : Int32
  reason : String
deriving DecidableEq

/-- What is said about the fault. -/
def CallbackFault.message (f : CallbackFault) : String :=
  "listener " ++ toString f.listener.toInt ++ " failed: " ++ f.reason

/-- The answer to a dispatch: a verdict, and the event with the arguments it has now. -/
structure Answer where
  verdict : Except CallbackFault Verdict
  event : Event

/-- The answer when no listener was asked: go on, with the arguments as they are. -/
def Answer.ignored (e : Event) : Answer :=
  ⟨.ok .continue, e⟩

/-- How a listener ends. -/
inductive ListenerEnd where
  | proceed
  | control (v : Verdict)
  | fail (reason : String)
  /-- Broke down; the text is missing when it left something that is no text. -/
  | panic (reason : Option String)

/-- What a listener ended with, as a verdict. -/
def ListenerEnd.verdict (id : Int32) : ListenerEnd → Except CallbackFault Verdict
  | proceed => .ok .continue
  | control v => .ok v
  | fail reason => .error ⟨id, reason⟩
  | panic reason => .error ⟨id, "listener panicked: " ++ reason.getD "unknown panic"⟩

/-- What a listener does with an event. -/
inductive Reaction where
  /-- Ends, and leaves the event as it is now. -/
  | finish (how : ListenerEnd) (event : Event)
  /-- Dispatches an event of its own, and goes on with the answer. -/
  | ask (d : Dispatch) (resume : Answer → Reaction)

/-- A listener that was asked: what arrived, and what it asked on the way. -/
structure Delivery where
  listener : Int32
  event : Event
  nested : List (Dispatch × Answer)

/-- What became of a dispatch. -/
structure Dispatched where
  answer : Answer
  /-- The listener that was asked, if any. -/
  delivery : Option Delivery
  /-- The listeners that were asked by what it dispatched itself. -/
  inner : List Delivery := []

/-- A dispatch that reached no listener. -/
def Dispatched.ignored (e : Event) : Dispatched :=
  ⟨Answer.ignored e, none, []⟩

/-- All listeners that were asked. -/
def Dispatched.deliveries (d : Dispatched) : List Delivery :=
  d.delivery.toList ++ d.inner

/-- What a thread knows of dispatches. -/
structure Thread where
  /-- Whether one is in progress. -/
  dispatching : Bool := false
deriving DecidableEq

/-- The thread with a dispatch in progress, if there is none yet. -/
def Thread.enter (t : Thread) : Option Thread :=
  if t.dispatching then none else some { t with dispatching := true }

/-- The thread after a dispatch. -/
def Thread.leave (t : Thread) : Thread :=
  { t with dispatching := false }

/-- What is done with a dispatch on a thread. -/
abbrev Sending := Dispatch → StateM Thread Dispatched

/-- What a listener did: how it ended, with which event, and what it asked on the way. -/
structure Ran where
  how : ListenerEnd
  event : Event
  nested : List (Dispatch × Answer)
  /-- The listeners that its own dispatches reached. -/
  inner : List Delivery

/-- Lets a listener react; its own dispatches are sent as given. -/
def Reaction.run (send : Sending) : Reaction → StateM Thread Ran
  | finish how event => return ⟨how, event, [], []⟩
  | ask d resume => do
    let sent ← send d
    let rest ← (resume sent.answer).run send
    return { rest with
      nested := (d, sent.answer) :: rest.nested
      inner := sent.deliveries ++ rest.inner }

/-- Reacts to events. -/
abbrev Listener := Event → Reaction

/-- A registered listener. -/
structure Registration where
  id : Int32
  kinds : EventKinds
  space : String
  enableUnsafe : Bool
  listener : Listener

/-- The description of a registered listener, without the listener. -/
def Registration.describe (r : Registration) : String :=
  describedRecord "ListenerRegistration"
    [("listener_id", toString r.id.toInt), ("event_types", r.kinds.describe),
      ("namespace", quoted r.space), ("enable_unsafe", describedBool r.enableUnsafe)] true

/-- The description of a verdict that a listener signals. -/
def Verdict.describeSignal (v : Verdict) : String :=
  "process control: " ++ v.describe

end Interpose
