import Interpose.Dispatch.Registry
/-!
# The dispatch bridge

Woven code names a namespace and a listener. The bridge knows for each initialised namespace which
registry answers for it; what is sent to any other namespace is ignored. Registries are named by keys,
since one may answer for several namespaces and goes on changing while it does.
-/

namespace Interpose

/-- The keys of the registries that answer for namespaces. -/
abbrev Bridge (κ : Type) := Table String κ

namespace Bridge

variable {κ : Type}

/-- One dispatch: it is ignored when another is in progress on the thread, and otherwise in progress
itself until it has been answered, however the listener ends. `registries` gives the registry of a key
as it is now, and `send` takes what the listener dispatches. -/
def serve (b : Bridge κ) (registries : κ → Registry) (send : Sending) : Sending := fun d => do
  match (← get).enter with
  | none => return .ignored d.event
  | some busy =>
    set busy
    let sent ← match b.find? d.space with
      | none => pure (.ignored d.event)
      | some key => (registries key).dispatch send d.listener d.event
    modify Thread.leave
    return sent

/-- Sends an event. What a listener dispatches is sent in the same way, and gets no further: two levels
are all there are. -/
def send (b : Bridge κ) (registries : κ → Registry) : Sending :=
  b.serve registries (b.serve registries fun d => return .ignored d.event)

/-- What becomes of an event that is sent from a thread without a dispatch in progress. -/
def dispatch (b : Bridge κ) (registries : κ → Registry) (d : Dispatch) : Dispatched :=
  ((b.send registries d).run {}).1

end Bridge

end Interpose
