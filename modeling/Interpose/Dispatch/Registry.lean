import Interpose.Dispatch.Listener
import Interpose.Table
/-!
# Registries

The listeners of one namespace by their numbers. An event reaches a listener if it is registered and
asked for events of that kind; otherwise the method goes on as if nothing had happened.
-/

namespace Interpose

/-- Listeners by number. -/
abbrev Registry := Table Int32 Registration

namespace Registry

/-- The registry with a listener; an earlier one of the same number is gone. -/
def register (r : Registry) (l : Registration) : Registry :=
  r.insert l.id l

/-- The listener that wants an event. -/
def recipient? (r : Registry) (id : Int32) (e : Event) : Option Registration :=
  (r.find? id).filter (·.kinds.has e.kind)

/-- Sends an event to a listener. -/
def dispatch (r : Registry) (send : Sending) (id : Int32) (e : Event) : StateM Thread Dispatched :=
  match recipient? r id e with
  | none => return .ignored e
  | some l => do
    let ran ← (l.listener e).run send
    return ⟨⟨ran.how.verdict id, ran.event⟩, some ⟨id, e, ran.nested⟩, ran.inner⟩

end Registry

end Interpose
