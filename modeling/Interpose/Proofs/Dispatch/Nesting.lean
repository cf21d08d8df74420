import Interpose.Dispatch.Bridge
/-!
# Dispatches from within listeners

A thread that has a dispatch in progress ignores every other one, so whatever a listener dispatches is
answered at once, and the listener's reaction can be told without the bridge (`Reaction.alone`). An
outermost dispatch asks one listener or none, and leaves the thread as it was.

Results:
* `Bridge.send_run`: what becomes of a dispatch on any thread.
-/

namespace Interpose

theorem Thread.enter_of_dispatching {t : Thread} (h : t.dispatching = true) : t.enter = none := by
  rw [enter, if_pos h]

theorem Thread.enter_of_idle {t : Thread} (h : t.dispatching = false) :
    t.enter = some { dispatching := true } := by
  rw [enter, if_neg (by simp [h])]

theorem Thread.leave_of_idle {t : Thread} (h : t.dispatching = false) :
    Thread.leave { dispatching := true } = t := by
  obtain ⟨d⟩ := t
  subst h
  rfl

/-! ## Listeners whose dispatches are ignored -/

/-- What a listener does whose own dispatches are all ignored. -/
def Reaction.alone : Reaction → Ran
  | finish how event => ⟨how, event, [], []⟩
  | ask d resume =>
    let rest := (resume (Answer.ignored d.event)).alone
    { rest with nested := (d, Answer.ignored d.event) :: rest.nested }

def Sending.Ignores (send : Sending) (t : Thread) : Prop :=
  ∀ d, (send d).run t = (.ignored d.event, t)

theorem Reaction.run_of_ignores {send : Sending} {t : Thread} (h : send.Ignores t) (r : Reaction) :
    (r.run send).run t = (r.alone, t) := by
  induction r with
  | finish how event => rfl
  | ask d resume ih =>
    unfold run
    rw [StateT.run_bind, h d]
    change ((resume (Answer.ignored d.event)).run send >>= _).run t = _
    rw [StateT.run_bind, ih (Answer.ignored d.event)]
    rfl

theorem Reaction.inner_alone (r : Reaction) : r.alone.inner = [] := by
  induction r with
  | finish how event => rfl
  | ask d resume ih => exact ih _

/-- Every dispatch of such a listener was answered as one that reached nobody. -/
theorem Reaction.nested_alone (r : Reaction) : ∀ x ∈ r.alone.nested, x.2 = Answer.ignored x.1.event := by
  induction r with
  | finish how event => simp [alone]
  | ask d resume ih =>
    intro x hx
    rcases List.mem_cons.1 hx with rfl | hx
    · rfl
    · exact ih _ x hx

/-- An event that is given to a listener whose own dispatches are ignored. -/
def Listener.given (l : Listener) (id : Int32) (e : Event) : Dispatched :=
  let ran := (l e).alone
  ⟨⟨ran.how.verdict id, ran.event⟩, some ⟨id, e, ran.nested⟩, ran.inner⟩

/-- The listener is asked once, and nobody else is. -/
theorem Listener.deliveries_given (l : Listener) (id : Int32) (e : Event) :
    (l.given id e).deliveries = [⟨id, e, (l e).alone.nested⟩] := by
  rw [Dispatched.deliveries, given, (l e).inner_alone]
  rfl

theorem Registry.dispatch_run {send : Sending} {t : Thread} (h : send.Ignores t) (r : Registry)
    (id : Int32) (e : Event) : (r.dispatch send id e).run t =
      (((r.recipient? id e).map fun l => l.listener.given id e).getD (.ignored e), t) := by
  unfold dispatch
  cases r.recipient? id e with
  | none => rfl
  | some l =>
    change ((l.listener e).run send >>= _).run t = _
    rw [StateT.run_bind, Reaction.run_of_ignores h]
    rfl

/-! ## The bridge -/

namespace Bridge

variable {κ : Type} (b : Bridge κ) (registries : κ → Registry)

def recipient? (d : Dispatch) : Option Registration :=
  (b.find? d.space).bind fun key => (registries key).recipient? d.listener d.event

theorem serve_ignores (send : Sending) {t : Thread} (h : t.dispatching = true) :
    (b.serve registries send).Ignores t := by
  intro d
  rw [serve, StateT.run_bind, StateT.run_get, pure_bind, Thread.enter_of_dispatching h]
  rfl

/-- Between its beginning and its end, a dispatch does what its registry does on the busy thread. -/
theorem serve_run {send : Sending} {t : Thread} (ht : t.dispatching = false)
    (h : send.Ignores { dispatching := true }) (d : Dispatch) : (b.serve registries send d).run t =
      (((b.recipient? registries d).map fun l => l.listener.given d.listener d.event).getD
        (.ignored d.event), t) := by
  rw [serve, StateT.run_bind, StateT.run_get, pure_bind, Thread.enter_of_idle ht, recipient?]
  cases b.find? d.space with
  | none =>
    rw [← Thread.leave_of_idle ht]
    rfl
  | some key =>
    simp only [bind_pure_comp, StateT.run_bind, StateT.run_set, StateT.run_map, StateT.run_modify,
      map_pure, pure_bind, Registry.dispatch_run h, Option.bind_some]
    exact congrArg (Prod.mk _) (Thread.leave_of_idle ht)

/-- What becomes of a dispatch: a busy thread ignores it, an idle one gives it to the listener that wants
it; and the thread stays as it was. -/
theorem send_run (t : Thread) (d : Dispatch) : (b.send registries d).run t =
    (if t.dispatching then .ignored d.event
      else ((b.recipient? registries d).map fun l => l.listener.given d.listener d.event).getD
        (.ignored d.event), t) := by
  cases ht : t.dispatching with
  | true => exact serve_ignores b registries _ ht d
  | false => exact serve_run b registries ht (serve_ignores b registries _ rfl) d

end Bridge

end Interpose
