import Interpose.Proofs.Engine.Defining
import Interpose.Proofs.Engine.Numbers
/-!
# Numbers that are given again

Each request to watch an installed namespace draws a number, also if the host refuses the transformer and
nobody is registered under it. So it takes no more than one listener and a host that goes on refusing to
come round to a number that is still in use.

* `Ready.watch`: one request.
* `ready_replicate`: any number of them.
-/

namespace Interpose

namespace Engine

variable {policy : HostPolicy} {e e' : Engine} {reply : Reply} {space : String} {key n : Nat}

/-- A namespace is installed, and so many numbers were drawn. -/
structure Ready (space : String) (key n : Nat) (e : Engine) : Prop where
  wired : e.Wired
  installed : e.installed.find? space = some key
  next : e.nextListener = listenerNumber n

/-- A request to watch an installed namespace draws a number. The host decides whether the listener gets
it. -/
theorem Ready.watch (h : Ready space key n e) (policy : HostPolicy) (matcher : Matcher)
    (listener : Listener) (kinds : EventKinds) :
    Ready space key (n + 1) (e.call (policy, .watch key matcher listener kinds)).after ∧
      (policy.add (listenerNumber n) = none →
        (e.call (policy, .watch key matcher listener kinds)).reply = .watching (listenerNumber n)) ∧
      (∀ cause, policy.add (listenerNumber n) = some cause →
        (e.call (policy, .watch key matcher listener kinds)).reply = .failed (.host cause)) := by
  have heffect : Effect policy e (.watch key matcher listener kinds)
      (e.call (policy, .watch key matcher listener kinds)).reply
      (e.call (policy, .watch key matcher listener kinds)).after :=
    call_effect e (policy, .watch key matcher listener kinds)
  generalize (e.call (policy, .watch key matcher listener kinds)).reply = reply,
    (e.call (policy, .watch key matcher listener kinds)).after = e' at heffect ⊢
  have hwired := h.wired.effect heffect
  have hnext : e.nextListener + 1 = listenerNumber (n + 1) := by rw [listenerNumber_succ, h.next]
  cases heffect with
  | closed _ hclosed =>
    obtain ⟨r, hr, hactive, -⟩ := h.wired.current space key h.installed
    cases (hclosed r hr).symm.trans hactive
  | refused _ _ hadd =>
    rw [h.next] at hadd
    refine ⟨⟨hwired, h.installed, hnext⟩, fun hnone => ?_, fun cause hcause => ?_⟩
    · cases hadd.symm.trans hnone
    · cases hadd.symm.trans hcause
      rfl
  | watched _ _ hadd =>
    rw [h.next] at hadd
    refine ⟨⟨hwired, h.installed, hnext⟩, fun _ => by rw [h.next], fun cause hcause => ?_⟩
    cases hadd.symm.trans hcause

/-- Any number of requests to watch draw as many numbers. -/
theorem ready_replicate {requests : List (HostPolicy × Request)} (h : Ready space key n (play requests).2)
    (policy : HostPolicy) (matcher : Matcher) (listener : Listener) (kinds : EventKinds) (k : Nat) :
    ∃ later, (play (requests ++ List.replicate k (policy, .watch key matcher listener kinds))).1
        = (play requests).1 ++ later ∧
      (∀ c ∈ later, c.request = .watch key matcher listener kinds) ∧
      Ready space key (n + k)
        (play (requests ++ List.replicate k (policy, .watch key matcher listener kinds))).2 := by
  induction k with
  | zero =>
    rw [List.replicate_zero, List.append_nil]
    exact ⟨[], (List.append_nil _).symm, by simp, h⟩
  | succ k ih =>
    obtain ⟨later, hcalls, hlater, hready⟩ := ih
    rw [List.replicate_succ', ← List.append_assoc, play_concat, hcalls, List.append_assoc]
    refine ⟨_, rfl, fun c hc => ?_, ?_⟩
    · rcases List.mem_append.1 hc with hc | hc
      · exact hlater c hc
      · rw [List.mem_singleton.1 hc]
        rfl
    · exact (hready.watch policy matcher listener kinds).1

/-! ## A number in use is drawn again -/

/-- A host that accepts everything has a namespace installed. -/
theorem ready_install (h : e.Wired) (config : EngineConfig) (hnew : e.installed.find? config.space = none)
    (hnext : e.nextListener = listenerNumber n) :
    Ready config.space (e.realmCount + 1) n (e.call ({}, .install config)).after := by
  have hwired := h.effect (call_effect e ({}, .install config))
  have hfounding : Founding {} config e (e.call ({}, .install config)).reply
      (e.call ({}, .install config)).after := install_founding (h.bind_realm_eq_none.2 hnew)
  generalize (e.call ({}, .install config)).after = e', (e.call ({}, .install config)).reply = reply
    at hwired hfounding ⊢
  cases hfounding with
  | ready | complete => exact ⟨hwired, (Table.find?_insert ..).trans (if_pos rfl), hnext⟩
  | refused _ hfirst => cases hfirst
  | halfway _ _ _ hsecond => cases hsecond

theorem calls_pair (x y : HostPolicy × Request) :
    (play [x, y]).1 = [({} : Engine).call x, (play [x]).2.call y] := by
  have hplay := congrArg Prod.fst (play_concat [x] y)
  rwa [calls_singleton] at hplay

theorem engine_pair (x y : HostPolicy × Request) : (play [x, y]).2 = ((play [x]).2.call y).after :=
  congrArg Prod.snd (play_concat [x] y)

theorem ready_install_new (config : EngineConfig) :
    Ready config.space 1 0 (play [({}, .install config)]).2 := by
  rw [engine_singleton]
  exact ready_install wired_new config rfl numbered_new.next

def proceeding : Listener :=
  fun event => .finish .proceed event

def refusingAdd : HostPolicy :=
  { add := fun _ => some ⟨"add", "refused"⟩ }

/-- A namespace is installed, and a listener watches it. -/
def joining : List (HostPolicy × Request) :=
  [({}, .install { space := "app" }), ({}, .watch 1 .all proceeding .calls)]

/-- One listener watches a namespace, and then the host refuses so many more. -/
def renumbering (k : Nat) : List (HostPolicy × Request) :=
  joining ++ List.replicate k (refusingAdd, .watch 1 .all proceeding .calls)

theorem renumbering_succ (k : Nat) :
    renumbering (k + 1) = renumbering k ++ [(refusingAdd, .watch 1 .all proceeding .calls)] := by
  rw [renumbering, renumbering, List.replicate_succ', List.append_assoc]

/-- The listener gets the first number. -/
theorem ready_joining : ∃ first second, (play joining).1 = [first, second] ∧
    second.reply = .watching (listenerNumber 0) ∧ second.request = .watch 1 .all proceeding .calls ∧
    Ready "app" 1 1 (play joining).2 := by
  obtain ⟨hready, hreply, -⟩ := (ready_install_new { space := "app" }).watch {} .all proceeding .calls
  rw [joining, calls_pair, engine_pair]
  exact ⟨_, _, rfl, hreply rfl, rfl, hready⟩

/-- The listener has the first number, and nobody asks that it be forgotten. -/
theorem ready_renumbering (k : Nat) : ∃ first second later,
    (play (renumbering k)).1 = first :: second :: later ∧
      second.reply = .watching (listenerNumber 0) ∧
      second.request = .watch 1 .all proceeding .calls ∧
      (∀ c ∈ later, c.request = .watch 1 .all proceeding .calls) ∧
      Ready "app" 1 (1 + k) (play (renumbering k)).2 := by
  obtain ⟨first, second, hcalls, hreply, hrequest, hready⟩ := ready_joining
  obtain ⟨later, hplay, hlater, hready⟩ := ready_replicate hready refusingAdd .all proceeding .calls k
  rw [hcalls, ← renumbering] at hplay
  rw [← renumbering] at hready
  exact ⟨first, second, later, hplay, hreply, hrequest, hlater, hready⟩

end Engine

end Interpose
