import Mathlib.Data.List.Induction
import Interpose.Engine.Lifecycle
import Interpose.Proofs.Dispatch.Nesting
import Interpose.Proofs.Outcome
import Interpose.Proofs.Tables
/-!
# Requests to the engine

Everything that can be asked of an engine, one request after the other, each with a host that may answer
as it likes. `Effect` says once what a request can do: every fact about engines is derived from it, case
by case.

Results:
* `Engine.serve_effect`: each request has one of these effects.
* `Engine.play_concat`: a sequence of requests with one more at its end.
-/

namespace Interpose

/-- What can be asked of an engine. Realms are named by their keys. -/
inductive Request where
  | install (config : EngineConfig)
  | uninstall (space : String)
  | watch (key : Nat) (matcher : Matcher) (listener : Listener) (kinds : EventKinds)
  | unwatch (key : Nat) (id : Int32)
  | dispatch (d : Dispatch)

inductive Reply where
  | installed (address : RealmAddress)
  | watching (id : Int32)
  | done
  | failed (cause : LifecycleError)
  | dispatched (d : Dispatched)

def Reply.ofResult {α : Type} (f : α → Reply) : Except LifecycleError α → Reply
  | .ok a => f a
  | .error e => .failed e

def Reply.ofRefusal : Option HostError → Reply
  | none => .done
  | some cause => .failed (.host cause)

namespace Realm

def retired (r : Realm) : Realm :=
  { r with active := false, coordinators := {}, registry := {} }

def joined (l : Registration) (transformer : Nat) (r : Realm) : Realm :=
  { r with
    registry := r.registry.register l
    coordinators := r.coordinators.insert l.id transformer }

/-- The realm after a listener was registered whose transformer the host has refused. -/
def spurned (l : Registration) (r : Realm) : Realm :=
  { r with registry := (r.registry.register l).erase l.id }

def forgot (id : Int32) (r : Realm) : Realm :=
  { r with coordinators := r.coordinators.erase id, registry := r.registry.erase id }

/-- The transformers of a realm, by listener; none if there is no realm. -/
def transformers (r : Option Realm) : List (Int32 × Nat) :=
  r.elim [] (·.coordinators.entries)

end Realm

/-- The host after transformers of listeners were removed, as far as it accepted that. -/
def Host.removing (policy : HostPolicy) (removed : List (Int32 × Nat)) (h : Host) : Host :=
  removed.foldl (fun h x => if (policy.remove x.1).isNone then h.remove x.2 else h) h

namespace Engine

def serve (policy : HostPolicy) (request : Request) (e : Engine) : Reply × Engine :=
  let answer {α : Type} (f : α → Reply) (m : Lifecycle α) : Reply × Engine :=
    let (result, e') := m.run.run e
    (.ofResult f result, e')
  match request with
  | .install config => answer .installed (install policy config)
  | .uninstall space => answer (fun _ => .done) (uninstall policy space)
  | .watch key matcher listener kinds => answer .watching (watch policy key matcher listener kinds)
  | .unwatch key id => answer (fun _ => .done) (unwatch policy key id)
  | .dispatch d =>
    let (sent, e') := e.send d
    (.dispatched sent, e')

def defining (defined : List (String × Bytes)) (e : Engine) : Engine :=
  e.withHost ({ · with defined })

def registration (e : Engine) (r : Realm) (listener : Listener) (kinds : EventKinds) : Registration where
  id := e.nextListener
  kinds := kinds
  space := r.address.space
  enableUnsafe := r.config.enableUnsafe
  listener := listener

def coordinator (e : Engine) (r : Realm) (matcher : Matcher) (kinds : EventKinds) : Coordinator where
  space := r.address.space
  listener := e.nextListener
  kinds := kinds
  enableUnsafe := r.config.enableUnsafe
  matcher := matcher
  dumpPath := r.config.dumpPath

/-- What a request can do to an engine. -/
inductive Effect (policy : HostPolicy) (e : Engine) : Request → Reply → Engine → Prop
  /-- The namespace is installed already. -/
  | present {config key r} : e.installed.find? config.space = some key → e.realm key = some r →
    Effect policy e (.install config) (.installed r.address) e
  /-- The classes that woven code needs could not be made or defined. -/
  | unprepared {config} (cause defined) : (e.installed.find? config.space).bind e.realm = none →
    Effect policy e (.install config) (.failed cause) (e.defining defined)
  | established {config} (defined) : (e.installed.find? config.space).bind e.realm = none →
    Effect policy e (.install config) (.installed ⟨config.space, e.lastRealm + 1⟩)
      (establish config { e.defining defined with spyDefined := true }).2
  | absent {space} : e.installed.find? space = none →
    Effect policy e (.uninstall space) (.failed (.notInstalled space)) e
  | uninstalled {space key} (refusal) : e.installed.find? space = some key →
    ((∀ id, policy.remove id = none) → refusal = none) →
    Effect policy e (.uninstall space) (.ofRefusal refusal)
      (((e.without space).withHost
        (Host.removing policy (Realm.transformers (e.realm key)))).withRealm key Realm.retired)
  | closed {key matcher listener kinds} (space) : (∀ r, e.realm key = some r → r.active = false) →
    Effect policy e (.watch key matcher listener kinds) (.failed (.inactive space)) e
  | refused {key matcher listener kinds r cause} : e.realm key = some r → r.active = true →
    policy.add e.nextListener = some cause →
    Effect policy e (.watch key matcher listener kinds) (.failed (.host cause))
      (e.draw.2.withRealm key (Realm.spurned (e.registration r listener kinds)))
  | watched {key matcher listener kinds r} : e.realm key = some r → r.active = true →
    policy.add e.nextListener = none →
    Effect policy e (.watch key matcher listener kinds) (.watching e.nextListener)
      ((attach (e.coordinator r matcher kinds) e.draw.2).2.withRealm key
        (Realm.joined (e.registration r listener kinds) (e.coordinatorCount + 1)))
  | unknown {key id} : (e.realm key).bind (·.coordinators.find? id) = none →
    Effect policy e (.unwatch key id) (.failed (.unknownListener id)) e
  | unwatched {key id r transformer} : e.realm key = some r → r.coordinators.find? id = some transformer →
    Effect policy e (.unwatch key id) (.ofRefusal (policy.remove id))
      ((e.withHost (Host.removing policy [(id, transformer)])).withRealm key (Realm.forgot id))
  | dispatched (d) : Effect policy e (.dispatch d) (.dispatched (e.dispatch d)) e

variable {policy : HostPolicy} {e : Engine}

/-! ## Each request has one of these effects -/

theorem run_get : (get : Lifecycle Engine).run.run e = (.ok e, e) := rfl

theorem run_modify {f : Engine → Engine} :
    (modify f : Lifecycle Unit).run.run e = (.ok (), f e) := rfl

theorem run_modifyGet {α : Type} {f : Engine → α × Engine} :
    (modifyGet f : Lifecycle α).run.run e = (.ok (f e).1, (f e).2) := rfl

theorem withRealm_withRealm (key : Nat) (f g : Realm → Realm) :
    (e.withRealm key f).withRealm key g = e.withRealm key fun r => g (f r) := by
  rw [withRealm, withRealm, withRealm, Table.modify_modify]

theorem withHost_withRealm (key : Nat) (f : Realm → Realm) (g : Host → Host) :
    (e.withRealm key f).withHost g = (e.withHost g).withRealm key f := rfl

theorem attach_withRealm (c : Coordinator) (key : Nat) (f : Realm → Realm) :
    (attach c (e.withRealm key f)).2 = (attach c e).2.withRealm key f := rfl

theorem run_obeying (refusal : Option HostError) : ∃ result : Except LifecycleError Unit,
    (∀ e : Engine, (obeying refusal).run.run e = (result, e)) ∧
      Reply.ofResult (fun _ => .done) result = .ofRefusal refusal := by
  cases refusal with
  | none => exact ⟨.ok (), fun _ => rfl, rfl⟩
  | some cause => exact ⟨.error (.host cause), fun _ => rfl, rfl⟩

theorem run_detach (id : Int32) (key : Nat) : (detach policy id key).run.run e =
    (.ok (policy.remove id), e.withHost (Host.removing policy [(id, key)])) := by
  unfold detach Host.removing
  cases h : policy.remove id with
  | some cause =>
    simp only [List.foldl_cons, List.foldl_nil, h, Option.isNone_some]
    rfl
  | none =>
    simp only [List.foldl_cons, List.foldl_nil, h, Option.isNone_none]
    rfl

theorem run_detachAll (policy : HostPolicy) (removed : List (Int32 × Nat)) : ∃ refusal,
    (detachAll policy removed).run.run e
      = (.ok refusal, e.withHost (Host.removing policy removed)) ∧
    ((∀ id, policy.remove id = none) → refusal = none) := by
  induction removed generalizing e with
  | nil => exact ⟨none, rfl, fun _ => rfl⟩
  | cons x removed ih =>
    obtain ⟨id, key⟩ := x
    obtain ⟨others, hrun, hothers⟩ := ih (e := e.withHost (Host.removing policy [(id, key)]))
    unfold detachAll
    rw [run_bind, run_detach]
    dsimp only
    rw [run_bind, hrun]
    refine ⟨(policy.remove id).or others, rfl, fun hnever => ?_⟩
    rw [hnever id, hothers hnever]
    rfl

theorem run_define (policy : HostPolicy) (name : String) (bytes : Bytes) : ∃ result defined,
    (define policy name bytes).run.run e = (result, e.defining defined) := by
  unfold define obeying
  cases policy.define name with
  | some cause => exact ⟨_, e.host.defined, rfl⟩
  | none => exact ⟨_, _, rfl⟩

theorem run_defineAll (policy : HostPolicy) (classes : List (String × Bytes)) : ∃ result defined,
    (classes.forM fun (name, bytes) => define policy name bytes).run.run e
      = (result, e.defining defined) := by
  induction classes generalizing e with
  | nil => exact ⟨_, e.host.defined, rfl⟩
  | cons x classes ih =>
    obtain ⟨result, defined, hdefine⟩ := run_define (e := e) policy x.1 x.2
    obtain ⟨result', defined', hrest⟩ := ih (e := e.defining defined)
    have hcons : (x :: classes).forM (fun (name, bytes) => define policy name bytes) =
      (define policy x.1 x.2 >>= fun _ => classes.forM fun (name, bytes) => define policy name bytes) :=
      rfl
    rw [hcons, run_bind, hdefine]
    cases result with
    | error cause => exact ⟨_, defined, rfl⟩
    | ok _ => exact ⟨result', defined', hrest⟩

/-- The classes are defined, or they are not and nothing else has happened. -/
theorem run_defineSpy (policy : HostPolicy) : ∃ defined,
    (∃ cause, (defineSpy policy).run.run e = (.error cause, e.defining defined)) ∨
    (defineSpy policy).run.run e = (.ok (), { e.defining defined with spyDefined := true }) := by
  unfold defineSpy
  rw [run_bind, run_get]
  dsimp only
  by_cases h : e.spyDefined = true
  · refine ⟨e.host.defined, .inr ?_⟩
    rw [if_pos h]
    cases e
    cases h
    rfl
  · rw [if_neg h]
    cases hclasses : spyClasses with
    | error cause => exact ⟨e.host.defined, .inl ⟨.spyClasses cause, rfl⟩⟩
    | ok classes =>
      obtain ⟨result, defined, hdefine⟩ := run_defineAll (e := e) policy classes
      have hmade : (MonadExcept.ofExcept ((Except.ok classes : Except CodeError _).mapError .spyClasses) :
          Lifecycle (List (String × Bytes))).run.run e = (.ok classes, e) := rfl
      refine ⟨defined, ?_⟩
      rw [run_bind, hmade]
      dsimp only
      rw [run_bind, hdefine]
      cases result with
      | error cause => exact .inl ⟨cause, rfl⟩
      | ok _ => exact .inr rfl

theorem install_effect (config : EngineConfig) :
    Effect policy e (.install config) (e.serve policy (.install config)).1
      (e.serve policy (.install config)).2 := by
  have hserve : e.serve policy (.install config) =
      (.ofResult .installed ((install policy config).run.run e).1,
        ((install policy config).run.run e).2) := rfl
  rw [hserve]
  unfold install
  rw [run_bind, run_get]
  dsimp only
  cases hfound : (e.installed.find? config.space).bind e.realm with
  | some r =>
    obtain ⟨key, hkey, hr⟩ := Option.bind_eq_some_iff.1 hfound
    exact .present hkey hr
  | none =>
    dsimp only
    rw [run_bind]
    obtain ⟨defined, ⟨cause, hrun⟩ | hrun⟩ := run_defineSpy (e := e) policy
    · rw [hrun]
      exact .unprepared cause defined hfound
    · rw [hrun]
      exact .established defined hfound

theorem run_shutdown (policy : HostPolicy) (key : Nat) : ∃ refusal, ∃ result : Except LifecycleError Unit,
    (shutdown policy key).run.run e = (result, (e.withHost
      (Host.removing policy (Realm.transformers (e.realm key)))).withRealm key Realm.retired) ∧
    Reply.ofResult (fun _ => .done) result = .ofRefusal refusal ∧
    ((∀ id, policy.remove id = none) → refusal = none) := by
  unfold shutdown
  rw [run_bind, run_get]
  dsimp only
  rw [run_bind, run_modify]
  dsimp only
  change ∃ refusal, ∃ result, (detachAll policy (Realm.transformers (e.realm key)) >>= _).run.run _ = _ ∧ _
  generalize Realm.transformers (e.realm key) = drained
  obtain ⟨refusal, hdetach, hrefusal⟩ := run_detachAll policy drained
    (e := e.withRealm key fun r => { r with active := false, coordinators := {} })
  obtain ⟨result, hobey, hresult⟩ := run_obeying refusal
  refine ⟨refusal, result, ?_, hresult, hrefusal⟩
  rw [run_bind, hdetach]
  dsimp only
  rw [run_bind, run_modify, withHost_withRealm, withRealm_withRealm]
  exact hobey _

theorem uninstall_effect (space : String) :
    Effect policy e (.uninstall space) (e.serve policy (.uninstall space)).1
      (e.serve policy (.uninstall space)).2 := by
  have hserve : e.serve policy (.uninstall space) =
      (.ofResult (fun _ => .done) ((uninstall policy space).run.run e).1,
        ((uninstall policy space).run.run e).2) := rfl
  rw [hserve]
  unfold uninstall
  rw [run_bind, run_get]
  dsimp only
  cases hkey : e.installed.find? space with
  | none => exact .absent hkey
  | some key =>
    obtain ⟨refusal, result, hrun, hresult, hrefusal⟩ := run_shutdown policy key
      (e := e.without space)
    dsimp only
    rw [run_bind, run_modify]
    dsimp only
    rw [hrun, hresult]
    exact .uninstalled refusal hkey hrefusal

theorem watch_effect (key : Nat) (matcher : Matcher) (listener : Listener) (kinds : EventKinds) :
    Effect policy e (.watch key matcher listener kinds)
      (e.serve policy (.watch key matcher listener kinds)).1
      (e.serve policy (.watch key matcher listener kinds)).2 := by
  have hserve : e.serve policy (.watch key matcher listener kinds) =
      (.ofResult .watching ((watch policy key matcher listener kinds).run.run e).1,
        ((watch policy key matcher listener kinds).run.run e).2) := rfl
  rw [hserve]
  unfold watch
  rw [run_bind, run_get]
  dsimp only
  cases hr : e.realm key with
  | none => exact .closed "" (by simp [hr])
  | some r =>
    dsimp only
    cases hactive : r.active with
    | false => exact .closed r.address.space (by simp [hr, hactive])
    | true =>
      have hdraw : e.draw.1 = e.nextListener := rfl
      rw [Bool.not_true, if_neg Bool.false_ne_true, run_bind, run_modifyGet, hdraw]
      dsimp only
      rw [run_bind, run_modify]
      dsimp only
      cases hadd : policy.add e.nextListener with
      | some cause =>
        dsimp only
        rw [run_bind, run_modify]
        dsimp only
        rw [withRealm_withRealm]
        exact .refused hr hactive hadd
      | none =>
        dsimp only
        rw [run_bind, run_modifyGet]
        dsimp only
        rw [run_bind, run_modify, attach_withRealm, withRealm_withRealm]
        exact .watched hr hactive hadd

theorem unwatch_effect (key : Nat) (id : Int32) :
    Effect policy e (.unwatch key id) (e.serve policy (.unwatch key id)).1
      (e.serve policy (.unwatch key id)).2 := by
  have hserve : e.serve policy (.unwatch key id) =
      (.ofResult (fun _ => .done) ((unwatch policy key id).run.run e).1,
        ((unwatch policy key id).run.run e).2) := rfl
  rw [hserve]
  unfold unwatch
  rw [run_bind, run_get]
  dsimp only
  cases hfound : (e.realm key).bind (·.coordinators.find? id) with
  | none => exact .unknown hfound
  | some transformer =>
    obtain ⟨r, hr, htransformer⟩ := Option.bind_eq_some_iff.1 hfound
    dsimp only
    rw [run_bind, run_modify]
    dsimp only
    rw [run_bind, run_detach]
    dsimp only
    rw [run_bind, run_modify, withHost_withRealm, withRealm_withRealm]
    obtain ⟨result, hobey, hresult⟩ := run_obeying (policy.remove id)
    dsimp only
    rw [hobey, hresult]
    exact .unwatched hr htransformer

theorem send_eq (e : Engine) (d : Dispatch) : e.send d = (e.dispatch d, e) := by
  unfold dispatch send
  rw [Bridge.send_run]

/-- Each request has one of these effects. -/
theorem serve_effect (policy : HostPolicy) (request : Request) (e : Engine) :
    Effect policy e request (e.serve policy request).1 (e.serve policy request).2 := by
  cases request with
  | install config => exact install_effect config
  | uninstall space => exact uninstall_effect space
  | watch key matcher listener kinds => exact watch_effect key matcher listener kinds
  | unwatch key id => exact unwatch_effect key id
  | dispatch d =>
    have hserve : e.serve policy (.dispatch d) = (.dispatched (e.send d).1, (e.send d).2) := rfl
    rw [hserve, send_eq]
    exact .dispatched d

/-! ## Requests one after the other -/

structure Call where
  before : Engine
  policy : HostPolicy
  request : Request
  reply : Reply
  after : Engine

/-- Makes a request. -/
def call (e : Engine) (x : HostPolicy × Request) : Call :=
  ⟨e, x.1, x.2, (e.serve x.1 x.2).1, (e.serve x.1 x.2).2⟩

/-- Makes requests of a new engine, one after the other: what came of each, and the engine after them. -/
def play (requests : List (HostPolicy × Request)) : List Call × Engine :=
  requests.foldl (fun (calls, e) x => (calls ++ [e.call x], (e.call x).after)) ([], {})

theorem play_concat (requests : List (HostPolicy × Request)) (x : HostPolicy × Request) :
    play (requests ++ [x]) =
      ((play requests).1 ++ [(play requests).2.call x], ((play requests).2.call x).after) := by
  simp [play]

/-- The requests that are made are those that were asked for. -/
theorem countP_play (p : Request → Bool) (requests : List (HostPolicy × Request)) :
    (play requests).1.countP (fun c => p c.request) = requests.countP (fun x => p x.2) := by
  induction requests using List.reverseRecOn with
  | nil => rfl
  | append_singleton requests x ih =>
    rw [play_concat, List.countP_append, List.countP_append, ih]
    rfl

/-- What was asked for was asked of the engine as it was after the requests before. -/
theorem mem_play {requests : List (HostPolicy × Request)} {c : Call} (hc : c ∈ (play requests).1) :
    ∃ earlier x later, requests = earlier ++ x :: later ∧ c = (play earlier).2.call x := by
  induction requests using List.reverseRecOn with
  | nil => cases hc
  | append_singleton requests x ih =>
    rw [play_concat] at hc
    rcases List.mem_append.1 hc with hc | hc
    · obtain ⟨earlier, x', later, rfl, rfl⟩ := ih hc
      exact ⟨earlier, x', later ++ [x], by simp, rfl⟩
    · exact ⟨requests, x, [], rfl, List.mem_singleton.1 hc⟩

theorem call_effect (e : Engine) (x : HostPolicy × Request) :
    Effect x.1 e x.2 (e.call x).reply (e.call x).after :=
  serve_effect x.1 x.2 e

/-- What holds of a new engine, and after a request if it did before, holds at any time. -/
theorem play_induction {P : List Call → Engine → Prop} (start : P [] {})
    (next : ∀ calls e x, P calls e → P (calls ++ [e.call x]) (e.call x).after)
    (requests : List (HostPolicy × Request)) : P (play requests).1 (play requests).2 := by
  induction requests using List.reverseRecOn with
  | nil => exact start
  | append_singleton requests x ih =>
    rw [play_concat]
    exact next _ _ x ih

end Engine

end Interpose
