import Interpose.Proofs.Engine.Intact
import Interpose.Proofs.Engine.Renumbering
/-!
# What requests do, over any history

A request that fails has a reason and changes nothing; one that succeeds does exactly what is asked
(`Performed`): the new entry of each table is told from the old ones. The tables agree after any number
of requests, as long as the host removes what it is told to and there are no more requests than numbers.

Results:
* `Intact.performed`: one request.
* `lifecycle_intact`: any number of requests.
* `given_twice_renumbering`: with one request more than there are numbers, a number is given twice.
-/

namespace Interpose

namespace Engine

variable {policy : HostPolicy} {e e' : Engine} {request : Request} {reply : Reply}

/-! ## What a request does -/

/-- What is found in the tables: the realms of namespaces, which answer for them as well, the realms there
ever were, and the transformers of the host. -/
structure Shows (e : Engine) (keys : String → Option Nat) (realms : Nat → Option Realm)
    (hosted : List Nat) : Prop where
  installed : ∀ space, e.installed.find? space = keys space
  bridge : ∀ space, e.bridge.find? space = keys space
  realm : ∀ key, e.realm key = realms key
  transformers : e.host.transformers = hosted

inductive Faults (policy : HostPolicy) (e : Engine) : Request → LifecycleError → Prop
  /-- The host refuses a class that woven code needs. -/
  | unprepared {config refusal} : e.installed.find? config.space = none →
    firstRefusal policy e = some refusal → Faults policy e (.install config) (.host refusal)
  | absent {space} : e.installed.find? space = none →
    Faults policy e (.uninstall space) (.notInstalled space)
  | closed {key matcher listener kinds} (space) : (∀ r, e.realm key = some r → r.active = false) →
    Faults policy e (.watch key matcher listener kinds) (.inactive space)
  | refused {key matcher listener kinds cause} : policy.add e.nextListener = some cause →
    Faults policy e (.watch key matcher listener kinds) (.host cause)
  | unknown {key id} : (∀ r, e.realm key = some r → r.coordinators.find? id = none) →
    Faults policy e (.unwatch key id) (.unknownListener id)

/-- What a request has done by the time it is answered. -/
inductive Performed (policy : HostPolicy) (e : Engine) : Request → Reply → Engine → Prop
  | failed {request cause e'} : Faults policy e request cause → e.Agrees e' →
    Performed policy e request (.failed cause) e'
  /-- The namespace is installed already, and nothing changes. -/
  | present {config key r} : e.installed.find? config.space = some key → e.realm key = some r →
    Performed policy e (.install config) (.installed r.address) e
  /-- The namespace has a new realm without listeners. -/
  | installed {config address key e'} : e.installed.find? config.space = none → e.realm key = none →
    address.space = config.space →
    e'.Shows (Function.update e.installed.find? config.space (some key))
      (Function.update e.realm key (some { address, config })) e.host.transformers →
    Performed policy e (.install config) (.installed address) e'
  /-- The realm is inactive and empty, and its transformers are gone. -/
  | uninstalled {space key r e'} : e.installed.find? space = some key → e.realm key = some r →
    e'.Shows (Function.update e.installed.find? space none)
      (Function.update e.realm key (some r.retired))
      (e.host.transformers.filter (· ∉ r.coordinators.values)) →
    Performed policy e (.uninstall space) .done e'
  /-- The realm has one more listener, and the host a new transformer for it. -/
  | watched {key matcher listener kinds r t e'} : e.realm key = some r → r.active = true →
    policy.add e.nextListener = none → t ∉ e.host.transformers →
    e'.coordinators.find? t = some (e.coordinator r matcher kinds) →
    e'.Shows e.installed.find?
      (Function.update e.realm key (some (r.joined (e.registration r listener kinds) t)))
      (e.host.transformers ++ [t]) →
    Performed policy e (.watch key matcher listener kinds) (.watching e.nextListener) e'
  /-- The listener and its transformer are gone. -/
  | unwatched {key id r t e'} : e.realm key = some r → r.coordinators.find? id = some t →
    e'.Shows e.installed.find? (Function.update e.realm key (some (r.forgot id)))
      (e.host.transformers.filter (· ≠ t)) →
    Performed policy e (.unwatch key id) .done e'
  | dispatched (d) : Performed policy e (.dispatch d) (.dispatched (e.dispatch d)) e

/-- A namespace cannot be installed only because the host refuses a class. -/
theorem Founding.refusal {config : EngineConfig} (h : Founding policy config e reply e')
    {cause : LifecycleError} (hreply : reply = .failed cause) :
    ∃ refusal, cause = .host refusal ∧ firstRefusal policy e = some refusal := by
  have hfailed (refusal : HostError) :
      reply = .failed (.host refusal) ↔ firstRefusal policy e = some refusal := h.failed_iff
  cases h with
  | ready | complete => cases hreply
  | refused | halfway =>
    cases hreply
    exact ⟨_, rfl, (hfailed _).1 rfl⟩

/-- One realm was changed and what is installed was not. -/
theorem realm_withRealm_update {key : Nat} {r : Realm} (hr : e.realm key = some r) (f : Realm → Realm)
    (k : Nat) : (e.withRealm key f).realm k = Function.update e.realm key (some (f r)) k := by
  rw [realm_withRealm, Function.update_apply]
  split
  case isTrue hk => rw [hk, hr, Option.map_some]
  case isFalse => rfl

/-- The transformer that is made next is not in the host. -/
theorem Intact.transformer_new (h : Intact e) : e.coordinatorCount + 1 ∉ e.host.transformers := by
  intro hmem
  obtain ⟨key, id, r, hr, ht⟩ := (h.transformers.held _).1 hmem
  exact Nat.not_succ_le_self _ ((h.sound key r hr).records id _ ht).1

/-- A request that is answered has done what is asked, or it fails for a reason. -/
theorem Intact.performed (h : Intact e) (hremove : ∀ id, policy.remove id = none)
    (hfresh : request.isWatch = true → ∀ key r, e.realm key = some r →
      r.coordinators.find? e.nextListener = none)
    (hfounding : ∀ config, request = .install config → e.installed.find? config.space = none →
      Founding policy config e reply e')
    (heffect : Effect policy e request reply e') : Performed policy e request reply e' := by
  have hagrees (cause : LifecycleError) (hcause : reply = .failed cause) : e.Agrees e' :=
    .effect h.wired hremove hfresh heffect hcause
  cases heffect with
  | present hkey hr => exact .present hkey hr
  | unprepared cause defined hnew =>
    have hnew := h.wired.bind_realm_eq_none.1 hnew
    obtain ⟨refusal, rfl, hrefusal⟩ := (hfounding _ rfl hnew).refusal rfl
    exact .failed (.unprepared hnew hrefusal) (hagrees _ rfl)
  | @established config defined hnew =>
    refine .installed (h.wired.bind_realm_eq_none.1 hnew) h.wired.realm_next rfl
      ⟨fun space => ?_, fun space => ?_, fun key => ?_, rfl⟩
    · exact (Table.find?_insert ..).trans (Function.update_apply ..).symm
    · rw [Function.update_apply, ← h.wired.handlers]
      exact Table.find?_insert ..
    · exact (realm_establish ..).trans (Function.update_apply ..).symm
  | absent hkey => exact .failed (.absent hkey) (hagrees _ rfl)
  | @uninstalled space key refusal hkey hnever =>
    obtain ⟨r, hr, -⟩ := h.wired.current space key hkey
    rw [hnever hremove]
    refine .uninstalled hkey hr ⟨fun s => ?_, fun s => ?_, ?_, ?_⟩
    · exact (Table.find?_erase ..).trans (Function.update_apply ..).symm
    · rw [Function.update_apply, ← h.wired.handlers]
      exact Table.find?_erase ..
    · exact realm_withRealm_update (e := (e.without space).withHost _) hr Realm.retired
    · rw [hr]
      exact Host.transformers_removing hremove _ e.host
  | closed space hclosed => exact .failed (.closed space hclosed) (hagrees _ rfl)
  | refused hr hactive hadd => exact .failed (.refused hadd) (hagrees _ rfl)
  | @watched key matcher listener kinds r hr hactive hadd =>
    refine .watched (t := e.coordinatorCount + 1) hr hactive hadd h.transformer_new
      ((Table.find?_insert ..).trans (if_pos rfl)) ⟨fun _ => rfl, h.wired.handlers, ?_, rfl⟩
    exact realm_withRealm_update (e := (attach (e.coordinator r matcher kinds) e.draw.2).2) hr
      (Realm.joined (e.registration r listener kinds) (e.coordinatorCount + 1))
  | @unknown key id hnone =>
    refine .failed (.unknown fun r hr => ?_) (hagrees _ rfl)
    rwa [hr, Option.bind_some] at hnone
  | @unwatched key id r t hr hid =>
    rw [hremove]
    refine .unwatched hr hid ⟨fun _ => rfl, h.wired.handlers, ?_, ?_⟩
    · exact realm_withRealm_update (e := e.withHost _) hr (Realm.forgot id)
    · refine (Host.transformers_removing hremove _ e.host).trans (List.filter_congr fun t' _ => ?_)
      simp
  | dispatched d => exact .dispatched d

/-! ## Any number of requests -/

/-- Requests to a host that removes what it is told to, and no more than there are numbers for. -/
structure Regular (requests : List (HostPolicy × Request)) : Prop where
  removes : ∀ x ∈ requests, ∀ id, x.1.remove id = none
  watches : requests.countP (·.2.isWatch) ≤ 2 ^ 32
  installs : requests.countP (·.2.isInstall) ≤ 2 ^ 32

variable {requests : List (HostPolicy × Request)}

theorem Regular.of_append {later : List (HostPolicy × Request)} (h : Regular (requests ++ later)) :
    Regular requests where
  removes x hx := h.removes x (List.mem_append_left _ hx)
  watches := Nat.le_trans (List.sublist_append_left requests later).countP_le h.watches
  installs := Nat.le_trans (List.sublist_append_left requests later).countP_le h.installs

/-- The number of the next listener is new in every realm. -/
theorem Regular.fresh {x : HostPolicy × Request} (h : Regular (requests ++ [x]))
    (hwatch : x.2.isWatch = true) (key : Nat) (r : Realm) (hr : (play requests).2.realm key = some r) :
    r.coordinators.find? (play requests).2.nextListener = none := by
  obtain ⟨n, hcounted⟩ := counted_play requests
  have hfew := h.watches
  rw [← countP_play, play_concat] at hfew
  have hn : n < 2 ^ 32 := hcounted.lt hfew hwatch
  cases ht : r.coordinators.find? (play requests).2.nextListener with
  | none => rfl
  | some t =>
    obtain ⟨m, hm, hid⟩ := hcounted.numbered.held key r _ t hr ht
    exact absurd hid.symm (hcounted.numbered.fresh hn hm)

/-- The tables agree at any time. -/
theorem intact_play (requests : List (HostPolicy × Request)) (h : Regular requests) :
    Intact (play requests).2 := by
  induction requests using List.reverseRecOn with
  | nil => exact intact_new
  | append_singleton requests x ih =>
    rw [play_concat]
    exact (ih h.of_append).effect (h.removes x (by simp)) h.fresh (call_effect _ x)

/-- No failed request has changed anything. -/
theorem agrees_play (requests : List (HostPolicy × Request)) (h : Regular requests) (c : Call)
    (hc : c ∈ (play requests).1) (cause : LifecycleError) (hfailed : c.reply = .failed cause) :
    c.before.Agrees c.after := by
  obtain ⟨earlier, x, later, rfl, rfl⟩ := mem_play hc
  rw [List.append_cons] at h
  have hx := h.of_append
  exact .effect (wired_play earlier) (hx.removes x (by simp)) hx.fresh (call_effect _ x) hfailed

/-- Realms keep their addresses, and inactive ones stay as they are. -/
theorem lasts_play (earlier later : List (HostPolicy × Request)) (h : Regular (earlier ++ later))
    {key : Nat} {r : Realm} (hr : (play earlier).2.realm key = some r) :
    ∃ r', (play (earlier ++ later)).2.realm key = some r' ∧ r'.address = r.address ∧
      (r.active = false → r' = r) := by
  induction later using List.reverseRecOn with
  | nil => exact ⟨r, by rwa [List.append_nil], rfl, fun _ => rfl⟩
  | append_singleton later x ih =>
    rw [← List.append_assoc] at h ⊢
    obtain ⟨r', hr', haddress, hsame⟩ := ih h.of_append
    obtain ⟨r'', hr'', haddress', hsame'⟩ :=
      (intact_play _ h.of_append).lasts (call_effect _ x) hr'
    refine ⟨r'', by rw [play_concat]; exact hr'', haddress'.trans haddress, fun hactive => ?_⟩
    have heq := hsame hactive
    exact (hsame' (heq ▸ hactive)).trans heq

/-- Every request has done what is asked, or it has failed for a reason. -/
theorem performed_play (requests : List (HostPolicy × Request)) (h : Regular requests) (c : Call)
    (hc : c ∈ (play requests).1) : Performed c.policy c.before c.request c.reply c.after := by
  obtain ⟨earlier, x, later, rfl, rfl⟩ := mem_play hc
  rw [List.append_cons] at h
  have hx := h.of_append
  have hintact := intact_play earlier hx.of_append
  refine hintact.performed (hx.removes x (by simp)) hx.fresh ?_ (call_effect _ x)
  obtain ⟨policy, request⟩ := x
  rintro config rfl hnew
  exact install_founding (hintact.wired.bind_realm_eq_none.2 hnew)

theorem installed_address_play (requests : List (HostPolicy × Request)) (c : Call)
    (hc : c ∈ (play requests).1) (address : RealmAddress) (hreply : c.reply = .installed address) :
    ∃ key r, c.after.installed.find? address.space = some key ∧ c.after.realm key = some r ∧
      r.address = address := by
  obtain ⟨earlier, x, later, rfl, rfl⟩ := mem_play hc
  exact (wired_play earlier).installed_address (call_effect _ x) hreply

/-- After any requests the tables agree, no number was given to two listeners or two realms, installing
was answered with the realm that was installed then, no failed request has changed anything, realms that
were inactive earlier are as they were, and every other request has done what was asked. -/
theorem lifecycle_intact (requests : List (HostPolicy × Request)) (h : Regular requests) :
    Intact (play requests).2 ∧
    ((play requests).1.filterMap Call.given?).Nodup ∧
    (∀ key key' r r', (play requests).2.realm key = some r → (play requests).2.realm key' = some r' →
      r.address.number = r'.address.number → key = key') ∧
    (∀ c ∈ (play requests).1, ∀ address, c.reply = .installed address →
      ∃ key r, c.after.installed.find? address.space = some key ∧ c.after.realm key = some r ∧
        r.address = address) ∧
    (∀ c ∈ (play requests).1, ∀ cause, c.reply = .failed cause → c.before.Agrees c.after) ∧
    (∀ earlier later, requests = earlier ++ later → ∀ key r, (play earlier).2.realm key = some r →
      ∃ r', (play requests).2.realm key = some r' ∧ r'.address = r.address ∧
        (r.active = false → r' = r)) ∧
    (∀ c ∈ (play requests).1, Performed c.policy c.before c.request c.reply c.after) := by
  refine ⟨intact_play requests h, nodup_given requests h.watches, ?_, installed_address_play requests,
    agrees_play requests h, ?_, performed_play requests h⟩
  · intro key key' r r' hr hr' hnumber
    exact realm_inj requests h.installs hr hr' hnumber
  · rintro earlier later rfl key r hr
    exact lasts_play earlier later h hr

/-- A namespace is installed, watched, uninstalled and installed again by a host that refuses the first
transformer. -/
def reinstalling : List (HostPolicy × Request) :=
  let config : EngineConfig := { space := "app" }
  [({}, .install config),
    (refusingAdd, .watch 1 .all proceeding .calls),
    ({}, .watch 1 .all proceeding .calls),
    ({}, .uninstall "app"),
    ({}, .install config),
    ({}, .watch 2 .all proceeding .calls)]

theorem lifecycle_intact_reinstalling : Regular reinstalling ∧ Intact (play reinstalling).2 ∧
    ((play reinstalling).1.filterMap Call.given?).Nodup ∧
    ∀ c ∈ (play reinstalling).1, Performed c.policy c.before c.request c.reply c.after := by
  have hregular : Regular reinstalling := ⟨by simp [reinstalling, refusingAdd], by decide, by decide⟩
  obtain ⟨hintact, hnodup, -, -, -, -, hperformed⟩ := lifecycle_intact reinstalling hregular
  exact ⟨hregular, hintact, hnodup, hperformed⟩

/-- With one request to watch more than there are numbers, the first number is given twice. -/
theorem given_twice_renumbering :
    ¬ ((play (renumbering (2 ^ 32 - 1) ++
      [(({} : HostPolicy), .watch 1 .all proceeding .calls)])).1.filterMap Call.given?).Nodup := by
  generalize hk : 2 ^ 32 - 1 = k
  have hlast : listenerNumber (1 + k) = listenerNumber 0 :=
    listenerNumber_eq_iff.2 (by omega)
  obtain ⟨first, second, later, hcalls, hreply, -, -, hready⟩ := ready_renumbering k
  have hagain := (hready.watch {} .all proceeding .calls).2.1 rfl
  rw [hlast] at hagain
  rw [play_concat, hcalls, List.filterMap_append]
  refine fun hnodup => (List.nodup_append.1 hnodup).2.2 (listenerNumber 0) ?_ (listenerNumber 0) ?_ rfl
  · exact List.mem_filterMap.2 ⟨second, by simp, Call.given?_eq_some.2 hreply⟩
  · exact List.mem_filterMap.2 ⟨_, List.mem_singleton_self _, Call.given?_eq_some.2 hagain⟩

end Engine

end Interpose
