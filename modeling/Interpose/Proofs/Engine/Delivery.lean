import Interpose.Proofs.Engine.Renumbering
/-!
# The delivery of events

Whom an event reaches follows from what was asked of the engine before. A listener watches a realm from
the request by which it was registered until one to unwatch its number, whatever became of that request
(`Watching`). An event that is addressed to an installed namespace and a number reaches the listener that
watches the namespace's realm under that number, if it asked for events of the kind and no dispatch is in
progress; every other event is ignored.

Numbers begin again after 2 ^ 32 of them. The listener that is given a number again then takes the place
of an earlier one, which is part of `Watching` and cannot happen in shorter runs (`watching_play`).

Results:
* `tracked_play`: the registries hold exactly the listeners that watch.
* `installed_play`, `watching_play`: what is installed, and who watches, by the requests made.
* `delivers`: what becomes of an event at any time.
* `ignored_renumbering`: what becomes of one whose listener has lost its number.
-/

namespace Interpose

/-- At some point of a sequence something has begun, and nothing after that has stopped it. -/
def Since {α : Type} (start stop : α → Prop) (xs : List α) : Prop :=
  ∃ before x after, xs = before ++ x :: after ∧ start x ∧ ∀ y ∈ after, ¬ stop y

theorem not_since_nil {α : Type} {start stop : α → Prop} : ¬ Since start stop [] := by
  rintro ⟨before, x, after, h, -⟩
  simp at h

/-- Whether something is going on is known from the last step and from whether it was going on before. -/
theorem since_concat {α : Type} {start stop : α → Prop} {xs : List α} {x : α} :
    Since start stop (xs ++ [x]) ↔ start x ∨ (Since start stop xs ∧ ¬ stop x) := by
  constructor
  · rintro ⟨before, y, after, h, hstart, hstop⟩
    rcases List.eq_nil_or_concat after with rfl | ⟨after, z, rfl⟩
    · obtain ⟨-, rfl⟩ := List.append_inj' h rfl |>.imp id List.singleton_inj.1
      exact .inl hstart
    · have h' : xs ++ [x] = (before ++ y :: after) ++ [z] := by simpa using h
      obtain ⟨rfl, rfl⟩ := List.append_inj' h' rfl |>.imp id List.singleton_inj.1
      refine .inr ⟨⟨before, y, after, rfl, hstart, fun w hw => ?_⟩, ?_⟩
      · exact hstop w (by simp [hw])
      · exact hstop x (by simp)
  · rintro (hstart | ⟨⟨before, y, after, rfl, hstart, hstop⟩, hx⟩)
    · exact ⟨xs, x, [], rfl, hstart, nofun⟩
    · refine ⟨before, y, after ++ [x], by simp, hstart, fun z hz => ?_⟩
      rcases List.mem_append.1 hz with hz | hz
      · exact hstop z hz
      · rwa [List.mem_singleton.1 hz]

namespace Engine

variable {policy : HostPolicy} {e e' : Engine} {request : Request} {reply : Reply}
  {calls : List Call} {key : Nat} {id : Int32} {kinds : EventKinds} {listener : Listener}

/-- By the request, the listener watches the realm under the number, for events of the kinds. -/
def Call.Begins (key : Nat) (id : Int32) (kinds : EventKinds) (listener : Listener) (c : Call) : Prop :=
  c.reply = .watching id ∧ ∃ matcher, c.request = .watch key matcher listener kinds

/-- The request is to unwatch the number; it counts whatever became of it. -/
def Call.Forgets (key : Nat) (id : Int32) (c : Call) : Prop :=
  c.request = .unwatch key id

/-- The request is to watch the realm, and the number is the one that is given out next. -/
def Call.Renumbers (key : Nat) (id : Int32) (c : Call) : Prop :=
  c.before.nextListener = id ∧ ∃ matcher listener kinds, c.request = .watch key matcher listener kinds

/-- The listener watches the realm under the number after these requests. -/
def Watching (calls : List Call) (key : Nat) (id : Int32) (kinds : EventKinds) (listener : Listener) :
    Prop :=
  Since (Call.Begins key id kinds listener) (fun c => c.Forgets key id ∨ c.Renumbers key id) calls

/-- The listener is registered under the number, for events of the kinds. -/
def Registered (r : Registry) (id : Int32) (kinds : EventKinds) (listener : Listener) : Prop :=
  ∃ l, r.find? id = some l ∧ l.kinds = kinds ∧ l.listener = listener

def Call.Concerns (key : Nat) (c : Call) : Prop :=
  (∃ matcher listener kinds, c.request = .watch key matcher listener kinds) ∨
    ∃ id, c.request = .unwatch key id

/-- A request that neither begins nor ends a watch leaves it as it was. -/
theorem watching_concat_of_neither {c : Call} (hbegins : ¬ c.Begins key id kinds listener)
    (hends : ¬ (c.Forgets key id ∨ c.Renumbers key id)) :
    Watching (calls ++ [c]) key id kinds listener ↔ Watching calls key id kinds listener := by
  rw [Watching, Watching, since_concat]
  exact ⟨fun h => (h.resolve_left hbegins).1, fun h => .inr ⟨h, hends⟩⟩

/-- After a request that ends a watch, the listener watches only if it has begun again. -/
theorem watching_concat_of_ends {c : Call} (hends : c.Forgets key id ∨ c.Renumbers key id) :
    Watching (calls ++ [c]) key id kinds listener ↔ c.Begins key id kinds listener := by
  rw [Watching, since_concat]
  exact ⟨fun h => h.resolve_right fun h => h.2 hends, .inl⟩

/-- A request that is not about the listeners of a realm does not change who watches it. -/
theorem watching_concat_of_not_concerns {c : Call} (h : ¬ c.Concerns key) :
    Watching (calls ++ [c]) key id kinds listener ↔ Watching calls key id kinds listener := by
  refine watching_concat_of_neither ?_ ?_
  · rintro ⟨-, matcher, hrequest⟩
    exact h (.inl ⟨matcher, listener, kinds, hrequest⟩)
  · rintro (hforgets | ⟨-, hwatch⟩)
    · exact h (.inr ⟨id, hforgets⟩)
    · exact h (.inl hwatch)

/-- The registries hold exactly the listeners that watch. -/
structure Tracked (calls : List Call) (e : Engine) : Prop where
  wired : e.Wired
  unborn : ∀ key, e.realm key = none → ∀ id kinds listener, ¬ Watching calls key id kinds listener
  listeners : ∀ key r, e.realm key = some r → r.active = true → ∀ id kinds listener,
    Registered r.registry id kinds listener ↔ Watching calls key id kinds listener

/-- One request, seen from the only realm that it changes. -/
theorem Tracked.next {c : Call} (h : Tracked calls c.before) (hwired : c.after.Wired) (key₀ : Nat)
    (hconcerns : ∀ key, c.Concerns key → key = key₀)
    (hothers : ∀ key, key ≠ key₀ → c.after.realm key = c.before.realm key)
    (hunborn : c.after.realm key₀ = none → ∀ id kinds listener,
      ¬ Watching (calls ++ [c]) key₀ id kinds listener)
    (hself : ∀ r, c.after.realm key₀ = some r → r.active = true → ∀ id kinds listener,
      Registered r.registry id kinds listener ↔ Watching (calls ++ [c]) key₀ id kinds listener) :
    Tracked (calls ++ [c]) c.after where
  wired := hwired
  unborn key hkey id kinds listener := by
    by_cases heq : key = key₀
    · subst heq
      exact hunborn hkey id kinds listener
    · rw [watching_concat_of_not_concerns fun h => heq (hconcerns key h)]
      exact h.unborn key (hothers key heq ▸ hkey) id kinds listener
  listeners key r hr hactive id kinds listener := by
    by_cases heq : key = key₀
    · subst heq
      exact hself r hr hactive id kinds listener
    · rw [watching_concat_of_not_concerns fun h => heq (hconcerns key h)]
      exact h.listeners key r (hothers key heq ▸ hr) hactive id kinds listener

/-- A request that is not about listeners: realms that are active afterwards were so before, or are new
and without listeners. -/
theorem Tracked.quiet {c : Call} (h : Tracked calls c.before) (hwired : c.after.Wired)
    (hconcerns : ∀ key, ¬ c.Concerns key)
    (hborn : ∀ key, c.after.realm key = none → c.before.realm key = none)
    (hrealms : ∀ key r, c.after.realm key = some r → r.active = true →
      c.before.realm key = some r ∨ (c.before.realm key = none ∧ r.registry = {})) :
    Tracked (calls ++ [c]) c.after where
  wired := hwired
  unborn key hkey id kinds listener := by
    rw [watching_concat_of_not_concerns (hconcerns key)]
    exact h.unborn key (hborn key hkey) id kinds listener
  listeners key r hr hactive id kinds listener := by
    rw [watching_concat_of_not_concerns (hconcerns key)]
    obtain hr | ⟨hnone, hempty⟩ := hrealms key r hr hactive
    · exact h.listeners key r hr hactive id kinds listener
    · refine iff_of_false ?_ (h.unborn key hnone id kinds listener)
      rintro ⟨l, hl, -⟩
      rw [hempty] at hl
      cases hl

/-- A request by which the listeners of one realm change. -/
theorem Tracked.change {c : Call} (h : Tracked calls c.before) (hwired : c.after.Wired) {key₀ : Nat}
    {r₀ : Realm} {f : Realm → Realm} (hr₀ : c.before.realm key₀ = some r₀)
    (hactive : ∀ r, (f r).active = r.active) (hconcerns : ∀ key, c.Concerns key → key = key₀)
    (hafter : ∀ key, c.after.realm key
      = if key = key₀ then (c.before.realm key).map f else c.before.realm key)
    (hself : r₀.active = true → ∀ id kinds listener, Registered (f r₀).registry id kinds listener ↔
      Watching (calls ++ [c]) key₀ id kinds listener) : Tracked (calls ++ [c]) c.after := by
  have hr : c.after.realm key₀ = some (f r₀) := by rw [hafter, if_pos rfl, hr₀, Option.map_some]
  refine h.next hwired key₀ hconcerns (fun key hkey => by rw [hafter, if_neg hkey])
    (fun hnone => ?_) fun r hr' hractive => ?_
  · rw [hr] at hnone
    cases hnone
  · obtain rfl := Option.some.inj (hr.symm.trans hr')
    exact hself (hactive r₀ ▸ hractive)

/-- A registry from which one number is gone, after a request that ends the watch under it. -/
theorem registered_of_erased {r r' : Registry} {c : Call} {id₀ : Int32}
    (hold : ∀ id kinds listener, Registered r id kinds listener ↔ Watching calls key id kinds listener)
    (hends : ∀ id, c.Forgets key id ∨ c.Renumbers key id ↔ id = id₀)
    (hbegins : ∀ id kinds listener, ¬ c.Begins key id kinds listener)
    (hfind : ∀ id, r'.find? id = if id = id₀ then none else r.find? id) (id : Int32)
    (kinds : EventKinds) (listener : Listener) :
    Registered r' id kinds listener ↔ Watching (calls ++ [c]) key id kinds listener := by
  have hfound := hfind id
  by_cases hid : id = id₀
  · rw [if_pos hid] at hfound
    rw [watching_concat_of_ends ((hends id).2 hid)]
    refine iff_of_false ?_ (hbegins id kinds listener)
    rintro ⟨l, hl, -⟩
    rw [hfound] at hl
    cases hl
  · rw [if_neg hid] at hfound
    rw [watching_concat_of_neither (hbegins id kinds listener) ((hends id).not.2 hid), ← hold, Registered,
      Registered, hfound]

/-- A registry in which one number stands for another listener, after a request by which that listener
begins to watch. -/
theorem registered_of_replaced {r r' : Registry} {c : Call} {l : Registration}
    (hold : ∀ id kinds listener, Registered r id kinds listener ↔ Watching calls key id kinds listener)
    (hends : ∀ id, c.Forgets key id ∨ c.Renumbers key id ↔ id = l.id)
    (hbegins : ∀ id kinds listener, c.Begins key id kinds listener ↔
      id = l.id ∧ kinds = l.kinds ∧ listener = l.listener)
    (hfind : ∀ id, r'.find? id = if id = l.id then some l else r.find? id) (id : Int32)
    (kinds : EventKinds) (listener : Listener) :
    Registered r' id kinds listener ↔ Watching (calls ++ [c]) key id kinds listener := by
  have hfound := hfind id
  by_cases hid : id = l.id
  · rw [if_pos hid] at hfound
    rw [watching_concat_of_ends ((hends id).2 hid), hbegins, Registered, hfound]
    constructor
    · rintro ⟨l', hl', rfl, rfl⟩
      obtain rfl := Option.some.inj hl'
      exact ⟨hid, rfl, rfl⟩
    · rintro ⟨-, rfl, rfl⟩
      exact ⟨l, rfl, rfl, rfl⟩
  · rw [if_neg hid] at hfound
    rw [watching_concat_of_neither (fun h => hid ((hbegins ..).1 h).1) ((hends id).not.2 hid), ← hold,
      Registered, Registered, hfound]

section Requests

variable {c : Call} {matcher : Matcher} {id₀ : Int32}

theorem not_concerns (hwatch : ∀ key matcher listener kinds,
    c.request ≠ .watch key matcher listener kinds) (hunwatch : ∀ key id, c.request ≠ .unwatch key id)
    (key : Nat) : ¬ c.Concerns key := by
  rintro (⟨matcher, listener, kinds, hrequest⟩ | ⟨id, hrequest⟩)
  · exact hwatch _ _ _ _ hrequest
  · exact hunwatch _ _ hrequest

theorem concerns_watch (hc : c.request = .watch key matcher listener kinds) (k : Nat)
    (hconcerns : c.Concerns k) : k = key := by
  rcases hconcerns with ⟨_, _, _, hrequest⟩ | ⟨_, hrequest⟩
  · cases hc.symm.trans hrequest
    rfl
  · cases hc.symm.trans hrequest

theorem concerns_unwatch (hc : c.request = .unwatch key id) (k : Nat) (hconcerns : c.Concerns k) :
    k = key := by
  rcases hconcerns with ⟨_, _, _, hrequest⟩ | ⟨_, hrequest⟩
  · cases hc.symm.trans hrequest
  · cases hc.symm.trans hrequest
    rfl

/-- A request to watch ends the watch under the next number, and no other. -/
theorem ends_watch (hc : c.request = .watch key matcher listener kinds) (id : Int32) :
    c.Forgets key id ∨ c.Renumbers key id ↔ id = c.before.nextListener := by
  constructor
  · rintro (hforgets | ⟨hnumber, -⟩)
    · cases hc.symm.trans hforgets
    · exact hnumber.symm
  · intro hid
    exact .inr ⟨hid.symm, matcher, listener, kinds, hc⟩

/-- A request to unwatch a number ends the watch under it, and no other. -/
theorem ends_unwatch (hc : c.request = .unwatch key id₀) (id : Int32) :
    c.Forgets key id ∨ c.Renumbers key id ↔ id = id₀ := by
  constructor
  · rintro (hforgets | ⟨-, _, _, _, hrequest⟩)
    · cases hc.symm.trans hforgets
      rfl
    · cases hc.symm.trans hrequest
  · rintro rfl
    exact .inl hc

theorem not_begins (hc : (∃ cause, c.reply = .failed cause) ∨ ∃ key id, c.request = .unwatch key id)
    (id : Int32) (kinds : EventKinds) (listener : Listener) : ¬ c.Begins key id kinds listener := by
  rintro ⟨hreply, _, hrequest⟩
  rcases hc with ⟨cause, hc⟩ | ⟨_, _, hc⟩
  · cases hc.symm.trans hreply
  · cases hc.symm.trans hrequest

end Requests

/-- After one request the registries hold exactly the listeners that watch then. -/
theorem Tracked.effect (h : Tracked calls e) (heffect : Effect policy e request reply e') :
    Tracked (calls ++ [⟨e, policy, request, reply, e'⟩]) e' := by
  have hwired := h.wired.effect heffect
  have hsame : ∀ key r, e.realm key = some r → r.active = true →
      e.realm key = some r ∨ (e.realm key = none ∧ r.registry = {}) := fun _ _ hr _ => .inl hr
  cases heffect with
  | present | absent | dispatched =>
    exact h.quiet hwired (not_concerns nofun nofun) (fun _ hkey => hkey) hsame
  | unprepared cause defined hnew =>
    exact h.quiet hwired (not_concerns nofun nofun) (fun _ hkey => hkey) hsame
  | @established config defined hnew =>
    refine h.quiet hwired (not_concerns nofun nofun) (fun key hkey => ?_) fun key r hr hactive => ?_
    · rw [realm_establish] at hkey
      split at hkey
      · cases hkey
      · exact hkey
    · rw [realm_establish] at hr
      split at hr
      case isTrue hkey =>
        obtain rfl := Option.some.inj hr
        exact .inr ⟨hkey ▸ h.wired.realm_next, rfl⟩
      case isFalse => exact .inl hr
  | @uninstalled space key refusal hkey =>
    refine h.quiet hwired (not_concerns nofun nofun) (fun k hk => ?_) fun k r hr hactive => ?_
    · rw [realm_withRealm] at hk
      split at hk
      · exact Option.map_eq_none_iff.1 hk
      · exact hk
    · obtain ⟨-, hr⟩ | ⟨-, r₀, hr₀, rfl⟩ := realm_of_withRealm hr
      · exact .inl hr
      · cases hactive
  | @closed key matcher listener kinds space hclosed =>
    refine h.next hwired key (concerns_watch rfl) (fun _ _ => rfl) (fun hnone id kinds listener => ?_)
      fun r hr hactive => ?_
    · rw [Watching, since_concat]
      rintro (hbegins | ⟨hwatching, -⟩)
      · exact not_begins (.inl ⟨_, rfl⟩) _ _ _ hbegins
      · exact h.unborn key hnone _ _ _ hwatching
    · cases (hclosed r hr).symm.trans hactive
  | @refused key matcher listener kinds r cause hr hactive hadd =>
    refine h.change (f := Realm.spurned (e.registration r listener kinds)) hwired hr (fun _ => rfl)
      (concerns_watch rfl) (fun k => realm_withRealm (e := e.draw.2) key k _) fun hactive => ?_
    exact registered_of_erased (h.listeners key r hr hactive) (ends_watch rfl)
      (not_begins (.inl ⟨_, rfl⟩)) (find?_spurned _ r)
  | @watched key matcher listener kinds r hr hactive hadd =>
    refine h.change (f := Realm.joined (e.registration r listener kinds) (e.coordinatorCount + 1)) hwired
      hr (fun _ => rfl) (concerns_watch rfl)
      (fun k => realm_withRealm (e := (attach (e.coordinator r matcher kinds) e.draw.2).2) key k _)
      fun hactive => ?_
    refine registered_of_replaced (h.listeners key r hr hactive) (ends_watch rfl) (fun id kinds' listener' => ?_)
      (find?_register r.registry _)
    constructor
    · rintro ⟨hreply, matcher', hrequest⟩
      cases hreply
      cases hrequest
      exact ⟨rfl, rfl, rfl⟩
    · rintro ⟨rfl, rfl, rfl⟩
      exact ⟨rfl, matcher, rfl⟩
  | @unknown key id hnone =>
    refine h.next hwired key (concerns_unwatch rfl) (fun _ _ => rfl)
      (fun hkey id' kinds listener => ?_) fun r hr hactive => ?_
    · rw [Watching, since_concat]
      rintro (hbegins | ⟨hwatching, -⟩)
      · exact not_begins (.inr ⟨_, _, rfl⟩) _ _ _ hbegins
      · exact h.unborn key hkey _ _ _ hwatching
    · have hr : e.realm key = some r := hr
      have habsent : r.registry.find? id = none := by
        cases hl : r.registry.find? id with
        | none => rfl
        | some l =>
          obtain ⟨t, ht⟩ := h.wired.coordinated key r id l hr hl
          rw [hr, Option.bind_some, ht] at hnone
          cases hnone
      refine registered_of_erased (h.listeners key r hr hactive) (ends_unwatch rfl) (not_begins (.inr ⟨_, _, rfl⟩))
        fun id' => ?_
      split
      case isTrue hid => rw [hid, habsent]
      case isFalse => rfl
  | @unwatched key id r transformer hr hid =>
    refine h.change (f := Realm.forgot id) hwired hr (fun _ => rfl) (concerns_unwatch rfl)
      (fun k => realm_withRealm (e := e.withHost _) key k _) fun hactive => ?_
    exact registered_of_erased (h.listeners key r hr hactive) (ends_unwatch rfl) (not_begins (.inr ⟨_, _, rfl⟩))
      fun id' => Table.find?_erase ..

theorem tracked_new : Tracked [] {} where
  wired := wired_new
  unborn _ _ _ _ _ := not_since_nil
  listeners _ _ h := nomatch h

/-- The registries hold exactly the listeners that watch. -/
theorem tracked_play (requests : List (HostPolicy × Request)) :
    Tracked (play requests).1 (play requests).2 := by
  refine play_induction tracked_new ?_ requests
  intro calls e x h
  exact h.effect (call_effect e x)

/-! ## What becomes of an event -/

/-- The event is addressed to the listener, which wants it: the namespace is installed, the listener
watches its realm under the number, and it asked for events of the kind. -/
def Due (calls : List Call) (e : Engine) (d : Dispatch) (listener : Listener) : Prop :=
  ∃ key kinds, e.installed.find? d.space = some key ∧ Watching calls key d.listener kinds listener ∧
    kinds.has d.event.kind = true

/-- The bridge finds the listener that an event is due to. -/
theorem Tracked.recipient? (h : Tracked calls e) (d : Dispatch) (listener : Listener) :
    (∃ l, e.bridge.recipient? e.registryOf d = some l ∧ l.listener = listener) ↔
      Due calls e d listener := by
  have hregistry (key : Nat) (r : Realm) (hr : e.realm key = some r) : e.registryOf key = r.registry := by
    rw [registryOf, hr]
    rfl
  constructor
  · rintro ⟨l, hl, rfl⟩
    obtain ⟨key, hkey, hl⟩ := Option.bind_eq_some_iff.1 hl
    obtain ⟨hl, hkind⟩ := Option.filter_eq_some_iff.1 hl
    rw [h.wired.handlers] at hkey
    obtain ⟨r, hr, hactive, -⟩ := h.wired.current _ _ hkey
    rw [hregistry key r hr] at hl
    exact ⟨key, l.kinds, hkey, (h.listeners key r hr hactive _ _ _).1 ⟨l, hl, rfl, rfl⟩, hkind⟩
  · rintro ⟨key, kinds, hkey, hwatching, hkind⟩
    obtain ⟨r, hr, hactive, -⟩ := h.wired.current _ _ hkey
    obtain ⟨l, hl, rfl, rfl⟩ := (h.listeners key r hr hactive _ _ _).2 hwatching
    refine ⟨l, ?_, rfl⟩
    rw [Bridge.recipient?, h.wired.handlers, hkey, Option.bind_some, hregistry key r hr,
      Registry.recipient?, hl, Option.filter_some, if_pos hkind]

theorem Wired.dispatch_eq (h : e.Wired) (d : Dispatch) : e.dispatch d =
    ((e.bridge.recipient? e.registryOf d).map fun l => l.listener.given d.listener d.event).getD
      (.ignored d.event) := by
  rw [dispatch, send, Bridge.send_run, h.idle]
  rfl

theorem Tracked.dispatch_of_due (h : Tracked calls e) {d : Dispatch} (hdue : Due calls e d listener) :
    e.dispatch d = listener.given d.listener d.event := by
  obtain ⟨l, hl, rfl⟩ := (h.recipient? d listener).2 hdue
  rw [h.wired.dispatch_eq, hl]
  rfl

theorem Tracked.dispatch_of_not_due (h : Tracked calls e) {d : Dispatch}
    (hdue : ∀ listener, ¬ Due calls e d listener) : e.dispatch d = .ignored d.event := by
  rw [h.wired.dispatch_eq]
  cases hl : e.bridge.recipient? e.registryOf d with
  | none => rfl
  | some l => exact absurd ((h.recipient? d l.listener).1 ⟨l, hl, rfl⟩) (hdue _)

/-- On a thread with a dispatch in progress nothing is delivered. -/
theorem send_of_dispatching (h : e.thread.dispatching = true) (d : Dispatch) :
    e.send d = (.ignored d.event, e) := by
  rw [send_eq, dispatch, send, Bridge.send_run, if_pos h]

/-! ## Requests that make a namespace installed -/

/-- The request is to install the namespace, and was answered with a realm. -/
def Call.Installs (space : String) (c : Call) : Prop :=
  ∃ config address, c.request = .install config ∧ config.space = space ∧ c.reply = .installed address

/-- The request is to uninstall the namespace; it counts whatever became of it. -/
def Call.Uninstalls (space : String) (c : Call) : Prop :=
  c.request = .uninstall space

theorem installed_of_unchanged {space : String}
    (hsame : e'.installed.find? space = e.installed.find? space)
    (hinstalls : Call.Installs space ⟨e, policy, request, reply, e'⟩ →
      ∃ key, e.installed.find? space = some key)
    (huninstalls : request = .uninstall space → e.installed.find? space = none) :
    (∃ key, e'.installed.find? space = some key) ↔
      Call.Installs space ⟨e, policy, request, reply, e'⟩ ∨
        ((∃ key, e.installed.find? space = some key) ∧
          ¬ Call.Uninstalls space ⟨e, policy, request, reply, e'⟩) := by
  rw [hsame]
  constructor
  · rintro ⟨key, hkey⟩
    refine .inr ⟨⟨key, hkey⟩, fun h => ?_⟩
    cases (huninstalls h).symm.trans hkey
  · rintro (h | ⟨h, -⟩)
    · exact hinstalls h
    · exact h

/-- A request leaves installed what it installs, and what was installed unless it is uninstalled. -/
theorem installed_effect (heffect : Effect policy e request reply e') (space : String) :
    (∃ key, e'.installed.find? space = some key) ↔
      Call.Installs space ⟨e, policy, request, reply, e'⟩ ∨
        ((∃ key, e.installed.find? space = some key) ∧
          ¬ Call.Uninstalls space ⟨e, policy, request, reply, e'⟩) := by
  cases heffect with
  | closed | refused | watched | unknown | unwatched | dispatched =>
    refine installed_of_unchanged rfl ?_ nofun
    rintro ⟨_, _, hrequest, -⟩
    cases hrequest
  | @present config key r hkey hr =>
    refine installed_of_unchanged rfl ?_ nofun
    rintro ⟨_, _, hrequest, rfl, -⟩
    cases hrequest
    exact ⟨key, hkey⟩
  | unprepared cause defined hnew =>
    refine installed_of_unchanged rfl ?_ nofun
    rintro ⟨_, _, -, -, hreply⟩
    cases hreply
  | @established config defined hnew =>
    have hfind := Table.find?_insert e.installed config.space space (e.realmCount + 1)
    by_cases hspace : space = config.space
    · rw [if_pos hspace] at hfind
      exact ⟨fun _ => .inl ⟨config, _, rfl, hspace.symm, rfl⟩, fun _ => ⟨_, hfind⟩⟩
    · rw [if_neg hspace] at hfind
      refine installed_of_unchanged hfind ?_ nofun
      rintro ⟨_, _, hrequest, rfl, -⟩
      cases hrequest
      exact absurd rfl hspace
  | @absent gone hgone =>
    refine installed_of_unchanged rfl ?_ ?_
    · rintro ⟨_, _, hrequest, -⟩
      cases hrequest
    · rintro huninstalls
      cases huninstalls
      exact hgone
  | @uninstalled gone key refusal hgone =>
    have hfind := Table.find?_erase e.installed gone space
    have hnot (after : Engine) :
        ¬ Call.Installs space ⟨e, policy, .uninstall gone, .ofRefusal refusal, after⟩ := by
      rintro ⟨_, _, hrequest, -⟩
      cases hrequest
    by_cases hspace : space = gone
    · rw [if_pos hspace] at hfind
      refine iff_of_false ?_ ?_
      · rintro ⟨key, hkey⟩
        cases hfind.symm.trans hkey
      · rintro (hinstalls | ⟨-, hkept⟩)
        · exact hnot _ hinstalls
        · exact hkept (congrArg Request.uninstall hspace.symm)
    · rw [if_neg hspace] at hfind
      refine installed_of_unchanged hfind (fun h => absurd h (hnot _)) fun huninstalls => ?_
      cases huninstalls
      exact absurd rfl hspace

/-- A namespace is installed from a request to install it until one to uninstall it. -/
theorem installed_play (requests : List (HostPolicy × Request)) (space : String) :
    (∃ key, (play requests).2.installed.find? space = some key) ↔
      Since (Call.Installs space) (Call.Uninstalls space) (play requests).1 := by
  refine play_induction (P := fun calls e => (∃ key, e.installed.find? space = some key) ↔
    Since (Call.Installs space) (Call.Uninstalls space) calls) ?_ ?_ requests
  · exact iff_of_false nofun not_since_nil
  · intro calls e x h
    rw [since_concat, ← h]
    exact installed_effect (call_effect e x) space

/-! ## Numbers that are given once -/

/-- While numbers are given for the first time, a request to watch ends no watch. -/
theorem Counted.not_renumbers {n : Nat} (h : Counted calls e n) {x : HostPolicy × Request}
    (hfew : (calls ++ [e.call x]).countP (·.request.isWatch) ≤ 2 ^ 32)
    (hsince : Since (Call.Begins key id kinds listener) (Call.Forgets key id) calls) :
    ¬ (e.call x).Renumbers key id := by
  rintro ⟨hnext, matcher, listener', kinds', hrequest⟩
  obtain ⟨before, c, after, rfl, ⟨hreply, -⟩, -⟩ := hsince
  obtain ⟨m, hmn, hid⟩ := h.given c (by simp) id hreply
  have hn := h.lt hfew (by rw [hrequest]; rfl)
  exact h.numbered.fresh hn hmn (hid.symm.trans hnext.symm)

/-- While numbers are given for the first time, a listener watches until a request to unwatch its
number. -/
theorem watching_play (requests : List (HostPolicy × Request))
    (hfew : requests.countP (·.2.isWatch) ≤ 2 ^ 32) (key : Nat) (id : Int32) (kinds : EventKinds)
    (listener : Listener) : Watching (play requests).1 key id kinds listener ↔
      Since (Call.Begins key id kinds listener) (Call.Forgets key id) (play requests).1 := by
  induction requests using List.reverseRecOn with
  | nil => exact iff_of_false not_since_nil not_since_nil
  | append_singleton requests x ih =>
    obtain ⟨n, hcounted⟩ := counted_play requests
    have hbefore := Nat.le_trans (List.sublist_append_left requests [x]).countP_le hfew
    rw [← countP_play, play_concat] at hfew
    rw [play_concat, Watching, since_concat, since_concat, ← Watching, ih hbefore]
    refine or_congr_right (and_congr_right fun hsince => not_congr ?_)
    exact or_iff_left (hcounted.not_renumbers hfew hsince)

/-! ## The result -/

/-- How events are delivered after requests. -/
structure Delivers (calls : List Call) (e : Engine) : Prop where
  /-- A listener is asked exactly if the event is due to one. -/
  asked : ∀ d, (e.dispatch d).deliveries ≠ [] ↔ ∃ listener, Due calls e d listener
  /-- No event is due to two listeners. -/
  one : ∀ d listener listener', Due calls e d listener → Due calls e d listener' → listener = listener'
  /-- The listener an event is due to gets it once, and nobody else does: whatever the listener dispatches
  itself is ignored. However it ends, the engine and its thread are as they were. -/
  due : ∀ d listener, Due calls e d listener → e.send d = (listener.given d.listener d.event, e) ∧
    ∃ nested, (e.dispatch d).deliveries = [⟨d.listener, d.event, nested⟩] ∧
      ∀ x ∈ nested, x.2 = Answer.ignored x.1.event
  /-- Every other event is answered at once, with its arguments as they are. -/
  others : ∀ d, (∀ listener, ¬ Due calls e d listener) → e.send d = (.ignored d.event, e)
  /-- So is every event while a dispatch is in progress. -/
  busy : ∀ d t, t.dispatching = true →
    ({ e with thread := t } : Engine).send d = (.ignored d.event, { e with thread := t })
  /-- After every request, dispatches among them, no dispatch is in progress. -/
  idle : e.thread.dispatching = false
  /-- A namespace is installed from a request to install it until one to uninstall it. -/
  installed : ∀ space, (∃ key, e.installed.find? space = some key) ↔
    Since (Call.Installs space) (Call.Uninstalls space) calls
  /-- A listener watches until a request to unwatch its number, while no number is given again. -/
  watching : calls.countP (·.request.isWatch) ≤ 2 ^ 32 → ∀ key id kinds listener,
    Watching calls key id kinds listener ↔
      Since (Call.Begins key id kinds listener) (Call.Forgets key id) calls

/-- Events are delivered to whom they are due, at any time, whatever the host refused before and however
the listeners that were asked have ended. -/
theorem delivers (requests : List (HostPolicy × Request)) :
    Delivers (play requests).1 (play requests).2 := by
  have h := tracked_play requests
  have hdue (d : Dispatch) (listener : Listener)
      (hdue : Due (play requests).1 (play requests).2 d listener) :
      ∃ nested, ((play requests).2.dispatch d).deliveries = [⟨d.listener, d.event, nested⟩] ∧
        ∀ x ∈ nested, x.2 = Answer.ignored x.1.event := by
    rw [h.dispatch_of_due hdue, listener.deliveries_given]
    exact ⟨_, rfl, Reaction.nested_alone _⟩
  refine ⟨fun d => ⟨fun hasked => ?_, ?_⟩, fun d listener listener' hl hl' => ?_, ?_, ?_, ?_, h.wired.idle,
    installed_play requests, ?_⟩
  · by_contra hnone
    rw [h.dispatch_of_not_due (not_exists.1 hnone)] at hasked
    exact hasked rfl
  · rintro ⟨listener, hl⟩
    obtain ⟨nested, hdeliveries, -⟩ := hdue d listener hl
    rw [hdeliveries]
    exact List.cons_ne_nil _ _
  · obtain ⟨l, hfound, rfl⟩ := (h.recipient? d listener).2 hl
    obtain ⟨l', hfound', rfl⟩ := (h.recipient? d listener').2 hl'
    cases hfound.symm.trans hfound'
    rfl
  · intro d listener hl
    exact ⟨by rw [send_eq, h.dispatch_of_due hl], hdue d listener hl⟩
  · intro d hnone
    rw [send_eq, h.dispatch_of_not_due hnone]
  · exact fun d t ht => send_of_dispatching (e := { (play requests).2 with thread := t }) ht d
  · intro hfew
    rw [countP_play] at hfew
    exact watching_play requests hfew

/-! ### A number that is drawn again -/

/-- Nobody asks that the listener be forgotten. -/
theorem since_renumbering (k : Nat) :
    Since (Call.Begins 1 1000 .calls proceeding) (Call.Forgets 1 1000) (play (renumbering k)).1 := by
  obtain ⟨first, second, later, hcalls, hreply, hrequest, hlater, -⟩ := ready_renumbering k
  refine ⟨[first], second, later, hcalls, ⟨hreply, .all, hrequest⟩, fun c hc hforgets => ?_⟩
  cases (hlater c hc).symm.trans hforgets

/-- The listener does not watch any more when its number was drawn for one that was refused. -/
theorem not_due_renumbering {k : Nat} (hk : (1 + k) % 2 ^ 32 = 0) (event : Event) (listener : Listener) :
    ¬ Due (play (renumbering (k + 1))).1 (play (renumbering (k + 1))).2 ⟨"app", 1000, event⟩ listener := by
  obtain ⟨-, -, -, -, -, -, -, hready⟩ := ready_renumbering k
  obtain ⟨-, -, -, -, -, -, -, hready'⟩ := ready_renumbering (k + 1)
  have hnumber : listenerNumber (1 + k) = listenerNumber 0 :=
    listenerNumber_eq_iff.2 (hk.trans (Nat.zero_mod _).symm)
  have hnext : (play (renumbering k)).2.nextListener = 1000 := hready.next.trans hnumber
  rintro ⟨key, kinds, hkey, hwatching, -⟩
  obtain rfl := Option.some.inj (hready'.installed.symm.trans hkey)
  rw [renumbering_succ, play_concat] at hwatching
  obtain ⟨hreply, -⟩ :=
    (watching_concat_of_ends (.inr ⟨hnext, .all, proceeding, .calls, rfl⟩)).1 hwatching
  have hrefused := (hready.watch refusingAdd .all proceeding .calls).2.2 _ rfl
  cases hrefused.symm.trans hreply

/-- A listener was registered under the number, its namespace is installed, nobody has asked that it be
forgotten, it wants the event and no dispatch is in progress; but the host has refused 2 ^ 32 more, the
last of them under the same number, and the event is ignored. -/
theorem ignored_renumbering :
    (play (renumbering (2 ^ 32))).2.installed.find? "app" = some 1 ∧
    Since (Call.Begins 1 1000 .calls proceeding) (Call.Forgets 1 1000)
      (play (renumbering (2 ^ 32))).1 ∧
    EventKinds.calls.has Event.callReturn.kind = true ∧
    (play (renumbering (2 ^ 32))).2.thread.dispatching = false ∧
    (play (renumbering (2 ^ 32))).2.dispatch ⟨"app", 1000, .callReturn⟩ = .ignored .callReturn := by
  obtain ⟨k, hk, hlast⟩ : ∃ k, (1 + k) % 2 ^ 32 = 0 ∧ 2 ^ 32 = k + 1 := ⟨2 ^ 32 - 1, rfl, rfl⟩
  rw [hlast]
  obtain ⟨-, -, -, -, -, -, -, hready⟩ := ready_renumbering (k + 1)
  exact ⟨hready.installed, since_renumbering (k + 1), by decide, hready.wired.idle,
    (tracked_play _).dispatch_of_not_due (not_due_renumbering hk .callReturn)⟩

end Engine

end Interpose
