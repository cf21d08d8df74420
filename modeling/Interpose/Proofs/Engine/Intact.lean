import Interpose.Proofs.Engine.Numbers
/-!
# The life of realms leaves no loose ends

Installing, uninstalling, watching and unwatching write five tables one after the other, and leave off in
the middle when the host refuses. Whatever it refuses to define or to add, after each request the tables
agree: what answers for a namespace is the realm installed there, the listeners of a realm are those for
which it holds transformers, the host has exactly the transformers that realms hold, each held once, and
a realm that was uninstalled is empty and stays so. A request that fails changes none of this.

It takes a host that removes what it is told to, since otherwise it keeps transformers that no realm holds
any more, and numbers that are not given twice: a listener that gets the number of another takes its place
in the tables, and the transformer of the first stays in the host without a holder.

Results:
* `Agrees.effect`: a request that fails changes nothing.
* `Intact.effect`: the tables agree again after one request.
* `Intact.lasts`: what a realm keeps.
-/

namespace Interpose

/-! ## Transformers and their holders -/

/-- Transformers are held in places, no two of them by one; the host has just those that are held. -/
structure Matched (holds : Nat → Int32 → Nat → Prop) (hosted : List Nat) : Prop where
  nodup : hosted.Nodup
  held : ∀ t, t ∈ hosted ↔ ∃ key id, holds key id t
  one : ∀ key id key' id' t, holds key id t → holds key' id' t → key = key' ∧ id = id'

namespace Matched

variable {holds holds' : Nat → Int32 → Nat → Prop} {hosted : List Nat}

theorem congr (h : Matched holds hosted) (hsame : ∀ key id t, holds' key id t ↔ holds key id t) :
    Matched holds' hosted where
  nodup := h.nodup
  held t := by simp only [hsame, h.held]
  one key id key' id' t := by
    rw [hsame, hsame]
    exact h.one key id key' id' t

/-- One more transformer, in one more place. -/
theorem add (h : Matched holds hosted) (key₀ : Nat) (id₀ : Int32) (t₀ : Nat)
    (hfresh : ∀ key id, ¬ holds key id t₀)
    (hadd : ∀ key id t, holds' key id t ↔ (key = key₀ ∧ id = id₀ ∧ t = t₀) ∨ holds key id t) :
    Matched holds' (hosted ++ [t₀]) where
  nodup := by
    refine List.nodup_append.2 ⟨h.nodup, List.nodup_singleton t₀, fun t ht t' ht' => ?_⟩
    rintro rfl
    obtain ⟨key, id, hholds⟩ := (h.held t).1 ht
    obtain rfl := List.mem_singleton.1 ht'
    exact hfresh key id hholds
  held t := by
    rw [List.mem_append, List.mem_singleton, h.held]
    constructor
    · rintro (⟨key, id, hholds⟩ | rfl)
      · exact ⟨key, id, (hadd ..).2 (.inr hholds)⟩
      · exact ⟨key₀, id₀, (hadd ..).2 (.inl ⟨rfl, rfl, rfl⟩)⟩
    · rintro ⟨key, id, hholds⟩
      rcases (hadd ..).1 hholds with ⟨-, -, rfl⟩ | hholds
      · exact .inr rfl
      · exact .inl ⟨key, id, hholds⟩
  one key id key' id' t := by
    rw [hadd, hadd]
    rintro (⟨rfl, rfl, rfl⟩ | hholds) (⟨rfl, rfl, heq⟩ | hholds')
    · exact ⟨rfl, rfl⟩
    · exact absurd hholds' (hfresh key' id')
    · exact absurd (heq ▸ hholds) (hfresh key id)
    · exact h.one key id key' id' t hholds hholds'

/-- Some places are emptied, and what was held there is removed. -/
theorem remove (h : Matched holds hosted) (gone : Nat → Int32 → Prop) {removed : List Nat}
    (hkept : ∀ key id t, holds' key id t ↔ holds key id t ∧ ¬ gone key id)
    (hremoved : ∀ t, t ∈ removed ↔ ∃ key id, gone key id ∧ holds key id t) :
    Matched holds' (hosted.filter (· ∉ removed)) where
  nodup := h.nodup.filter _
  held t := by
    rw [List.mem_filter, h.held, decide_eq_true_iff, hremoved]
    constructor
    · rintro ⟨⟨key, id, hholds⟩, hnone⟩
      exact ⟨key, id, (hkept ..).2 ⟨hholds, fun hgone => hnone ⟨key, id, hgone, hholds⟩⟩⟩
    · rintro ⟨key, id, hholds⟩
      obtain ⟨hholds, hstays⟩ := (hkept ..).1 hholds
      refine ⟨⟨key, id, hholds⟩, ?_⟩
      rintro ⟨key', id', hgone, hholds'⟩
      obtain ⟨rfl, rfl⟩ := h.one key id key' id' t hholds hholds'
      exact hstays hgone
  one key id key' id' t := by
    rw [hkept, hkept]
    exact fun hholds hholds' => h.one key id key' id' t hholds.1 hholds'.1

end Matched

/-- A host that refuses no removal has the transformers that were not removed. -/
theorem Host.transformers_removing {policy : HostPolicy} (hremove : ∀ id, policy.remove id = none)
    (removed : List (Int32 × Nat)) (h : Host) :
    (Host.removing policy removed h).transformers = h.transformers.filter (· ∉ removed.map (·.2)) := by
  induction removed generalizing h with
  | nil => simp [Host.removing]
  | cons x removed ih =>
    have hcons : Host.removing policy (x :: removed) h = Host.removing policy removed (h.remove x.2) := by
      simp [Host.removing, hremove]
    rw [hcons, ih, Host.remove, List.filter_filter]
    refine List.filter_congr fun t _ => ?_
    simp only [List.map_cons, List.mem_cons, not_or, Bool.decide_and, ne_eq, Bool.and_comm]

namespace Engine

variable {policy : HostPolicy} {e e' : Engine} {request : Request} {reply : Reply}

/-! ## The invariant -/

/-- The realm holds the transformer for the listener with the number. -/
def Holds (e : Engine) (key : Nat) (id : Int32) (t : Nat) : Prop :=
  ∃ r, e.realm key = some r ∧ r.coordinators.find? id = some t

structure Sound (e : Engine) (r : Realm) : Prop where
  /-- The listeners for which classes are woven are those that are registered. -/
  listeners : r.watched = r.registry.keys
  distinct : r.watched.Nodup
  /-- The transformer held for a listener was made for it. -/
  records : ∀ id t, r.coordinators.find? id = some t → t ≤ e.coordinatorCount ∧
    ∃ c, e.coordinators.find? t = some c ∧ c.listener = id ∧ c.space = r.address.space

structure Intact (e : Engine) : Prop where
  /-- What answers for a namespace is the active realm that is installed there. -/
  wired : e.Wired
  sound : ∀ key r, e.realm key = some r → Sound e r
  /-- The host has exactly the transformers that realms hold for listeners, each held once. -/
  transformers : Matched e.Holds e.host.transformers
  /-- A realm that is not installed any more is inactive and empty. -/
  retired : ∀ key r, e.realm key = some r → (∀ space, e.installed.find? space ≠ some key) →
    r.active = false ∧ r.registry = {} ∧ r.coordinators = {}

/-- The tables of two engines do not differ. -/
structure Agrees (e e' : Engine) : Prop where
  installed : e'.installed = e.installed
  bridge : e'.bridge = e.bridge
  realms : ∀ key, e'.realm key = e.realm key
  transformers : e'.host.transformers = e.host.transformers
  coordinators : e'.coordinators = e.coordinators
  count : e'.coordinatorCount = e.coordinatorCount

theorem Agrees.refl (e : Engine) : e.Agrees e :=
  ⟨rfl, rfl, fun _ => rfl, rfl, rfl, rfl⟩

theorem intact_new : Intact {} where
  wired := wired_new
  sound _ _ h := nomatch h
  transformers := by
    refine ⟨List.nodup_nil, fun t => iff_of_false (List.not_mem_nil) ?_, ?_⟩
    · rintro ⟨_, _, _, h, -⟩
      cases h
    · rintro _ _ _ _ _ ⟨_, h, -⟩
      cases h
  retired _ _ h := nomatch h

theorem holds_iff {key : Nat} {r : Realm} (hr : e.realm key = some r) (id : Int32) (t : Nat) :
    e.Holds key id t ↔ r.coordinators.find? id = some t := by
  constructor
  · rintro ⟨r', hr', ht⟩
    cases hr.symm.trans hr'
    exact ht
  · exact fun ht => ⟨r, hr, ht⟩

/-- A realm without listeners. -/
theorem Sound.empty {r : Realm} (hregistry : r.registry = {}) (hcoordinators : r.coordinators = {}) :
    Sound e r where
  listeners := by rw [Realm.watched, hregistry, hcoordinators]; rfl
  distinct := by rw [Realm.watched, hcoordinators]; exact List.nodup_nil
  records id t ht := by rw [hcoordinators] at ht; cases ht

/-- More transformers than before. -/
theorem Sound.mono {r : Realm} (h : Sound e r) (hcount : e.coordinatorCount ≤ e'.coordinatorCount)
    (hkept : ∀ t ≤ e.coordinatorCount, e'.coordinators.find? t = e.coordinators.find? t) : Sound e' r where
  listeners := h.listeners
  distinct := h.distinct
  records id t ht := by
    obtain ⟨hle, hmade⟩ := h.records id t ht
    exact ⟨Nat.le_trans hle hcount, by rw [hkept t hle]; exact hmade⟩

/-- The transformers of a realm as a list. -/
theorem Sound.mem_transformers {r : Realm} (h : Sound e r) (t : Nat) :
    t ∈ (Realm.transformers (some r)).map (·.2) ↔ ∃ id, r.coordinators.find? id = some t := by
  simp only [Realm.transformers, Option.elim_some, List.mem_map, Prod.exists, Table.mem_entries h.distinct,
    exists_eq_right]

theorem Intact.agrees (h : Intact e) (hwired : e'.Wired) (hagrees : e.Agrees e') : Intact e' where
  wired := hwired
  sound key r hr := by
    obtain ⟨hlisteners, hdistinct, hrecords⟩ := h.sound key r (hagrees.realms key ▸ hr)
    refine ⟨hlisteners, hdistinct, ?_⟩
    rw [hagrees.count, hagrees.coordinators]
    exact hrecords
  transformers := by
    rw [hagrees.transformers]
    refine h.transformers.congr fun key id t => ?_
    rw [Holds, Holds, hagrees.realms]
  retired key r hr hgone := by
    rw [hagrees.installed] at hgone
    exact h.retired key r (hagrees.realms key ▸ hr) hgone

/-- An inactive realm is empty. -/
theorem Intact.empty (h : Intact e) {key : Nat} {r : Realm} (hr : e.realm key = some r)
    (hactive : r.active = false) : r.registry = {} ∧ r.coordinators = {} := by
  refine (h.retired key r hr fun space hkey => ?_).2
  obtain ⟨r', hr', hactive', -⟩ := h.wired.current space key hkey
  cases hr.symm.trans hr'
  cases hactive.symm.trans hactive'

/-- A realm that is not empty is installed. -/
theorem Intact.installed (h : Intact e) {key : Nat} {r : Realm} (hr : e.realm key = some r)
    (hlive : r.active = true ∨ r.coordinators ≠ {}) : ∃ space, e.installed.find? space = some key := by
  by_contra hnone
  obtain ⟨hactive, -, hempty⟩ := h.retired key r hr (not_exists.1 hnone)
  rcases hlive with hlive | hlive
  · cases hactive.symm.trans hlive
  · exact hlive hempty

/-- What the realms hold after one of them was changed. -/
theorem holds_withRealm {key : Nat} {r : Realm} (hr : e.realm key = some r) (f : Realm → Realm) (k : Nat)
    (id : Int32) (t : Nat) : (e.withRealm key f).Holds k id t ↔
      if k = key then (f r).coordinators.find? id = some t else e.Holds k id t := by
  rw [Holds, realm_withRealm]
  split
  case isTrue hk =>
    rw [hk, hr, Option.map_some]
    constructor
    · rintro ⟨_, heq, ht⟩
      exact Option.some.inj heq ▸ ht
    · exact fun ht => ⟨_, rfl, ht⟩
  case isFalse => exact Iff.rfl

/-- Nothing that is not installed any more is changed with an installed realm. -/
theorem Intact.retired_withRealm (h : Intact e) {space : String} {key : Nat}
    (hkey : e.installed.find? space = some key) (f : Realm → Realm) (k : Nat) (r : Realm)
    (hr : (e.withRealm key f).realm k = some r) (hgone : ∀ space, e.installed.find? space ≠ some k) :
    r.active = false ∧ r.registry = {} ∧ r.coordinators = {} := by
  obtain ⟨-, hr⟩ | ⟨rfl, -⟩ := realm_of_withRealm hr
  · exact h.retired k r hr hgone
  · exact absurd hkey (hgone space)

/-! ## Requests that fail -/

/-- A listener that had no number before and was refused leaves no trace. -/
theorem spurned_eq {l : Registration} {r : Realm} (h : r.registry.find? l.id = none) :
    Realm.spurned l r = r := by
  rw [Realm.spurned, Registry.register, Table.erase_insert h]

/-- A request that fails changes nothing. -/
theorem Agrees.effect (hwired : e.Wired) (hremove : ∀ id, policy.remove id = none)
    (hfresh : request.isWatch = true → ∀ key r, e.realm key = some r →
      r.coordinators.find? e.nextListener = none)
    (heffect : Effect policy e request reply e') {cause : LifecycleError}
    (hfailed : reply = .failed cause) : e.Agrees e' := by
  cases heffect with
  | absent | closed | unknown => exact .refl e
  | unprepared cause defined hnew => exact ⟨rfl, rfl, fun _ => rfl, rfl, rfl, rfl⟩
  | present | established | watched | dispatched => cases hfailed
  | uninstalled refusal hkey hnever =>
    rw [hnever hremove] at hfailed
    cases hfailed
  | unwatched hr hid =>
    rw [hremove] at hfailed
    cases hfailed
  | @refused key matcher listener kinds r cause hr hactive hadd =>
    refine ⟨rfl, rfl, fun k => ?_, rfl, rfl, rfl⟩
    have hchanged := realm_withRealm (e := e.draw.2) key k
      (Realm.spurned (e.registration r listener kinds))
    rw [hchanged]
    split
    case isTrue hk =>
      have hunregistered : r.registry.find? e.nextListener = none := by
        cases hl : r.registry.find? e.nextListener with
        | none => rfl
        | some l =>
          obtain ⟨t, ht⟩ := hwired.coordinated key r _ l hr hl
          cases (hfresh rfl key r hr).symm.trans ht
      have hspurned : Realm.spurned (e.registration r listener kinds) r = r := spurned_eq hunregistered
      change (e.realm k).map _ = e.realm k
      rw [hk, hr, Option.map_some, hspurned]
    case isFalse => rfl

/-! ## Requests that do what is asked -/

theorem Intact.establish (h : Intact e) (config : EngineConfig)
    (hnew : (e.installed.find? config.space).bind e.realm = none) :
    Intact (establish config e).2 where
  wired := h.wired.establish config
  sound key r hr := by
    rw [realm_establish] at hr
    split at hr
    · obtain rfl := Option.some.inj hr
      exact .empty rfl rfl
    · obtain ⟨hlisteners, hdistinct, hrecords⟩ := h.sound key r hr
      exact ⟨hlisteners, hdistinct, hrecords⟩
  transformers := by
    refine h.transformers.congr fun key id t => ?_
    rw [Holds, Holds, realm_establish]
    split
    case isTrue hkey =>
      rw [hkey, h.wired.realm_next]
      constructor
      · rintro ⟨r, hr, ht⟩
        cases hr
        cases ht
      · rintro ⟨r, hr, -⟩
        cases hr
    case isFalse => exact Iff.rfl
  retired key r hr hgone := by
    have hgone (space : String) :
        (e.installed.insert config.space (e.realmCount + 1)).find? space ≠ some key := hgone space
    simp only [Table.find?_insert] at hgone
    rw [realm_establish] at hr
    split at hr
    case isTrue hkey => exact absurd (by rw [if_pos rfl, hkey]) (hgone config.space)
    case isFalse =>
      refine h.retired key r hr fun space hspace => ?_
      have hother := hgone space
      split at hother
      case isTrue heq =>
        rw [← heq, hspace, Option.bind_some, hr] at hnew
        cases hnew
      case isFalse => exact hother hspace

theorem Intact.uninstall (h : Intact e) (hremove : ∀ id, policy.remove id = none) {space : String}
    {key : Nat} (hkey : e.installed.find? space = some key) :
    Intact (((e.without space).withHost
      (Host.removing policy (Realm.transformers (e.realm key)))).withRealm key Realm.retired) where
  wired := (h.wired.withHost (Host.removing policy (Realm.transformers (e.realm key)))).retire hkey
  sound k r hr := by
    obtain ⟨-, hr⟩ | ⟨-, r₀, hr₀, rfl⟩ := realm_of_withRealm hr
    · obtain ⟨hlisteners, hdistinct, hrecords⟩ := h.sound k r hr
      exact ⟨hlisteners, hdistinct, hrecords⟩
    · exact .empty rfl rfl
  transformers := by
    obtain ⟨r, hr, -⟩ := h.wired.current space key hkey
    change Matched _ (Host.removing policy (Realm.transformers (e.realm key)) e.host).transformers
    rw [Host.transformers_removing hremove]
    refine h.transformers.remove (fun k _ => k = key) (fun k id t => ?_) fun t => ?_
    · refine (holds_withRealm (e := (e.without space).withHost _) hr Realm.retired k id t).trans ?_
      split
      case isTrue hk =>
        refine iff_of_false ?_ fun h => h.2 hk
        rintro ⟨⟩
      case isFalse hk => exact (and_iff_left hk).symm
    · rw [hr, (h.sound key r hr).mem_transformers]
      simp only [← holds_iff hr]
      constructor
      · rintro ⟨id, ht⟩
        exact ⟨key, id, rfl, ht⟩
      · rintro ⟨k, id, rfl, ht⟩
        exact ⟨id, ht⟩
  retired k r hr hgone := by
    obtain ⟨hk, hr⟩ | ⟨-, r₀, -, rfl⟩ := realm_of_withRealm hr
    · refine h.retired k r hr fun s hs => hgone s ?_
      change (e.installed.erase space).find? s = some k
      rw [Table.find?_erase, if_neg, hs]
      rintro rfl
      exact hk (Option.some.inj (hs.symm.trans hkey))
    · exact ⟨rfl, rfl, rfl⟩

/-- One more listener with a transformer of its own. -/
theorem Intact.watch (h : Intact e) {key : Nat} {r : Realm} (hr : e.realm key = some r)
    (hactive : r.active = true) (hfresh : r.coordinators.find? e.nextListener = none)
    (matcher : Matcher) (listener : Listener) (kinds : EventKinds)
    (hwired : ((attach (e.coordinator r matcher kinds) e.draw.2).2.withRealm key
      (Realm.joined (e.registration r listener kinds) (e.coordinatorCount + 1))).Wired) :
    Intact ((attach (e.coordinator r matcher kinds) e.draw.2).2.withRealm key
      (Realm.joined (e.registration r listener kinds) (e.coordinatorCount + 1))) where
  wired := hwired
  sound k r' hr' := by
    have hkept (t : Nat) (ht : t ≤ e.coordinatorCount) :
        (e.coordinators.insert (e.coordinatorCount + 1) (e.coordinator r matcher kinds)).find? t
          = e.coordinators.find? t := by
      rw [Table.find?_insert, if_neg (by omega)]
    obtain ⟨-, hr'⟩ | ⟨rfl, r₀, hr₀, rfl⟩ := realm_of_withRealm hr'
    · exact (h.sound k r' hr').mono (Nat.le_succ _) hkept
    · cases hr.symm.trans hr₀
      have hmono : Sound (attach (e.coordinator r matcher kinds) e.draw.2).2 r :=
        (h.sound k r hr).mono (Nat.le_succ _) hkept
      refine ⟨Table.keys_insert_congr hmono.listeners, Table.nodup_keys_insert hmono.distinct, ?_⟩
      intro id t ht
      change (r.coordinators.insert e.nextListener (e.coordinatorCount + 1)).find? id = some t at ht
      rw [Table.find?_insert] at ht
      split at ht
      case isTrue hid =>
        obtain rfl := Option.some.inj ht
        refine ⟨Nat.le_refl _, e.coordinator r matcher kinds, ?_, hid.symm, rfl⟩
        exact (Table.find?_insert ..).trans (if_pos rfl)
      case isFalse => exact hmono.records id t ht
  transformers := by
    have hchanged := holds_withRealm (e := (attach (e.coordinator r matcher kinds) e.draw.2).2) hr
      (Realm.joined (e.registration r listener kinds) (e.coordinatorCount + 1))
    refine h.transformers.add key e.nextListener (e.coordinatorCount + 1) (fun k id hholds => ?_)
      fun k id t => ?_
    · obtain ⟨r', hr', ht⟩ := hholds
      exact absurd ((h.sound k r' hr').records id _ ht).1 (Nat.not_succ_le_self _)
    · rw [hchanged]
      split
      case isTrue hk =>
        subst hk
        change (r.coordinators.insert e.nextListener (e.coordinatorCount + 1)).find? id = some t ↔ _
        rw [Table.find?_insert, holds_iff hr]
        split
        case isTrue hid =>
          rw [hid, hfresh]
          simp [eq_comm]
        case isFalse hid => simp [hid]
      case isFalse hk =>
        refine ⟨.inr, fun h => h.resolve_left fun hnew => hk hnew.1⟩
  retired k r' hr' hgone := by
    obtain ⟨space, hkey⟩ := h.installed hr (.inl hactive)
    exact h.retired_withRealm hkey _ k r' hr' hgone

theorem Intact.unwatch (h : Intact e) (hremove : ∀ id, policy.remove id = none) {key : Nat} {r : Realm}
    {id : Int32} {t : Nat} (hr : e.realm key = some r) (hid : r.coordinators.find? id = some t)
    (hwired : ((e.withHost (Host.removing policy [(id, t)])).withRealm key (Realm.forgot id)).Wired) :
    Intact ((e.withHost (Host.removing policy [(id, t)])).withRealm key (Realm.forgot id)) where
  wired := hwired
  sound k r' hr' := by
    obtain ⟨-, hr'⟩ | ⟨rfl, r₀, hr₀, rfl⟩ := realm_of_withRealm hr'
    · obtain ⟨hlisteners, hdistinct, hrecords⟩ := h.sound k r' hr'
      exact ⟨hlisteners, hdistinct, hrecords⟩
    · cases hr.symm.trans hr₀
      obtain ⟨hlisteners, hdistinct, hrecords⟩ := h.sound k r hr
      refine ⟨?_, Table.nodup_keys_erase hdistinct, fun id' t' ht' => hrecords id' t' ?_⟩
      · change (r.coordinators.erase id).keys = (r.registry.erase id).keys
        have hlisteners : r.coordinators.keys = r.registry.keys := hlisteners
        rw [Table.keys_erase, Table.keys_erase, hlisteners]
      · change (r.coordinators.erase id).find? id' = some t' at ht'
        rw [Table.find?_erase] at ht'
        split at ht'
        · cases ht'
        · exact ht'
  transformers := by
    change Matched _ (Host.removing policy [(id, t)] e.host).transformers
    rw [Host.transformers_removing hremove]
    refine h.transformers.remove (fun k i => k = key ∧ i = id) (fun k i t' => ?_) fun t' => ?_
    · refine (holds_withRealm (e := e.withHost _) hr (Realm.forgot id) k i t').trans ?_
      split
      case isTrue hk =>
        subst hk
        change (r.coordinators.erase id).find? i = some t' ↔ e.Holds k i t' ∧ _
        rw [Table.find?_erase, holds_iff hr]
        split
        case isTrue hi => simp [hi]
        case isFalse hi => simp [hi]
      case isFalse hk => exact (and_iff_left fun hgone => hk hgone.1).symm
    · rw [List.map_singleton, List.mem_singleton]
      constructor
      · rintro rfl
        exact ⟨key, id, ⟨rfl, rfl⟩, r, hr, hid⟩
      · rintro ⟨_, _, ⟨rfl, rfl⟩, hholds⟩
        exact Option.some.inj (((holds_iff hr _ _).1 hholds).symm.trans hid)
  retired k r' hr' hgone := by
    have hsome : r.coordinators ≠ {} := by
      intro hempty
      rw [hempty] at hid
      cases hid
    obtain ⟨space, hkey⟩ := h.installed hr (.inr hsome)
    exact h.retired_withRealm hkey _ k r' hr' hgone

/-- After one request the tables agree again. -/
theorem Intact.effect (h : Intact e) (hremove : ∀ id, policy.remove id = none)
    (hfresh : request.isWatch = true → ∀ key r, e.realm key = some r →
      r.coordinators.find? e.nextListener = none)
    (heffect : Effect policy e request reply e') : Intact e' := by
  have hwired := h.wired.effect heffect
  have hfailed (cause : LifecycleError) (hcause : reply = .failed cause) : Intact e' :=
    h.agrees hwired (.effect h.wired hremove hfresh heffect hcause)
  cases heffect with
  | present | dispatched => exact h
  | absent | closed | unknown | unprepared | refused => exact hfailed _ rfl
  | established defined hnew =>
    have hdefined : Intact { e.defining defined with spyDefined := true } :=
      h.agrees ⟨h.wired.idle, h.wired.handlers, h.wired.current, h.wired.bounded, h.wired.coordinated⟩
        ⟨rfl, rfl, fun _ => rfl, rfl, rfl, rfl⟩
    exact hdefined.establish _ hnew
  | uninstalled refusal hkey => exact h.uninstall hremove hkey
  | watched hr hactive => exact h.watch hr hactive (hfresh rfl _ _ hr) _ _ _ hwired
  | unwatched hr hid => exact h.unwatch hremove hr hid hwired

/-! ## What lasts -/

/-- A realm keeps its address for ever, and once it is inactive it does not change any more. -/
theorem Intact.lasts (h : Intact e) (heffect : Effect policy e request reply e') {key : Nat} {r : Realm}
    (hr : e.realm key = some r) : ∃ r', e'.realm key = some r' ∧ r'.address = r.address ∧
      (r.active = false → r' = r) := by
  have hchanged (e₀ : Engine) (hrealm : e₀.realm key = some r) (k : Nat) (f : Realm → Realm)
      (haddress : (f r).address = r.address) (hlive : key = k → r.active = true) :
      ∃ r', (e₀.withRealm k f).realm key = some r' ∧ r'.address = r.address ∧
        (r.active = false → r' = r) := by
    by_cases hk : key = k
    · refine ⟨f r, by rw [hk, realm_withRealm_self, ← hk, hrealm]; rfl, haddress, fun hactive => ?_⟩
      cases hactive.symm.trans (hlive hk)
    · exact ⟨r, by rw [realm_withRealm_ne f hk, hrealm], rfl, fun _ => rfl⟩
  cases heffect with
  | present | absent | closed | unknown | dispatched => exact ⟨r, hr, rfl, fun _ => rfl⟩
  | unprepared => exact ⟨r, hr, rfl, fun _ => rfl⟩
  | established defined hnew =>
    refine ⟨r, ?_, rfl, fun _ => rfl⟩
    rw [realm_establish, if_neg, ← hr]
    · rfl
    · exact Nat.ne_of_lt (Nat.lt_succ_of_le (h.wired.bounded key r hr))
  | @uninstalled space k refusal hk =>
    refine hchanged ((e.without space).withHost _) hr k _ rfl ?_
    rintro rfl
    obtain ⟨r', hr', hactive, -⟩ := h.wired.current space key hk
    cases hr.symm.trans hr'
    exact hactive
  | @refused k matcher listener kinds r' cause hr' hactive =>
    refine hchanged e.draw.2 hr k _ rfl ?_
    rintro rfl
    cases hr.symm.trans hr'
    exact hactive
  | @watched k matcher listener kinds r' hr' hactive =>
    refine hchanged (attach (e.coordinator r' matcher kinds) e.draw.2).2 hr k _ rfl ?_
    rintro rfl
    cases hr.symm.trans hr'
    exact hactive
  | @unwatched k id r' t hr' hid =>
    refine hchanged (e.withHost _) hr k _ rfl ?_
    rintro rfl
    cases hr.symm.trans hr'
    cases hactive : r.active with
    | true => rfl
    | false =>
      rw [(h.empty hr hactive).2] at hid
      cases hid

/-- A request to install is answered with the address of the realm that is installed then. -/
theorem Wired.installed_address (h : e.Wired) (heffect : Effect policy e request reply e')
    {address : RealmAddress} (hreply : reply = .installed address) :
    ∃ key r, e'.installed.find? address.space = some key ∧ e'.realm key = some r ∧ r.address = address := by
  cases heffect with
  | @present config key r hkey hr =>
    cases hreply
    obtain ⟨r', hr', -, hspace⟩ := h.current _ key hkey
    cases hr.symm.trans hr'
    exact ⟨key, r, by rw [hspace, hkey], hr, rfl⟩
  | @established config defined hnew =>
    cases hreply
    refine ⟨e.realmCount + 1, _, ?_, (realm_establish ..).trans (if_pos rfl), rfl⟩
    exact (Table.find?_insert ..).trans (if_pos rfl)
  | uninstalled refusal => cases refusal <;> cases hreply
  | @unwatched key id => cases hremove : policy.remove id <;> rw [hremove] at hreply <;> cases hreply
  | _ => cases hreply

end Engine

end Interpose
