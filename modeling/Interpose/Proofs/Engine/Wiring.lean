import Interpose.Proofs.Engine.Requests
/-!
# How the tables of an engine hang together

The namespaces, the bridge and the realms are changed one after the other by each request. Between
requests they agree: an installed namespace is answered for by its own realm, which is active, and every
listener of a realm has a transformer. All of this holds at any time, whatever the host refuses.

* `Wired.effect`: one request.
* `wired_play`: any number of requests.
-/

namespace Interpose

namespace Engine

variable {policy : HostPolicy} {e e' : Engine} {request : Request} {reply : Reply}

/-! ## Realms after a change -/

theorem realm_withRealm (key k : Nat) (f : Realm → Realm) :
    (e.withRealm key f).realm k = if k = key then (e.realm k).map f else e.realm k :=
  Table.find?_modify ..

theorem realm_withRealm_self (key : Nat) (f : Realm → Realm) :
    (e.withRealm key f).realm key = (e.realm key).map f :=
  Table.find?_modify_self ..

theorem realm_withRealm_ne {key k : Nat} (f : Realm → Realm) (h : k ≠ key) :
    (e.withRealm key f).realm k = e.realm k :=
  Table.find?_modify_ne _ f h

/-- A realm after another one was changed, or it was changed itself. -/
theorem realm_of_withRealm {key k : Nat} {f : Realm → Realm} {r : Realm}
    (h : (e.withRealm key f).realm k = some r) :
    (k ≠ key ∧ e.realm k = some r) ∨ (k = key ∧ ∃ r₀, e.realm k = some r₀ ∧ r = f r₀) := by
  rw [realm_withRealm] at h
  split at h
  case isTrue heq =>
    obtain ⟨r₀, hr₀, rfl⟩ := Option.map_eq_some_iff.1 h
    exact .inr ⟨heq, r₀, hr₀, rfl⟩
  case isFalse hne => exact .inl ⟨hne, h⟩

theorem realm_establish (config : EngineConfig) (k : Nat) : (establish config e).2.realm k =
    if k = e.realmCount + 1 then some { address := ⟨config.space, e.lastRealm + 1⟩, config }
    else e.realm k :=
  Table.find?_insert ..

/-! ## The invariant -/

/-- The tables of the engine agree. -/
structure Wired (e : Engine) : Prop where
  idle : e.thread.dispatching = false
  handlers : ∀ space, e.bridge.find? space = e.installed.find? space
  current : ∀ space key, e.installed.find? space = some key →
    ∃ r, e.realm key = some r ∧ r.active = true ∧ r.address.space = space
  bounded : ∀ key r, e.realm key = some r → key ≤ e.realmCount
  coordinated : ∀ key r id l, e.realm key = some r → r.registry.find? id = some l →
    ∃ t, r.coordinators.find? id = some t

theorem wired_new : Wired {} where
  idle := rfl
  handlers _ := rfl
  current _ _ h := nomatch h
  bounded _ _ h := nomatch h
  coordinated _ _ _ _ h := nomatch h

/-- Namespaces do not share realms. -/
theorem Wired.space_eq (h : e.Wired) {space space' : String} {key : Nat}
    (hkey : e.installed.find? space = some key) (hkey' : e.installed.find? space' = some key) :
    space = space' := by
  obtain ⟨r, hr, -, hspace⟩ := h.current space key hkey
  obtain ⟨r', hr', -, hspace'⟩ := h.current space' key hkey'
  cases hr.symm.trans hr'
  exact hspace.symm.trans hspace'

/-- The next key is of no realm yet. -/
theorem Wired.realm_next (h : e.Wired) : e.realm (e.realmCount + 1) = none := by
  cases hr : e.realm (e.realmCount + 1) with
  | none => rfl
  | some r => exact absurd (h.bounded _ r hr) (Nat.not_succ_le_self _)

/-- A change of one realm that leaves its address and whether it is active. -/
theorem Wired.withRealm (h : e.Wired) {key : Nat} {f : Realm → Realm}
    (haddress : ∀ r, (f r).address = r.address) (hactive : ∀ r, (f r).active = r.active)
    (hcoordinated : ∀ r, e.realm key = some r → ∀ id l, (f r).registry.find? id = some l →
      ∃ t, (f r).coordinators.find? id = some t) : (e.withRealm key f).Wired where
  idle := h.idle
  handlers := h.handlers
  current space k hk := by
    obtain ⟨r, hr, hra, hspace⟩ := h.current space k hk
    by_cases hkey : k = key
    · subst hkey
      exact ⟨f r, by rw [realm_withRealm_self, hr]; rfl, by rw [hactive, hra], by rw [haddress, hspace]⟩
    · exact ⟨r, by rw [realm_withRealm_ne f hkey, hr], hra, hspace⟩
  bounded k r hr := by
    obtain ⟨-, hr⟩ | ⟨-, r₀, hr₀, -⟩ := realm_of_withRealm hr
    · exact h.bounded k r hr
    · exact h.bounded k r₀ hr₀
  coordinated k r id l hr hl := by
    obtain ⟨-, hr⟩ | ⟨rfl, r₀, hr₀, rfl⟩ := realm_of_withRealm hr
    · exact h.coordinated k r id l hr hl
    · exact hcoordinated r₀ hr₀ id l hl

theorem Wired.establish (h : e.Wired) (config : EngineConfig) : (establish config e).2.Wired where
  idle := h.idle
  handlers space := by
    change (e.bridge.insert _ _).find? space = (e.installed.insert _ _).find? space
    rw [Table.find?_insert, Table.find?_insert, h.handlers]
  current space key hkey := by
    change (e.installed.insert _ _).find? space = some key at hkey
    rw [Table.find?_insert] at hkey
    rw [realm_establish]
    split at hkey
    case isTrue hspace =>
      obtain rfl := Option.some.inj hkey
      exact ⟨_, if_pos rfl, rfl, hspace.symm⟩
    case isFalse =>
      obtain ⟨r, hr, hactive, hspace⟩ := h.current space key hkey
      have hle := h.bounded key r hr
      exact ⟨r, by rw [if_neg (by omega), hr], hactive, hspace⟩
  bounded key r hr := by
    change key ≤ e.realmCount + 1
    rw [realm_establish] at hr
    split at hr
    case isTrue hkey => exact Nat.le_of_eq hkey
    case isFalse => exact Nat.le_succ_of_le (h.bounded key r hr)
  coordinated key r id l hr hl := by
    rw [realm_establish] at hr
    split at hr
    case isTrue =>
      obtain rfl := Option.some.inj hr
      cases hl
    case isFalse => exact h.coordinated key r id l hr hl

theorem Wired.withHost (h : e.Wired) (f : Host → Host) : (e.withHost f).Wired :=
  ⟨h.idle, h.handlers, h.current, h.bounded, h.coordinated⟩

theorem Wired.retire (h : e.Wired) {space : String} {key : Nat}
    (hkey : e.installed.find? space = some key) :
    ((e.without space).withRealm key Realm.retired).Wired where
  idle := h.idle
  handlers s := by
    change (e.bridge.erase space).find? s = (e.installed.erase space).find? s
    rw [Table.find?_erase, Table.find?_erase, h.handlers]
  current s k hk := by
    change (e.installed.erase space).find? s = some k at hk
    rw [Table.find?_erase] at hk
    split at hk
    case isTrue => cases hk
    case isFalse hne =>
      have hother : k ≠ key := fun heq => hne (h.space_eq hk (heq ▸ hkey))
      rw [realm_withRealm_ne _ hother]
      exact h.current s k hk
  bounded k r hr := by
    obtain ⟨-, hr⟩ | ⟨-, r₀, hr₀, -⟩ := realm_of_withRealm hr
    · exact h.bounded k r hr
    · exact h.bounded k r₀ hr₀
  coordinated k r id l hr hl := by
    obtain ⟨-, hr⟩ | ⟨-, r₀, -, rfl⟩ := realm_of_withRealm hr
    · exact h.coordinated k r id l hr hl
    · cases hl

/-- The listeners of a realm after one of them was registered. -/
theorem find?_register (registry : Registry) (l : Registration) (id : Int32) :
    (registry.register l).find? id = if id = l.id then some l else registry.find? id :=
  Table.find?_insert ..

/-- A listener that was refused leaves no trace but that of an earlier one with its number. -/
theorem find?_spurned (l : Registration) (r : Realm) (id : Int32) :
    (Realm.spurned l r).registry.find? id = if id = l.id then none else r.registry.find? id := by
  have herased : (Realm.spurned l r).registry.find? id
      = if id = l.id then none else (r.registry.register l).find? id := Table.find?_erase ..
  rw [herased, find?_register]
  split <;> rfl

theorem Wired.effect (h : e.Wired) (heffect : Effect policy e request reply e') : e'.Wired := by
  cases heffect with
  | present | absent | closed | unknown | dispatched => exact h
  | unprepared cause defined => exact h.withHost _
  | established defined =>
    have hdefined : ({ e.defining defined with spyDefined := true } : Engine).Wired :=
      ⟨h.idle, h.handlers, h.current, h.bounded, h.coordinated⟩
    exact hdefined.establish _
  | @uninstalled space key refusal hkey =>
    exact (h.withHost (Host.removing policy (Realm.transformers (e.realm key)))).retire hkey
  | refused hr hactive hadd =>
    have hdrawn : e.draw.2.Wired := ⟨h.idle, h.handlers, h.current, h.bounded, h.coordinated⟩
    refine hdrawn.withRealm (fun _ => rfl) (fun _ => rfl) fun r hr id l hl => ?_
    rw [find?_spurned] at hl
    split at hl
    · cases hl
    · exact h.coordinated _ r id l hr hl
  | watched hr hactive hadd =>
    have hattached (c : Coordinator) : (attach c e.draw.2).2.Wired :=
      ⟨h.idle, h.handlers, h.current, h.bounded, h.coordinated⟩
    refine (hattached _).withRealm (fun _ => rfl) (fun _ => rfl) fun r hr id l hl => ?_
    change (r.registry.register _).find? id = some l at hl
    change ∃ t, (r.coordinators.insert _ _).find? id = some t
    rw [find?_register] at hl
    rw [Table.find?_insert]
    split at hl
    case isTrue hid => exact ⟨_, if_pos hid⟩
    case isFalse hid =>
      rw [if_neg hid]
      exact h.coordinated _ r id l hr hl
  | unwatched hr hid =>
    refine (h.withHost _).withRealm (fun _ => rfl) (fun _ => rfl) fun r hr id l hl => ?_
    change (r.registry.erase _).find? id = some l at hl
    change ∃ t, (r.coordinators.erase _).find? id = some t
    rw [Table.find?_erase] at hl ⊢
    split at hl
    case isTrue => cases hl
    case isFalse hid =>
      rw [if_neg hid]
      exact h.coordinated _ r id l hr hl

theorem wired_play (requests : List (HostPolicy × Request)) : (play requests).2.Wired :=
  play_induction (P := fun _ e => e.Wired) wired_new
    (fun _ e x h => h.effect (call_effect e x)) requests

end Engine

end Interpose
