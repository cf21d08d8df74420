import Interpose.Proofs.Engine.Wiring
import Mathlib.Algebra.GroupWithZero.Nat
/-!
# The numbers of listeners and realms

Numbers are given out in order and have 32 bits, so they begin again after 2 ^ 32 of them: the `n`-th
listener has the number `listenerNumber n`, and two listeners have one number exactly if their places in
that order differ by a multiple of 2 ^ 32 (`listenerNumber_eq_iff`). As long as there are fewer requests,
no number is given out twice.

* `Numbered.effect`: the numbers that one request gives out.
* `counted_play`: the numbers in use at any time.
* `nodup_given`, `realm_inj`: neither listeners nor realms share numbers.
-/

namespace Interpose

def Request.isWatch : Request → Bool
  | watch .. => true
  | _ => false

def Request.isInstall : Request → Bool
  | install .. => true
  | _ => false

namespace Engine

/-- The number that the listener in a place of the order is given. -/
def listenerNumber (n : Nat) : Int32 :=
  Int32.ofNat (1000 + n)

theorem listenerNumber_succ (n : Nat) : listenerNumber (n + 1) = listenerNumber n + 1 := by
  rw [listenerNumber, listenerNumber, ← Nat.add_assoc, Int32.ofNat_add]
  rfl

/-- Numbers begin again after 2 ^ 32 of them, and not earlier. -/
theorem listenerNumber_eq_iff {m n : Nat} :
    listenerNumber m = listenerNumber n ↔ m % 2 ^ 32 = n % 2 ^ 32 := by
  have hmod : listenerNumber m = listenerNumber n ↔ (1000 + m) % 2 ^ 32 = (1000 + n) % 2 ^ 32 := by
    rw [listenerNumber, listenerNumber, ← Int32.toBitVec_inj, ← BitVec.toNat_inj]
    rfl
  rw [hmod]
  omega

theorem listenerNumber_inj {m n : Nat} (hm : m < 2 ^ 32) (hn : n < 2 ^ 32)
    (h : listenerNumber m = listenerNumber n) : m = n := by
  rwa [listenerNumber_eq_iff, Nat.mod_eq_of_lt hm, Nat.mod_eq_of_lt hn] at h

theorem realmNumber_inj {m n : Nat} (hm : 0 < m ∧ m ≤ 2 ^ 32) (hn : 0 < n ∧ n ≤ 2 ^ 32)
    (h : UInt32.ofNat m = UInt32.ofNat n) : m = n := by
  rw [← UInt32.toNat_inj, UInt32.toNat_ofNat', UInt32.toNat_ofNat'] at h
  omega

variable {policy : HostPolicy} {e e' : Engine} {request : Request} {reply : Reply}
  {calls : List Call} {n : Nat}

/-- So many listeners have been given numbers; those that realms hold are among them, and the numbers of
realms are those of the order. -/
structure Numbered (n : Nat) (e : Engine) : Prop where
  next : e.nextListener = listenerNumber n
  held : ∀ key r id t, e.realm key = some r → r.coordinators.find? id = some t →
    ∃ m < n, id = listenerNumber m
  realms : ∀ key r, e.realm key = some r → 0 < key ∧ r.address.number = UInt32.ofNat key
  last : e.lastRealm = UInt32.ofNat e.realmCount

/-- The next number is a new one as long as fewer than 2 ^ 32 have been given out. -/
theorem Numbered.fresh (h : Numbered n e) (hn : n < 2 ^ 32) {m : Nat} (hm : m < n) :
    listenerNumber m ≠ e.nextListener := by
  intro heq
  rw [h.next] at heq
  exact Nat.ne_of_lt hm (listenerNumber_inj (Nat.lt_trans hm hn) hn heq)

/-- A realm is called what one was called before, and holds nothing more than that. -/
def Inherits (e e' : Engine) : Prop :=
  ∀ key r', e'.realm key = some r' → ∃ r, e.realm key = some r ∧ r'.address = r.address ∧
    ∀ id t, r'.coordinators.find? id = some t → r.coordinators.find? id = some t

theorem Inherits.refl (e : Engine) : e.Inherits e :=
  fun _ r hr => ⟨r, hr, rfl, fun _ _ h => h⟩

theorem Inherits.withRealm {key : Nat} {f : Realm → Realm} (haddress : ∀ r, (f r).address = r.address)
    (hheld : ∀ r id t, (f r).coordinators.find? id = some t → r.coordinators.find? id = some t) :
    e.Inherits (e.withRealm key f) := by
  intro k r' hr'
  obtain ⟨-, hr⟩ | ⟨-, r, hr, rfl⟩ := realm_of_withRealm hr'
  · exact ⟨r', hr, rfl, fun _ _ h => h⟩
  · exact ⟨r, hr, haddress r, hheld r⟩

theorem numbered_new : Numbered 0 {} where
  next := rfl
  held _ _ _ _ h := nomatch h
  realms _ _ h := nomatch h
  last := rfl

theorem Numbered.inherit (h : Numbered n e) (hinherits : e.Inherits e') {m : Nat} (hnm : n ≤ m)
    (hnext : e'.nextListener = listenerNumber m) (hlast : e'.lastRealm = e.lastRealm)
    (hcount : e'.realmCount = e.realmCount) : Numbered m e' where
  next := hnext
  held key r' id t hr' ht := by
    obtain ⟨r, hr, -, hheld⟩ := hinherits key r' hr'
    obtain ⟨k, hk, hid⟩ := h.held key r id t hr (hheld id t ht)
    exact ⟨k, Nat.lt_of_lt_of_le hk hnm, hid⟩
  realms key r' hr' := by
    obtain ⟨r, hr, haddress, -⟩ := hinherits key r' hr'
    rw [haddress]
    exact h.realms key r hr
  last := by rw [hlast, hcount, h.last]

theorem Numbered.establish (h : Numbered n e) (config : EngineConfig) :
    Numbered n (establish config e).2 where
  next := h.next
  held key r id t hr ht := by
    rw [realm_establish] at hr
    split at hr
    case isTrue =>
      obtain rfl := Option.some.inj hr
      cases ht
    case isFalse => exact h.held key r id t hr ht
  realms key r hr := by
    rw [realm_establish] at hr
    split at hr
    case isTrue hkey =>
      obtain rfl := Option.some.inj hr
      refine ⟨by omega, ?_⟩
      change e.lastRealm + 1 = _
      rw [hkey, h.last, UInt32.ofNat_add]
      rfl
    case isFalse => exact h.realms key r hr
  last := by
    change e.lastRealm + 1 = UInt32.ofNat (e.realmCount + 1)
    rw [h.last, UInt32.ofNat_add]
    rfl

/-- The next number is given to a listener, or used up. -/
theorem Numbered.draw (h : Numbered n e) : e.draw.2.nextListener = listenerNumber (n + 1) := by
  rw [listenerNumber_succ, ← h.next]
  rfl

theorem Numbered.joined (h : Numbered n e) {key : Nat} {l : Registration} (c : Coordinator) (t : Nat)
    (hid : l.id = e.nextListener) :
    Numbered (n + 1) ((attach c e.draw.2).2.withRealm key (Realm.joined l t)) where
  next := h.draw
  held k r id t' hr ht := by
    have hold (r : Realm) (hr : e.realm k = some r) (ht : r.coordinators.find? id = some t') :
        ∃ m < n + 1, id = listenerNumber m := by
      obtain ⟨m, hm, hid⟩ := h.held k r id t' hr ht
      exact ⟨m, Nat.lt_succ_of_lt hm, hid⟩
    obtain ⟨-, hr⟩ | ⟨-, r₀, hr₀, rfl⟩ := realm_of_withRealm hr
    · exact hold r hr ht
    · change (r₀.coordinators.insert l.id t).find? id = some t' at ht
      rw [Table.find?_insert] at ht
      split at ht
      case isTrue hnew => exact ⟨n, Nat.lt_succ_self n, by rw [hnew, hid, h.next]⟩
      case isFalse => exact hold r₀ hr₀ ht
  realms k r hr := by
    obtain ⟨-, hr⟩ | ⟨-, r₀, hr₀, rfl⟩ := realm_of_withRealm hr
    · exact h.realms k r hr
    · exact h.realms k r₀ hr₀
  last := h.last

/-- The numbers given out by one request: at most one, to a listener that watches. -/
theorem Numbered.effect (h : Numbered n e) (heffect : Effect policy e request reply e') :
    ∃ m, Numbered m e' ∧ n ≤ m ∧ m ≤ n + request.isWatch.toNat ∧
      ∀ id, reply = .watching id → id = listenerNumber n ∧ m = n + 1 := by
  cases heffect with
  | present | absent | closed | unknown | dispatched =>
    exact ⟨n, h, Nat.le_refl n, Nat.le_add_right .., nofun⟩
  | unprepared cause defined =>
    have hinherits : e.Inherits (e.defining defined) := .refl e
    exact ⟨n, h.inherit hinherits (Nat.le_refl n) h.next rfl rfl, Nat.le_refl n, Nat.le_refl n, nofun⟩
  | established defined hnew =>
    have hinherits : e.Inherits { e.defining defined with spyDefined := true } := .refl e
    have hdefined := h.inherit hinherits (Nat.le_refl n) h.next rfl rfl
    exact ⟨n, hdefined.establish _, Nat.le_refl n, Nat.le_refl n, nofun⟩
  | @uninstalled space key refusal hkey =>
    have hinherits (f : Host → Host) :
        e.Inherits (((e.without space).withHost f).withRealm key Realm.retired) :=
      .withRealm (e := (e.without space).withHost f) (fun _ => rfl) nofun
    refine ⟨n, h.inherit (hinherits _) (Nat.le_refl n) h.next rfl rfl, Nat.le_refl n, Nat.le_refl n, ?_⟩
    cases refusal <;> exact nofun
  | @refused key matcher listener kinds r cause hr hactive hadd =>
    have hinherits : e.Inherits (e.draw.2.withRealm key
        (Realm.spurned (e.registration r listener kinds))) :=
      .withRealm (e := e.draw.2) (fun _ => rfl) fun _ _ _ h => h
    exact ⟨n + 1, h.inherit hinherits (Nat.le_succ n) h.draw rfl rfl, Nat.le_succ n, Nat.le_refl _, nofun⟩
  | watched hr hactive hadd =>
    refine ⟨n + 1, h.joined _ _ rfl, Nat.le_succ n, Nat.le_refl _, fun id hid => ⟨?_, rfl⟩⟩
    cases hid
    exact h.next
  | @unwatched key id r transformer hr hid =>
    have hinherits (f : Host → Host) : e.Inherits ((e.withHost f).withRealm key (Realm.forgot id)) := by
      refine .withRealm (e := e.withHost f) (fun _ => rfl) fun r id' t ht => ?_
      change (r.coordinators.erase id).find? id' = some t at ht
      rw [Table.find?_erase] at ht
      split at ht
      · cases ht
      · exact ht
    refine ⟨n, h.inherit (hinherits _) (Nat.le_refl n) h.next rfl rfl, Nat.le_refl n, Nat.le_refl n, ?_⟩
    cases policy.remove id <;> exact nofun

/-- A realm is made only when a namespace is installed. -/
theorem realmCount_effect (heffect : Effect policy e request reply e') :
    e'.realmCount ≤ e.realmCount + request.isInstall.toNat := by
  cases heffect with
  | established defined hnew => exact Nat.le_refl _
  | _ => exact Nat.le_add_right ..

/-- The numbers in use, and those given out, are the first ones of the order. -/
structure Counted (calls : List Call) (e : Engine) (n : Nat) : Prop where
  numbered : Numbered n e
  given : ∀ c ∈ calls, ∀ id, c.reply = .watching id → ∃ m < n, id = listenerNumber m
  watches : n ≤ calls.countP (·.request.isWatch)
  realms : e.realmCount ≤ calls.countP (·.request.isInstall)

theorem countP_concat (p : Call → Bool) (calls : List Call) (c : Call) :
    (calls ++ [c]).countP p = calls.countP p + (p c).toNat := by
  rw [List.countP_append, List.countP_singleton]
  cases p c <;> rfl

theorem Counted.call (h : Counted calls e n) (x : HostPolicy × Request) :
    ∃ m, Counted (calls ++ [e.call x]) (e.call x).after m := by
  obtain ⟨m, hm, hnm, hmn, hgiven⟩ := h.numbered.effect (call_effect e x)
  have hrealms := realmCount_effect (call_effect e x)
  refine ⟨m, hm, fun c hc id hid => ?_, ?_, ?_⟩
  · rcases List.mem_append.1 hc with hc | hc
    · obtain ⟨k, hk, hid⟩ := h.given c hc id hid
      exact ⟨k, Nat.lt_of_lt_of_le hk hnm, hid⟩
    · obtain rfl := List.mem_singleton.1 hc
      obtain ⟨hid, rfl⟩ := hgiven id hid
      exact ⟨n, Nat.lt_succ_self n, hid⟩
  · rw [countP_concat]
    exact Nat.le_trans hmn (Nat.add_le_add_right h.watches _)
  · rw [countP_concat]
    exact Nat.le_trans hrealms (Nat.add_le_add_right h.realms _)

theorem counted_new : Counted [] {} 0 where
  numbered := numbered_new
  given := by simp
  watches := Nat.le_refl 0
  realms := Nat.le_refl 0

theorem counted_play (requests : List (HostPolicy × Request)) :
    ∃ n, Counted (play requests).1 (play requests).2 n := by
  refine play_induction (P := fun calls e => ∃ n, Counted calls e n) ⟨0, counted_new⟩ ?_ requests
  intro calls e x ⟨n, h⟩
  exact h.call x

theorem Counted.lt (h : Counted calls e n) {c : Call}
    (hfew : (calls ++ [c]).countP (·.request.isWatch) ≤ 2 ^ 32) (hc : c.request.isWatch = true) :
    n < 2 ^ 32 := by
  rw [countP_concat, hc, Bool.toNat_true] at hfew
  exact Nat.lt_of_le_of_lt h.watches hfew

def Call.given? (c : Call) : Option Int32 :=
  match c.reply with
  | .watching id => some id
  | _ => none

theorem Call.given?_eq_some {c : Call} {id : Int32} : c.given? = some id ↔ c.reply = .watching id := by
  unfold given?
  cases c.reply <;> simp

/-- No number is given to two listeners. -/
theorem nodup_given (requests : List (HostPolicy × Request))
    (hfew : requests.countP (·.2.isWatch) ≤ 2 ^ 32) :
    ((play requests).1.filterMap Call.given?).Nodup := by
  induction requests using List.reverseRecOn with
  | nil => exact List.nodup_nil
  | append_singleton requests x ih =>
    obtain ⟨n, hcounted⟩ := counted_play requests
    have hbefore := ih (Nat.le_trans (List.sublist_append_left requests [x]).countP_le hfew)
    rw [play_concat, List.filterMap_append]
    cases hid : ((play requests).2.call x).given? with
    | none => simpa [List.filterMap_cons, hid] using hbefore
    | some id =>
      have hreply := Call.given?_eq_some.1 hid
      obtain ⟨m, -, -, hm, hgiven⟩ := hcounted.numbered.effect (call_effect _ x)
      obtain ⟨rfl, rfl⟩ := hgiven id hreply
      rw [← countP_play, play_concat] at hfew
      have hn : n < 2 ^ 32 := by
        refine hcounted.lt hfew ?_
        change x.2.isWatch = true
        cases hwatch : x.2.isWatch with
        | true => rfl
        | false => rw [hwatch, Bool.toNat_false] at hm; omega
      have hnew : ∀ id ∈ (play requests).1.filterMap Call.given?, id ≠ listenerNumber n := by
        intro id hmem
        obtain ⟨c, hc, hid⟩ := List.mem_filterMap.1 hmem
        obtain ⟨m, hmn, rfl⟩ := hcounted.given c hc id (Call.given?_eq_some.1 hid)
        rw [← hcounted.numbered.next]
        exact hcounted.numbered.fresh hn hmn
      simp only [List.filterMap_cons, hid, List.filterMap_nil]
      exact List.nodup_append.2 ⟨hbefore, List.nodup_singleton _, by simpa using hnew⟩

/-- No two realms have one number. -/
theorem realm_inj (requests : List (HostPolicy × Request))
    (hfew : requests.countP (·.2.isInstall) ≤ 2 ^ 32) {key key' : Nat} {r r' : Realm}
    (hr : (play requests).2.realm key = some r) (hr' : (play requests).2.realm key' = some r')
    (hnumber : r.address.number = r'.address.number) : key = key' := by
  obtain ⟨n, hcounted⟩ := counted_play requests
  have hle {k : Nat} {r : Realm} (hr : (play requests).2.realm k = some r) : k ≤ 2 ^ 32 := by
    have hcount := hcounted.realms
    rw [countP_play] at hcount
    exact Nat.le_trans ((wired_play requests).bounded k r hr) (Nat.le_trans hcount hfew)
  obtain ⟨hpos, hkey⟩ := hcounted.numbered.realms key r hr
  obtain ⟨hpos', hkey'⟩ := hcounted.numbered.realms key' r' hr'
  rw [hkey, hkey'] at hnumber
  exact realmNumber_inj ⟨hpos, hle hr⟩ ⟨hpos', hle hr'⟩ hnumber

end Engine

end Interpose
