import Interpose.Proofs.ClassFile.ReadFits
/-!
# Additions one after the other

A pool is used over a long time: it is new or read from a class file, and constants are added to it one
after the other, some of them without success. Whatever the order, a slot keeps its constant, what an
addition has answered can be read at that slot from then on, and the same addition answers the same
slot again without adding anything.

* `Lasting`: computations that only add, and that repeat their answer in every later pool.
* `Addition.lasting`, `Addition.readsBack`: what one addition does.
* `addAll_settles`: any number of additions.

The lookup of a pool may be missing or not in all of this. It is built by the first addition, also by
one that fails, and the texts it finds are those that a search of the slots finds.
-/

namespace Interpose

theorem lowestSlot_eq_some {slots : Array (Option Constant)} {c : Constant} {n : Nat} :
    lowestSlot slots c = some n ↔
      slots[n]? = some (some c) ∧ ∀ m < n, slots[m]? ≠ some (some c) := by
  rw [lowestSlot, Array.findIdx?_eq_some_iff_getElem]
  constructor
  · rintro ⟨hn, hc, hbefore⟩
    refine ⟨by simpa [hn] using hc, fun m hm => ?_⟩
    have hlt : m < slots.size := by omega
    simpa [hlt] using hbefore m hm
  · rintro ⟨hc, hbefore⟩
    obtain ⟨hn, hslot⟩ := Array.getElem?_eq_some_iff.1 hc
    refine ⟨hn, by simp [hslot], fun m hm => ?_⟩
    have hlt : m < slots.size := by omega
    simpa [hlt] using hbefore m hm

namespace Pool

variable {p q r : Pool} {α β : Type}

/-! ## Answers that last -/

/-- In every pool that begins with the slots of `q`, the computation answers `a` and adds nothing. -/
def Answers (q : Pool) (m : Interning α) (a : α) : Prop :=
  ∀ r : Pool, q.slots.toList <+: r.slots.toList → m.run.run r = (.ok a, r.indexed)

theorem Answers.mono {m : Interning α} {a : α} (h : q.Answers m a)
    (hqr : q.slots.toList <+: r.slots.toList) : r.Answers m a :=
  fun t ht => h t (hqr.trans ht)

theorem indexed_indexed (p : Pool) : p.indexed.indexed = p.indexed := rfl

theorem Answers.bind {m : Interning α} {f : α → Interning β} {a : α} {b : β} (h : q.Answers m a)
    (hf : q.Answers (f a) b) : q.Answers (m >>= f) b := by
  intro r hr
  rw [run_bind, h r hr]
  exact (hf r.indexed hr).trans (by rw [indexed_indexed])

/-- The computation only adds constants, also when it fails; and once it has answered, it gives the same
answer again and adds nothing, however the pool has grown. -/
structure Lasting (m : Interning α) : Prop where
  grows : ∀ p : Pool, p.Sound → p.Grows (m.run.run p).2
  again : ∀ {p q a}, p.Sound → m.run.run p = (.ok a, q) → q.Answers m a

theorem Lasting.bind {m : Interning α} {f : α → Interning β} (hm : Lasting m)
    (hf : ∀ a, Lasting (f a)) : Lasting (m >>= f) where
  grows p hp := by
    have hgrows := hm.grows p hp
    rw [run_bind]
    generalize m.run.run p = ran at hgrows
    obtain ⟨a | e, q⟩ := ran
    · exact hgrows
    · exact hgrows.trans ((hf _).grows q hgrows.sound)
  again {p r b} hp h := by
    obtain ⟨a, q, ha, hb⟩ := run_bind_eq_ok.1 h
    have hq : p.Grows q := by simpa [ha] using hm.grows p hp
    have hr : q.Grows r := by simpa [hb] using (hf a).grows q hq.sound
    -- the first part repeats its answer already in the pool it leaves
    exact ((hm.again hp ha).mono hr.isPrefix).bind ((hf a).again hq.sound hb)

/-- A constant that the pool holds is answered with its lowest slot. -/
theorem intern_answers {c : Constant} {n : Nat} (hc : c.isShared)
    (h : lowestSlot q.slots c = some n) : q.Answers (intern c) (UInt16.ofNat n) := by
  intro r hr
  have hfound : r.indexed.position? c = some n := by
    rw [position_eq _ hc, indexed_slots]
    exact lowestSlot_of_isPrefix hr h
  change intern c r = _
  simp only [intern, hfound]

theorem lowestSlot_appendConstant {c : Constant} (h : lowestSlot p.slots c = none) :
    lowestSlot (p.appendConstant c).slots c = some p.count := by
  have hpush : lowestSlot (p.slots.push (some c)) c = some p.count := by
    simp [lowestSlot_push, h, count]
  unfold appendConstant
  split
  · rw [append_slots, append_slots, lowestSlot_push, hpush, Option.some_or]
  · rw [append_slots, hpush]

theorem intern_lasting {c : Constant} (hc : c.isShared) : Lasting (intern c) where
  grows p hp := by
    have hindexed := hp.indexed
    change p.Grows (intern c p).2
    simp only [intern]
    split
    · exact hindexed
    · split
      · exact hindexed
      · exact hindexed.trans (hindexed.sound.appendConstant c (by omega))
  again {p q i} hp h := by
    change intern c p = _ at h
    simp only [intern, position_eq _ hc] at h
    split at h
    case h_1 n hslot =>
      obtain ⟨hi, rfl⟩ := Prod.mk.inj h
      obtain rfl := Except.ok.inj hi
      exact intern_answers hc hslot
    case h_2 hslot =>
      split at h
      · cases h
      · obtain ⟨hi, rfl⟩ := Prod.mk.inj h
        obtain rfl := Except.ok.inj hi
        exact intern_answers hc (lowestSlot_appendConstant hslot)

theorem addUtf8_lasting (text : String) : Lasting (addUtf8 text) := by
  unfold addUtf8
  dsimp only
  split
  · exact ⟨fun p hp => .refl hp, fun _ h => nomatch congrArg Prod.fst h⟩
  · exact intern_lasting rfl

theorem addClass_lasting (name : String) : Lasting (addClass name) :=
  (addUtf8_lasting name).bind fun _ => intern_lasting rfl

theorem addNameAndType_lasting (name descriptor : String) :
    Lasting (addNameAndType name descriptor) :=
  (addUtf8_lasting name).bind fun _ => (addUtf8_lasting descriptor).bind fun _ => intern_lasting rfl

theorem MemberKind.constant_isShared (kind : MemberKind) (owner nat : UInt16) :
    (kind.constant owner nat).isShared := by
  cases kind <;> rfl

theorem addMember_lasting (kind : MemberKind) (owner name descriptor : String) :
    Lasting (addMember kind owner name descriptor) :=
  (addClass_lasting owner).bind fun i => (addNameAndType_lasting name descriptor).bind fun j =>
    intern_lasting (MemberKind.constant_isShared kind i j)

/-! ## One addition -/

inductive Addition where
  | utf8 (text : String)
  | classRef (name : String)
  | stringRef (text : String)
  | integer (value : Int32)
  | nameAndType (name descriptor : String)
  | member (kind : MemberKind) (member : MemberRef)

def Addition.perform : Addition → Interning UInt16
  | utf8 text => addUtf8 text
  | classRef name => addClass name
  | stringRef text => addString text
  | integer value => addInteger value
  | nameAndType name descriptor => addNameAndType name descriptor
  | member .field m => addFieldRef m.owner m.name m.descriptor
  | member .method m => addMethodRef m.owner m.name m.descriptor
  | member .interfaceMethod m => addInterfaceMethodRef m.owner m.name m.descriptor

/-- What was added can be read at a slot. -/
def Addition.ReadsBack (p : Pool) (i : UInt16) : Addition → Prop
  | utf8 text => p.getUtf8 i = .ok text
  | classRef name => p.className i = .ok name
  | stringRef text => ∃ t, p.get i = .ok (.stringRef t) ∧ p.getUtf8 t = .ok text
  | integer value => p.get i = .ok (.integer value)
  | nameAndType name descriptor => p.nameAndType i = .ok (name, descriptor)
  | member kind m =>
    (∃ owner nat, p.get i = .ok (kind.constant owner nat)) ∧ p.memberRef i = .ok m

theorem Addition.lasting (a : Addition) : Lasting a.perform := by
  cases a with
  | utf8 text => exact addUtf8_lasting text
  | classRef name => exact addClass_lasting name
  | stringRef text => exact (addUtf8_lasting text).bind fun _ => intern_lasting rfl
  | integer value => exact intern_lasting rfl
  | nameAndType name descriptor => exact addNameAndType_lasting name descriptor
  | member kind m => cases kind <;> exact addMember_lasting _ m.owner m.name m.descriptor

theorem Addition.readsBack (hp : p.Sound) (a : Addition) :
    Ends p a.perform (fun i q => p.Grows q ∧ a.ReadsBack q i) FormatError.IsSize := by
  cases a with
  | utf8 text => exact addUtf8_ends hp text
  | classRef name => exact addClass_ends hp name
  | stringRef text => exact addString_ends hp text
  | integer value => exact addInteger_ends hp value
  | nameAndType name descriptor => exact addNameAndType_ends hp name descriptor
  | member kind m => cases kind <;> exact addMember_ends hp _ m.owner m.name m.descriptor

theorem Addition.ReadsBack.within {a : Addition} {i : UInt16} (h : a.ReadsBack p i)
    (hpq : p.Within q) : a.ReadsBack q i := by
  cases a with
  | utf8 text => exact hpq.getUtf8 h
  | classRef name => exact hpq.className h
  | stringRef text =>
    obtain ⟨t, hget, htext⟩ := h
    exact ⟨t, hpq _ _ hget, hpq.getUtf8 htext⟩
  | integer value => exact hpq _ _ h
  | nameAndType name descriptor => exact hpq.nameAndType h
  | member kind m =>
    obtain ⟨⟨owner, nat, hget⟩, hmember⟩ := h
    exact ⟨⟨owner, nat, hpq _ _ hget⟩, hpq.memberRef hmember⟩

def add (p : Pool) (a : Addition) : Except FormatError UInt16 × Pool :=
  a.perform.run.run p

theorem add_grows (hp : p.Sound) (a : Addition) : p.Grows (p.add a).2 :=
  a.lasting.grows p hp

/-! ## Any number of additions -/

/-- The pool that additions leave, done one after the other, whether they succeed or not. -/
def addAll (p : Pool) (as : List Addition) : Pool :=
  as.foldl (fun p a => (p.add a).2) p

theorem addAll_grows (hp : p.Sound) (as : List Addition) : p.Grows (p.addAll as) := by
  induction as generalizing p with
  | nil => exact .refl hp
  | cons a as ih =>
    have hadd := add_grows hp a
    exact hadd.trans (ih hadd.sound)

/-- A pool as it is before anything is added to it. -/
inductive Obtained : Pool → Prop
  | empty : Obtained empty
  | read {bytes : Bytes} {c : ClassFile} : ClassFile.parse bytes = .ok c → Obtained c.pool

theorem Obtained.sound (h : p.Obtained) : p.Sound := by
  cases h with
  | empty => exact empty_sound
  | read hc => exact ClassFile.pool_sound hc

theorem Sound.getUtf8_eq_ok (hp : p.Sound) {i : UInt16} {text : String} :
    p.getUtf8 i = .ok text ↔ p.slots[i.toNat]? = some (some (.utf8 text)) := by
  constructor
  · intro h
    obtain ⟨c, hc, htext⟩ := bind_eq_ok.1 h
    unfold get at hc
    split at hc
    · cases hc
    split at hc
    case h_1 c' hslot =>
      obtain rfl := Except.ok.inj hc
      cases c' <;> cases htext
      exact hslot
    case h_2 => cases hc
  · intro h
    have hget := hp.get_of_slot h
    rw [UInt16.ofNat_toNat] at hget
    exact bind_eq_ok.2 ⟨_, hget, rfl⟩

/-- A text is found at the lowest of the slots that hold it. -/
theorem Sound.findUtf8_eq_some (hp : p.Sound) {text : String} {i : UInt16} :
    p.findUtf8 text = some i ↔
      p.getUtf8 i = .ok text ∧ ∀ j < i, p.getUtf8 j ≠ .ok text := by
  have hlowest : p.findUtf8 text = some i ↔ lowestSlot p.slots (.utf8 text) = some i.toNat := by
    rw [findUtf8_eq, Option.map_eq_some_iff]
    constructor
    · rintro ⟨n, hn, rfl⟩
      have hlt := (Array.getElem?_eq_some_iff.1 (lowestSlot_eq_some.1 hn).1).1
      have hsize := hp.size
      rwa [UInt16.toNat_ofNat', Nat.mod_eq_of_lt (by omega)]
    · intro h
      exact ⟨_, h, UInt16.ofNat_toNat⟩
  rw [hlowest, lowestSlot_eq_some, hp.getUtf8_eq_ok]
  refine and_congr_right fun _ => ⟨fun h j hj => ?_, fun h n hn => ?_⟩
  · rw [ne_eq, hp.getUtf8_eq_ok]
    exact h j.toNat (UInt16.lt_iff_toNat_lt.1 hj)
  · have hi := i.toNat_lt
    have hn' : (UInt16.ofNat n).toNat = n := by
      rw [UInt16.toNat_ofNat']
      exact Nat.mod_eq_of_lt (by omega)
    have hslot := h (UInt16.ofNat n) (UInt16.lt_iff_toNat_lt.2 (by omega))
    rwa [ne_eq, hp.getUtf8_eq_ok, hn'] at hslot

theorem findUtf8_indexed (p : Pool) (text : String) : p.indexed.findUtf8 text = p.findUtf8 text := by
  rw [findUtf8_eq, findUtf8_eq, indexed_slots]

/-- Additions to a new pool or to one that was read from a class file, at any point of any sequence of
them: the slots in use stay as they are, also if the addition fails, and none comes behind slot 65534;
what an addition has answered can be read at its slot ever after, and the same addition answers that
slot again without adding a slot; and a text is found at its lowest slot, with or without a lookup. -/
theorem addAll_settles {p₀ : Pool} (h₀ : p₀.Obtained) (before : List Addition) (a : Addition) :
    let p := p₀.addAll before
    let q := (p.add a).2
    p.slots.toList <+: q.slots.toList ∧
    (p.count < q.count → q.count ≤ 0xFFFF) ∧ q.count ≤ 0x10000 ∧
    (∀ i, (p.add a).1 = .ok i → ∀ later, a.ReadsBack (q.addAll later) i ∧
      ((q.addAll later).add a).1 = .ok i ∧
      ((q.addAll later).add a).2.slots = (q.addAll later).slots) ∧
    ∀ text i, (p.findUtf8 text = some i ↔
        p.getUtf8 i = .ok text ∧ ∀ j < i, p.getUtf8 j ≠ .ok text) ∧
      p.indexed.findUtf8 text = p.findUtf8 text := by
  intro p q
  have hp : p.Sound := (addAll_grows h₀.sound before).sound
  have hgrows : p.Grows q := add_grows hp a
  have hcount := hgrows.count_le
  refine ⟨hgrows.isPrefix, by omega, hgrows.sound.size, fun i hi later => ?_,
    fun text i => ⟨hp.findUtf8_eq_some, findUtf8_indexed p text⟩⟩
  have hrun : a.perform.run.run p = (.ok i, q) := Prod.ext hi rfl
  have hlater : q.Grows (q.addAll later) := addAll_grows hgrows.sound later
  have hagain : (q.addAll later).add a = (.ok i, (q.addAll later).indexed) :=
    a.lasting.again hp hrun _ hlater.isPrefix
  refine ⟨?_, by rw [hagain], by rw [hagain, indexed_slots]⟩
  exact ((a.readsBack hp).of_ok hrun).2.within hlater.within

/-- A class file whose pool holds the text `A` twice, and the class of the second one. -/
def repeatedText : Bytes :=
  [0xCA, 0xFE, 0xBA, 0xBE, 0, 0, 0, 52, 0, 4, 1, 0, 1, 65, 1, 0, 1, 65, 7, 0, 2,
   0, 0x20, 0, 3, 0, 0, 0, 0, 0, 0, 0, 0, 0, 0]

/-- The class is added once more, for the first of the two texts, and is then found again. -/
theorem addAll_settles_repeatedText : ∃ c, ClassFile.parse repeatedText = .ok c ∧
    c.pool.findUtf8 "A" = some 1 ∧ c.pool.className 3 = .ok "A" ∧
    (c.pool.add (.classRef "A")).1 = .ok 4 ∧
    (((c.pool.add (.classRef "A")).2.addAll [.utf8 "B"]).add (.classRef "A")).1 = .ok 4 := by
  have hcheck : (ClassFile.parse repeatedText).toOption.any (fun c =>
      c.pool.getUtf8 1 == .ok "A" && c.pool.className 3 == .ok "A" &&
      (c.pool.add (.classRef "A")).1 == .ok 4) := by
    decide +kernel
  obtain ⟨c, hc, hcheck⟩ := any_toOption.1 hcheck
  simp only [Bool.and_eq_true, beq_iff_eq] at hcheck
  obtain ⟨⟨htext, hclass⟩, hadd⟩ := hcheck
  obtain ⟨-, -, -, hlasts, hfinds⟩ := addAll_settles (.read hc) [] (.classRef "A")
  have hbefore (j : UInt16) (hj : j < 1) : c.pool.getUtf8 j ≠ .ok "A" := by
    obtain rfl : j = 0 := by
      rw [UInt16.lt_iff_toNat_lt] at hj
      exact UInt16.toNat_inj.1 (by simpa using hj)
    exact nofun
  exact ⟨c, hc, (hfinds "A" 1).1.2 ⟨htext, hbefore⟩, hclass, hadd, (hlasts 4 hadd [.utf8 "B"]).2.1⟩

end Pool

end Interpose
