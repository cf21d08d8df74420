import Interpose.Proofs.Pool.Growth
/-!
# Adding constants

What is added to a pool can be read back from it, under the slot it was given, and everything that
was in the pool stays there. Adding fails only for want of room.

* `addClass_ends`, `addString_ends`, `addInteger_ends`, `addMember_ends`: how adding each kind of
  constant ends.
-/

namespace Interpose

/-- The faults of a constant that has no room. -/
inductive FormatError.IsSize : FormatError → Prop
  | pool : IsSize .constantPoolOverflow
  | text (n : Nat) : IsSize (.utf8TooLong n)

def Constant.slots (c : Constant) : List (Option Constant) :=
  if c.isWide then [some c, none] else [some c]

namespace Pool

/-- Slots are numbered by 16 bits, and the first one is empty. -/
structure Sound (p : Pool) : Prop where
  first : p.slots[0]? = some none
  size : p.slots.size ≤ 0x10000

theorem append_slots (p : Pool) (slot : Option Constant) :
    (p.append slot).slots = p.slots.push slot := rfl

theorem indexed_slots (p : Pool) : p.indexed.slots = p.slots := rfl

theorem lowestSlot_of_position {p : Pool} {c : Constant} {i : Nat} (h : p.position? c = some i) :
    lowestSlot p.slots c = some i := by
  unfold position? at h
  split at h
  case h_1 l hl =>
    rw [p.agrees l hl c] at h
    split at h
    · exact h
    · cases h
  case h_2 => exact h

theorem ofSlots_slots (slots : List (Option Constant)) :
    (ofSlots slots).slots = #[none] ++ slots.toArray := by
  suffices h : ∀ p : Pool, (slots.foldl append p).slots = p.slots ++ slots.toArray from h _
  induction slots with
  | nil => simp
  | cons slot slots ih =>
    intro p
    rw [List.foldl_cons, ih, append_slots, Array.push_eq_append, Array.append_assoc]
    simp

/-- A pool read from a class file is sound. -/
theorem ofSlots_sound {slots : List (Option Constant)} (h : slots.length ≤ 0xFFFF) :
    (ofSlots slots).Sound := by
  constructor
  · rw [ofSlots_slots]
    simp
  · rw [ofSlots_slots]
    simp
    omega

theorem empty_sound : empty.Sound :=
  ofSlots_sound (by decide)

theorem appendConstant_slots (p : Pool) (c : Constant) :
    (p.appendConstant c).slots.toList = p.slots.toList ++ c.slots := by
  unfold appendConstant Constant.slots
  split <;> simp [append_slots]

theorem appendConstant_count (p : Pool) (c : Constant) :
    (p.appendConstant c).count = p.count + c.width := by
  unfold appendConstant Constant.width count
  split <;> simp [append_slots]

/-- Slots stay what they are when others come behind them. -/
theorem slot_of_append {p q : Pool} {added : List (Option Constant)}
    (h : q.slots.toList = p.slots.toList ++ added) {i : Nat} {slot : Option Constant}
    (hi : p.slots[i]? = some slot) : q.slots[i]? = some slot := by
  have hlt := (Array.getElem?_eq_some_iff.1 hi).1
  rw [← Array.getElem?_toList] at hi ⊢
  rwa [h, List.getElem?_append_left (by simpa using hlt)]

/-- The lowest slot of a constant stays its lowest. -/
theorem lowestSlot_of_isPrefix {p q : Pool} (h : p.slots.toList <+: q.slots.toList) {c : Constant}
    {i : Nat} (hi : lowestSlot p.slots c = some i) : lowestSlot q.slots c = some i := by
  obtain ⟨added, hadded⟩ := h
  have hslots : q.slots = p.slots ++ added.toArray := by
    rw [← Array.toList_inj, Array.toList_append, ← hadded]
  rw [lowestSlot] at hi ⊢
  rw [hslots, Array.findIdx?_append, hi]
  rfl

/-- A pool that has grown by whole constants, up to slot 65534 at most. -/
structure Grows (p q : Pool) : Prop where
  added : ∃ cs : List Constant, q.slots.toList = p.slots.toList ++ cs.flatMap Constant.slots
  count_le : q.count ≤ max p.count 0xFFFF
  sound : q.Sound

theorem Grows.refl {p : Pool} (hp : p.Sound) : p.Grows p :=
  ⟨⟨[], by simp⟩, Nat.le_max_left _ _, hp⟩

theorem Grows.trans {p q r : Pool} (h1 : p.Grows q) (h2 : q.Grows r) : p.Grows r := by
  obtain ⟨cs, hcs⟩ := h1.added
  obtain ⟨ds, hds⟩ := h2.added
  refine ⟨⟨cs ++ ds, ?_⟩, ?_, h2.sound⟩
  · rw [hds, hcs, List.flatMap_append, List.append_assoc]
  · have := h1.count_le
    have := h2.count_le
    omega

theorem within_of_isPrefix {p q : Pool} (h : p.slots.toList <+: q.slots.toList) : p.Within q := by
  obtain ⟨added, hadded⟩ := h
  intro i c hi
  unfold get at hi ⊢
  split at hi
  case isTrue => cases hi
  case isFalse h0 =>
  rw [if_neg h0]
  split at hi
  case h_1 c' hslot =>
    rw [slot_of_append hadded.symm hslot]
    exact hi
  case h_2 => cases hi

theorem Grows.isPrefix {p q : Pool} (h : p.Grows q) : p.slots.toList <+: q.slots.toList := by
  obtain ⟨cs, hcs⟩ := h.added
  exact ⟨_, hcs.symm⟩

theorem Grows.within {p q : Pool} (h : p.Grows q) : p.Within q :=
  within_of_isPrefix h.isPrefix

theorem Sound.appendConstant {p : Pool} (hp : p.Sound) (c : Constant)
    (hsize : p.count + c.width ≤ 0xFFFF) : p.Grows (p.appendConstant c) := by
  have hcount := p.appendConstant_count c
  refine ⟨⟨[c], by simp [appendConstant_slots]⟩, by omega,
    slot_of_append (p.appendConstant_slots c) hp.first, ?_⟩
  change (p.appendConstant c).count ≤ _
  omega

theorem Sound.get_of_slot {p : Pool} (hp : p.Sound) {i : Nat} {c : Constant}
    (hi : p.slots[i]? = some (some c)) : p.get (UInt16.ofNat i) = .ok c := by
  have hlt := (Array.getElem?_eq_some_iff.1 hi).1
  have hsize := hp.size
  have hn : (UInt16.ofNat i).toNat = i := by
    rw [UInt16.toNat_ofNat']
    exact Nat.mod_eq_of_lt (by omega)
  have h0 : UInt16.ofNat i ≠ 0 := by
    intro h
    have : i = 0 := by
      rw [← hn, h]
      rfl
    rw [this, hp.first] at hi
    cases hi
  unfold get
  rw [if_neg h0, hn, hi]

theorem Sound.indexed {p : Pool} (hp : p.Sound) : p.Grows p.indexed :=
  ⟨⟨[], by simp [indexed_slots]⟩, Nat.le_max_left _ _, hp.first, hp.size⟩

theorem intern_ends {p : Pool} (hp : p.Sound) (c : Constant) :
    Ends p (intern c) (fun i q => p.Grows q ∧ q.get i = .ok c) FormatError.IsSize := by
  have hindexed := hp.indexed
  cases hi : p.indexed.position? c with
  | some i =>
    have run : (intern c).run.run p = (.ok (UInt16.ofNat i), p.indexed) := by
      change intern c p = _
      simp only [intern, hi]
    refine .returns run ⟨hindexed, hindexed.sound.get_of_slot ?_⟩
    have hlowest := lowestSlot_of_position hi
    rw [lowestSlot, Array.findIdx?_eq_some_iff_getElem] at hlowest
    obtain ⟨hlt, he, -⟩ := hlowest
    rw [Array.getElem?_eq_getElem hlt, eq_of_beq he]
  | none =>
    by_cases hfull : p.indexed.count + c.width > 0xFFFF
    · have run : (intern c).run.run p = (.error .constantPoolOverflow, p.indexed) := by
        change intern c p = _
        simp only [intern, hi, hfull, if_true]
      exact .fails run .pool
    · have run : (intern c).run.run p
          = (.ok (UInt16.ofNat p.indexed.count), p.indexed.appendConstant c) := by
        change intern c p = _
        simp only [intern, hi, hfull, if_false]
      have hgrows := hindexed.sound.appendConstant c (Nat.le_of_not_lt hfull)
      refine .returns run ⟨hindexed.trans hgrows, hgrows.sound.get_of_slot ?_⟩
      rw [← Array.getElem?_toList, appendConstant_slots, Constant.slots]
      split <;> simp [count]

theorem addUtf8_ends {p : Pool} (hp : p.Sound) (text : String) :
    Ends p (addUtf8 text) (fun i q => p.Grows q ∧ q.getUtf8 i = .ok text) FormatError.IsSize := by
  unfold addUtf8
  simp only
  split
  · exact .throw (.text _)
  · refine (intern_ends hp (.utf8 text)).imp fun i q h => ⟨h.1, ?_⟩
    exact bind_eq_ok.2 ⟨_, h.2, rfl⟩

theorem addClass_ends {p : Pool} (hp : p.Sound) (name : String) :
    Ends p (addClass name) (fun i q => p.Grows q ∧ q.className i = .ok name) FormatError.IsSize := by
  refine (addUtf8_ends hp name).bind fun i q h => ?_
  refine (intern_ends h.1.sound (.classRef i)).imp fun j r hr => ⟨h.1.trans hr.1, ?_⟩
  exact bind_eq_ok.2 ⟨_, hr.2, hr.1.within.getUtf8 h.2⟩

theorem addString_ends {p : Pool} (hp : p.Sound) (text : String) :
    Ends p (addString text)
      (fun i q => p.Grows q ∧ ∃ t, q.get i = .ok (.stringRef t) ∧ q.getUtf8 t = .ok text)
      FormatError.IsSize := by
  refine (addUtf8_ends hp text).bind fun i q h => ?_
  refine (intern_ends h.1.sound (.stringRef i)).imp fun j r hr => ⟨h.1.trans hr.1, i, hr.2, ?_⟩
  exact hr.1.within.getUtf8 h.2

theorem addInteger_ends {p : Pool} (hp : p.Sound) (value : Int32) :
    Ends p (addInteger value) (fun i q => p.Grows q ∧ q.get i = .ok (.integer value))
      FormatError.IsSize :=
  intern_ends hp (.integer value)

theorem addNameAndType_ends {p : Pool} (hp : p.Sound) (name descriptor : String) :
    Ends p (addNameAndType name descriptor)
      (fun i q => p.Grows q ∧ q.nameAndType i = .ok (name, descriptor)) FormatError.IsSize := by
  refine (addUtf8_ends hp name).bind fun i q h => ?_
  refine (addUtf8_ends h.1.sound descriptor).bind fun j r hr => ?_
  refine (intern_ends hr.1.sound (.nameAndType i j)).imp fun k t ht =>
    ⟨h.1.trans (hr.1.trans ht.1), ?_⟩
  refine bind_eq_ok.2 ⟨_, ht.2, bind_eq_ok.2 ⟨name, ?_, bind_eq_ok.2 ⟨descriptor, ?_, rfl⟩⟩⟩
  · exact ht.1.within.getUtf8 (hr.1.within.getUtf8 h.2)
  · exact ht.1.within.getUtf8 hr.2

theorem memberRef_of_get {p : Pool} {i owner nat : UInt16} {kind : MemberKind} {m : MemberRef}
    (hi : p.get i = .ok (kind.constant owner nat)) (howner : p.className owner = .ok m.owner)
    (hnat : p.nameAndType nat = .ok (m.name, m.descriptor)) : p.memberRef i = .ok m := by
  refine bind_eq_ok.2 ⟨_, hi, ?_⟩
  cases kind <;> exact bind_eq_ok.2 ⟨_, howner, bind_eq_ok.2 ⟨_, hnat, rfl⟩⟩

theorem addMember_ends {p : Pool} (hp : p.Sound) (kind : MemberKind)
    (owner name descriptor : String) :
    Ends p (addMember kind owner name descriptor)
      (fun i q => p.Grows q ∧ (∃ c nat, q.get i = .ok (kind.constant c nat)) ∧
        q.memberRef i = .ok ⟨owner, name, descriptor⟩) FormatError.IsSize := by
  refine (addClass_ends hp owner).bind fun i q h => ?_
  refine (addNameAndType_ends h.1.sound name descriptor).bind fun j r hr => ?_
  refine (intern_ends hr.1.sound (kind.constant i j)).imp fun k t ht =>
    ⟨h.1.trans (hr.1.trans ht.1), ⟨i, j, ht.2⟩, memberRef_of_get ht.2 ?_ ?_⟩
  · exact ht.1.within.className (hr.1.within.className h.2)
  · exact ht.1.within.nameAndType hr.2

theorem addFieldRef_ends {p : Pool} (hp : p.Sound) (owner name descriptor : String) :
    Ends p (addFieldRef owner name descriptor)
      (fun i q => p.Grows q ∧ q.memberRef i = .ok ⟨owner, name, descriptor⟩) FormatError.IsSize :=
  (addMember_ends hp .field owner name descriptor).imp fun _ _ h => ⟨h.1, h.2.2⟩

theorem addMethodRef_ends {p : Pool} (hp : p.Sound) (owner name descriptor : String) :
    Ends p (addMethodRef owner name descriptor)
      (fun i q => p.Grows q ∧ q.memberRef i = .ok ⟨owner, name, descriptor⟩) FormatError.IsSize :=
  (addMember_ends hp .method owner name descriptor).imp fun _ _ h => ⟨h.1, h.2.2⟩

end Pool

end Interpose
