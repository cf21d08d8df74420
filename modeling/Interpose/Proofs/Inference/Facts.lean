import Interpose.Proofs.Inference.Stable
/-!
# Facts about frames

What is known of a frame stays known where paths meet if it is a `Fact`: a type of a local variable or of
an operand, or several of them. Most instructions change nothing but the top of the stack
(`execute_exchanges`), so what is known of local variables and of the operands below stays known behind
them.
-/

namespace Interpose

/-! ## Instructions that change the top of the stack only -/

/-- The instruction stores nothing in a local variable and constructs no object. -/
def Insn.spares : Insn → Bool
  | .var op _ => op ≤ Op.aload
  | .method op _ => op ≠ Op.invokespecial
  | _ => true

namespace Machine

variable {m m' k : Machine} {i : Nat}

/-- Slots are taken off the stack and others put on it; all else stays as it is. -/
structure Exchanges (m m' : Machine) (e : SlotEffect) : Prop where
  locals : m'.locals = m.locals
  below : m'.stack.drop e.pushed = m.stack.drop e.taken

theorem Exchanges.getElem? {e : SlotEffect} (h : m.Exchanges m' e) {n : Nat} (hn : e.taken ≤ n) :
    m'.stack[n - e.taken + e.pushed]? = m.stack[n]? := by
  have := congrArg (·[n - e.taken]?) h.below
  simp only [List.getElem?_drop] at this
  rwa [Nat.add_comm e.pushed, Nat.add_sub_of_le hn] at this

theorem Drops.pushes {n : Nat} (h : m.Drops k n) (vs : List VType) :
    m.Exchanges (k.pushSlots vs) ⟨n, vs.length⟩ :=
  ⟨h.locals, by rw [← h.stack]; exact List.drop_left⟩

theorem Drops.exchanges {n : Nat} (h : m.Drops k n) : m.Exchanges k ⟨n, 0⟩ :=
  ⟨h.locals, h.stack⟩

theorem Drops.pushesValue {n : Nat} (h : m.Drops k n) (v : VType) :
    m.Exchanges (k.push v) ⟨n, v.slots.length⟩ := by
  rw [← List.length_reverse]
  exact h.pushes _

theorem Drops.pushesJava {n : Nat} (h : m.Drops k n) (t : JavaType) :
    m.Exchanges (k.pushJava t) ⟨n, t.slots⟩ := by
  unfold Machine.pushJava
  by_cases ht : t = .void
  · rw [if_pos ht, ht]
    exact h.exchanges
  · rw [if_neg ht, ← slots_ofJava ht]
    exact h.pushesValue _

theorem Drops.pushesOption {n : Nat} (h : m.Drops k n) (v : Option VType) :
    m.Exchanges (k.pushOption v) ⟨n, v.elim 0 (·.slots.length)⟩ := by
  cases v with
  | none => exact h.exchanges
  | some v => exact h.pushesValue v

theorem exchanges_simple {op : Opcode} (h : m.simple i op = .ok m') :
    ∃ e, Op.effect op = some e ∧ m.Exchanges m' e := by
  unfold Machine.simple at h
  rw [Op.effect_eq]
  cases he : simpleEffect op with
  | none =>
    rw [he] at h
    cases h
  | some e =>
    rw [he] at h
    refine ⟨e.height, rfl, ?_⟩
    cases e with
    | slots taken pushed =>
      obtain ⟨k, hk, h⟩ := bind_eq_ok.1 h
      cases h
      exact (drops_dropSlots hk).pushesOption pushed
    | reference pushed =>
      obtain ⟨⟨v, k⟩, hk, h⟩ := bind_eq_ok.1 h
      cases h
      exact (drops_popReference hk).1.pushesOption pushed
    | element type =>
      obtain ⟨⟨v, k⟩, hk, h⟩ := bind_eq_ok.1 h
      obtain ⟨⟨array, k'⟩, hk', h⟩ := bind_eq_ok.1 h
      cases h
      have hpushes := ((drops_pop hk).1.trans (drops_popReference hk').1).pushesValue
        (type.getD (elementType array))
      cases type with
      | none => rwa [Option.getD_none, length_slots_of_reference (elementType_reference array)] at hpushes
      | some v => exact hpushes
    | copy copied below =>
      obtain ⟨⟨vs, k⟩, hk, h⟩ := bind_eq_ok.1 h
      cases h
      have hlength := (height_popSlots hk).2.2
      have hpushes := (drops_popSlots hk).1.pushes (vs ++ vs.take copied)
      rwa [List.length_append, List.length_take, hlength, Nat.min_eq_left (Nat.le_add_right ..)] at hpushes
    | swap =>
      obtain ⟨⟨vs, k⟩, hk, h⟩ := bind_eq_ok.1 h
      cases h
      have hpushes := (drops_popSlots hk).1.pushes vs.reverse
      rwa [List.length_reverse, (height_popSlots hk).2.2] at hpushes

/-- A load puts one value on the stack, of a type that depends on the local variable for references only. -/
theorem load_eq_ok {op : Opcode} {slot : Nat} (hop : op ≤ Op.aload) (h : m.load i op slot = .ok m') :
    ∃ v u, m.locals[slot]? = some u ∧ m' = m.push v ∧ v.slots.length = Op.movedSlots op ∧
      (op = Op.aload → v = u) := by
  unfold Machine.load at h
  cases hu : m.locals[slot]? with
  | none =>
    rw [hu] at h
    cases h
  | some u =>
    simp only [hu] at h
    have typed : ∀ {v : VType}, v.slots.length = Op.movedSlots op → op ≠ Op.aload →
        (Except.ok (m.push v) : Except CodeError Machine) = .ok m' →
        ∃ v w, some u = some w ∧ m' = m.push v ∧ v.slots.length = Op.movedSlots op ∧
          (op = Op.aload → v = w) := by
      intro v hv hne e
      cases e
      exact ⟨v, u, rfl, rfl, hv, fun h => absurd h hne⟩
    by_cases h1 : op = Op.iload
    · subst h1
      exact typed (v := .int) rfl (by decide) h
    by_cases h2 : op = Op.lload
    · subst h2
      exact typed (v := .long) rfl (by decide) h
    by_cases h3 : op = Op.fload
    · subst h3
      exact typed (v := .float) rfl (by decide) h
    by_cases h4 : op = Op.dload
    · subst h4
      exact typed (v := .double) rfl (by decide) h
    simp only [h1, h2, h3, h4, if_false] at h
    split at h
    · rename_i hreference
      cases h
      refine ⟨u, u, rfl, rfl, ?_, fun _ => rfl⟩
      rw [length_slots_of_reference hreference, movedSlots_of_narrow h2 h4]
      · rintro rfl
        exact absurd hop (by decide)
      · rintro rfl
        exact absurd hop (by decide)
    · cases h

end Machine

section Execute

variable {pool : Pool} {owner : String} {i : Nat} {m m' : Machine}

theorem exchanges_field {op : Opcode} {index : UInt16}
    (h : execute pool owner i (.field op index) m = .ok m') :
    ∃ e, (Insn.field op index).effect pool = some e ∧ m.Exchanges m' e := by
  obtain ⟨ref, hr, h⟩ := bind_eq_ok.1 h
  obtain ⟨type, ht, h⟩ := bind_eq_ok.1 h
  simp only [Insn.effect, bind_toOption (mapError_eq_ok.1 hr), bind_toOption (mapError_eq_ok.1 ht)]
  refine ⟨_, rfl, ?_⟩
  by_cases h1 : op = Op.getstatic
  · simp only [h1, if_true] at h ⊢
    cases h
    exact (Machine.drops_refl m).pushesJava type
  by_cases h2 : op = Op.putstatic
  · simp only [h2, if_true] at h ⊢
    exact (Machine.drops_dropSlots h).exchanges
  by_cases h3 : op = Op.getfield
  · simp only [h3, if_true] at h ⊢
    obtain ⟨⟨v, k⟩, hk, h⟩ := bind_eq_ok.1 h
    cases h
    exact (Machine.drops_popReference hk).1.pushesJava type
  · simp only [h1, h2, h3, if_false] at h ⊢
    obtain ⟨k, hk, h⟩ := bind_eq_ok.1 h
    obtain ⟨⟨v, k'⟩, hk', h⟩ := bind_eq_ok.1 h
    cases h
    exact ((Machine.drops_dropSlots hk).trans (Machine.drops_popReference hk').1).exchanges

theorem exchanges_method {op : Opcode} {index : UInt16} (hop : op ≠ Op.invokespecial)
    (h : execute pool owner i (.method op index) m = .ok m') :
    ∃ e, (Insn.method op index).effect pool = some e ∧ m.Exchanges m' e := by
  obtain ⟨ref, hr, h⟩ := bind_eq_ok.1 h
  obtain ⟨d, hd, h⟩ := bind_eq_ok.1 h
  obtain ⟨k, hk, h⟩ := bind_eq_ok.1 h
  simp only [Insn.effect, bind_toOption (mapError_eq_ok.1 hr), bind_toOption (mapError_eq_ok.1 hd)]
  refine ⟨_, rfl, ?_⟩
  have hdrops := Machine.drops_dropSlots hk
  by_cases hstatic : op = Op.invokestatic
  · simp only [hstatic, if_true] at h ⊢
    cases h
    exact hdrops.pushesJava _
  · simp only [hstatic, if_false] at h ⊢
    obtain ⟨⟨v, k'⟩, hk', h⟩ := bind_eq_ok.1 h
    simp only [hop, decide_false, Bool.false_and, Bool.false_eq_true, if_false] at h
    cases h
    exact (hdrops.trans (Machine.drops_popReference hk').1).pushesJava _

/-- An instruction that stores and constructs nothing exchanges slots on top of the stack. -/
theorem execute_exchanges {insn : Insn} (hspares : insn.spares = true)
    (h : execute pool owner i insn m = .ok m') :
    ∃ e, insn.effect pool = some e ∧ m.Exchanges m' e := by
  have unmoved : m.Exchanges m ⟨0, 0⟩ := (Machine.drops_refl m).exchanges
  cases insn with
  | label _ | line _ =>
    cases h
    exact ⟨_, rfl, unmoved⟩
  | simple op => exact Machine.exchanges_simple h
  | int op value =>
    simp only [execute] at h
    refine ⟨_, rfl, ?_⟩
    split at h
    · rename_i hop
      rw [if_pos hop]
      obtain ⟨⟨v, k⟩, hk, h⟩ := bind_eq_ok.1 h
      split at h
      · cases h
        exact (Machine.drops_pop hk).1.pushesValue (.object _)
      · cases h
    · rename_i hop
      rw [if_neg hop]
      cases h
      exact (Machine.drops_refl m).pushesValue .int
  | var op slot =>
    have hop : op ≤ Op.aload := of_decide_eq_true hspares
    simp only [execute, hop, if_true] at h
    refine ⟨_, rfl, ?_⟩
    rw [if_pos hop]
    obtain ⟨v, u, -, rfl, hv, -⟩ := Machine.load_eq_ok hop h
    rw [← hv]
    exact (Machine.drops_refl m).pushesValue v
  | iinc slot delta =>
    simp only [execute] at h
    split at h
    · cases h
      exact ⟨_, rfl, unmoved⟩
    · cases h
  | type op index =>
    obtain ⟨name, -, h⟩ := bind_eq_ok.1 h
    refine ⟨_, rfl, ?_⟩
    by_cases h1 : op = Op.newObject
    · simp only [h1, if_true] at h ⊢
      cases h
      exact (Machine.drops_refl m).pushesValue (.uninitialized i name)
    simp only [h1, if_false] at h ⊢
    by_cases h2 : op = Op.anewarray
    · simp only [h2, if_true] at h
      obtain ⟨⟨v, k⟩, hk, h⟩ := bind_eq_ok.1 h
      cases h
      exact (Machine.drops_pop hk).1.pushesValue (.object _)
    · simp only [h2, if_false] at h
      obtain ⟨⟨v, k⟩, hk, h⟩ := bind_eq_ok.1 h
      cases h
      split
      · exact (Machine.drops_popReference hk).1.pushesValue (.object name)
      · exact (Machine.drops_popReference hk).1.pushesValue .int
  | field op index => exact exchanges_field h
  | method op index => exact exchanges_method (of_decide_eq_true hspares) h
  | dynamic index =>
    obtain ⟨d, hd, h⟩ := bind_eq_ok.1 h
    obtain ⟨k, hk, h⟩ := bind_eq_ok.1 h
    cases h
    refine ⟨d.effect, ?_, (Machine.drops_dropSlots hk).pushesJava _⟩
    obtain ⟨c, hc, hd⟩ := bind_eq_ok.1 hd
    simp only [Insn.effect, mapError_eq_ok.1 hc]
    cases c with
    | invokeDynamic _ nat =>
      obtain ⟨⟨name, descriptor⟩, hn, hd⟩ := bind_eq_ok.1 hd
      simp only [bind_toOption (mapError_eq_ok.1 hn), bind_toOption (mapError_eq_ok.1 hd)]
      rfl
    | _ => cases hd
  | ldc index =>
    obtain ⟨v, hv, h⟩ := bind_eq_ok.1 h
    cases h
    refine ⟨⟨0, v.slots.length⟩, ?_, (Machine.drops_refl m).pushesValue v⟩
    simp only [Insn.effect, loadedSlots_of_constantType hv]
    rfl
  | jump op target =>
    simp only [execute] at h
    refine ⟨_, rfl, ?_⟩
    split at h
    · rename_i h1
      cases h
      rw [if_pos h1]
      exact unmoved
    · rename_i h1
      rw [if_neg h1]
      split at h
      · rename_i h2
        rw [if_pos h2]
        exact (Machine.drops_dropSlots h).exchanges
      · rename_i h2
        rw [if_neg h2]
        exact (Machine.drops_dropSlots h).exchanges
  | tableSwitch _ _ _ | lookupSwitch _ _ => exact ⟨_, rfl, (Machine.drops_dropSlots h).exchanges⟩
  | multiNewArray index dims =>
    obtain ⟨k, hk, h⟩ := bind_eq_ok.1 h
    obtain ⟨name, -, h⟩ := bind_eq_ok.1 h
    cases h
    exact ⟨_, rfl, (Machine.drops_dropSlots hk).pushesValue (.object name)⟩

end Execute

/-! ## Stores -/

namespace Machine

variable {slot k : Nat} {v u : VType} {ls : List VType}

theorem length_padLocals (n : Nat) (ls : List VType) : n ≤ (padLocals n ls).length := by
  unfold padLocals
  rw [List.length_append, List.length_replicate]
  omega

theorem length_breakBefore (slot : Nat) (ls : List VType) : (breakBefore slot ls).length = ls.length := by
  unfold breakBefore
  split
  · rfl
  · split
    · exact List.length_set
    · rfl

/-- Only a wide value right in front of the slot is broken. -/
theorem getElem?_breakBefore (hk : ls[k]? = some u) (hbefore : k + 1 = slot → u.isWide = false) :
    (breakBefore slot ls)[k]? = some u := by
  cases slot with
  | zero => exact hk
  | succ before =>
    simp only [breakBefore]
    split
    · rename_i hwide
      rw [List.getElem?_set_ne, hk]
      rintro rfl
      rw [hk, Option.any_some, hbefore rfl] at hwide
      cases hwide
    · exact hk

/-- The slots of a local variable after a store into it. -/
theorem getElem?_storeLocal_self {j : Nat} (hj : j < v.slots.length) :
    (storeLocal slot v ls)[slot + j]? = v.slots[j]? := by
  have hroom : slot + v.slots.length ≤
      (breakBefore slot (padLocals (slot + v.slots.length) ls)).length := by
    rw [length_breakBefore]
    exact length_padLocals _ ls
  unfold storeLocal
  simp only
  generalize breakBefore slot (padLocals (slot + v.slots.length) ls) = base at hroom ⊢
  cases hv : v.isWide with
  | false =>
    have hslots : v.slots = [v] := by simp only [VType.slots, hv, Bool.false_eq_true, if_false]
    rw [hslots, List.length_singleton] at hj hroom
    obtain rfl : j = 0 := by omega
    rw [if_neg Bool.false_ne_true, hslots]
    exact List.getElem?_set_self hroom
  | true =>
    have hslots : v.slots = [v, .top] := by simp only [VType.slots, hv, if_true]
    rw [hslots, List.length_cons, List.length_singleton] at hj hroom
    rw [if_pos rfl, hslots]
    rcases (by omega : j = 0 ∨ j = 1) with rfl | rfl
    · rw [List.getElem?_set_ne (by omega)]
      exact List.getElem?_set_self (by omega)
    · exact List.getElem?_set_self (by rw [List.length_set]; omega)

/-- A store leaves the other local variables as they are, but for a wide one that it breaks. -/
theorem getElem?_storeLocal_of_ne (hk : ls[k]? = some u) (hbefore : k + 1 = slot → u.isWide = false)
    (hout : k < slot ∨ slot + v.slots.length ≤ k) : (storeLocal slot v ls)[k]? = some u := by
  have hpadded : (padLocals (slot + v.slots.length) ls)[k]? = some u := by
    unfold padLocals
    rw [List.getElem?_append_left (List.getElem?_eq_some_iff.1 hk).1, hk]
  have hbase := getElem?_breakBefore hpadded hbefore
  unfold storeLocal
  cases hv : v.isWide with
  | false =>
    have hslots : v.slots.length = 1 := by simp only [VType.slots, hv, Bool.false_eq_true, if_false]; rfl
    rw [if_neg Bool.false_ne_true, List.getElem?_set_ne (by omega), hbase]
  | true =>
    have hslots : v.slots.length = 2 := by simp only [VType.slots, hv, if_true]; rfl
    rw [if_pos rfl, List.getElem?_set_ne (by omega), List.getElem?_set_ne (by omega), hbase]

end Machine

/-! ## Facts -/

/-- What is known of frames, and stays known where paths meet. -/
structure Fact where
  Holds : Frame → Prop
  merge : ∀ {h : Hierarchy} {i : Nat} {f g k : Frame}, Holds f → Holds g → f.merge h i g = .ok k → Holds k

namespace Fact

def nothing : Fact where
  Holds _ := True
  merge _ _ _ := trivial

def and (φ ψ : Fact) : Fact where
  Holds f := φ.Holds f ∧ ψ.Holds f
  merge hf hg hk := ⟨φ.merge hf.1 hg.1 hk, ψ.merge hf.2 hg.2 hk⟩

/-- An operand has a type; the top of the stack comes first. -/
def operand (n : Nat) (v : VType) : Fact where
  Holds f := f.stack[n]? = some v
  merge {h i f g k} hf hg hk := by
    obtain ⟨-, -, hslots⟩ := Frame.mergeStack_eq_some (Frame.merge_eq_ok.1 hk).1
    obtain ⟨c, hc, hmerge⟩ := hslots n v v hf hg
    rw [mergeSlot_self] at hmerge
    rw [hc, ← hmerge]

/-- Local variables from one up to another have the types of a list. -/
def slots (lo hi : Nat) (types : List VType) : Fact where
  Holds f := ∀ n, lo ≤ n → n < hi → f.locals[n]? = types[n]?
  merge {h i f g k} hf hg hk n hlo hhi := by
    rw [(Frame.merge_eq_ok.1 hk).2, Frame.mergeLocals, List.getElem?_zipWith, hf n hlo hhi, hg n hlo hhi]
    cases types[n]? with
    | none => rfl
    | some v => simp only [mergeSlot_self, Option.getD_some]

def slot (n : Nat) (v : VType) : Fact where
  Holds f := f.locals[n]? = some v
  merge {h i f g k} hf hg hk := by
    rw [(Frame.merge_eq_ok.1 hk).2, Frame.mergeLocals, List.getElem?_zipWith, hf, hg]
    simp only [mergeSlot_self, Option.getD_some]

def OfLocals (φ : Fact) : Prop :=
  ∀ f g : Frame, f.locals = g.locals → φ.Holds g → φ.Holds f

end Fact

end Interpose
