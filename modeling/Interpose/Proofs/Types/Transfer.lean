import Interpose.Code.Execute
import Interpose.Proofs.Pool.Growth
import Interpose.Proofs.Types.Order
/-!
# Instructions on related frames

An instruction that executes on a frame executes on every frame below it, and the results are
related again. This holds for every relation of slot types that keeps apart what an instruction can
tell apart (`Respected`): whether a type is wide or a reference, and which objects are not
constructed yet. The two bodies may number their instructions differently, so the objects made by
the `new` at `i` of the one are those made at `site i` in the other.

* `execute_under`: the transfer of a whole instruction.
-/

namespace Interpose

/-- What an instruction can tell apart is told apart by the relation. The right-hand side is the one
whose instructions are renumbered by `site`. -/
structure Respected (site : Nat → Nat) (R : VType → VType → Prop) : Prop where
  self : ∀ v, (∀ i n, v ≠ .uninitialized i n) → R v v
  wide : ∀ {v w}, R v w → v.isWide = w.isWide
  reference : ∀ {v w}, R v w → v.isReference = w.isReference
  element : ∀ {v w}, R v w → R (Machine.elementType v) (Machine.elementType w)
  this : ∀ {v w}, R v w → (v = .uninitializedThis ↔ w = .uninitializedThis)
  made : ∀ {v w i n}, R v w → (v = .uninitialized (site i) n ↔ w = .uninitialized i n)
  maker : ∀ {k n w}, R (.uninitialized k n) w → ∃ i, w = .uninitialized i n

/-- Machines with related frames that have seen stacks of one height. -/
structure Machine.Under (R : VType → VType → Prop) (m n : Machine) : Prop where
  frame : Frame.Under R m.toFrame n.toFrame
  peak : m.peak = n.peak

/-! ## Locals -/

namespace LocalsUnder

variable {R : VType → VType → Prop} {vs ws : List VType}

theorem length_le (h : LocalsUnder R vs ws) : ws.length ≤ vs.length := by
  rcases Nat.eq_zero_or_pos ws.length with h0 | hpos
  · omega
  · have hw : ws[ws.length - 1]? = some ws[ws.length - 1] := List.getElem?_eq_getElem _
    obtain ⟨v, hv, -⟩ := h _ _ hw
    have := (List.getElem?_eq_some_iff.1 hv).1
    omega

theorem set (h : LocalsUnder R vs ws) (k : Nat) {a b : VType} (hab : b = .top ∨ R a b) :
    LocalsUnder R (vs.set k a) (ws.set k b) := by
  intro i w hw
  have hl := h.length_le
  rw [List.getElem?_set] at hw
  rw [List.getElem?_set]
  by_cases hi : k = i
  · subst hi
    rw [if_pos rfl] at hw ⊢
    split at hw
    · cases hw
      exact ⟨a, if_pos (by omega), hab⟩
    · cases hw
  · rw [if_neg hi] at hw ⊢
    exact h i w hw

/-- A slot that the upper frame leaves out or leaves open may change below. -/
theorem set_open (h : LocalsUnder R vs ws) (k : Nat) (a : VType)
    (hk : ∀ w, ws[k]? = some w → w = .top) : LocalsUnder R (vs.set k a) ws := by
  intro i w hw
  rw [List.getElem?_set]
  obtain ⟨v, hv, hvw⟩ := h i w hw
  by_cases hi : k = i
  · subst hi
    rw [if_pos rfl, if_pos (List.getElem?_eq_some_iff.1 hv).1]
    exact ⟨a, rfl, .inl (hk w hw)⟩
  · rw [if_neg hi]
    exact ⟨v, hv, hvw⟩

theorem map (h : LocalsUnder R vs ws) {f g : VType → VType} (hg : g .top = .top)
    (hfg : ∀ v w, R v w → R (f v) (g w)) : LocalsUnder R (vs.map f) (ws.map g) := by
  intro i w hw
  rw [List.getElem?_map, Option.map_eq_some_iff] at hw
  obtain ⟨w, hw, rfl⟩ := hw
  obtain ⟨v, hv, hvw⟩ := h i w hw
  refine ⟨f v, by rw [List.getElem?_map, hv]; rfl, ?_⟩
  rcases hvw with rfl | hvw
  · exact .inl hg
  · exact .inr (hfg v w hvw)

theorem pad (h : LocalsUnder R vs ws) (n : Nat) :
    LocalsUnder R (Machine.padLocals n vs) (Machine.padLocals n ws) := by
  intro i w hw
  have hl := h.length_le
  unfold Machine.padLocals at hw ⊢
  rw [List.getElem?_append] at hw ⊢
  split at hw
  · obtain ⟨v, hv, hvw⟩ := h i w hw
    have hi := (List.getElem?_eq_some_iff.1 hv).1
    exact ⟨v, by rw [if_pos hi, hv], hvw⟩
  · rw [List.getElem?_replicate] at hw
    split at hw
    · cases hw
      split
      · rename_i hi'
        exact ⟨vs[i], List.getElem?_eq_getElem hi', .inl rfl⟩
      · exact ⟨.top, by rw [List.getElem?_replicate, if_pos (by omega)], .inl rfl⟩
    · cases hw

end LocalsUnder

/-- Every type takes a slot in a frame, also `void`. -/
theorem VType.length_slots_ofJava (t : JavaType) : (VType.ofJava t).slots.length = max 1 t.slots := by
  cases t <;> rfl

namespace Machine

theorem popReference_eq_ok {m : Machine} {i : Nat} {v : VType} {m' : Machine} :
    m.popReference i = .ok (v, m') ↔ m.pop i = .ok (v, m') ∧ v.isReference = true := by
  unfold Machine.popReference
  cases m.pop i with
  | error e => simp [bind, Except.bind]
  | ok r =>
    obtain ⟨u, k⟩ := r
    by_cases hu : u.isReference = true
    · simp only [bind, Except.bind, hu, if_true, pure, Except.pure, Except.ok.injEq, Prod.mk.injEq]
      constructor
      · rintro ⟨rfl, rfl⟩
        exact ⟨⟨rfl, rfl⟩, hu⟩
      · rintro ⟨e, -⟩
        exact e
    · simp only [bind, Except.bind, if_neg hu, Except.ok.injEq, Prod.mk.injEq]
      constructor
      · intro e
        cases e
      · rintro ⟨⟨rfl, -⟩, hv⟩
        exact absurd hv hu

def popStored (i : Nat) (op : Opcode) (m : Machine) : Except CodeError (VType × Machine) :=
  if op = Op.lstore || op = Op.dstore then
    (m.popSlots i 2).map fun (slots, m) => (slots.getLast?.getD .top, m)
  else if op = Op.astore then m.popReference i
  else m.pop i

theorem store_eq (m : Machine) (i : Nat) (op : Opcode) (slot : Nat) :
    m.store i op slot =
      (m.popStored i op).map fun (v, m) => { m with locals := storeLocal slot v m.locals } := by
  unfold store popStored
  by_cases h1 : (op = Op.lstore || op = Op.dstore) = true
  · rw [if_pos h1, if_pos h1]
    cases m.popSlots i 2 <;> rfl
  · rw [if_neg h1, if_neg h1]
    by_cases h2 : op = Op.astore
    · rw [if_pos h2, if_pos h2]
      cases m.popReference i <;> rfl
    · rw [if_neg h2, if_neg h2]
      cases m.pop i <;> rfl

end Machine

section Transfer

variable {site : Nat → Nat} {R : VType → VType → Prop} (hR : Respected site R)
include hR

theorem Respected.slots {v w : VType} (h : R v w) : List.Forall₂ R v.slots w.slots := by
  have htop : R .top .top := hR.self .top nofun
  unfold VType.slots
  rw [hR.wide h]
  split
  · exact .cons h (.cons htop .nil)
  · exact .cons h .nil

theorem LocalsUnder.breakBefore {vs ws : List VType} (h : LocalsUnder R vs ws) (slot : Nat) :
    LocalsUnder R (Machine.breakBefore slot vs) (Machine.breakBefore slot ws) := by
  cases slot with
  | zero => exact h
  | succ before =>
    simp only [Machine.breakBefore]
    cases hw : ws[before]? with
    | none =>
      rw [Option.any_none, if_neg Bool.false_ne_true]
      split
      · exact h.set_open before .top fun w hw' => by rw [hw] at hw'; cases hw'
      · exact h
    | some w =>
      obtain ⟨v, hv, hvw⟩ := h before w hw
      rw [hv, Option.any_some, Option.any_some]
      rcases hvw with rfl | hvw
      · rw [if_neg (by decide : ¬ VType.isWide .top = true)]
        split
        · exact h.set_open before .top fun w hw' => by rw [hw] at hw'; exact (Option.some.inj hw').symm
        · exact h
      · rw [hR.wide hvw]
        split
        · exact h.set before (.inl rfl)
        · exact h

theorem LocalsUnder.storeLocal {vs ws : List VType} (h : LocalsUnder R vs ws) (slot : Nat)
    {v w : VType} (hvw : R v w) :
    LocalsUnder R (Machine.storeLocal slot v vs) (Machine.storeLocal slot w ws) := by
  have hlen : v.slots.length = w.slots.length := (hR.slots hvw).length_eq
  unfold Machine.storeLocal
  simp only [hlen, hR.wide hvw]
  have stored := ((h.pad (slot + w.slots.length)).breakBefore hR slot).set slot (.inr hvw)
  split
  · exact stored.set (slot + 1) (.inl rfl)
  · exact stored

/-! ## The operations of the machine -/

namespace Machine.Under

variable {m n : Machine} (h : Machine.Under R m n)
include h

omit hR in
theorem pushSlots {vs ws : List VType} (hs : List.Forall₂ R vs ws) :
    Machine.Under R (m.pushSlots vs) (n.pushSlots ws) := by
  have hstack : List.Forall₂ R (vs ++ m.stack) (ws ++ n.stack) := List.rel_append hs h.frame.stack
  refine ⟨⟨hstack, h.frame.locals⟩, ?_⟩
  simp only [Machine.pushSlots, h.peak, hstack.length_eq]

theorem push {v w : VType} (hvw : R v w) : Machine.Under R (m.push v) (n.push w) :=
  h.pushSlots (List.rel_reverse (hR.slots hvw))

theorem pushSelf {v : VType} (hv : ∀ i n, v ≠ .uninitialized i n) :
    Machine.Under R (m.push v) (n.push v) :=
  h.push hR (hR.self v hv)

theorem pushOption {v : Option VType} (hv : ∀ w ∈ v, ∀ i n, w ≠ .uninitialized i n) :
    Machine.Under R (m.pushOption v) (n.pushOption v) := by
  cases v with
  | none => exact h
  | some v => exact h.pushSelf hR (hv v rfl)

theorem pushJava (t : JavaType) : Machine.Under R (m.pushJava t) (n.pushJava t) := by
  unfold Machine.pushJava
  split
  · exact h
  · refine h.pushSelf hR ?_
    cases t <;> exact nofun

omit hR in
theorem popSlots {i j k : Nat} {ws : List VType} {n' : Machine}
    (hn : n.popSlots i k = .ok (ws, n')) :
    ∃ vs m', m.popSlots j k = .ok (vs, m') ∧ List.Forall₂ R vs ws ∧ Machine.Under R m' n' := by
  unfold Machine.popSlots at hn ⊢
  rw [h.frame.stack.length_eq]
  split at hn
  · cases hn
  · rename_i hk
    cases hn
    exact ⟨_, _, if_neg hk, List.forall₂_take k h.frame.stack,
      ⟨⟨List.forall₂_drop k h.frame.stack, h.frame.locals⟩, h.peak⟩⟩

omit hR in
theorem dropSlots {i j k : Nat} {n' : Machine} (hn : n.dropSlots i k = .ok n') :
    ∃ m', m.dropSlots j k = .ok m' ∧ Machine.Under R m' n' := by
  obtain ⟨⟨ws, n''⟩, hp, rfl⟩ := map_eq_ok.1 hn
  obtain ⟨vs, m', hp, -, hm⟩ := h.popSlots hp
  exact ⟨m', map_eq_ok.2 ⟨_, hp, rfl⟩, hm⟩

omit hR in
theorem pop {i j : Nat} {w : VType} {n' : Machine} (hn : n.pop i = .ok (w, n')) :
    ∃ v m', m.pop j = .ok (v, m') ∧ R v w ∧ Machine.Under R m' n' := by
  obtain ⟨⟨mf, ms⟩, mp⟩ := m
  obtain ⟨⟨nf, ns⟩, np⟩ := n
  cases ns with
  | nil => cases hn
  | cons w ns =>
    cases hn
    obtain ⟨⟨hs, hl⟩, hp⟩ := h
    cases hs with
    | cons hvw hs => exact ⟨_, _, rfl, hvw, ⟨⟨hs, hl⟩, hp⟩⟩

theorem popReference {i j : Nat} {w : VType} {n' : Machine}
    (hn : n.popReference i = .ok (w, n')) :
    ∃ v m', m.popReference j = .ok (v, m') ∧ R v w ∧ Machine.Under R m' n' := by
  obtain ⟨hp, hw⟩ := Machine.popReference_eq_ok.1 hn
  obtain ⟨v, m', hp, hvw, hm⟩ := h.pop (j := j) hp
  rw [← hR.reference hvw] at hw
  exact ⟨v, m', Machine.popReference_eq_ok.2 ⟨hp, hw⟩, hvw, hm⟩

theorem replaceAll {a b : VType} (new : VType) (hnew : ∀ i n, new ≠ .uninitialized i n)
    (hb : b ≠ .top) (hab : ∀ v w, R v w → (v = a ↔ w = b)) :
    Machine.Under R (m.replaceAll a new) (n.replaceAll b new) := by
  have swap : ∀ v w, R v w → R (if v = a then new else v) (if w = b then new else w) := by
    intro v w hvw
    by_cases hw : w = b
    · rw [if_pos hw, if_pos ((hab v w hvw).2 hw)]
      exact hR.self new hnew
    · rw [if_neg hw, if_neg fun hv => hw ((hab v w hvw).1 hv)]
      exact hvw
  refine ⟨⟨?_, ?_⟩, h.peak⟩
  · exact List.rel_map (fun v w => swap v w) h.frame.stack
  · exact h.frame.locals.map (if_neg fun e => hb e.symm) swap

theorem construct (owner : String) {v w : VType} (hvw : R v w) :
    Machine.Under R (m.construct owner v) (n.construct owner w) := by
  cases w with
  | uninitializedThis =>
    rw [(hR.this hvw).2 rfl]
    exact h.replaceAll hR (.object owner) nofun nofun fun v w hvw => hR.this hvw
  | uninitialized i name =>
    rw [(hR.made hvw).2 rfl]
    exact h.replaceAll hR (.object name) nofun nofun fun v w hvw => hR.made hvw
  | _ =>
    have hm : m.construct owner v = m := by
      cases v with
      | uninitializedThis => cases (hR.this hvw).1 rfl
      | uninitialized k name =>
        obtain ⟨i, hi⟩ := hR.maker hvw
        cases hi
      | _ => rfl
    rw [hm]
    exact h

theorem load {i j slot : Nat} {op : Opcode} {n' : Machine} (hn : n.load i op slot = .ok n') :
    ∃ m', m.load j op slot = .ok m' ∧ Machine.Under R m' n' := by
  unfold Machine.load at hn ⊢
  cases hw : n.locals[slot]? with
  | none =>
    rw [hw] at hn
    cases hn
  | some w =>
    rw [hw] at hn
    obtain ⟨v, hv, hvw⟩ := h.frame.locals slot w hw
    have same {v : VType} (hv : ∀ i n, v ≠ .uninitialized i n)
        (e : (.ok (n.push v) : Except CodeError Machine) = .ok n') :
        ∃ m', (.ok (m.push v) : Except CodeError Machine) = .ok m' ∧ Machine.Under R m' n' := by
      cases e
      exact ⟨_, rfl, h.pushSelf hR hv⟩
    rw [hv]
    simp only at hn ⊢
    by_cases h1 : op = Op.iload
    · rw [if_pos h1] at hn ⊢
      exact same nofun hn
    by_cases h2 : op = Op.lload
    · rw [if_neg h1, if_pos h2] at hn ⊢
      exact same nofun hn
    by_cases h3 : op = Op.fload
    · rw [if_neg h1, if_neg h2, if_pos h3] at hn ⊢
      exact same nofun hn
    by_cases h4 : op = Op.dload
    · rw [if_neg h1, if_neg h2, if_neg h3, if_pos h4] at hn ⊢
      exact same nofun hn
    rw [if_neg h1, if_neg h2, if_neg h3, if_neg h4] at hn ⊢
    by_cases hr : w.isReference = true
    · rw [if_pos hr] at hn
      cases hn
      rcases hvw with rfl | hvw
      · cases hr
      · rw [hR.reference hvw, if_pos hr]
        exact ⟨_, rfl, h.push hR hvw⟩
    · rw [if_neg hr] at hn
      cases hn

theorem popStored {i j : Nat} {op : Opcode} {w : VType} {n' : Machine}
    (hn : n.popStored i op = .ok (w, n')) :
    ∃ v m', m.popStored j op = .ok (v, m') ∧ R v w ∧ Machine.Under R m' n' := by
  unfold Machine.popStored at hn ⊢
  by_cases h1 : (op = Op.lstore || op = Op.dstore) = true
  · rw [if_pos h1] at hn
    rw [if_pos h1]
    obtain ⟨⟨ws, k⟩, hp, e⟩ := map_eq_ok.1 hn
    cases e
    obtain ⟨vs, m', hp, hs, hm⟩ := h.popSlots (j := j) hp
    refine ⟨_, m', map_eq_ok.2 ⟨_, hp, rfl⟩, ?_, hm⟩
    have hlast := List.rel_reverse hs
    rw [← List.head?_reverse, ← List.head?_reverse]
    generalize vs.reverse = as, ws.reverse = bs at hlast
    cases hlast with
    | nil => exact hR.self .top nofun
    | cons hv _ => exact hv
  · rw [if_neg h1] at hn
    rw [if_neg h1]
    by_cases h2 : op = Op.astore
    · rw [if_pos h2] at hn
      rw [if_pos h2]
      exact h.popReference hR hn
    · rw [if_neg h2] at hn
      rw [if_neg h2]
      exact h.pop hn

theorem store {i j slot : Nat} {op : Opcode} {n' : Machine} (hn : n.store i op slot = .ok n') :
    ∃ m', m.store j op slot = .ok m' ∧ Machine.Under R m' n' := by
  rw [Machine.store_eq, map_eq_ok] at hn
  obtain ⟨⟨w, n''⟩, hp, rfl⟩ := hn
  obtain ⟨v, m', hp, hvw, hm⟩ := h.popStored hR (j := j) hp
  refine ⟨_, (Machine.store_eq m j op slot).trans (map_eq_ok.2 ⟨_, hp, rfl⟩), ?_⟩
  exact ⟨⟨hm.frame.stack, hm.frame.locals.storeLocal hR slot hvw⟩, hm.peak⟩

end Machine.Under

/-! ## Instructions -/

/-- The value that an effect pushes, if it is the same wherever the instruction stands. -/
def SimpleEffect.pushed? : SimpleEffect → Option VType
  | slots _ v | reference v | element v => v
  | _ => none

omit hR in
theorem simpleEffect_pushed {op : Opcode} {e : SimpleEffect} {v : VType}
    (he : simpleEffect op = some e) (hv : e.pushed? = some v) (i : Nat) (name : String) :
    v ≠ .uninitialized i name := by
  -- the tables are chains of choices; what holds at every end of one holds of the choice
  have choice {α : Type} (P : α → Prop) (c : Prop) [Decidable c] {a b : α} (ha : P a) (hb : P b) :
      P (if c then a else b) := by
    split
    · exact ha
    · exact hb
  have arithmetic : ∀ row, (arithmeticKind row op).1 ≠ .uninitialized i name := by
    intro row
    unfold arithmeticKind
    split <;> exact VType.noConfusion
  have converted : (conversion op).2 ≠ .uninitialized i name := by
    unfold conversion
    repeat' refine choice (fun r : Nat × VType => r.2 ≠ .uninitialized i name) _ ?_ ?_
    all_goals exact VType.noConfusion
  suffices h : ∀ e ∈ simpleEffect op, ∀ w ∈ e.pushed?, w ≠ .uninitialized i name from h e he v hv
  have nothing (e : SimpleEffect) (h : e.pushed? = none) :
      ∀ e' ∈ some e, ∀ w ∈ e'.pushed?, w ≠ .uninitialized i name := by
    intro e' he' w hw
    cases he'
    rw [h] at hw
    cases hw
  have value (e : SimpleEffect) (w : VType) (h : e.pushed? = some w)
      (hw : w ≠ .uninitialized i name) :
      ∀ e' ∈ some e, ∀ w ∈ e'.pushed?, w ≠ .uninitialized i name := by
    intro e' he' w' hw'
    cases he'
    rw [h] at hw'
    cases hw'
    exact hw
  unfold simpleEffect
  repeat' refine choice (fun o : Option SimpleEffect =>
      ∀ e ∈ o, ∀ w ∈ e.pushed?, w ≠ .uninitialized i name) _ ?_ ?_
  all_goals first
    | exact nothing _ rfl
    | exact value _ _ rfl VType.noConfusion
    | exact value _ _ rfl (arithmetic _)
    | generalize conversion op = c at converted
      exact value _ _ rfl converted
    | exact fun e he => nomatch he

theorem Machine.Under.simple {m n n' : Machine} (h : Machine.Under R m n) {i j : Nat} {op : Opcode}
    (hn : n.simple i op = .ok n') : ∃ m', m.simple j op = .ok m' ∧ Machine.Under R m' n' := by
  unfold Machine.simple at hn ⊢
  cases he : simpleEffect op with
  | none =>
    rw [he] at hn
    cases hn
  | some e =>
    rw [he] at hn
    have fixed : ∀ v ∈ e.pushed?, ∀ i n, v ≠ .uninitialized i n := fun v hv =>
      simpleEffect_pushed he hv
    cases e with
    | slots taken pushed =>
      obtain ⟨n1, h1, hn⟩ := bind_eq_ok.1 hn
      cases hn
      obtain ⟨m1, h1, hm⟩ := h.dropSlots (j := j) h1
      exact ⟨_, bind_eq_ok.2 ⟨m1, h1, rfl⟩, hm.pushOption hR fixed⟩
    | reference pushed =>
      obtain ⟨⟨w, n1⟩, h1, hn⟩ := bind_eq_ok.1 hn
      cases hn
      obtain ⟨v, m1, h1, -, hm⟩ := h.popReference hR (j := j) h1
      exact ⟨_, bind_eq_ok.2 ⟨_, h1, rfl⟩, hm.pushOption hR fixed⟩
    | element type =>
      obtain ⟨⟨w, n1⟩, h1, hn⟩ := bind_eq_ok.1 hn
      obtain ⟨⟨array, n2⟩, h2, hn⟩ := bind_eq_ok.1 hn
      cases hn
      obtain ⟨v, m1, h1, -, hm⟩ := h.pop (j := j) h1
      obtain ⟨array', m2, h2, ha, hm⟩ := hm.popReference hR (j := j) h2
      refine ⟨_, bind_eq_ok.2 ⟨_, h1, bind_eq_ok.2 ⟨_, h2, rfl⟩⟩, ?_⟩
      cases type with
      | none => exact hm.push hR (hR.element ha)
      | some t => exact hm.pushSelf hR (fixed t rfl)
    | copy copied below =>
      obtain ⟨⟨ws, n1⟩, h1, hn⟩ := bind_eq_ok.1 hn
      cases hn
      obtain ⟨vs, m1, h1, hs, hm⟩ := h.popSlots (j := j) h1
      exact ⟨_, bind_eq_ok.2 ⟨_, h1, rfl⟩,
        hm.pushSlots (List.rel_append hs (List.forall₂_take copied hs))⟩
    | swap =>
      obtain ⟨⟨ws, n1⟩, h1, hn⟩ := bind_eq_ok.1 hn
      cases hn
      obtain ⟨vs, m1, h1, hs, hm⟩ := h.popSlots (j := j) h1
      exact ⟨_, bind_eq_ok.2 ⟨_, h1, rfl⟩, hm.pushSlots (List.rel_reverse hs)⟩

omit hR in
theorem constantType_within {p q : Pool} (hpq : p.Within q) {i j : Nat} {index : UInt16} {v : VType}
    (hv : constantType p i index = .ok v) :
    constantType q j index = .ok v ∧ ∀ k n, v ≠ .uninitialized k n := by
  obtain ⟨c, hc, hv⟩ := bind_eq_ok.1 hv
  have hc' : (q.get index).mapError CodeError.format = .ok c :=
    mapError_eq_ok.2 (hpq index c (mapError_eq_ok.1 hc))
  cases c with
  | dynamic _ nat =>
    obtain ⟨d, hd, hv⟩ := bind_eq_ok.1 hv
    obtain ⟨t, ht, hv⟩ := bind_eq_ok.1 hv
    refine ⟨bind_eq_ok.2 ⟨_, hc', bind_eq_ok.2 ⟨d, ?_, bind_eq_ok.2 ⟨t, ht, hv⟩⟩⟩, ?_⟩
    · exact mapError_eq_ok.2 (hpq.nameAndType (mapError_eq_ok.1 hd))
    · cases hv
      cases t <;> exact nofun
  | integer _ | float _ | long _ | double _ | stringRef _ | classRef _ | methodType _
  | methodHandle _ _ =>
    cases hv
    exact ⟨bind_eq_ok.2 ⟨_, hc', rfl⟩, nofun⟩
  | _ => cases hv

omit hR in
theorem callSiteDescriptor_within {p q : Pool} (hpq : p.Within q) {i j : Nat} {index : UInt16}
    {d : MethodDescriptor} (hd : callSiteDescriptor p i index = .ok d) :
    callSiteDescriptor q j index = .ok d := by
  obtain ⟨c, hc, hd⟩ := bind_eq_ok.1 hd
  refine bind_eq_ok.2 ⟨c, mapError_eq_ok.2 (hpq index c (mapError_eq_ok.1 hc)), ?_⟩
  cases c with
  | invokeDynamic _ nat =>
    obtain ⟨t, ht, hd⟩ := bind_eq_ok.1 hd
    exact bind_eq_ok.2 ⟨t, mapError_eq_ok.2 (hpq.nameAndType (mapError_eq_ok.1 ht)), hd⟩
  | _ => cases hd

/-- An instruction that executes on a frame executes on every frame below it, and leads to a frame
below the one it led to. The object it makes has to be related to itself. -/
theorem execute_under {p q : Pool} (hpq : p.Within q) {owner : String} {i : Nat} {insn : Insn}
    (hmake : ∀ name, R (.uninitialized (site i) name) (.uninitialized i name))
    {m n n' : Machine} (h : Machine.Under R m n) (hn : execute p owner i insn n = .ok n') :
    ∃ m', execute q owner (site i) insn m = .ok m' ∧ Machine.Under R m' n' := by
  cases insn with
  | label l | line l =>
    cases hn
    exact ⟨m, rfl, h⟩
  | simple op => exact h.simple hR hn
  | int op value =>
    simp only [execute] at hn ⊢
    by_cases hop : op = Op.newarray
    · rw [if_pos hop] at hn ⊢
      obtain ⟨⟨w, n1⟩, h1, hn⟩ := bind_eq_ok.1 hn
      obtain ⟨v, m1, h1, -, hm⟩ := h.pop (j := site i) h1
      cases ha : primitiveArray value.toInt8.toUInt8 with
      | none =>
        rw [ha] at hn
        cases hn
      | some name =>
        rw [ha] at hn
        cases hn
        exact ⟨_, bind_eq_ok.2 ⟨_, h1, rfl⟩, hm.pushSelf hR nofun⟩
    · rw [if_neg hop] at hn ⊢
      cases hn
      exact ⟨_, rfl, h.pushSelf hR nofun⟩
  | var op slot =>
    simp only [execute] at hn ⊢
    by_cases hop : op ≤ Op.aload
    · rw [if_pos hop] at hn ⊢
      exact h.load hR hn
    · rw [if_neg hop] at hn ⊢
      exact h.store hR hn
  | iinc slot delta =>
    have hl := h.frame.locals.length_le
    simp only [execute] at hn ⊢
    by_cases hk : slot.toNat < n.locals.length
    · rw [if_pos hk] at hn
      cases hn
      exact ⟨m, if_pos (by omega), h⟩
    · rw [if_neg hk] at hn
      cases hn
  | type op index =>
    obtain ⟨name, hname, hn⟩ := bind_eq_ok.1 hn
    have hname' : (q.className index).mapError CodeError.format = .ok name :=
      mapError_eq_ok.2 (hpq.className (mapError_eq_ok.1 hname))
    by_cases h1 : op = Op.newObject
    · rw [if_pos h1] at hn
      cases hn
      exact ⟨_, bind_eq_ok.2 ⟨name, hname', if_pos h1⟩, h.push hR (hmake name)⟩
    rw [if_neg h1] at hn
    by_cases h2 : op = Op.anewarray
    · rw [if_pos h2] at hn
      obtain ⟨⟨w, n1⟩, hp, hn⟩ := bind_eq_ok.1 hn
      cases hn
      obtain ⟨v, m1, hp, -, hm⟩ := h.pop (j := site i) hp
      refine ⟨_, bind_eq_ok.2 ⟨name, hname', ?_⟩, hm.pushSelf hR nofun⟩
      rw [if_neg h1, if_pos h2]
      exact bind_eq_ok.2 ⟨_, hp, rfl⟩
    rw [if_neg h2] at hn
    obtain ⟨⟨w, n1⟩, hp, hn⟩ := bind_eq_ok.1 hn
    cases hn
    obtain ⟨v, m1, hp, -, hm⟩ := h.popReference hR (j := site i) hp
    refine ⟨_, bind_eq_ok.2 ⟨name, hname', ?_⟩, hm.pushSelf hR ?_⟩
    · rw [if_neg h1, if_neg h2]
      exact bind_eq_ok.2 ⟨_, hp, rfl⟩
    · split <;> exact nofun
  | field op index =>
    obtain ⟨ref, href, hn⟩ := bind_eq_ok.1 hn
    obtain ⟨type, htype, hn⟩ := bind_eq_ok.1 hn
    have href' : (q.memberRef index).mapError CodeError.format = .ok ref :=
      mapError_eq_ok.2 (hpq.memberRef (mapError_eq_ok.1 href))
    suffices ∃ m', _ = Except.ok m' ∧ Machine.Under R m' n' by
      obtain ⟨m', hm', hm⟩ := this
      exact ⟨m', bind_eq_ok.2 ⟨ref, href', bind_eq_ok.2 ⟨type, htype, hm'⟩⟩, hm⟩
    by_cases h1 : op = Op.getstatic
    · rw [if_pos h1] at hn ⊢
      cases hn
      exact ⟨_, rfl, h.pushJava hR type⟩
    rw [if_neg h1] at hn ⊢
    by_cases h2 : op = Op.putstatic
    · rw [if_pos h2] at hn ⊢
      exact h.dropSlots hn
    rw [if_neg h2] at hn ⊢
    by_cases h3 : op = Op.getfield
    · rw [if_pos h3] at hn ⊢
      obtain ⟨⟨w, n1⟩, hp, hn⟩ := bind_eq_ok.1 hn
      cases hn
      obtain ⟨v, m1, hp, -, hm⟩ := h.popReference hR (j := site i) hp
      exact ⟨_, bind_eq_ok.2 ⟨_, hp, rfl⟩, hm.pushJava hR type⟩
    rw [if_neg h3] at hn ⊢
    obtain ⟨n1, hd, hn⟩ := bind_eq_ok.1 hn
    obtain ⟨⟨w, n2⟩, hp, hn⟩ := bind_eq_ok.1 hn
    cases hn
    obtain ⟨m1, hd, hm⟩ := h.dropSlots (j := site i) hd
    obtain ⟨v, m2, hp, -, hm⟩ := hm.popReference hR (j := site i) hp
    exact ⟨_, bind_eq_ok.2 ⟨_, hd, bind_eq_ok.2 ⟨_, hp, rfl⟩⟩, hm⟩
  | method op index =>
    obtain ⟨ref, href, hn⟩ := bind_eq_ok.1 hn
    obtain ⟨d, hdesc, hn⟩ := bind_eq_ok.1 hn
    obtain ⟨n1, hd, hn⟩ := bind_eq_ok.1 hn
    have href' : (q.memberRef index).mapError CodeError.format = .ok ref :=
      mapError_eq_ok.2 (hpq.memberRef (mapError_eq_ok.1 href))
    obtain ⟨m1, hd, hm⟩ := h.dropSlots (j := site i) hd
    suffices ∃ m', _ = Except.ok m' ∧ Machine.Under R m' n' by
      obtain ⟨m', hm', hm⟩ := this
      exact ⟨m', bind_eq_ok.2 ⟨ref, href', bind_eq_ok.2 ⟨d, hdesc, bind_eq_ok.2 ⟨m1, hd, hm'⟩⟩⟩, hm⟩
    by_cases h1 : op = Op.invokestatic
    · rw [if_pos h1] at hn ⊢
      cases hn
      exact ⟨_, rfl, hm.pushJava hR _⟩
    rw [if_neg h1] at hn ⊢
    obtain ⟨⟨w, n2⟩, hp, hn⟩ := bind_eq_ok.1 hn
    cases hn
    obtain ⟨v, m2, hp, hvw, hm⟩ := hm.popReference hR (j := site i) hp
    refine ⟨_, bind_eq_ok.2 ⟨_, hp, rfl⟩, ?_⟩
    split
    · exact (hm.construct hR owner hvw).pushJava hR _
    · exact hm.pushJava hR _
  | dynamic index =>
    obtain ⟨d, hdesc, hn⟩ := bind_eq_ok.1 hn
    obtain ⟨n1, hd, hn⟩ := bind_eq_ok.1 hn
    cases hn
    obtain ⟨m1, hd, hm⟩ := h.dropSlots (j := site i) hd
    exact ⟨_, bind_eq_ok.2 ⟨d, callSiteDescriptor_within hpq hdesc, bind_eq_ok.2 ⟨m1, hd, rfl⟩⟩,
      hm.pushJava hR _⟩
  | ldc index =>
    obtain ⟨v, hv, hn⟩ := bind_eq_ok.1 hn
    cases hn
    obtain ⟨hv, hfixed⟩ := constantType_within (j := site i) hpq hv
    exact ⟨_, bind_eq_ok.2 ⟨v, hv, rfl⟩, h.pushSelf hR hfixed⟩
  | jump op target =>
    simp only [execute] at hn ⊢
    by_cases h1 : op = Op.goto
    · rw [if_pos h1] at hn ⊢
      cases hn
      exact ⟨m, rfl, h⟩
    rw [if_neg h1] at hn ⊢
    by_cases h2 : Op.between Op.ifIcmpeq Op.ifAcmpne op = true
    · rw [if_pos h2] at hn ⊢
      exact h.dropSlots hn
    · rw [if_neg h2] at hn ⊢
      exact h.dropSlots hn
  | tableSwitch fallback low targets => exact h.dropSlots hn
  | lookupSwitch fallback pairs => exact h.dropSlots hn
  | multiNewArray index dims =>
    obtain ⟨n1, hd, hn⟩ := bind_eq_ok.1 hn
    obtain ⟨name, hname, hn⟩ := bind_eq_ok.1 hn
    cases hn
    obtain ⟨m1, hd, hm⟩ := h.dropSlots (j := site i) hd
    have hname' : (q.className index).mapError CodeError.format = .ok name :=
      mapError_eq_ok.2 (hpq.className (mapError_eq_ok.1 hname))
    exact ⟨_, bind_eq_ok.2 ⟨m1, hd, bind_eq_ok.2 ⟨name, hname', rfl⟩⟩, hm.pushSelf hR nofun⟩

end Transfer

/-! ## The order of types -/

namespace VType

theorem accepts_elementType {h : Hierarchy} (hl : h.Lawful) {w v : VType} (ha : Accepts h w v) :
    Accepts h (Machine.elementType w) (Machine.elementType v) := by
  rcases accepts_cases ha with rfl | ⟨x, rfl, rfl | ⟨y, rfl, hy⟩⟩
  · exact .refl h _
  · simp only [Machine.elementType]
    split <;> exact accepts_null h _
  · by_cases hxy : x = y
    · rw [hxy]
      exact .refl h _
    · -- only a class accepts an object of another name
      have hx : isArrayName x = false := by
        rcases h.join_cases hl x y with ⟨e, -, -⟩ | ⟨-, -, hj⟩ | ⟨hx, -, -⟩
        · exact absurd e hxy
        · rw [← hy, hj]
          exact Hierarchy.isArrayName_objectClass
        · exact hx
      simp only [Machine.elementType, hx, Bool.false_eq_true, if_false]
      split
      · rw [accepts_object, h.join_comm hl, h.join_objectClass hl]
      · exact .refl h _

/-- Instructions respect the order of types. -/
theorem accepts_respected {h : Hierarchy} (hl : h.Lawful) :
    Respected id (fun v w => Accepts h w v) where
  self v _ := .refl h v
  wide ha := by
    rcases accepts_cases ha with rfl | ⟨x, rfl, rfl | ⟨y, rfl, -⟩⟩ <;> rfl
  reference ha := by
    rcases accepts_cases ha with rfl | ⟨x, rfl, rfl | ⟨y, rfl, -⟩⟩ <;> rfl
  element ha := accepts_elementType hl ha
  this ha := by
    rcases accepts_cases ha with rfl | ⟨x, rfl, rfl | ⟨y, rfl, -⟩⟩ <;> simp
  made ha := by
    rcases accepts_cases ha with rfl | ⟨x, rfl, rfl | ⟨y, rfl, -⟩⟩ <;> simp
  maker ha := by
    rcases accepts_cases ha with rfl | ⟨x, -, h0 | ⟨y, h0, -⟩⟩
    · exact ⟨_, rfl⟩
    · cases h0
    · cases h0

end VType

end Interpose
