import Interpose.Proofs.Weave.Lifting
/-!
# Heights in reports

How many slots are on the stack in front of each template of a report, and behind the last
(`Template.CountsAll`). A report takes away what it has put on the stack, so it leaves as many slots as it
has found; behind a `goto` stands a handler, which finds the thrown object alone. Of every run of templates
the heights are listed (`CountsAll.heights`), and each template finds what it takes.
-/

namespace Interpose

namespace Template

/-- The template takes no more slots than it finds, and leaves so many for the next one. -/
def Counts (q : Pool) (t : Template) (n n' : Nat) : Prop :=
  ∀ i, t.Settles q i → ∃ e : SlotEffect, i.effect q = some e ∧ e.taken ≤ n ∧
    (i.isTerminal = false → n - e.taken + e.pushed = n')

/-- Templates that find so many slots on the stack and leave so many. -/
inductive CountsAll (q : Pool) : List Template → Nat → Nat → Prop
  | nil {n} : CountsAll q [] n n
  | cons {t ts n n' n''} : t.leads = [] → t.Counts q n n' → CountsAll q ts n' n'' →
    CountsAll q (t :: ts) n n''
  | past {o l taken between ts n n'} : o ≠ Op.goto → (Insn.jump o l).effect q = some ⟨taken, 0⟩ →
    CountsAll q between n n → CountsAll q ts n n' →
    CountsAll q (jump o l :: (between ++ place l :: ts)) (n + taken) n'
  | around {l between ts n n'} : CountsAll q between 1 n → CountsAll q ts n n' →
    CountsAll q (jump Op.goto l :: (between ++ place l :: ts)) n n'

/-- The heights of the stack in front of templates, and behind the last. -/
structure Heights (q : Pool) (ts : List Template) (hs : List Nat) : Prop where
  length : hs.length = ts.length + 1
  steps : ∀ (j : Nat) t i n, ts[j]? = some t → t.Settles q i → hs[j]? = some n →
    ∃ e : SlotEffect, i.effect q = some e ∧ e.taken ≤ n ∧
      (i.isTerminal = false → hs[j + 1]? = some (n - e.taken + e.pushed)) ∧
      ∀ l ∈ i.targets, ∃ k : Nat, ts[k]? = some (place l) ∧ hs[k]? = some (n - e.taken + e.pushed)
  handlers : ∀ (j : Nat) l, ts[j]? = some (jump Op.goto l) → hs[j + 1]? = some 1

variable {q : Pool} {t : Template} {ts ts' : List Template} {n n' n'' : Nat} {hs hs' : List Nat}

namespace Heights

theorem nil (n : Nat) : Heights q [] [n] :=
  ⟨rfl, nofun, nofun⟩

theorem cons (h : Heights q ts hs) (ht : ∀ i, t.Settles q i → ∃ e : SlotEffect, i.effect q = some e ∧
      e.taken ≤ n ∧ (i.isTerminal = false → hs[0]? = some (n - e.taken + e.pushed)) ∧
      ∀ l ∈ i.targets, ∃ k : Nat, ts[k]? = some (place l) ∧ hs[k]? = some (n - e.taken + e.pushed))
    (hgoto : ∀ l, t = jump Op.goto l → hs[0]? = some 1) : Heights q (t :: ts) (n :: hs) := by
  refine ⟨congrArg Nat.succ h.length, fun j x i m hx hi hm => ?_, fun j l hj => ?_⟩
  · cases j with
    | zero =>
      cases hx
      cases hm
      obtain ⟨e, he, htaken, hnext, htargets⟩ := ht i hi
      exact ⟨e, he, htaken, hnext, fun l hl => (htargets l hl).imp' Nat.succ fun _ => id⟩
    | succ j =>
      obtain ⟨e, he, htaken, hnext, htargets⟩ := h.steps j x i m hx hi hm
      exact ⟨e, he, htaken, hnext, fun l hl => (htargets l hl).imp' Nat.succ fun _ => id⟩
  · cases j with
    | zero => exact hgoto l (Option.some.inj hj)
    | succ j => exact h.handlers j l hj

theorem append (h : Heights q ts hs) (h' : Heights q ts' hs') (hjoin : hs[ts.length]? = hs'[0]?) :
    Heights q (ts ++ ts') (hs.take ts.length ++ hs') := by
  have hlength : (hs.take ts.length).length = ts.length := by
    rw [List.length_take, h.length]
    omega
  have front {j : Nat} (hj : j ≤ ts.length) : (hs.take ts.length ++ hs')[j]? = hs[j]? := by
    rcases Nat.lt_or_eq_of_le hj with hlt | rfl
    · rw [List.getElem?_append_left (by rw [hlength]; exact hlt), List.getElem?_take_of_lt hlt]
    · rw [List.getElem?_append_right (Nat.le_of_eq hlength), hlength, Nat.sub_self, hjoin]
  have back (j : Nat) : (hs.take ts.length ++ hs')[ts.length + j]? = hs'[j]? := by
    rw [List.getElem?_append_right (by omega), hlength, Nat.add_sub_cancel_left]
  refine ⟨?_, fun j x i m hx hi hm => ?_, fun j l hj => ?_⟩
  · rw [List.length_append, hlength, h'.length, List.length_append, Nat.add_assoc]
  · rcases Nat.lt_or_ge j ts.length with hlt | hge
    · rw [List.getElem?_append_left hlt] at hx
      rw [front (Nat.le_of_lt hlt)] at hm
      obtain ⟨e, he, htaken, hnext, htargets⟩ := h.steps j x i m hx hi hm
      refine ⟨e, he, htaken, fun hon => (front hlt).trans (hnext hon), fun l hl => ?_⟩
      obtain ⟨k, hk, hkn⟩ := htargets l hl
      have hklt := (List.getElem?_eq_some_iff.1 hk).1
      exact ⟨k, (List.getElem?_append_left hklt).trans hk, (front (Nat.le_of_lt hklt)).trans hkn⟩
    · obtain ⟨j, rfl⟩ := Nat.exists_eq_add_of_le hge
      rw [List.getElem?_append_right hge, Nat.add_sub_cancel_left] at hx
      rw [back] at hm
      obtain ⟨e, he, htaken, hnext, htargets⟩ := h'.steps j x i m hx hi hm
      refine ⟨e, he, htaken, fun hon => ?_, fun l hl => ?_⟩
      · rw [Nat.add_assoc, back]
        exact hnext hon
      · obtain ⟨k, hk, hkn⟩ := htargets l hl
        refine ⟨ts.length + k, ?_, (back k).trans hkn⟩
        rw [List.getElem?_append_right (Nat.le_add_right _ _), Nat.add_sub_cancel_left, hk]
  · rcases Nat.lt_or_ge j ts.length with hlt | hge
    · rw [List.getElem?_append_left hlt] at hj
      rw [front hlt]
      exact h.handlers j l hj
    · obtain ⟨j, rfl⟩ := Nat.exists_eq_add_of_le hge
      rw [List.getElem?_append_right hge, Nat.add_sub_cancel_left] at hj
      rw [Nat.add_assoc, back]
      exact h'.handlers j l hj

/-- A jump past templates that end at the height in front of it. What stands behind a `goto` is only entered
by an exception. -/
theorem jump {o : Opcode} {l : Label} {between : List Template} {taken m : Nat}
    (he : (Insn.jump o l).effect q = some ⟨taken, 0⟩) (hm : m = if o = Op.goto then 1 else n)
    (hb : Heights q between hs) (hs0 : hs[0]? = some m) (hsn : hs[between.length]? = some n)
    (h : Heights q ts hs') (hs0' : hs'[0]? = some n) (hsn' : hs'[ts.length]? = some n') :
    ∃ hs, Heights q (Template.jump o l :: (between ++ place l :: ts)) hs ∧ hs[0]? = some (n + taken) ∧
      hs[(Template.jump o l :: (between ++ place l :: ts)).length]? = some n' := by
  have hplaced : Heights q (place l :: ts) (n :: hs') := by
    refine h.cons (fun i hi => ?_) fun _ hl => Insn.noConfusion (Template.plain.inj hl)
    cases hi
    exact ⟨⟨0, 0⟩, rfl, Nat.zero_le n, fun _ => hs0', nofun⟩
  have hlength : (hs.take between.length).length = between.length := by
    rw [List.length_take, hb.length]
    omega
  have hfirst : (hs.take between.length ++ n :: hs')[0]? = some m := by
    cases between with
    | nil => exact hsn.symm.trans hs0
    | cons x xs =>
      have hpos : 0 < (x :: xs).length := Nat.succ_pos _
      rw [List.getElem?_append_left (by rw [hlength]; exact hpos), List.getElem?_take_of_lt hpos, hs0]
  refine ⟨(n + taken) :: (hs.take between.length ++ n :: hs'),
    (hb.append hplaced hsn).cons (fun i hi => ?_) fun l' hl => ?_, rfl, ?_⟩
  · cases hi
    refine ⟨⟨taken, 0⟩, he, Nat.le_add_left _ _, fun hon => ?_, fun l' hl => ?_⟩
    · have ho : o ≠ Op.goto := by
        rintro rfl
        cases hon
      rw [hfirst, hm, if_neg ho, Nat.add_sub_cancel]
      rfl
    · rw [List.mem_singleton.1 hl, Nat.add_sub_cancel]
      refine ⟨between.length, ?_, ?_⟩
      · rw [List.getElem?_append_right (Nat.le_refl _), Nat.sub_self]
        rfl
      · rw [List.getElem?_append_right (Nat.le_of_eq hlength), hlength, Nat.sub_self]
        rfl
  · rw [hfirst, hm, if_pos (Insn.jump.inj (Template.plain.inj hl)).1]
  · rw [List.length_cons, List.getElem?_cons_succ, List.length_append, List.length_cons,
      List.getElem?_append_right (by omega), hlength, Nat.add_sub_cancel_left]
    exact hsn'

end Heights

/-- A mark takes and leaves nothing. -/
theorem counts_place (l : Label) : (place l).Counts q n n := by
  intro i hi
  cases hi
  exact ⟨⟨0, 0⟩, rfl, Nat.zero_le n, fun _ => rfl⟩

namespace CountsAll

theorem append (h : CountsAll q ts n n') (h' : CountsAll q ts' n' n'') : CountsAll q (ts ++ ts') n n'' := by
  induction h with
  | nil => exact h'
  | cons ht hcounts _ ih => exact .cons ht hcounts (ih h')
  | past ho he hbetween _ _ ih =>
    rw [List.cons_append, List.append_assoc]
    exact .past ho he hbetween (ih h')
  | around hbetween _ _ ih =>
    rw [List.cons_append, List.append_assoc]
    exact .around hbetween (ih h')

/-- Runs that leave as many slots as they find do so together. -/
theorem flatMap {α : Type} {xs : List α} {f : α → List Template} (h : ∀ x ∈ xs, CountsAll q (f x) n n) :
    CountsAll q (xs.flatMap f) n n := by
  induction xs with
  | nil => exact .nil
  | cons x xs ih =>
    rw [List.flatMap_cons]
    exact (h x (List.mem_cons_self ..)).append (ih fun y hy => h y (List.mem_cons_of_mem _ hy))

/-- The heights of counted templates are listed. -/
theorem heights (h : CountsAll q ts n n') :
    ∃ hs, Heights q ts hs ∧ hs[0]? = some n ∧ hs[ts.length]? = some n' := by
  induction h with
  | @nil n => exact ⟨[n], .nil n, rfl, rfl⟩
  | @cons t ts n n' n'' ht hcounts _ ih =>
    obtain ⟨hs, hheights, hs0, hsn⟩ := ih
    refine ⟨n :: hs, hheights.cons (fun i hi => ?_) fun l hl => ?_, rfl, hsn⟩
    · obtain ⟨e, he, htaken, hnext⟩ := hcounts i hi
      refine ⟨e, he, htaken, fun hon => by rw [hs0, hnext hon], fun l hl => ?_⟩
      rw [hi.targets, ht] at hl
      cases hl
    · rw [hl] at ht
      cases ht
  | past ho he _ _ ihb ih =>
    obtain ⟨hs, hb, hs0, hsn⟩ := ihb
    obtain ⟨hs', h, hs0', hsn'⟩ := ih
    exact Heights.jump he (if_neg ho).symm hb hs0 hsn h hs0' hsn'
  | @around l _ _ _ _ _ _ ihb ih =>
    obtain ⟨hs, hb, hs0, hsn⟩ := ihb
    obtain ⟨hs', h, hs0', hsn'⟩ := ih
    have he : (Insn.jump Op.goto l).effect q = some ⟨0, 0⟩ := rfl
    exact Heights.jump he (if_pos rfl).symm hb hs0 hsn h hs0' hsn'

end CountsAll

/-! ## Templates -/

theorem counts_of_effect {t : Template} (taken pushed : Nat)
    (h : ∀ i, t.Settles q i → i.effect q = some ⟨taken, pushed⟩) : t.Counts q (n + taken) (n + pushed) :=
  fun i hi => ⟨_, h i hi, Nat.le_add_left _ _, fun _ => by rw [Nat.add_sub_cancel]⟩

/-- Behind a template that leaves, any height will do. -/
theorem counts_leaving {t : Template} (taken : Nat) (ht : t.onward = false)
    (h : ∀ i, t.Settles q i → i.effect q = some ⟨taken, 0⟩) : t.Counts q (n + taken) n' := by
  intro i hi
  refine ⟨_, h i hi, Nat.le_add_left _ _, fun hon => ?_⟩
  rw [hi.isTerminal, ht] at hon
  cases hon

theorem counts_op {o : Opcode} (taken pushed : Nat) (h : Op.effect o = some ⟨taken, pushed⟩) :
    (op o).Counts q (n + taken) (n + pushed) :=
  counts_of_effect taken pushed fun i hi => by cases hi; exact h

theorem counts_var {o : Opcode} {slot : UInt16} (taken pushed : Nat)
    (h : (Insn.var o slot).effect q = some ⟨taken, pushed⟩) : (var o slot).Counts q (n + taken) (n + pushed) :=
  counts_of_effect taken pushed fun i hi => by cases hi; exact h

theorem counts_pushInt (v : Int32) : (pushInt v).Counts q n (n + 1) := by
  refine counts_of_effect 0 1 fun i hi => ?_
  cases hi with
  | small h h' =>
    generalize v.toInt = m at h h'
    have : m = -1 ∨ m = 0 ∨ m = 1 ∨ m = 2 ∨ m = 3 ∨ m = 4 ∨ m = 5 := by omega
    rcases this with rfl | rfl | rfl | rfl | rfl | rfl | rfl <;> rfl
  | byte => rfl
  | short => rfl
  | integer h => simp only [Insn.effect, Pool.loadedSlots, h, Option.map_some]

theorem counts_pushString (text : String) : (pushString text).Counts q n (n + 1) := by
  refine counts_of_effect 0 1 fun i hi => ?_
  cases hi with
  | string h _ => simp only [Insn.effect, Pool.loadedSlots, h, Option.map_some]

theorem counts_type {o : Opcode} (ho : o ≠ Op.newObject) (name : String) :
    (type o name).Counts q (n + 1) (n + 1) := by
  refine counts_of_effect 1 1 fun i hi => ?_
  cases hi
  exact congrArg some (if_neg ho)

theorem counts_getfield {f : MemberRef} {t : JavaType} (ht : JavaType.ofDescriptor f.descriptor = .ok t) :
    (field Op.getfield f).Counts q (n + 1) (n + t.slots) := by
  refine counts_of_effect 1 t.slots fun i hi => ?_
  cases hi with
  | field h =>
    simp only [Insn.effect, bind_toOption h, bind_toOption ht]
    rfl

theorem counts_invokestatic {m : MemberRef} (taken pushed : Nat)
    (h : (MethodDescriptor.ofDescriptor m.descriptor).toOption.any (·.effect = ⟨taken, pushed⟩) = true) :
    (method Op.invokestatic m).Counts q (n + taken) (n + pushed) := by
  obtain ⟨d, hd, heffect⟩ := any_toOption.1 h
  refine counts_of_effect taken pushed fun i hi => ?_
  cases hi with
  | method hm =>
    simp only [Insn.effect, bind_toOption hm, bind_toOption hd, of_decide_eq_true heffect]
    rfl

/-- A method without parameters, on an object. -/
theorem counts_invokevirtual {m : MemberRef} (pushed : Nat)
    (h : (MethodDescriptor.ofDescriptor m.descriptor).toOption.any (·.effect = ⟨0, pushed⟩) = true) :
    (method Op.invokevirtual m).Counts q (n + 1) (n + pushed) := by
  obtain ⟨d, hd, heffect⟩ := any_toOption.1 h
  refine counts_of_effect 1 pushed fun i hi => ?_
  cases hi with
  | method hm =>
    simp only [Insn.effect, bind_toOption hm, bind_toOption hd, of_decide_eq_true heffect]
    rfl

theorem counts_invocation (k : EventKind) :
    (Block.invocation k).Counts q (n + (Spy.parameterTypes k).length) (n + 1) := by
  obtain ⟨d, hd, heffect⟩ := effect_dispatch k
  refine counts_invokestatic _ 1 ?_
  rw [hd, ← heffect]
  exact decide_eq_true rfl

end Template

/-! ## Values -/

namespace JavaType

open Template

variable {q : Pool} {n n' : Nat} (t : JavaType)

theorem duplicating_counts : CountsAll q t.duplicating (n + t.slots) (n + t.slots + t.slots) := by
  have one : CountsAll q [op Op.dup] (n + 1) (n + 1 + 1) := .cons rfl (counts_op 1 2 rfl) .nil
  have two : CountsAll q [op Op.dup2] (n + 2) (n + 2 + 2) := .cons rfl (counts_op 2 4 rfl) .nil
  cases t with
  | void => exact .nil
  | long | double => exact two
  | _ => exact one

theorem boxing_counts : CountsAll q t.boxing (n + t.slots) (n + 1) := by
  have wrap {wrapper descriptor : String} {taken : Nat} (h : (MethodDescriptor.ofDescriptor
      descriptor).toOption.any (·.effect = ⟨taken, 1⟩) = true) :
      CountsAll q [.method Op.invokestatic ⟨wrapper, "valueOf", descriptor⟩] (n + taken) (n + 1) :=
    .cons rfl (counts_invokestatic taken 1 h) .nil
  cases t with
  | void => exact .cons rfl (counts_op 0 1 rfl) .nil
  | object name | array component => exact .nil
  | _ => exact wrap (by decide +kernel)

theorem unboxing_counts : CountsAll q t.unboxing (n + 1) (n + t.slots) := by
  have ask {owner name descriptor : String} {pushed : Nat} (h : (MethodDescriptor.ofDescriptor
      descriptor).toOption.any (·.effect = ⟨0, pushed⟩) = true) :
      CountsAll q (unwrapping owner name descriptor) (n + 1) (n + pushed) :=
    .cons rfl (counts_type (by decide) _) (.cons rfl (counts_invokevirtual pushed h) .nil)
  have cast (c : String) :
      CountsAll q (if c = objectClass then [] else [.type Op.checkcast c]) (n + 1) (n + 1) := by
    split
    · exact .nil
    · exact .cons rfl (counts_type (by decide) _) .nil
  cases t with
  | void => exact .cons rfl (counts_op 1 0 rfl) .nil
  | object name => exact cast name
  | array component => exact cast _
  | _ => exact ask (by decide +kernel)

theorem effect_returnOpcode : Op.effect t.returnOpcode = some ⟨t.slots, 0⟩ := by
  cases t <;> rfl

theorem counts_returnOpcode : (op t.returnOpcode).Counts q (n + t.slots) n' :=
  counts_leaving t.slots (by cases t <;> rfl) fun i hi => by cases hi; exact t.effect_returnOpcode

variable {t} (ht : t ≠ void)
include ht

theorem counts_load (slot : UInt16) : (var t.loadOpcode slot).Counts q n (n + t.slots) := by
  refine counts_var 0 t.slots ?_
  cases t with
  | void => exact absurd rfl ht
  | _ => rfl

theorem counts_store (slot : UInt16) : (var t.storeOpcode slot).Counts q (n + t.slots) n := by
  refine counts_var t.slots 0 ?_
  cases t with
  | void => exact absurd rfl ht
  | _ => rfl

end JavaType

/-! ## Reports -/

namespace WeaveSite

open Template

variable (s : WeaveSite) {q : Pool} {n n' : Nat}

theorem verdictCheck_counts (t : JavaType) (l l' : Label) :
    CountsAll q (Block.verdictCheck t l l') (n + 1) n := by
  have hstate : JavaType.ofDescriptor Spy.stateField.descriptor = .ok .int := by decide +kernel
  have hvalue : JavaType.ofDescriptor Spy.valueField.descriptor = .ok (.object objectClass) := by
    decide +kernel
  have hifne (l : Label) : (Insn.jump Op.ifIcmpne l).effect q = some ⟨2, 0⟩ := rfl
  have hthrow : CountsAll q (.pushInt Spy.stateThrow :: .jump Op.ifIcmpne l' ::
      ([Template.field Op.getfield Spy.valueField, .type Op.checkcast throwableClass, .op Op.athrow] ++
        .place l' :: [.op Op.pop])) (n + 2) n :=
    .cons rfl (counts_pushInt _) (.past (n := n + 1) (by decide) (hifne l')
      (.cons rfl (counts_getfield hvalue) (.cons rfl (counts_type (by decide) _)
        (.cons rfl (counts_leaving 1 rfl fun i hi => by cases hi; rfl) .nil)))
      (.cons rfl (counts_op 1 0 rfl) .nil))
  have hreturns : CountsAll q ([Template.op Op.pop, .field Op.getfield Spy.valueField] ++
      (t.unboxing ++ [Template.op t.returnOpcode])) (n + 2) (n + 2) :=
    .cons rfl (counts_op 1 0 rfl) (.cons rfl (counts_getfield hvalue) ((t.unboxing_counts (n := n)).append
      (.cons rfl t.counts_returnOpcode .nil)))
  have hreturn := CountsAll.past (by decide) (hifne l) hreturns hthrow
  have hall := CountsAll.cons (t := .op Op.dup) rfl (counts_op (n := n) 1 2 rfl)
    (.cons (t := .field Op.getfield Spy.stateField) rfl (counts_getfield (n := n + 1) hstate)
      (.cons (t := .op Op.dup) rfl (counts_op (n := n + 1) 1 2 rfl)
        (.cons (t := .pushInt Spy.stateReturn) rfl (counts_pushInt (n := n + 3) _) hreturn)))
  simpa [Block.verdictCheck] using hall

/-- A report takes its own operands away. -/
theorem report_counts {k : EventKind} {m : Nat} (hk : (Spy.parameterTypes k).length = m + 2) (l : Label) :
    CountsAll q (s.report k l) (n + m) n := by
  have hcall := counts_invocation (q := q) (n := n) k
  rw [hk] at hcall
  exact .cons rfl (counts_pushString _) (.cons rfl (counts_pushInt _) (.cons rfl hcall
    (verdictCheck_counts _ _ _)))

theorem opening_counts : CountsAll q Marker.opening n n :=
  .cons rfl (counts_op 0 1 rfl) (.cons rfl (counts_op 1 0 rfl) .nil)

theorem closing_counts : CountsAll q Marker.closing n n :=
  .cons rfl (counts_op 0 1 rfl) (.cons rfl (counts_op 1 0 rfl) .nil)

theorem around_counts {ts : List Template} (h : CountsAll q ts n n') : CountsAll q (Marker.around ts) n n' :=
  opening_counts.append (h.append closing_counts)

theorem packing_counts {parameters : List (JavaType × UInt16)} (hvoid : ∀ p ∈ parameters, p.1 ≠ .void) :
    CountsAll q (Block.packing parameters) n (n + 1) := by
  have element {t : JavaType} (ht : t ≠ .void) (slot : UInt16) (i : Nat) :
      CountsAll q ([Template.op Op.dup, .pushInt (Int32.ofNat i), .var t.loadOpcode slot] ++ t.boxing ++
        [Template.op Op.aastore]) (n + 1) (n + 1) :=
    (CountsAll.append (.cons rfl (counts_op 1 2 rfl) (.cons rfl (counts_pushInt _)
        (.cons rfl (t.counts_load ht slot) .nil))) t.boxing_counts).append
      (.cons rfl (counts_op (n := n + 1) 3 0 rfl) .nil)
  have elements := CountsAll.flatMap fun x (hx : x ∈ parameters.zipIdx) =>
    element (hvoid x.1 (List.fst_mem_of_mem_zipIdx hx)) x.1.2 x.2
  exact .cons rfl (counts_pushInt _) (.cons rfl (counts_type (by decide) _) elements)

theorem unpacking_counts (arguments : UInt16) {parameters : List (JavaType × UInt16)}
    (hvoid : ∀ p ∈ parameters, p.1 ≠ .void) : CountsAll q (Block.unpacking arguments parameters) n n := by
  have element {t : JavaType} (ht : t ≠ .void) (slot : UInt16) (i : Nat) :
      CountsAll q ([Template.var Op.aload arguments, .pushInt (Int32.ofNat i), .op Op.aaload] ++ t.unboxing ++
        [Template.var t.storeOpcode slot]) n n :=
    (CountsAll.append (.cons rfl (counts_var 0 1 rfl) (.cons rfl (counts_pushInt _)
        (.cons rfl (counts_op 2 1 rfl) .nil))) t.unboxing_counts).append
      (.cons rfl (t.counts_store ht slot) .nil)
  exact CountsAll.flatMap fun x (hx : x ∈ parameters.zipIdx) =>
    element (hvoid x.1 (List.fst_mem_of_mem_zipIdx hx)) x.1.2 x.2

theorem parameters_ne_void (hvoid : ∀ t ∈ s.context.descriptor.parameters, t ≠ .void) :
    ∀ p ∈ s.parameters, p.1 ≠ .void := by
  suffices ∀ ts : List JavaType, (∀ t ∈ ts, t ≠ .void) → ∀ first, ∀ p ∈ Block.parameterSlots first ts,
      p.1 ≠ .void from this _ hvoid _
  intro ts hts
  induction ts with
  | nil => nofun
  | cons t ts ih =>
    intro first p hp
    rcases List.mem_cons.1 hp with rfl | hp
    · exact hts _ (List.mem_cons_self ..)
    · exact ih (fun t ht => hts t (List.mem_cons_of_mem _ ht)) _ p hp

theorem startReport_counts (hvoid : ∀ t ∈ s.context.descriptor.parameters, t ≠ .void) (arguments : UInt16)
    (l : Label) : CountsAll q (s.startReport arguments l) n n := by
  have hparameters := s.parameters_ne_void hvoid
  have hreceiver : (if s.context.isStatic = true then op Op.aconstNull else var Op.aload 0).Counts q (n + 7)
      (n + 8) := by
    split
    · exact counts_op 0 1 rfl
    · exact counts_var 0 1 rfl
  have hleads : (if s.context.isStatic = true then op Op.aconstNull else var Op.aload 0).leads = [] := by
    split <;> rfl
  have hdispatch : CountsAll q (Block.beforeDispatch s.plan s.context.name s.context.descriptor.descriptor
      s.context.isStatic arguments) (n + 1) (n + 1) :=
    .cons rfl (counts_var 1 0 rfl) (.cons rfl (counts_var 0 1 rfl) (.cons rfl (counts_pushString _)
      (.cons rfl (counts_pushInt _) (.cons rfl (counts_pushInt _) (.cons rfl (counts_pushString _)
        (.cons rfl (counts_pushString _) (.cons rfl (counts_pushString _) (.cons hleads hreceiver
          (.cons rfl (counts_invocation (n := n) .before) .nil)))))))))
  exact around_counts ((packing_counts hparameters).append (hdispatch.append
    ((verdictCheck_counts _ _ _).append (unpacking_counts arguments hparameters))))

theorem returnReport_counts (l : Label) :
    CountsAll q (s.returnReport l) (n + s.returnType.slots) (n + s.returnType.slots) :=
  around_counts ((s.returnType.duplicating_counts.append s.returnType.boxing_counts).append
    (s.report_counts rfl l))

theorem lineReport_counts (number : UInt16) (l : Label) : CountsAll q (s.lineReport number l) n n :=
  around_counts (.cons rfl (counts_pushInt _) (s.report_counts rfl l))

theorem callBeforeReport_counts (line : Int32) (m : MemberRef) (l : Label) :
    CountsAll q (s.callBeforeReport line m l) n n :=
  around_counts (.cons rfl (counts_pushInt _) (.cons rfl (counts_pushString _)
    (.cons rfl (counts_pushString _) (.cons rfl (counts_pushString _) (s.report_counts (m := 4) rfl l)))))

theorem callReturnReport_counts (l : Label) : CountsAll q (s.callReturnReport l) n n := by
  unfold callReturnReport
  split
  · exact around_counts (s.report_counts (m := 0) rfl l)
  · exact .nil

theorem callThrowsReport_counts (l : Label) : CountsAll q (s.callThrowsReport l) (n + 1) (n + 1) :=
  around_counts (.cons rfl (counts_op 1 2 rfl) (.cons rfl (counts_invokevirtual 1 (by decide +kernel))
    (.cons rfl (counts_invokevirtual 1 (by decide +kernel)) (s.report_counts (n := n + 1) (m := 1) rfl l))))

theorem throwsReport_counts (thrown : UInt16) (l : Label) : CountsAll q (s.throwsReport thrown l) (n + 1) n' :=
  opening_counts.append (.cons rfl (counts_var 1 0 rfl) (.cons rfl (counts_var 0 1 rfl)
    ((s.report_counts (m := 1) rfl l).append (closing_counts.append (.cons rfl (counts_var 0 1 rfl)
      (.cons rfl (counts_leaving 1 rfl fun i hi => by cases hi; rfl) .nil))))))

theorem guardedBack_counts (l : Nat) : CountsAll q (s.guardedBack l) n n := by
  have hthrows : CountsAll q (.place (l + 2) :: (s.callThrowsReport (l + 4 + s.callReturnLabels) ++
      [.op Op.athrow])) 1 n :=
    .cons rfl (counts_place _) ((s.callThrowsReport_counts (n := 0) _).append
      (.cons rfl (counts_leaving 1 rfl fun i hi => by cases hi; rfl) .nil))
  have hall := CountsAll.cons (t := .place (l + 1)) rfl (counts_place _)
    ((s.callReturnReport_counts (l + 4)).append (.around (l := l + 3) hthrows .nil))
  simpa [guardedBack] using hall

theorem guardedSegment_counts (i : Insn) (l : Nat) :
    CountsAll q (s.guardedSegment i l).front n n ∧ CountsAll q (s.guardedSegment i l).back n' n' := by
  unfold guardedSegment
  split
  · exact ⟨.cons rfl (counts_place l) .nil, s.guardedBack_counts l⟩
  · exact ⟨.nil, s.callReturnReport_counts l⟩

/-- What is woven around an instruction leaves as many slots as it finds, if the operands of a return are
there. -/
theorem segment_counts (p : Position) (l : Nat) (m : MemberRef) {i : Insn}
    (hreturn : ∀ o, i = .simple o → Op.isReturn o = true → s.returnType.slots ≤ n) :
    CountsAll q (s.segment p l m i).front n n ∧ CountsAll q (s.segment p l m i).back n' n' := by
  cases i with
  | line number =>
    unfold segment
    simp only
    split
    · exact ⟨.nil, s.lineReport_counts number l⟩
    · exact ⟨.nil, .nil⟩
  | simple o =>
    unfold segment
    simp only
    split
    · rename_i hreports
      simp only [Bool.and_eq_true] at hreports
      have hslots := hreturn o rfl hreports.1.1
      refine ⟨?_, .nil⟩
      rw [← Nat.sub_add_cancel hslots]
      exact s.returnReport_counts l
    · exact ⟨.nil, .nil⟩
  | method o index =>
    unfold segment callSegment
    simp only
    split
    · split
      · have hguarded : CountsAll q (s.guardedSegment (.method o index) (l + 2)).front n n ∧
            CountsAll q (s.guardedSegment (.method o index) (l + 2)).back n' n' := s.guardedSegment_counts _ _
        exact ⟨(s.callBeforeReport_counts _ _ _).append hguarded.1, hguarded.2⟩
      · exact s.guardedSegment_counts _ l
    · exact ⟨.nil, .nil⟩
  | _ => exact ⟨.nil, .nil⟩

end WeaveSite

end Interpose
