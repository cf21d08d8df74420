import Mathlib.Logic.Function.Iterate
import Interpose.Proofs.Pool.Interning
import Interpose.Weave.Emission
/-!
# What emitting leaves behind

Emitting templates puts instructions that settle them behind those that are there (`block_ends`). The
constants the instructions name are in the pool from then on, and failures are for want of room in it.
`Emission.Gains` adds up what a sequence of emissions has done: code, labels, local variables and
protected ranges.
-/

namespace Interpose

/-- The instruction is the template with its constants at slots of the pool. -/
inductive Template.Settles (q : Pool) : Template → Insn → Prop
  | plain (i : Insn) : Settles q (.plain i) i
  | small {n : Int32} : -1 ≤ n.toInt → n.toInt ≤ 5 →
    Settles q (.pushInt n) (.simple (UInt8.ofNat (Op.iconst0.toNat + n.toInt).toNat))
  | byte {n : Int32} : -128 ≤ n.toInt → n.toInt ≤ 127 → Settles q (.pushInt n) (.int Op.bipush n)
  | short {n : Int32} : -32768 ≤ n.toInt → n.toInt ≤ 32767 →
    Settles q (.pushInt n) (.int Op.sipush n)
  | integer {n : Int32} {index : UInt16} : q.get index = .ok (.integer n) →
    Settles q (.pushInt n) (.ldc index)
  | string {text : String} {index t : UInt16} : q.get index = .ok (.stringRef t) →
    q.getUtf8 t = .ok text → Settles q (.pushString text) (.ldc index)
  | type {op : Opcode} {name : String} {index : UInt16} : q.className index = .ok name →
    Settles q (.type op name) (.type op index)
  | field {op : Opcode} {f : MemberRef} {index : UInt16} : q.memberRef index = .ok f →
    Settles q (.field op f) (.field op index)
  | method {op : Opcode} {m : MemberRef} {index : UInt16} : q.memberRef index = .ok m →
    Settles q (.method op m) (.method op index)

/-- Instructions that settle templates, one by one. -/
abbrev Template.SettleAll (q : Pool) : List Template → List Insn → Prop :=
  List.Forall₂ (Template.Settles q)

namespace Template

theorem Settles.within {p q : Pool} (hpq : p.Within q) {t : Template} {i : Insn}
    (h : t.Settles p i) : t.Settles q i := by
  cases h with
  | plain i => exact .plain i
  | small h1 h2 => exact .small h1 h2
  | byte h1 h2 => exact .byte h1 h2
  | short h1 h2 => exact .short h1 h2
  | integer h => exact .integer (hpq _ _ h)
  | string h ht => exact .string (hpq _ _ h) (hpq.getUtf8 ht)
  | type h => exact .type (hpq.className h)
  | field h => exact .field (hpq.memberRef h)
  | method h => exact .method (hpq.memberRef h)

theorem settle_ends {p : Pool} (hp : p.Sound) (t : Template) :
    Ends p t.settle (fun i q => p.Grows q ∧ t.Settles q i) FormatError.IsSize := by
  cases t with
  | plain i => exact .pure ⟨.refl hp, .plain i⟩
  | pushInt n =>
    unfold settle pushing
    by_cases h1 : -1 ≤ n.toInt ∧ n.toInt ≤ 5
    · simp only [h1, and_self, if_true]
      exact .pure ⟨.refl hp, .small h1.1 h1.2⟩
    · by_cases h2 : -128 ≤ n.toInt ∧ n.toInt ≤ 127
      · simp only [h1, h2, and_self, if_true, if_false]
        exact .pure ⟨.refl hp, .byte h2.1 h2.2⟩
      · by_cases h3 : -32768 ≤ n.toInt ∧ n.toInt ≤ 32767
        · simp only [h1, h2, h3, and_self, if_true, if_false]
          exact .pure ⟨.refl hp, .short h3.1 h3.2⟩
        · simp only [h1, h2, h3, if_false]
          exact (Pool.addInteger_ends hp n).bind fun i q h => .pure ⟨h.1, .integer h.2⟩
  | pushString text =>
    refine (Pool.addString_ends hp text).bind fun i q h => ?_
    obtain ⟨hq, t, hi, ht⟩ := h
    exact .pure ⟨hq, .string hi ht⟩
  | type op name =>
    exact (Pool.addClass_ends hp name).bind fun i q h => .pure ⟨h.1, .type h.2⟩
  | field op f =>
    exact (Pool.addFieldRef_ends hp f.owner f.name f.descriptor).bind fun i q h =>
      .pure ⟨h.1, .field h.2⟩
  | method op m =>
    exact (Pool.addMethodRef_ends hp m.owner m.name m.descriptor).bind fun i q h =>
      .pure ⟨h.1, .method h.2⟩

end Template

/-! ## Sums of emissions -/

/-- A protected range by its labels alone. -/
structure Range where
  start : Label
  stop : Label
  handler : Label

/-- The table entry is the range and catches everything that can be thrown. -/
structure Range.Settles (q : Pool) (r : Range) (t : TryCatch) : Prop where
  start : t.start = r.start
  stop : t.stop = r.stop
  handler : t.handler = r.handler
  catchType : q.className t.catchType = .ok throwableClass

theorem Range.Settles.within {p q : Pool} (hpq : p.Within q) {r : Range} {t : TryCatch}
    (h : r.Settles p t) : r.Settles q t :=
  ⟨h.start, h.stop, h.handler, hpq.className h.catchType⟩

namespace Emission

/-- The next free local variable and the number of local variables. -/
def room (e : Emission) : UInt16 × UInt16 :=
  (e.nextLocal, e.maxLocals)

def takeLocal (room : UInt16 × UInt16) : UInt16 × UInt16 :=
  (room.1 + 1, max room.2 (room.1 + 1))

/-- What has been emitted on the way from one state to another: instructions for templates, a number
of new labels and of new local variables, and ranges. -/
structure Gains (q : Pool) (e e' : Emission) (ts : List Template) (labels locals : Nat)
    (ranges : List Range) : Prop where
  insns : ∃ is, e'.insns.toList = e.insns.toList ++ is ∧ Template.SettleAll q ts is
  nextLabel : e'.nextLabel = e.nextLabel + labels
  room : e'.room = takeLocal^[locals] e.room
  callRanges : ∃ rs, e'.callRanges = e.callRanges ++ rs ∧ List.Forall₂ (Range.Settles q) ranges rs

theorem Gains.refl (q : Pool) (e : Emission) : Gains q e e [] 0 0 [] :=
  ⟨⟨[], by simp, .nil⟩, rfl, rfl, ⟨[], by simp, .nil⟩⟩

theorem Gains.trans {p q : Pool} (hpq : p.Within q) {e e' e'' : Emission} {ts ts' : List Template}
    {l l' k k' : Nat} {rs rs' : List Range} (h : Gains p e e' ts l k rs)
    (h' : Gains q e' e'' ts' l' k' rs') :
    Gains q e e'' (ts ++ ts') (l + l') (k + k') (rs ++ rs') := by
  obtain ⟨is, hi, hs⟩ := h.insns
  obtain ⟨is', hi', hs'⟩ := h'.insns
  obtain ⟨xs, hx, hr⟩ := h.callRanges
  obtain ⟨xs', hx', hr'⟩ := h'.callRanges
  refine ⟨⟨is ++ is', by rw [hi', hi, List.append_assoc], ?_⟩, ?_, ?_,
    ⟨xs ++ xs', by rw [hx', hx, List.append_assoc], ?_⟩⟩
  · exact List.rel_append (hs.imp fun _ _ h => h.within hpq) hs'
  · rw [h'.nextLabel, h.nextLabel, Nat.add_assoc]
  · rw [h'.room, h.room, Nat.add_comm, Function.iterate_add_apply]
  · exact List.rel_append (hr.imp fun _ _ h => h.within hpq) hr'

end Emission

/-! ## Emitting -/

/-- Emitting from a state and a pool adds up to what is said, unless it fails with a fault of the kind
`faults`; the pool only grows. -/
def Emits {α : Type} (faults : FormatError → Prop) (p : Pool) (e : Emission) (x : Emit α)
    (ts : List Template) (labels locals : Nat) (ranges : List Range) (post : α → Prop) : Prop :=
  Ends p (x.run e)
    (fun r q => p.Grows q ∧ e.Gains q r.2 ts labels locals ranges ∧ post r.1) faults

namespace Emit

variable {α β : Type} {faults : FormatError → Prop} {p : Pool} {e : Emission} {ts ts' : List Template}
  {l l' k k' : Nat} {rs rs' : List Range} {post : α → Prop}

/-- Emissions one after the other, from whatever the first has left. -/
theorem ends_bind {x : Emit α} {f : α → Emit β} {post : α × Emission → Pool → Prop}
    {post' : β × Emission → Pool → Prop} (hx : Ends p (x.run e) post faults)
    (hf : ∀ a e' q, post (a, e') q → Ends q ((f a).run e') post' faults) :
    Ends p ((x >>= f).run e) post' faults :=
  Ends.bind hx fun r q h => hf r.1 r.2 q h

theorem emits_pure (hp : p.Sound) {a : α} (h : post a) :
    Emits faults p e (pure a) [] 0 0 [] post :=
  Ends.pure ⟨.refl hp, .refl p e, h⟩

theorem emits_bind {x : Emit α} {f : α → Emit β} {post' : β → Prop} (hx : Emits faults p e x ts l k rs post)
    (hf : ∀ a e' q, post a → p.Grows q → e'.nextLabel = e.nextLabel + l →
      e'.room = Emission.takeLocal^[k] e.room → Emits faults q e' (f a) ts' l' k' rs' post') :
    Emits faults p e (x >>= f) (ts ++ ts') (l + l') (k + k') (rs ++ rs') post' := by
  refine Ends.bind hx fun r q h => ?_
  obtain ⟨hq, hg, ha⟩ := h
  refine (hf r.1 r.2 q ha hq hg.nextLabel hg.room).imp fun r' q' h' => ?_
  exact ⟨hq.trans h'.1, hg.trans h'.1.within h'.2.1, h'.2.2⟩

/-- The sum of emissions, put in another way. -/
theorem emits_of_eq {x : Emit α} {τ τ' : List Template} {ρ ρ' : List Range}
    (hx : Emits faults p e x τ l k ρ post) (ht : τ = τ') (hl : l = l') (hk : k = k') (hr : ρ = ρ')
    {post' : α → Prop} (hpost : ∀ a, post a → post' a) : Emits faults p e x τ' l' k' ρ' post' := by
  subst ht hl hk hr
  exact Ends.imp hx fun r q h => ⟨h.1, h.2.1, hpost _ h.2.2⟩

theorem emits_insn (hp : p.Sound) (i : Insn) :
    Emits faults p e (insn i) [.plain i] 0 0 [] (fun _ => True) := by
  refine Ends.pure ⟨.refl hp, ⟨⟨[i], e.insns_push i, ?_⟩, rfl, rfl, ⟨[], by simp [Emission.push], .nil⟩⟩,
    trivial⟩
  exact .cons (.plain i) .nil

theorem emits_newLabel (hp : p.Sound) :
    Emits faults p e newLabel [] 1 0 [] (· = e.nextLabel) :=
  Ends.pure ⟨.refl hp, ⟨⟨[], by simp, .nil⟩, rfl, rfl, ⟨[], by simp, .nil⟩⟩, rfl⟩

theorem emits_newLocal (hp : p.Sound) :
    Emits faults p e newLocal [] 0 1 [] (· = e.nextLocal) :=
  Ends.pure ⟨.refl hp, ⟨⟨[], by simp, .nil⟩, rfl, rfl, ⟨[], by simp, .nil⟩⟩, rfl⟩

section Size

variable (hsize : ∀ err, FormatError.IsSize err → faults err)
include hsize

theorem emits_template (hp : p.Sound) (t : Template) :
    Emits faults p e (template t) [t] 0 0 [] (fun _ => True) := by
  unfold Emits template
  have settled : Ends p (((t.settle : Pool.Interning Insn) : Emit Insn).run e)
      (fun r q => p.Grows q ∧ r.2 = e ∧ t.Settles q r.1) faults := by
    refine Ends.bind ((t.settle_ends hp).faulty hsize) fun i q h => ?_
    exact .pure ⟨h.1, rfl, h.2⟩
  refine Ends.bind settled fun r q h => ?_
  obtain ⟨hq, he, ht⟩ := h
  obtain ⟨i, e'⟩ := r
  cases he
  exact Ends.pure ⟨hq, ⟨⟨[i], e'.insns_push i, .cons ht .nil⟩, rfl, rfl,
    ⟨[], by simp [Emission.push], .nil⟩⟩, trivial⟩

theorem emits_block (hp : p.Sound) (ts : List Template) :
    Emits faults p e (block ts) ts 0 0 [] (fun _ => True) := by
  induction ts generalizing p e with
  | nil => exact emits_pure hp trivial
  | cons t ts ih =>
    exact emits_bind (emits_template hsize hp t) fun _ _ _ _ hq _ _ => ih hq.sound

end Size

end Emit

end Interpose
