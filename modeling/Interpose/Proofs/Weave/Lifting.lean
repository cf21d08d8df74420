import Interpose.Proofs.Inference.Flow
import Interpose.Proofs.Weave.Elements
import Interpose.Proofs.Weave.Live
/-!
# Reports and the object under construction

A report works on the stack above what the method has there, and leaves the stack as it was. So
where the object under construction is held in front of a report it is held behind it
(`Stage.Lifts`). The report of the start changes the parameters, but it stands where nothing holds
the object any more.
-/

namespace Interpose

namespace Held

/-- The same under more slots of the stack, which do not hold the object. -/
def under (w : Held) (n : Nat) : Held :=
  { w with stack := List.replicate n false ++ w.stack }

theorem under_shift (w : Held) (n taken pushed : Nat) :
    (w.under (n + taken)).shift ⟨taken, pushed⟩ = w.under (n + pushed) := by
  simp only [under, shift, List.drop_append, List.drop_replicate, List.length_replicate, Nat.add_sub_cancel,
    Nat.sub_eq_zero_of_le (Nat.le_add_left taken n), List.drop_zero]
  rw [← List.append_assoc, List.replicate_append_replicate, Nat.add_comm pushed n]

theorem under_dup (w : Held) (n : Nat) : (w.under (n + 1)).simple Op.dup = w.under (n + 2) := by
  have heffect : simpleEffect Op.dup = some (.copy 1 0) := rfl
  simp [simple, heffect, under, List.replicate_succ]

end Held

namespace Template

/-- The template works on the stack above what the method has there: it finds so many slots and
leaves so many. -/
def Lifts (q : Pool) (t : Template) (n n' : Nat) : Prop :=
  ∀ i (w : Held), t.Settles q i → (w.under n).after q i = w.under n'

variable {q : Pool} {n : Nat}

theorem lifts_place (l : Label) : (place l).Lifts q n n := by
  intro i w h
  cases h
  exact Held.after_pseudo q _ rfl

/-- An instruction that is no constructor call, no load or store and does not stand alone. -/
theorem lifts_of_effect {t : Template} (taken pushed : Nat)
    (h : ∀ i, t.Settles q i → ∀ w : Held, w.after q i = w.shift ⟨taken, pushed⟩) :
    t.Lifts q (n + taken) (n + pushed) := by
  intro i w hi
  rw [h i hi, Held.under_shift]

theorem lifts_pushInt (v : Int32) : (pushInt v).Lifts q n (n + 1) := by
  refine lifts_of_effect 0 1 fun i hi w => ?_
  cases hi with
  | small h h' =>
    generalize v.toInt = m at h h'
    have : m = -1 ∨ m = 0 ∨ m = 1 ∨ m = 2 ∨ m = 3 ∨ m = 4 ∨ m = 5 := by omega
    rcases this with rfl | rfl | rfl | rfl | rfl | rfl | rfl <;> rfl
  | byte => rfl
  | short => rfl
  | integer h => simp [Held.after, Insn.effect, Pool.loadedSlots, h]

theorem lifts_pushString (text : String) : (pushString text).Lifts q n (n + 1) := by
  refine lifts_of_effect 0 1 fun i hi w => ?_
  cases hi with
  | string h _ => simp [Held.after, Insn.effect, Pool.loadedSlots, h]

theorem lifts_op {o : Opcode} (taken pushed : Nat) (h : ∀ w : Held, w.simple o = w.shift ⟨taken, pushed⟩) :
    (op o).Lifts q (n + taken) (n + pushed) := by
  refine lifts_of_effect _ _ fun i hi w => ?_
  cases hi
  exact h w

theorem lifts_dup : (op Op.dup).Lifts q (n + 1) (n + 2) := by
  intro i w hi
  cases hi
  exact w.under_dup n

/-- The state of a verdict is an integer. -/
theorem lifts_state : (field Op.getfield Spy.stateField).Lifts q (n + 1) (n + 1) := by
  refine lifts_of_effect 1 1 fun i hi w => ?_
  cases hi with
  | field h =>
    have htype : JavaType.ofDescriptor Spy.stateField.descriptor = .ok .int := by decide +kernel
    simp only [Held.after, Insn.effect, bind_toOption h, bind_toOption htype]
    rfl

theorem lifts_jump {o : Opcode} {l : Label} (taken : Nat)
    (h : (Insn.jump o l).effect q = some ⟨taken, 0⟩) : (jump o l).Lifts q (n + taken) n := by
  refine lifts_of_effect taken 0 fun i hi w => ?_
  cases hi
  simp [Held.after, h]

/-- A dispatch method takes its operands and answers a verdict. -/
theorem effect_dispatch (k : EventKind) : ∃ d, MethodDescriptor.ofDescriptor (Spy.method k).descriptor = .ok d ∧
    d.effect = ⟨(Spy.parameterTypes k).length, 1⟩ := by
  have h : (MethodDescriptor.ofDescriptor (Spy.method k).descriptor).toOption.any
      (fun d => d.effect = ⟨(Spy.parameterTypes k).length, 1⟩) = true := by cases k <;> decide +kernel
  obtain ⟨d, hd, heffect⟩ := any_toOption.1 h
  exact ⟨d, hd, of_decide_eq_true heffect⟩

theorem lifts_invocation (k : EventKind) :
    (Block.invocation k).Lifts q (n + (Spy.parameterTypes k).length) (n + 1) := by
  refine lifts_of_effect _ _ fun i hi w => ?_
  cases hi with
  | @method _ _ index h =>
    obtain ⟨d, hd, heffect⟩ := effect_dispatch k
    have hslots : q.constructorSlots Op.invokestatic index = none := by
      simp only [Pool.constructorSlots, bind_toOption h, bind_toOption hd]
      rfl
    simp only [Held.after, hslots, Insn.effect, bind_toOption h, bind_toOption hd, heffect]
    rfl

end Template

open Template

namespace Stage

variable {σ : Stage} {n n' n'' : Nat} {ts ts' between : List Template}

/-- Control goes through the templates, which find so many slots on the stack above what the method
has there and leave so many. -/
def Lifts (σ : Stage) (ts : List Template) (n n' : Nat) : Prop :=
  ∀ k (w : Held), σ.Has k ts → Interpose.Comes σ.pool σ.body (k, w.under n) (k + ts.length, w.under n')

theorem lifts_nil : σ.Lifts [] n n := fun _ _ _ => .refl

theorem Lifts.append (h : σ.Lifts ts n n') (h' : σ.Lifts ts' n' n'') : σ.Lifts (ts ++ ts') n n'' := by
  intro k w hat
  rw [List.length_append, ← Nat.add_assoc]
  exact (h k w hat.append_left).trans (h' _ w hat.append_right)

theorem Lifts.cons {t : Template} (hon : t.onward = true) (ht : t.Lifts σ.pool n n') (h : σ.Lifts ts n' n'') :
    σ.Lifts (t :: ts) n n'' := by
  intro k w hat
  obtain ⟨insn, hinsn, hsettles⟩ := forall₂_getElem? σ.settled hat.head
  have hstep : Flows σ.pool σ.body (k, w.under n) (k + 1, w.under n') := by
    rw [← ht insn w hsettles]
    exact .next hinsn (by rw [hsettles.isTerminal, hon]; rfl)
  rw [List.length_cons, Nat.add_comm ts.length, ← Nat.add_assoc]
  exact .head hstep (h _ w hat.tail)

/-- A branch leads past templates. -/
theorem Lifts.past {o : Opcode} {l : Nat} (hl : σ.bound ≤ l) (ht : (jump o l).Lifts σ.pool n n')
    (h : σ.Lifts ts n' n'') : σ.Lifts (jump o l :: (between ++ place l :: ts)) n n'' := by
  intro k w hat
  obtain ⟨insn, hinsn, hsettles⟩ := forall₂_getElem? σ.settled hat.head
  have hplace := hat.tail.append_right
  have hstep : Flows σ.pool σ.body (k, w.under n) (k + 1 + between.length, w.under n') := by
    rw [← ht insn w hsettles]
    cases hsettles
    exact .jump hinsn (List.mem_singleton_self _) (σ.placed _ l hl hplace.head)
  have hbehind : σ.Lifts (place l :: ts) n' n'' := .cons rfl (lifts_place l) h
  have := hbehind _ w hplace
  rw [List.length_cons, List.length_append, List.length_cons] at *
  rw [show k + (between.length + (ts.length + 1) + 1) = k + 1 + between.length + (ts.length + 1) by omega]
  exact .head hstep this

end Stage

namespace WeaveSite

open Stage

variable (s : WeaveSite) {σ : Stage} {l : Nat} (h : σ.bound ≤ l)

theorem lifts_around {ts : List Template} (h : σ.Lifts ts 0 0) : σ.Lifts (Marker.around ts) 0 0 := by
  have hopening : σ.Lifts Marker.opening 0 0 :=
    .cons rfl (lifts_op (n := 0) 0 1 fun _ => rfl)
      (.cons rfl (lifts_op (n := 0) 1 0 fun _ => rfl) lifts_nil)
  have hclosing : σ.Lifts Marker.closing 0 0 :=
    .cons rfl (lifts_op (n := 0) 0 1 fun _ => rfl)
      (.cons rfl (lifts_op (n := 0) 1 0 fun _ => rfl) lifts_nil)
  exact hopening.append (h.append hclosing)

include h

/-- The check of a verdict takes it away. -/
theorem lifts_verdictCheck (t : JavaType) : σ.Lifts (Block.verdictCheck t l (l + 1)) 1 0 := by
  have hthrow : σ.Lifts (.pushInt Spy.stateThrow :: .jump Op.ifIcmpne (l + 1) ::
      ([Template.field Op.getfield Spy.valueField, .type Op.checkcast throwableClass, .op Op.athrow] ++
        .place (l + 1) :: [.op Op.pop])) 2 0 :=
    .cons rfl (lifts_pushInt _) (.past (Nat.le_succ_of_le h) (lifts_jump (n := 1) 2 rfl)
      (.cons rfl (lifts_op (n := 0) 1 0 fun _ => rfl) lifts_nil))
  have hreturn : σ.Lifts (.jump Op.ifIcmpne l :: (([Template.op Op.pop, .field Op.getfield Spy.valueField]
      ++ (t.unboxing ++ [Template.op t.returnOpcode])) ++ .place l :: _)) 4 0 :=
    .past h (lifts_jump (n := 2) 2 rfl) hthrow
  have hall : σ.Lifts _ 1 0 := .cons (t := .op Op.dup) rfl (lifts_dup (n := 0))
    (.cons (t := .field Op.getfield Spy.stateField) rfl (lifts_state (n := 1))
    (.cons (t := .op Op.dup) rfl (lifts_dup (n := 1)) (.cons (t := .pushInt Spy.stateReturn) rfl
      (lifts_pushInt _) hreturn)))
  simpa [Block.verdictCheck] using hall

/-- A report takes its own operands away. -/
theorem lifts_report {k : EventKind} {n : Nat} (hk : (Spy.parameterTypes k).length = n + 2) :
    σ.Lifts (s.report k l) n 0 := by
  have hcall := lifts_invocation (q := σ.pool) (n := 0) k
  rw [Nat.zero_add, hk] at hcall
  exact .cons rfl (lifts_pushString _) (.cons rfl (lifts_pushInt _) (.cons rfl hcall
    (lifts_verdictCheck h _)))

theorem lifts_lineReport (n : UInt16) : σ.Lifts (s.lineReport n l) 0 0 :=
  lifts_around (.cons rfl (lifts_pushInt _) (s.lifts_report h rfl))

theorem lifts_callBeforeReport (line : Int32) (m : MemberRef) : σ.Lifts (s.callBeforeReport line m l) 0 0 :=
  lifts_around (.cons rfl (lifts_pushInt _) (.cons rfl (lifts_pushString _) (.cons rfl (lifts_pushString _)
    (.cons rfl (lifts_pushString _) (s.lifts_report h rfl)))))

theorem lifts_callReturnReport : σ.Lifts (s.callReturnReport l) 0 0 := by
  unfold callReturnReport
  split
  · exact lifts_around (s.lifts_report h rfl)
  · exact lifts_nil

/-- Behind an invocation with a handler of its own, control goes past the handler. -/
theorem lifts_guardedBack : σ.Lifts (s.guardedBack l) 0 0 := by
  have hpast : σ.Lifts ([] ++ (.jump Op.goto (l + 3) :: ((.place (l + 2) ::
      (s.callThrowsReport (l + 4 + s.callReturnLabels) ++ [.op Op.athrow])) ++ .place (l + 3) :: []))) 0 0 :=
    .past (Nat.le_add_right_of_le h) (lifts_jump (n := 0) 0 rfl) lifts_nil
  have hall : σ.Lifts _ 0 0 := .cons (t := .place (l + 1)) rfl (lifts_place _)
    ((s.lifts_callReturnReport (Nat.le_add_right_of_le h : σ.bound ≤ l + 4)).append hpast)
  simpa [guardedBack] using hall

theorem lifts_guardedSegment (i : Insn) :
    σ.Lifts (s.guardedSegment i l).front 0 0 ∧ σ.Lifts (s.guardedSegment i l).back 0 0 := by
  unfold guardedSegment
  split
  · exact ⟨.cons rfl (lifts_place l) lifts_nil, s.lifts_guardedBack h⟩
  · exact ⟨lifts_nil, s.lifts_callReturnReport h⟩

/-- Around an instruction that goes on, nothing woven touches the object under construction. -/
theorem lifts_segment (p : Position) (m : MemberRef) {i : Insn} (hon : i.isTerminal = false) :
    σ.Lifts (s.segment p l m i).front 0 0 ∧ σ.Lifts (s.segment p l m i).back 0 0 := by
  cases i with
  | line n =>
    unfold segment
    simp only
    split
    · exact ⟨lifts_nil, s.lifts_lineReport h n⟩
    · exact ⟨lifts_nil, lifts_nil⟩
  | simple op =>
    have hreturn : Op.isReturn op = false := by
      have hon : Op.isTerminal op = false := hon
      simp only [Op.isTerminal, Bool.or_eq_false_iff] at hon
      exact hon.1.1.1
    rw [s.segment_plain p l m (show Insn.isEvent (.simple op) = false from hreturn)]
    exact ⟨lifts_nil, lifts_nil⟩
  | method op index =>
    unfold segment callSegment
    simp only
    split
    · split
      · obtain ⟨hfront, hback⟩ := s.lifts_guardedSegment (Nat.le_add_right_of_le h : σ.bound ≤ l + 2)
          (.method op index)
        exact ⟨(s.lifts_callBeforeReport h _ _).append hfront, hback⟩
      · exact s.lifts_guardedSegment h _
    · exact ⟨lifts_nil, lifts_nil⟩
  | _ => exact ⟨lifts_nil, lifts_nil⟩

end WeaveSite

end Interpose
