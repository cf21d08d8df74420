import Interpose.Proofs.Weave.Spoken
/-!
# Weaving in lockstep

What is emitted for an instruction does not depend on what has been emitted before it (`Emit.Blind`). So
two lists of instructions that differ only where nothing is woven (`Insn.Swaps`) are rebuilt in lockstep:
the same is woven between the copies, with the same labels, local variables and constants, and where the
two codes differ they have copies of instructions that differ (`WeaveSite.Parallel.inPiece`).

Result:
* `Weave.body_lockstep`: the bodies that are woven from two such bodies.
-/

namespace Interpose

/-- The state with other instructions. -/
def Emission.behind (e : Emission) (before : List Insn) : Emission :=
  { e with insns := before.toArray }

namespace Emit

variable {α β : Type} {P : α → List Insn → List Insn → Prop} {Q : β → List Insn → List Insn → Prop}
  {n m : Nat} {before before' : List Insn}

/-! ## Emissions side by side -/

/-- What two runs come to that started behind different instructions: they fail alike, or they answer
the same and have emitted instructions so that `P` holds. -/
inductive Alike (P : α → List Insn → List Insn → Prop) (before before' : List Insn) :
    Except FormatError (α × Emission) × Pool → Except FormatError (α × Emission) × Pool → Prop
  | failed (err : FormatError) (p : Pool) : Alike P before before' (.error err, p) (.error err, p)
  | emitted {insns insns' : List Insn} (a : α) (e : Emission) (p : Pool) : P a insns insns' →
    Alike P before before' (.ok (a, e.behind (before ++ insns)), p)
      (.ok (a, e.behind (before' ++ insns')), p)

/-- Two emissions that run alike, whatever instructions are there before. -/
def Lockstep (P : α → List Insn → List Insn → Prop) (x x' : Emit α) : Prop :=
  ∀ (e : Emission) (p : Pool) (before before' : List Insn),
    Alike P before before' ((x.run (e.behind before)).run.run p) ((x'.run (e.behind before')).run.run p)

/-- An emission of so many instructions that does not look at those that are there. -/
def Blind (n : Nat) (x : Emit α) : Prop :=
  Lockstep (fun _ insns insns' => insns = insns' ∧ insns.length = n) x x

/-- One whose answer is known as well. -/
def Answers (n : Nat) (a : α) (x : Emit α) : Prop :=
  Lockstep (fun b insns insns' => b = a ∧ insns = insns' ∧ insns.length = n) x x

theorem Alike.silent {a : α} (h : P a [] []) (e : Emission) (p : Pool) :
    Alike P before before' (.ok (a, e.behind before), p) (.ok (a, e.behind before'), p) := by
  have hrun : Alike P before before' (.ok (a, e.behind (before ++ [])), p)
      (.ok (a, e.behind (before' ++ [])), p) := .emitted a e p h
  rwa [List.append_nil, List.append_nil] at hrun

theorem Lockstep.imp {P' : α → List Insn → List Insn → Prop} {x x' : Emit α} (h : Lockstep P x x')
    (hP : ∀ a insns insns', P a insns insns' → P' a insns insns') : Lockstep P' x x' := by
  intro e p before before'
  have hrun := h e p before before'
  generalize (x.run _).run.run p = r, (x'.run _).run.run p = r' at hrun ⊢
  cases hrun with
  | failed err q => exact .failed err q
  | emitted a e q hrun => exact .emitted a e q (hP _ _ _ hrun)

/-- Emissions one after the other. -/
theorem Lockstep.bind {x x' : Emit α} {f f' : α → Emit β} (hx : Lockstep P x x')
    (hf : ∀ a insns insns', P a insns insns' → Lockstep Q (f a) (f' a)) :
    Lockstep (fun b insns insns' => ∃ a first first' rest rest', insns = first ++ rest ∧
      insns' = first' ++ rest' ∧ P a first first' ∧ Q b rest rest') (x >>= f) (x' >>= f') := by
  intro e p before before'
  rw [StateT.run_bind, StateT.run_bind, run_bind, run_bind]
  have hrun := hx e p before before'
  generalize (x.run _).run.run p = r, (x'.run _).run.run p = r' at hrun ⊢
  cases hrun with
  | failed err q => exact .failed err q
  | @emitted first first' a e q hP =>
    have hrun := hf a first first' hP e q (before ++ first) (before' ++ first')
    dsimp only
    generalize ((f a).run _).run.run q = r, ((f' a).run _).run.run q = r' at hrun ⊢
    cases hrun with
    | failed err q => exact .failed err q
    | @emitted rest rest' b e q hQ =>
      rw [List.append_assoc, List.append_assoc]
      exact .emitted b e q ⟨a, first, first', rest, rest', rfl, rfl, hP, hQ⟩

theorem Blind.bind {x : Emit α} {f : α → Emit β} (hx : Blind n x) (hf : ∀ a, Blind m (f a)) :
    Blind (n + m) (x >>= f) := by
  refine (Lockstep.bind hx fun a _ _ _ => hf a).imp ?_
  rintro _ _ _ ⟨_, first, _, rest, _, rfl, rfl, ⟨rfl, rfl⟩, rfl, rfl⟩
  exact ⟨rfl, List.length_append⟩

/-- An emission in front of two that run in lockstep. -/
theorem Blind.lockstep {x : Emit α} {f f' : α → Emit β} (hx : Blind n x)
    (hf : ∀ a, Lockstep Q (f a) (f' a)) :
    Lockstep (fun b insns insns' => ∃ first rest rest', insns = first ++ rest ∧ insns' = first ++ rest' ∧
      first.length = n ∧ Q b rest rest') (x >>= f) (x >>= f') := by
  refine (Lockstep.bind hx fun a _ _ _ => hf a).imp ?_
  rintro b _ _ ⟨_, first, _, rest, rest', rfl, rfl, ⟨rfl, hn⟩, hrest⟩
  exact ⟨first, rest, rest', rfl, rfl, hn, hrest⟩

/-- An emission behind two that run in lockstep. -/
theorem Lockstep.followed {x x' : Emit α} {f : α → Emit β} (hx : Lockstep P x x')
    (hf : ∀ a, ∃ n, Blind n (f a)) :
    Lockstep (fun _ insns insns' => ∃ a first first' rest, insns = first ++ rest ∧ insns' = first' ++ rest ∧
      P a first first') (x >>= f) (x' >>= f) := by
  have hrest (a : α) : Lockstep (fun _ insns insns' => insns = insns') (f a) (f a) := by
    obtain ⟨n, hn⟩ := hf a
    exact hn.imp fun _ _ _ h => h.1
  refine (hx.bind fun a _ _ _ => hrest a).imp ?_
  rintro _ _ _ ⟨a, first, first', rest, _, rfl, rfl, hfirst, rfl⟩
  exact ⟨a, first, first', rest, rfl, rfl, hfirst⟩

theorem Blind.of_eq {x : Emit α} (h : Blind n x) (hn : n = m) : Blind m x :=
  hn ▸ h

theorem blind_pure (a : α) : Blind 0 (pure a : Emit α) :=
  fun e p _ _ => .silent (a := a) ⟨rfl, rfl⟩ e p

theorem answers_pure (a : α) : Answers 0 a (pure a) :=
  fun e p _ _ => .silent (a := a) ⟨rfl, rfl, rfl⟩ e p

theorem Blind.answers {x : Emit α} {y : Emit β} {b : β} (hx : Blind n x) (hy : Answers m b y) :
    Answers (n + m) b (do let _ ← x; y) := by
  refine (Lockstep.bind hx fun _ _ _ _ => hy).imp ?_
  rintro _ _ _ ⟨_, first, _, rest, _, rfl, rfl, ⟨rfl, rfl⟩, rfl, rfl, rfl⟩
  exact ⟨rfl, rfl, List.length_append⟩

/-- Two instructions, emitted as they are. -/
theorem lockstep_insn (i i' : Insn) :
    Lockstep (fun _ insns insns' => insns = [i] ∧ insns' = [i']) (insn i) (insn i') := by
  intro e p before before'
  have hpush (before : List Insn) (i : Insn) : (e.behind before).push i = e.behind (before ++ [i]) := by
    rw [Emission.behind, Emission.push, Emission.behind, List.push_toArray]
  have hrun (before : List Insn) (i : Insn) : ((insn i).run (e.behind before)).run.run p =
      (.ok ((), e.behind (before ++ [i])), p) := by
    rw [← hpush]
    rfl
  rw [hrun, hrun]
  exact .emitted () e p ⟨rfl, rfl⟩

theorem blind_insn (i : Insn) : Blind 1 (insn i) := by
  refine (lockstep_insn i i).imp ?_
  rintro _ _ _ ⟨rfl, rfl⟩
  exact ⟨rfl, rfl⟩

/-- What is only about the pool emits nothing. -/
theorem blind_lift (x : Pool.Interning α) : Blind 0 (x : Emit α) := by
  intro e p before before'
  have hrun (before : List Insn) : ((x : Emit α).run (e.behind before)).run.run p =
      ((x >>= fun a => pure (a, e.behind before)) : Pool.Interning (α × Emission)).run.run p := rfl
  rw [hrun, hrun, run_bind, run_bind]
  cases x.run.run p with
  | mk r q =>
    cases r with
    | error err => exact .failed err q
    | ok a => exact .silent (a := a) ⟨rfl, rfl⟩ e q

/-! ## What emissions look at -/

theorem blind_newLabel : Blind 0 newLabel :=
  fun e p _ _ => .silent (a := e.nextLabel) ⟨rfl, rfl⟩ { e with nextLabel := e.nextLabel + 1 } p

theorem blind_newLocal : Blind 0 newLocal :=
  fun e p _ _ => .silent (a := e.nextLocal) ⟨rfl, rfl⟩
    { e with nextLocal := e.nextLocal + 1, maxLocals := max e.maxLocals (e.nextLocal + 1) } p

theorem blind_callRange (t : TryCatch) : Blind 0 (callRange t) :=
  fun e p _ _ => .silent (a := ()) ⟨rfl, rfl⟩ { e with callRanges := e.callRanges ++ [t] } p

theorem blind_throwable : Blind 0 throwable :=
  blind_lift (Pool.addClass throwableClass)

theorem blind_member (index : UInt16) : Blind 0 (member index) :=
  blind_lift (do MonadExcept.ofExcept ((← (get : StateM Pool Pool)).memberRef index))

theorem blind_template (t : Template) : Blind 1 (template t) :=
  (blind_lift t.settle).bind blind_insn

theorem blind_block (ts : List Template) : Blind ts.length (block ts) := by
  induction ts with
  | nil => exact blind_pure ()
  | cons t ts ih =>
    rw [List.length_cons, Nat.add_comm]
    exact (blind_template t).bind fun _ => ih

/-- The labels make no difference to how much is emitted. -/
theorem length_verdictCheck (t : JavaType) (l l' k k' : Label) :
    (Block.verdictCheck t l l').length = (Block.verdictCheck t k k').length := by
  simp only [Block.verdictCheck, List.length_append, List.length_cons]

theorem blind_verdictCheck (t : JavaType) (l l' : Label) :
    Blind (Block.verdictCheck t l l').length (verdictCheck t) := by
  refine (blind_newLabel.bind (m := 0 + (Block.verdictCheck t l l').length) fun a => ?_).of_eq (by omega)
  refine blind_newLabel.bind fun b => ?_
  rw [length_verdictCheck t l l' a b]
  exact blind_block _

theorem blind_injected {code : Emit Unit} {ts : List Template} (h : Blind ts.length code) :
    Blind (Marker.around ts).length (injected code) := by
  rw [Marker.around, List.length_append, List.length_append]
  exact (blind_block _).bind fun _ => h.bind fun _ => blind_block _

end Emit

namespace WeaveSite

open Emit

variable (s : WeaveSite)

theorem blind_dispatch (k : EventKind) (l : Label) : Blind (s.report k l).length (s.dispatch k) := by
  rw [report, List.length_append]
  exact (blind_block _).bind fun _ => blind_verdictCheck _ _ _

theorem blind_reported (k : EventKind) (ts : List Template) (l : Label) :
    Blind (Marker.around (ts ++ s.report k l)).length (injected (do block ts; s.dispatch k)) := by
  refine blind_injected ?_
  rw [List.length_append]
  exact (blind_block ts).bind fun _ => s.blind_dispatch k l

theorem length_unpacking (a a' : UInt16) (parameters : List (JavaType × UInt16)) :
    (Block.unpacking a parameters).length = (Block.unpacking a' parameters).length := by
  simp only [Block.unpacking, List.length_flatMap, List.length_append, List.length_cons]

theorem blind_before (arguments : UInt16) (l : Label) :
    Blind (s.startReport arguments l).length s.before := by
  refine blind_injected ?_
  rw [List.length_append]
  refine (blind_block _).bind fun _ => (blind_newLocal.bind fun a => ?_).of_eq (Nat.zero_add _)
  rw [List.length_append, List.length_append, length_unpacking _ a]
  refine (blind_block (Block.beforeDispatch s.plan s.context.name s.context.descriptor.descriptor
    s.context.isStatic a)).bind fun _ => ?_
  exact (blind_verdictCheck _ _ _).bind fun _ => blind_block _

theorem blind_onCallReturn (l : Label) : Blind (s.callReturnReport l).length s.onCallReturn := by
  unfold onCallReturn callReturnReport
  split
  · exact blind_injected (s.blind_dispatch .callReturn l)
  · exact blind_pure ()

theorem blind_guardedCall (i : Insn) (l : Label) : Blind ((s.guardedBack l).length + 2) (s.guardedCall i) := by
  have hthrows := s.blind_reported .callThrows Block.className (l + 4 + s.callReturnLabels)
  refine Blind.of_eq (n := 0 + (0 + (0 + (0 + (3 + ((s.callReturnReport (l + 4)).length + (2 +
    ((s.callThrowsReport (l + 4 + s.callReturnLabels)).length + (2 + (0 + 0)))))))))) ?_ ?_
  · refine blind_newLabel.bind fun _ => blind_newLabel.bind fun _ => blind_newLabel.bind fun _ =>
      blind_newLabel.bind fun _ => (blind_block [_, _, _]).bind fun _ => ?_
    refine (s.blind_onCallReturn (l + 4)).bind fun _ => (blind_block [_, _]).bind fun _ => ?_
    refine hthrows.bind fun _ => (blind_block [_, _]).bind fun _ => ?_
    exact blind_throwable.bind fun _ => blind_callRange _
  · simp only [guardedBack, List.length_cons, List.length_append, List.length_nil]
    omega

theorem blind_guardedSegment (i : Insn) (l : Label) : Blind (s.guardedSegment i l).templates.length
    (if s.wants .callThrows then s.guardedCall i else do insn i; s.onCallReturn) := by
  unfold guardedSegment Segment.templates
  split
  · refine (s.blind_guardedCall i l).of_eq ?_
    simp only [List.length_append, List.length_cons, List.length_nil]
    omega
  · rw [List.nil_append, List.length_cons, Nat.add_comm]
    exact (blind_insn i).bind fun _ => s.blind_onCallReturn l

theorem blind_call (i : Insn) (index : UInt16) (line : Int32) (m : MemberRef) (l : Label) :
    Blind (s.callSegment line m i l).templates.length (s.call i index line) := by
  refine ((blind_member index).bind fun m' => ?_).of_eq (Nat.zero_add _)
  unfold callSegment
  split
  · rw [Segment.templates, List.append_assoc, List.length_append]
    refine Blind.bind ?_ fun _ => s.blind_guardedSegment i (l + 2)
    exact (s.blind_reported .callBefore [.pushInt line, .pushString (toJavaName m'.owner), .pushString m'.name,
      .pushString m'.descriptor] l).of_eq (by simp [Marker.around, callBeforeReport])
  · exact s.blind_guardedSegment i l

/-- What is emitted for an instruction does not depend on what is there. -/
theorem answers_copy (p : Position) (l : Label) (m : MemberRef) (i : Insn) :
    Answers (s.segment p l m i).templates.length (p.after i) (s.copy p i) := by
  cases i with
  | line n =>
    unfold copy segment
    by_cases hw : (s.wants .line && !(p.scan.observe (.line n)).inside) = true
    · simp only [Position.after_scan, hw, if_true]
      rw [Segment.templates, List.nil_append, List.length_cons, Nat.add_comm]
      exact (blind_insn _).answers
        ((s.blind_reported .line [.pushInt (Int32.ofNat n.toNat)] l).answers (answers_pure _))
    · simp only [Position.after_scan, hw]
      exact (blind_insn _).answers (answers_pure _)
  | simple op =>
    unfold copy segment
    by_cases hw : (Op.isReturn op && !(p.scan.observe (.simple op)).inside && s.wants .return) = true
    · simp only [Position.after_scan, hw, if_true]
      rw [Segment.templates, List.length_append]
      exact (s.blind_reported .return _ l).answers ((blind_insn _).answers (answers_pure _))
    · simp only [Position.after_scan, hw]
      exact (blind_insn _).answers (answers_pure _)
  | method op index =>
    unfold copy segment
    by_cases hw :
      (s.plan.kinds.meets EventKinds.calls && !(p.scan.observe (.method op index)).inside) = true
    · simp only [Position.after_scan, hw, if_true]
      exact (s.blind_call (.method op index) index p.line m l).answers (answers_pure _)
    · simp only [Position.after_scan, hw]
      exact (blind_insn _).answers (answers_pure _)
  | _ => exact (blind_insn _).answers (answers_pure _)

theorem blind_onThrows (thrown : UInt16) (l : Label) :
    Blind (s.throwsReport thrown l).length s.onThrows := by
  have hcode (a : UInt16) : Blind (2 + ((s.report .throws l).length + (Marker.closing.length + 2))) (do
      block [.var Op.astore a, .var Op.aload a]
      s.dispatch .throws
      block (Marker.closing ++ [Template.var Op.aload a, .op Op.athrow])) := by
    refine (blind_block [.var Op.astore a, .var Op.aload a]).bind fun _ => ?_
    exact (s.blind_dispatch .throws l).bind fun _ => (blind_block _).of_eq List.length_append
  refine ((blind_block _).bind fun _ => blind_newLocal.bind hcode).of_eq ?_
  simp only [throwsReport, List.length_append, List.length_cons, List.length_nil]
  omega

theorem blind_finish (start stop : Label) : ∃ n, Blind n (s.finish start stop) := by
  unfold finish
  split
  · have hblock (l : Label) : Blind 1 (block [.place l]) := blind_block [.place l]
    exact ⟨_, blind_newLabel.bind fun l => (hblock l).bind fun _ =>
      (s.blind_onThrows 0 0).bind fun _ => blind_throwable.bind fun i => blind_pure _⟩
  · exact ⟨0, blind_pure none⟩

end WeaveSite

/-! ## Instructions that are copied alike -/

/-- Nothing is woven around the instruction, wherever it stands, and it is no half of a marker. Where an
entry point is looked for, it is no invocation that could be in front of it. -/
structure Insn.Bare (s : WeaveSite) (i : Insn) : Prop where
  real : i.isPseudo = false
  half : i.isHalf = false
  pop : i ≠ .simple Op.pop
  returns : ∀ op, i = .simple op → Op.isReturn op = true → s.wants .return = false
  calls : ∀ op index, i = .method op index → s.plan.kinds.meets EventKinds.calls = false
  special : ∀ index, i = .method Op.invokespecial index → s.context.startsUninitialized = false

/-- The instructions are the same, or nothing is woven around either. -/
def Insn.Swaps (s : WeaveSite) (i i' : Insn) : Prop :=
  i = i' ∨ i.Bare s ∧ i'.Bare s

theorem Insn.Swaps.symm {s : WeaveSite} {i i' : Insn} (h : i.Swaps s i') : i'.Swaps s i :=
  h.imp Eq.symm And.symm

theorem Insn.Bare.unreported {s : WeaveSite} {op : Opcode} (h : (Insn.simple op).Bare s) (inside : Bool) :
    (Op.isReturn op && !inside && s.wants .return) = false := by
  rw [Bool.and_right_comm, Bool.and_eq_false_iff]
  exact .inl (Bool.and_eq_false_imp.2 fun hreturn => h.returns op rfl hreturn)

theorem MarkerScan.observe_bare {s : WeaveSite} {i : Insn} (h : i.Bare s) (scan : MarkerScan) :
    scan.observe i = { inside := scan.inside, pending := none } := by
  have hpop : (scan.pending.isSome && i == .simple Op.pop) = false := by
    rw [beq_eq_false_iff_ne.2 h.pop, Bool.and_false]
  obtain ⟨hinside, hpending⟩ := observe_real h.real hpop
  rw [h.half, Option.isSome_eq_false_iff, Option.isNone_iff_eq_none] at hpending
  rw [← hinside, ← hpending]

namespace WeaveSite

open Emit

variable {s : WeaveSite} {p : Position} {i i' : Insn}

theorem Position.after_bare (h : i.Bare s) :
    p.after i = { scan := { inside := p.scan.inside, pending := none }, line := p.line } := by
  have hscan := p.scan.observe_bare h
  cases i with
  | line n => cases h.real
  | _ => exact congrArg (fun scan => ({ scan, line := p.line } : Position)) hscan

/-- An instruction around which nothing is woven is copied as it is. -/
theorem copy_bare (h : i.Bare s) : s.copy p i = (do insn i; return p.after i) := by
  cases i with
  | line n => cases h.real
  | simple op =>
    unfold copy
    simp only [h.unreported]
    rfl
  | method op index =>
    unfold copy
    simp only [h.calls op index rfl]
    rfl
  | _ => rfl

theorem segment_bare (h : i.Bare s) (l : Label) (m : MemberRef) : s.segment p l m i = { insn := i } := by
  cases i with
  | line n => cases h.real
  | simple op =>
    unfold segment
    simp only [Position.after_scan, h.unreported]
    rfl
  | method op index =>
    unfold segment
    simp only [h.calls op index rfl]
    rfl
  | _ => rfl

/-- Two instructions that may stand for each other are copied in lockstep. -/
theorem lockstep_copy (h : i.Swaps s i') (p : Position) (l : Label) (m : MemberRef) :
    Lockstep (fun p' insns insns' => p' = p.after i ∧ insns.length = (s.segment p l m i).templates.length ∧
      (insns = insns' ∨ insns = [i] ∧ insns' = [i'])) (s.copy p i) (s.copy p i') := by
  rcases h with rfl | ⟨h, h'⟩
  · refine (s.answers_copy p l m i).imp ?_
    rintro _ _ _ ⟨rfl, rfl, hlength⟩
    exact ⟨rfl, hlength, .inl rfl⟩
  · have hpure : Answers 0 (p.after i) (pure (p.after i)) := answers_pure _
    rw [copy_bare h, copy_bare h', Position.after_bare h', ← Position.after_bare h, segment_bare h]
    refine ((lockstep_insn i i').bind fun _ _ _ _ => hpure).imp ?_
    rintro _ _ _ ⟨_, _, _, rest, _, rfl, rfl, ⟨rfl, rfl⟩, rfl, rfl, hrest⟩
    rw [List.length_eq_zero_iff] at hrest
    subst hrest
    exact ⟨rfl, rfl, .inr ⟨rfl, rfl⟩⟩

/-- Where two codes differ they have copies of instructions that differ, in the segment of the first one. -/
structure Apart (gs : List Segment) (xs xs' insns insns' : List Insn) : Prop where
  length : insns.length = (gs.flatMap Segment.templates).length
  length' : insns'.length = insns.length
  insn : ∀ k i i', insns[k]? = some i → insns'[k]? = some i' → i = i' ∨
    ∃ j, pieceStart Segment.templates gs j ≤ k ∧ k < pieceStart Segment.templates gs (j + 1) ∧
      xs[j]? = some i ∧ xs'[j]? = some i'

theorem Apart.cons {g : Segment} {gs : List Segment} {xs xs' first first' rest rest' : List Insn}
    (hlength : first.length = g.templates.length)
    (hfirst : first = first' ∨ first = [i] ∧ first' = [i']) (hrest : Apart gs xs xs' rest rest') :
    Apart (g :: gs) (i :: xs) (i' :: xs') (first ++ rest) (first' ++ rest') := by
  have hlength' : first'.length = first.length := by
    rcases hfirst with rfl | ⟨rfl, rfl⟩ <;> rfl
  have hstart (j : Nat) : pieceStart Segment.templates (g :: gs) (j + 1) =
      g.templates.length + pieceStart Segment.templates gs j := by
    simp only [pieceStart, List.take_succ_cons, List.flatMap_cons, List.length_append]
  refine ⟨?_, ?_, fun k x x' hx hx' => ?_⟩
  · rw [List.length_append, List.flatMap_cons, List.length_append, hlength, hrest.length]
  · rw [List.length_append, List.length_append, hlength', hrest.length']
  · rcases Nat.lt_or_ge k first.length with hk | hk
    · rw [List.getElem?_append_left hk] at hx
      rw [List.getElem?_append_left (hlength' ▸ hk)] at hx'
      rcases hfirst with rfl | ⟨rfl, rfl⟩
      · exact .inl (Option.some.inj (hx.symm.trans hx'))
      · obtain rfl : k = 0 := Nat.lt_one_iff.1 hk
        refine .inr ⟨0, Nat.zero_le _, ?_, hx, hx'⟩
        rw [hstart, ← hlength]
        exact Nat.lt_add_right _ hk
    · rw [List.getElem?_append_right hk] at hx
      rw [List.getElem?_append_right (hlength' ▸ hk), hlength'] at hx'
      refine (hrest.insn _ x x' hx hx').imp_right ?_
      rintro ⟨j, hlo, hhi, hj, hj'⟩
      rw [hlength] at hlo hhi hk
      exact ⟨j + 1, by rw [hstart]; omega, by rw [hstart]; omega, hj, hj'⟩

theorem lockstep_copies {l : Label} {xs xs' : List Insn} {gs : List Segment} (hgs : s.Segments p l xs gs)
    (h : List.Forall₂ (Insn.Swaps s) xs xs') :
    Lockstep (fun _ => Apart gs xs xs') (xs.foldlM s.copy p) (xs'.foldlM s.copy p) := by
  induction hgs generalizing xs' with
  | nil =>
    cases h
    exact fun e q _ _ => .silent ⟨rfl, rfl, fun _ _ _ hi => nomatch hi⟩ e q
  | @cons p l i rest gs m hgs ih =>
    cases h with
    | @cons _ i' _ rest' hi hrest =>
      rw [List.foldlM_cons, List.foldlM_cons]
      have hcopies (p' : Position) (insns insns' : List Insn) (hp' : p' = p.after i ∧
          insns.length = (s.segment p l m i).templates.length ∧
          (insns = insns' ∨ insns = [i] ∧ insns' = [i'])) :
          Lockstep (fun _ => Apart gs rest rest') (rest.foldlM s.copy p') (rest'.foldlM s.copy p') :=
        hp'.1 ▸ ih hrest
      refine ((lockstep_copy hi p l m).bind hcopies).imp ?_
      rintro _ _ _ ⟨_, first, first', last, last', rfl, rfl, ⟨-, hlength, hfirst⟩, hlast⟩
      exact hlast.cons hlength hfirst

theorem lockstep_prologue (xs xs' : List Insn) (h : xs'.length = xs.length) :
    Lockstep (fun _ insns insns' => insns = xs ∧ insns' = xs') (xs.forM insn) (xs'.forM insn) := by
  induction xs generalizing xs' with
  | nil =>
    rw [List.length_nil, List.length_eq_zero_iff] at h
    subst h
    exact fun e q _ _ => .silent ⟨rfl, rfl⟩ e q
  | cons x xs ih =>
    obtain ⟨x', xs', rfl⟩ := List.exists_cons_of_length_eq_add_one (h.trans List.length_cons)
    refine ((lockstep_insn x x').bind fun _ _ _ _ => ih xs' (Nat.succ.inj h)).imp ?_
    rintro _ _ _ ⟨_, _, _, _, _, rfl, rfl, ⟨rfl, rfl⟩, rfl, rfl⟩
    exact ⟨rfl, rfl⟩

theorem lastLine_swaps {xs xs' : List Insn} (h : List.Forall₂ (Insn.Swaps s) xs xs') :
    lastLine xs = lastLine xs' := by
  unfold lastLine
  generalize (-1 : Int32) = line
  induction h generalizing line with
  | nil => rfl
  | @cons i i' xs xs' hi _ ih =>
    rw [List.foldl_cons, List.foldl_cons]
    rcases hi with rfl | ⟨h, h'⟩
    · exact ih _
    · have hline {i : Insn} (h : i.Bare s) : (({ line } : Position).after i).line = line :=
        congrArg Position.line (Position.after_bare h)
      exact (congrArg (List.foldl _ · xs) ((hline h).trans (hline h').symm)).trans (ih _)

/-- The same is woven between the copies of two lists of instructions. -/
def Parallel (w : Parts) (first rest first' rest' insns insns' : List Insn) : Prop :=
  ∃ opening copies copies' closing, insns = first ++ (opening ++ (copies ++ closing)) ∧
    insns' = first' ++ (opening ++ (copies' ++ closing)) ∧ opening.length = w.before.length + 1 ∧
    Apart w.segments rest rest' copies copies'

theorem lockstep_rebuild {l : Label} {room : UInt16 × UInt16} {first rest first' rest' : List Insn} {w : Parts}
    (hw : s.Rebuilt l room first rest w) (hfirst : List.Forall₂ (Insn.Swaps s) first first')
    (hrest : List.Forall₂ (Insn.Swaps s) rest rest') :
    Lockstep (fun _ => Parallel w first rest first' rest') (s.rebuild first rest)
      (s.rebuild first' rest') := by
  have hbefore : Blind w.before.length (if s.wants .before then s.before else pure ()) := by
    rw [hw.before]
    split
    · exact s.blind_before _ _
    · exact blind_pure ()
  have hplace (l : Label) : Blind 1 (block [.place l]) := blind_block [.place l]
  have hclosing (start stop : Label) : ∃ n, Blind n (do block [.place stop]; s.finish start stop) := by
    obtain ⟨n, hn⟩ := s.blind_finish start stop
    exact ⟨_, (hplace stop).bind fun _ => hn⟩
  have hcopies : Lockstep (fun _ => Apart w.segments rest rest') (s.copyAll (lastLine first) rest)
      (s.copyAll (lastLine first) rest') := by
    refine ((lockstep_copies hw.segments hrest).bind fun _ _ _ _ => blind_pure ()).imp ?_
    rintro _ _ _ ⟨_, _, _, _, _, rfl, rfl, hapart, rfl, hnil⟩
    rw [List.length_eq_zero_iff] at hnil
    rwa [hnil, List.append_nil, List.append_nil]
  rw [rebuild_eq, rebuild_eq, ← lastLine_swaps hfirst]
  refine ((lockstep_prologue first first' hfirst.length_eq.symm).bind fun _ _ _ _ =>
    hbefore.lockstep fun _ => blind_newLabel.lockstep fun start => blind_newLabel.lockstep fun stop =>
      (hplace start).lockstep fun _ => hcopies.followed fun _ => hclosing start stop).imp ?_
  rintro _ _ _ ⟨_, _, _, _, _, rfl, rfl, ⟨rfl, rfl⟩, before, _, _, rfl, rfl, hbefore, none, _, _, rfl, rfl,
    hnone, none', _, _, rfl, rfl, hnone', place, _, _, rfl, rfl, hplace, _, copies, copies', closing, rfl,
    rfl, hapart⟩
  -- the two new labels emit nothing
  rw [List.length_eq_zero_iff] at hnone hnone'
  subst hnone hnone'
  refine ⟨before ++ place, copies, copies', closing, ?_, ?_, ?_, hapart⟩
  · rw [List.nil_append, List.nil_append, List.append_assoc]
  · rw [List.nil_append, List.nil_append, List.append_assoc]
  · rw [List.length_append, hbefore, hplace]

section Places

variable {w : Parts} {entry k : Nat} {z z' : Insn} {xs xs' insns insns' : List Insn}

/-- Copies that differ are in the pieces of the instructions that they are copies of. -/
theorem Apart.inPiece (h : Apart w.segments xs xs' insns insns') (hz : insns[k]? = some z)
    (hz' : insns'[k]? = some z') :
    z = z' ∨ ∃ j, w.InPiece (w.prologue.length + j) (w.entrance + 1 + k) ∧ xs[j]? = some z ∧
      xs'[j]? = some z' := by
  refine (h.insn k z z' hz hz').imp_right ?_
  rintro ⟨j, hlo, hhi, hj, hj'⟩
  have hsegment : j < w.segments.length := by
    by_contra hge
    have hend : pieceStart Segment.templates w.segments (j + 1) = pieceStart Segment.templates w.segments j := by
      rw [pieceStart, pieceStart, List.take_of_length_le (by omega), List.take_of_length_le (by omega)]
    exact Nat.not_lt_of_le hlo (hend ▸ hhi)
  have hg := List.getElem?_eq_getElem hsegment
  rw [pieceStart_succ hg] at hhi
  obtain ⟨m, rfl⟩ := Nat.exists_eq_add_of_le hlo
  have hpiece := Parts.inPiece_segment hg (Nat.lt_of_add_lt_add_left hhi)
  rw [Nat.add_assoc] at hpiece
  exact ⟨j, hpiece, hj, hj'⟩

variable (h : Parallel w (xs.take entry) (xs.drop entry) (xs'.take entry) (xs'.drop entry) insns insns')
  (hlength : xs'.length = xs.length)
include h hlength

theorem Parallel.length_eq : insns'.length = insns.length := by
  obtain ⟨opening, copies, copies', closing, rfl, rfl, -, hapart⟩ := h
  simp only [List.length_append, List.length_take, hlength, hapart.length']

/-- Where two woven codes differ stand the copies of instructions that differ. -/
theorem Parallel.inPiece (hprologue : w.prologue = xs.take entry) (hz : insns[k]? = some z)
    (hz' : insns'[k]? = some z') :
    z = z' ∨ ∃ i, w.InPiece i k ∧ xs[i]? = some z ∧ xs'[i]? = some z' := by
  obtain ⟨opening, copies, copies', closing, rfl, rfl, hopening, hapart⟩ := h
  have hfirst : (xs.take entry).length = w.prologue.length := by rw [hprologue]
  have hfirst' : (xs'.take entry).length = w.prologue.length := by
    rw [← hfirst, List.length_take, List.length_take, hlength]
  rcases Nat.lt_or_ge k w.prologue.length with hk | hk
  · -- up to the entry point
    rw [List.getElem?_append_left (hfirst ▸ hk)] at hz
    rw [List.getElem?_append_left (hfirst' ▸ hk)] at hz'
    have hlt : k < entry := Nat.lt_of_lt_of_le (hfirst ▸ hk) (List.length_take_le ..)
    rw [List.getElem?_take_of_lt hlt] at hz hz'
    refine .inr ⟨k, ⟨?_, ?_⟩, hz, hz'⟩
    · exact Nat.le_of_eq (Parts.edge_of_le (Nat.le_of_lt hk))
    · exact Nat.lt_of_lt_of_eq (Nat.lt_succ_self k) (Parts.edge_of_le hk).symm
  obtain ⟨n, rfl⟩ := Nat.exists_eq_add_of_le hk
  rw [← hfirst, List.getElem?_append_right (Nat.le_add_right _ _), Nat.add_sub_cancel_left] at hz
  rw [← hfirst', List.getElem?_append_right (Nat.le_add_right _ _), Nat.add_sub_cancel_left] at hz'
  rcases Nat.lt_or_ge n opening.length with hn | hn
  · -- what is woven in front of the copies
    rw [List.getElem?_append_left hn] at hz hz'
    exact .inl (Option.some.inj (hz.symm.trans hz'))
  obtain ⟨m, rfl⟩ := Nat.exists_eq_add_of_le hn
  rw [List.getElem?_append_right (Nat.le_add_right _ _), Nat.add_sub_cancel_left] at hz hz'
  rcases Nat.lt_or_ge m copies.length with hm | hm
  · rw [List.getElem?_append_left hm] at hz
    rw [List.getElem?_append_left (hapart.length' ▸ hm)] at hz'
    refine (hapart.inPiece hz hz').imp_right ?_
    rintro ⟨j, hin, hj, hj'⟩
    rw [List.getElem?_drop] at hj hj'
    have hentry : w.prologue.length = entry := by
      have := (List.getElem?_eq_some_iff.1 hj).1
      rw [← hfirst, List.length_take]
      omega
    rw [hopening, ← Nat.add_assoc, ← Nat.add_assoc, ← Parts.entrance]
    exact ⟨entry + j, hentry ▸ hin, hj, hj'⟩
  · -- what is woven behind them
    rw [List.getElem?_append_right hm] at hz
    rw [List.getElem?_append_right (hapart.length' ▸ hm), hapart.length'] at hz'
    exact .inl (Option.some.inj (hz.symm.trans hz'))

end Places

end WeaveSite

/-! ## Bodies -/

namespace Weave

open WeaveSite

/-- Two bodies that are woven in lockstep have the same tables and constants, and where their
instructions differ they are copies of instructions that differ. -/
theorem body_lockstep {plan : WeavePlan} {context : MethodContext} {given given' woven : Body} {entry : Nat}
    {p r : Pool} {w : Parts} (hrest : given' = { given with insns := given'.insns })
    (hinsns : List.Forall₂ (Insn.Swaps ⟨plan, context⟩) given.insns given'.insns)
    (hw : WovenFrom ⟨plan, context⟩ r given entry w woven)
    (h : (body plan context given entry).run.run p = (.ok woven, r)) :
    ∃ woven', (body plan context given' entry).run.run p = (.ok woven', r) ∧
      woven' = { woven with insns := woven'.insns } ∧ Parallel w (given.insns.take entry)
        (given.insns.drop entry) (given'.insns.take entry) (given'.insns.drop entry) woven.insns woven'.insns := by
  let start : Emission :=
    { nextLabel := given.nextLabel, nextLocal := firstFree context given, maxLocals := firstFree context given }
  have hrun := lockstep_rebuild (s := ⟨plan, context⟩) hw.rebuilt (List.forall₂_take entry hinsns)
    (List.forall₂_drop entry hinsns) start p [] []
  unfold body at h ⊢
  obtain ⟨x, q, hx, h⟩ := run_bind_eq_ok.1 h
  rw [hrest]
  change Emit.Alike _ [] [] (((rebuild _ _ _).run start).run.run p) (((rebuild _ _ _).run start).run.run p) at hrun
  change ((rebuild _ _ _).run start).run.run p = _ at hx
  rw [hx] at hrun
  generalize hx' : ((rebuild _ (given'.insns.take entry) _).run start).run.run p = r' at hrun
  cases hrun with
  | @emitted insns insns' own e q hparallel =>
    cases h
    refine ⟨_, run_bind_eq_ok.2 ⟨_, _, hx', rfl⟩, rfl, ?_⟩
    exact hparallel

end Weave

end Interpose
