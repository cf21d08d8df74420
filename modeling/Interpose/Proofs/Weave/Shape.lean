import Mathlib.Algebra.GroupWithZero.Nat
import Interpose.Proofs.Code.StackMap
import Interpose.Proofs.Weave.Settling
import Interpose.Weave.Method
/-!
# The shape of woven code

Every instruction of a method is copied once, between templates that report what it does
(`Segment`). In front of the first copy stands the report of the start, and behind the last the
handler of the method (`Woven.code`). Weaving gives a body of that shape, or fails for want of room in the
pool (`body_ends`).
-/

namespace Interpose

open Emit

/-- The copy of an instruction with the templates around it. -/
structure Segment where
  front : List Template := []
  insn : Insn
  back : List Template := []
  /-- How many labels are used. -/
  labels : Nat := 0
  ranges : List Range := []

def Segment.templates (g : Segment) : List Template :=
  g.front ++ .plain g.insn :: g.back

/-- What is known behind an instruction. -/
def WeaveSite.Position.after (p : WeaveSite.Position) (i : Insn) : WeaveSite.Position :=
  { scan := p.scan.observe i
    line := match i with
      | .line n => Int32.ofNat n.toNat
      | _ => p.line }

@[simp] theorem WeaveSite.Position.after_scan (p : WeaveSite.Position) (i : Insn) :
    (p.after i).scan = p.scan.observe i := rfl

def Marker.around (ts : List Template) : List Template :=
  Marker.opening ++ (ts ++ Marker.closing)

namespace WeaveSite

variable (s : WeaveSite)

/-- The report of an event whose own operands are on the stack. It uses two labels. -/
def report (k : EventKind) (l : Label) : List Template :=
  (Block.address s.plan ++ [Block.invocation k]) ++ Block.verdictCheck s.returnType l (l + 1)

def startReport (arguments : UInt16) (l : Label) : List Template :=
  Marker.around (Block.packing s.parameters ++
    (Block.beforeDispatch s.plan s.context.name s.context.descriptor.descriptor s.context.isStatic
      arguments ++
    (Block.verdictCheck s.returnType l (l + 1) ++ Block.unpacking arguments s.parameters)))

def returnReport (l : Label) : List Template :=
  Marker.around ((s.returnType.duplicating ++ s.returnType.boxing) ++ s.report .return l)

def lineReport (n : UInt16) (l : Label) : List Template :=
  Marker.around (.pushInt (Int32.ofNat n.toNat) :: s.report .line l)

def callBeforeReport (line : Int32) (m : MemberRef) (l : Label) : List Template :=
  Marker.around ([Template.pushInt line, .pushString (toJavaName m.owner), .pushString m.name,
    .pushString m.descriptor] ++ s.report .callBefore l)

/-- The report of an invocation that has returned, if it is wanted. -/
def callReturnReport (l : Label) : List Template :=
  if s.wants .callReturn then Marker.around (s.report .callReturn l) else []

/-- The number of labels in the report of an invocation that has returned. -/
def callReturnLabels : Nat :=
  if s.wants .callReturn then 2 else 0

def callThrowsReport (l : Label) : List Template :=
  Marker.around (Block.className ++ s.report .callThrows l)

/-- What stands behind an invocation with a handler of its own; the labels are the start, the end and
the handler of its range, what follows it, and those of the reports. -/
def guardedBack (l : Label) : List Template :=
  .place (l + 1) :: (s.callReturnReport (l + 4) ++ ([Template.jump Op.goto (l + 3), .place (l + 2)] ++
    (s.callThrowsReport (l + 4 + s.callReturnLabels) ++ [Template.op Op.athrow, .place (l + 3)])))

/-- An invocation without what is reported in front of it. -/
def guardedSegment (i : Insn) (l : Label) : Segment :=
  if s.wants .callThrows then
    { front := [.place l], insn := i, back := s.guardedBack l,
      labels := 4 + s.callReturnLabels + 2, ranges := [⟨l, l + 1, l + 2⟩] }
  else { insn := i, back := s.callReturnReport l, labels := s.callReturnLabels }

def callSegment (line : Int32) (m : MemberRef) (i : Insn) (l : Label) : Segment :=
  if s.wants .callBefore then
    let g := s.guardedSegment i (l + 2)
    { g with front := s.callBeforeReport line m l ++ g.front, labels := 2 + g.labels }
  else s.guardedSegment i l

/-- The copy of an instruction with its reports. The member is the one that is invoked. -/
def segment (p : Position) (l : Label) (m : MemberRef) (i : Insn) : Segment :=
  let p := p.after i
  match i with
  | .line n =>
    if s.wants .line && !p.scan.inside then
      { insn := i, back := s.lineReport n l, labels := 2 }
    else { insn := i }
  | .simple op =>
    if Op.isReturn op && !p.scan.inside && s.wants .return then
      { front := s.returnReport l, insn := i, labels := 2 }
    else { insn := i }
  | .method _ _ =>
    if s.plan.kinds.meets EventKinds.calls && !p.scan.inside then s.callSegment p.line m i l
    else { insn := i }
  | _ => { insn := i }

/-- The segments of a run of instructions. Every one uses labels behind those of the one before. -/
inductive Segments : Position → Label → List Insn → List Segment → Prop
  | nil {p l} : Segments p l [] []
  | cons {p l i rest gs} (m : MemberRef) :
    Segments (p.after i) (l + (s.segment p l m i).labels) rest gs →
    Segments p l (i :: rest) (s.segment p l m i :: gs)

def throwsReport (thrown : UInt16) (l : Label) : List Template :=
  Marker.opening ++ ([Template.var Op.astore thrown, .var Op.aload thrown] ++ (s.report .throws l ++
    (Marker.closing ++ [Template.var Op.aload thrown, .op Op.athrow])))

/-- The parts of a woven method. -/
structure Parts where
  /-- The code up to the entry point. -/
  prologue : List Insn
  before : List Template
  /-- The label behind the report of the start; the one after it stands behind the segments. -/
  start : Nat
  segments : List Segment
  /-- The label of the handler of the method. -/
  handler : Nat
  finish : List Template

def Parts.code (w : Parts) : List Template :=
  w.prologue.map .plain ++ (w.before ++ (.place w.start :: (w.segments.flatMap Segment.templates ++
    (.place (w.start + 1) :: w.finish))))

/-- A number of labels or local variables for the reports of a kind. -/
def ifWanted (k : EventKind) (n : Nat) : Nat :=
  if s.wants k then n else 0

/-- The parts that a method is woven to. The free local variables are given with their number. -/
structure Rebuilt (l : Label) (room : UInt16 × UInt16) (first rest : List Insn) (w : Parts) :
    Prop where
  prologue : w.prologue = first
  before : w.before = if s.wants .before then s.startReport room.1 l else []
  start : w.start = l + s.ifWanted .before 2
  segments : s.Segments { line := lastLine first } (w.start + 2) rest w.segments
  handler : w.handler = w.start + 2 + (w.segments.map Segment.labels).sum
  finish : w.finish = if s.wants .throws then
    .place w.handler ::
      s.throwsReport (Emission.takeLocal^[s.ifWanted .before 1] room).1 (w.handler + 1) else []

def finish (start stop : Label) : Emit (Option TryCatch) := do
  if s.wants .throws then do
    let handler ← newLabel
    block [.place handler]
    s.onThrows
    return some ⟨start, stop, handler, ← throwable⟩
  else return none

theorem rebuild_eq (prologue rest : List Insn) : s.rebuild prologue rest = (do
    prologue.forM insn
    (if s.wants .before then s.before else pure ())
    let start ← newLabel
    let stop ← newLabel
    block [.place start]
    s.copyAll (lastLine prologue) rest
    block [.place stop]
    s.finish start stop) := by
  unfold rebuild finish
  by_cases hb : s.wants .before
  · simp only [hb, if_true]
  · simp only [hb, Bool.false_eq_true, if_false, pure_bind]

end WeaveSite

/-! ## Emitting the parts -/

section Emitting

variable {faults : FormatError → Prop} (hsize : ∀ err, FormatError.IsSize err → faults err)
  {p : Pool} {e : Emission}
include hsize

theorem Emit.emits_verdictCheck (hp : p.Sound) (t : JavaType) :
    Emits faults p e (verdictCheck t) (Block.verdictCheck t e.nextLabel (e.nextLabel + 1)) 2 0 []
      (fun _ => True) := by
  let ts := Block.verdictCheck t e.nextLabel (e.nextLabel + 1)
  refine emits_of_eq (τ := [] ++ ([] ++ ts)) (l := 1 + (1 + 0)) (k := 0 + (0 + 0))
    (ρ := [] ++ ([] ++ [])) ?_ rfl rfl rfl rfl fun _ h => h
  refine emits_bind (emits_newLabel hp) fun a e1 q ha hq hl _ => ?_
  refine emits_bind (emits_newLabel hq.sound) fun b _ r hb hr _ _ => ?_
  rw [ha, hb, hl]
  exact emits_block hsize hr.sound _

theorem WeaveSite.emits_dispatch (s : WeaveSite) (hp : p.Sound) (k : EventKind) :
    Emits faults p e (s.dispatch k) (s.report k e.nextLabel) 2 0 [] (fun _ => True) := by
  unfold dispatch Emit.dispatch
  refine emits_of_eq (l := 0 + 2) (k := 0 + 0) (ρ := [] ++ []) ?_ rfl rfl rfl rfl fun _ h => h
  refine emits_bind (emits_block hsize hp _) fun _ e' q _ hq hl _ => ?_
  have hl : e'.nextLabel = e.nextLabel := hl
  rw [← hl]
  exact emits_verdictCheck hsize hq.sound _

theorem Emit.emits_injected (hp : p.Sound) {code : Emit Unit} {ts : List Template} {l k : Nat}
    {rs : List Range}
    (h : ∀ e' q, p.Grows q → e'.nextLabel = e.nextLabel → e'.room = e.room →
      Emits faults q e' code ts l k rs (fun _ => True)) :
    Emits faults p e (injected code) (Marker.around ts) l k rs (fun _ => True) := by
  refine emits_of_eq (τ := Marker.opening ++ (ts ++ Marker.closing)) (l := 0 + (l + 0))
    (k := 0 + (k + 0)) (ρ := [] ++ (rs ++ [])) ?_ rfl (by omega) (by omega) (by simp) fun _ h => h
  refine emits_bind (emits_block hsize hp _) fun _ e' q _ hq hl hr => ?_
  refine emits_bind (h e' q hq hl hr) fun _ _ r _ hr _ _ => ?_
  exact emits_block hsize hr.sound _

namespace WeaveSite

variable (s : WeaveSite)

/-- Operands in front of a report, between markers. -/
theorem emits_reported (hp : p.Sound) (k : EventKind) (ts : List Template) :
    Emits faults p e (injected (do block ts; s.dispatch k))
      (Marker.around (ts ++ s.report k e.nextLabel)) 2 0 [] (fun _ => True) := by
  refine emits_injected hsize hp fun e' q hq hl _ => ?_
  refine emits_of_eq (τ := ts ++ s.report k e.nextLabel) (l := 0 + 2) (k := 0 + 0) (ρ := [] ++ []) ?_
    rfl rfl rfl rfl fun _ h => h
  refine emits_bind (emits_block hsize hq.sound _) fun _ e'' r _ hr hl' _ => ?_
  have hl' : e''.nextLabel = e'.nextLabel := hl'
  rw [← hl, ← hl']
  exact s.emits_dispatch hsize hr.sound k

theorem emits_before (hp : p.Sound) :
    Emits faults p e s.before (s.startReport e.nextLocal e.nextLabel) 2 1 [] (fun _ => True) := by
  refine emits_injected hsize hp fun e' q hq hl hroom => ?_
  have hlocal : e'.nextLocal = e.nextLocal := congrArg Prod.fst hroom
  refine emits_of_eq
    (τ := Block.packing s.parameters ++ ([] ++ (Block.beforeDispatch s.plan s.context.name
      s.context.descriptor.descriptor s.context.isStatic e.nextLocal ++
      (Block.verdictCheck s.returnType e.nextLabel (e.nextLabel + 1) ++
        Block.unpacking e.nextLocal s.parameters))))
    (l := 0 + (0 + (0 + (2 + 0)))) (k := 0 + (1 + (0 + (0 + 0)))) (ρ := [] ++ ([] ++ ([] ++ ([] ++ []))))
    ?_ rfl rfl rfl rfl fun _ h => h
  refine emits_bind (emits_block hsize hq.sound _) fun _ e1 q1 _ h1 hl1 hr1 => ?_
  refine emits_bind (emits_newLocal h1.sound) fun a e2 q2 ha h2 hl2 _ => ?_
  have hr1 : e1.nextLocal = e'.nextLocal := congrArg Prod.fst hr1
  rw [ha, hr1, hlocal]
  refine emits_bind (emits_block hsize h2.sound _) fun _ e3 q3 _ h3 hl3 _ => ?_
  have hlabel : e3.nextLabel = e.nextLabel := hl3.trans (hl2.trans (hl1.trans hl))
  have check : Emits faults q3 e3 (verdictCheck s.returnType)
      (Block.verdictCheck s.returnType e.nextLabel (e.nextLabel + 1)) 2 0 [] (fun _ => True) := by
    rw [← hlabel]
    exact emits_verdictCheck hsize h3.sound _
  exact emits_bind check fun _ _ q4 _ h4 _ _ => emits_block hsize h4.sound _

theorem emits_onCallReturn (hp : p.Sound) :
    Emits faults p e s.onCallReturn (s.callReturnReport e.nextLabel) s.callReturnLabels 0 []
      (fun _ => True) := by
  unfold onCallReturn callReturnReport callReturnLabels
  by_cases hw : s.wants .callReturn
  · simp only [hw, if_true]
    refine emits_injected hsize hp fun e' q hq hl _ => ?_
    rw [← hl]
    exact s.emits_dispatch hsize hq.sound .callReturn
  · simp only [hw]
    exact emits_pure hp trivial

theorem emits_callThrows (hp : p.Sound) :
    Emits faults p e (injected (do block Block.className; s.dispatch .callThrows))
      (s.callThrowsReport e.nextLabel) 2 0 [] (fun _ => True) :=
  s.emits_reported hsize hp .callThrows Block.className

theorem throwable_ends (hp : p.Sound) :
    Ends p (throwable.run e)
      (fun r q => p.Grows q ∧ r.2 = e ∧ q.className r.1 = .ok throwableClass) faults := by
  refine Ends.bind ((Pool.addClass_ends hp throwableClass).faulty hsize) fun i q h => ?_
  exact .pure ⟨h.1, rfl, h.2⟩

theorem emits_throwable (hp : p.Sound) (start stop handler : Label) :
    Emits faults p e (do callRange ⟨start, stop, handler, ← throwable⟩) [] 0 0
      [⟨start, stop, handler⟩] (fun _ => True) := by
  refine Ends.bind (throwable_ends hsize hp) fun r q h => ?_
  obtain ⟨hq, he, hi⟩ := h
  obtain ⟨i, e'⟩ := r
  cases he
  exact Ends.pure ⟨hq, ⟨⟨[], by simp, .nil⟩, rfl, rfl, ⟨_, rfl, .cons ⟨rfl, rfl, rfl, hi⟩ .nil⟩⟩,
    trivial⟩

theorem emits_guardedCall (hp : p.Sound) (i : Insn) :
    Emits faults p e (s.guardedCall i)
      (.place e.nextLabel :: .plain i :: s.guardedBack e.nextLabel)
      (4 + s.callReturnLabels + 2) 0 [⟨e.nextLabel, e.nextLabel + 1, e.nextLabel + 2⟩]
      (fun _ => True) := by
  let l := e.nextLabel
  let n := s.callReturnLabels
  refine emits_of_eq
    (τ := [] ++ ([] ++ ([] ++ ([] ++ ([Template.place l, .plain i, .place (l + 1)] ++
      (s.callReturnReport (l + 4) ++ ([Template.jump Op.goto (l + 3), .place (l + 2)] ++
        (s.callThrowsReport (l + 4 + n) ++ ([Template.op Op.athrow, .place (l + 3)] ++ [])))))))))
    (l := 1 + (1 + (1 + (1 + (0 + (n + (0 + (2 + (0 + 0)))))))))
    (k := 0 + (0 + (0 + (0 + (0 + (0 + (0 + (0 + (0 + 0)))))))))
    (ρ := [] ++ ([] ++ ([] ++ ([] ++ ([] ++ ([] ++ ([] ++ ([] ++ ([] ++ [⟨l, l + 1, l + 2⟩])))))))))
    ?_ (by simp [guardedBack, l, n]) (by omega) rfl (by simp [l]) fun _ h => h
  refine emits_bind (emits_newLabel hp) fun a1 e1 q1 ha1 h1 hl1 _ => ?_
  refine emits_bind (emits_newLabel h1.sound) fun a2 e2 q2 ha2 h2 hl2 _ => ?_
  refine emits_bind (emits_newLabel h2.sound) fun a3 e3 q3 ha3 h3 hl3 _ => ?_
  refine emits_bind (emits_newLabel h3.sound) fun a4 e4 q4 ha4 h4 hl4 _ => ?_
  have ha2 : a2 = l + 1 := by rw [ha2, hl1]
  have ha3 : a3 = l + 2 := by rw [ha3, hl2, hl1]
  have ha4 : a4 = l + 3 := by rw [ha4, hl3, hl2, hl1]
  have hl4 : e4.nextLabel = l + 4 := by rw [hl4, hl3, hl2, hl1]
  rw [ha1, ha2, ha3, ha4]
  refine emits_bind (emits_block hsize h4.sound _) fun _ e5 q5 _ h5 hl5 _ => ?_
  have hl5 : e5.nextLabel = l + 4 := hl5.trans hl4
  have returned := s.emits_onCallReturn hsize (e := e5) h5.sound
  rw [hl5] at returned
  refine emits_bind returned fun _ e6 q6 _ h6 hl6 _ => ?_
  have hl6 : e6.nextLabel = l + 4 + n := by rw [hl6, hl5]
  refine emits_bind (emits_block hsize h6.sound _) fun _ e7 q7 _ h7 hl7 _ => ?_
  have hl7 : e7.nextLabel = l + 4 + n := hl7.trans hl6
  have thrown := s.emits_callThrows hsize (e := e7) h7.sound
  rw [hl7] at thrown
  refine emits_bind thrown fun _ e8 q8 _ h8 hl8 _ => ?_
  refine emits_bind (emits_block hsize h8.sound _) fun _ e9 q9 _ h9 hl9 _ => ?_
  exact emits_throwable hsize h9.sound _ _ _

/-- The segment of an invocation, without the report in front of it. -/
theorem emits_guardedSegment (hp : p.Sound) (i : Insn) :
    Emits faults p e (if s.wants .callThrows then s.guardedCall i else do insn i; s.onCallReturn)
      (s.guardedSegment i e.nextLabel).templates (s.guardedSegment i e.nextLabel).labels 0
      (s.guardedSegment i e.nextLabel).ranges (fun _ => True) := by
  unfold guardedSegment
  by_cases hw : s.wants .callThrows
  · simp only [hw, if_true]
    exact s.emits_guardedCall hsize hp i
  · simp only [hw]
    refine emits_of_eq (τ := [Template.plain i] ++ s.callReturnReport e.nextLabel)
      (l := 0 + s.callReturnLabels) (k := 0 + 0) (ρ := [] ++ []) ?_ rfl (Nat.zero_add _) rfl rfl
      fun _ h => h
    refine emits_bind (emits_insn hp i) fun _ e' q _ hq hl _ => ?_
    have hl : e'.nextLabel = e.nextLabel := hl
    rw [← hl]
    exact s.emits_onCallReturn hsize hq.sound

/-- The invocation of a member that has been found. -/
theorem emits_found (hp : p.Sound) (i : Insn) (line : Int32) (m : MemberRef) :
    Emits faults p e (do
        if s.wants .callBefore then s.onCallBefore line m
        if s.wants .callThrows then s.guardedCall i
        else do
          insn i
          s.onCallReturn)
      (s.callSegment line m i e.nextLabel).templates (s.callSegment line m i e.nextLabel).labels 0
      (s.callSegment line m i e.nextLabel).ranges (fun _ => True) := by
  unfold callSegment
  by_cases hw : s.wants .callBefore
  · simp only [hw, if_true]
    refine emits_of_eq (l := 2 + (s.guardedSegment i (e.nextLabel + 2)).labels) (k := 0 + 0)
      (τ := s.callBeforeReport line m e.nextLabel ++
        (s.guardedSegment i (e.nextLabel + 2)).templates)
      (ρ := [] ++ (s.guardedSegment i (e.nextLabel + 2)).ranges) ?_
      (List.append_assoc _ _ _).symm rfl rfl rfl fun _ h => h
    have reported : Emits faults p e (s.onCallBefore line m) (s.callBeforeReport line m e.nextLabel)
        2 0 [] (fun _ => True) := s.emits_reported hsize hp .callBefore _
    refine emits_bind reported fun _ e' q _ hq hl _ => ?_
    rw [← hl]
    exact s.emits_guardedSegment hsize hq.sound i
  · simp only [hw]
    exact s.emits_guardedSegment hsize hp i

omit hsize in
/-- Looking a member up changes nothing. -/
theorem member_ends {index : UInt16} (hm : ∀ err, p.memberRef index = .error err → faults err) :
    Ends p ((member index).run e) (fun r q => q = p ∧ r.2 = e) faults := by
  have step : ((member index).run e).run.run p =
      (((MonadExcept.ofExcept (p.memberRef index) : Pool.Interning MemberRef) >>=
        fun m => pure (m, e)) : Pool.Interning (MemberRef × Emission)).run.run p := rfl
  cases h : p.memberRef index with
  | ok m =>
    rw [h] at step
    exact .returns step ⟨rfl, rfl⟩
  | error err =>
    rw [h] at step
    exact .fails step (hm err h)

theorem emits_call (hp : p.Sound) (i : Insn) (index : UInt16) (line : Int32)
    (hm : ∀ err, p.memberRef index = .error err → faults err) :
    Ends p ((s.call i index line).run e)
      (fun r q => ∃ m, p.Grows q ∧ e.Gains q r.2 (s.callSegment line m i e.nextLabel).templates
        (s.callSegment line m i e.nextLabel).labels 0 (s.callSegment line m i e.nextLabel).ranges)
      faults := by
  unfold call
  refine Ends.bind (member_ends hm) fun r q h => ?_
  obtain ⟨hq, he⟩ := h
  obtain ⟨m, e'⟩ := r
  cases hq
  cases he
  exact (s.emits_found hsize hp i line m).imp fun r q h => ⟨m, h.1, h.2.1⟩

/-- The members that instructions invoke can be looked up, or it is a fault. -/
def MembersKnown (faults : FormatError → Prop) (p : Pool) (insns : List Insn) : Prop :=
  ∀ op index q err, .method op index ∈ insns → p.Within q → q.memberRef index = .error err → faults err

omit hsize in
/-- What follows the code of a segment. -/
theorem emits_returning {α : Type} {x : Emit Unit} {a : α} {ts : List Template} {l : Nat}
    {rs : List Range} (hx : Emits faults p e x ts l 0 rs (fun _ => True)) :
    Emits faults p e (do x; return a) ts l 0 rs (· = a) := by
  refine emits_of_eq (τ := ts ++ []) (l := l + 0) (k := 0 + 0) (ρ := rs ++ []) ?_ (by simp) rfl rfl
    (by simp) fun _ h => h
  exact emits_bind hx fun _ _ q _ hq _ _ => emits_pure hq.sound rfl

omit hsize in
/-- A copy of an instruction between reports that are known beforehand. -/
theorem copied {pos : Position} {i : Insn} {x : Emit Position} {m : MemberRef}
    (hx : Emits faults p e x (s.segment pos e.nextLabel m i).templates
      (s.segment pos e.nextLabel m i).labels 0 (s.segment pos e.nextLabel m i).ranges
      (· = pos.after i)) :
    Ends p (x.run e)
      (fun r q => ∃ m, p.Grows q ∧ e.Gains q r.2 (s.segment pos e.nextLabel m i).templates
        (s.segment pos e.nextLabel m i).labels 0 (s.segment pos e.nextLabel m i).ranges ∧
        r.1 = pos.after i) faults :=
  hx.imp fun _ _ h => ⟨m, h⟩

theorem emits_copy (hp : p.Sound) (pos : Position) (i : Insn) (hm : MembersKnown faults p [i]) :
    Ends p ((s.copy pos i).run e)
      (fun r q => ∃ m, p.Grows q ∧ e.Gains q r.2 (s.segment pos e.nextLabel m i).templates
        (s.segment pos e.nextLabel m i).labels 0 (s.segment pos e.nextLabel m i).ranges ∧
        r.1 = pos.after i) faults := by
  -- no member is looked up but for an invocation
  have nobody : MemberRef := ⟨"", "", ""⟩
  cases i with
  | line n =>
    refine s.copied (m := nobody) ?_
    unfold copy segment
    by_cases hw : (s.wants .line && !(pos.scan.observe (.line n)).inside) = true
    · simp only [Position.after_scan, hw, if_true]
      refine emits_of_eq (τ := [Template.plain (.line n)] ++ s.lineReport n e.nextLabel) (l := 0 + 2)
        (k := 0 + 0) (ρ := [] ++ []) ?_ rfl rfl rfl rfl fun _ h => h
      refine emits_bind (emits_insn hp _) fun _ e' q _ hq hl _ => ?_
      have hl : e'.nextLabel = e.nextLabel := hl
      rw [← hl]
      exact emits_returning (s.emits_reported hsize hq.sound .line _)
    · simp only [Position.after_scan, hw]
      exact emits_returning (emits_insn hp _)
  | simple op =>
    refine s.copied (m := nobody) ?_
    unfold copy segment
    by_cases hw :
      (Op.isReturn op && !(pos.scan.observe (.simple op)).inside && s.wants .return) = true
    · simp only [Position.after_scan, hw, if_true]
      refine emits_of_eq (τ := s.returnReport e.nextLabel ++ [Template.plain (.simple op)]) (l := 2 + 0)
        (k := 0 + 0) (ρ := [] ++ []) ?_ rfl rfl rfl rfl fun _ h => h
      refine emits_bind (s.emits_reported hsize hp .return _) fun _ e' q _ hq _ _ => ?_
      exact emits_returning (emits_insn hq.sound _)
    · simp only [Position.after_scan, hw]
      exact emits_returning (emits_insn hp _)
  | method op index =>
    unfold copy segment
    by_cases hw :
      (s.plan.kinds.meets EventKinds.calls && !(pos.scan.observe (.method op index)).inside) = true
    · simp only [Position.after_scan, hw, if_true]
      have hm : ∀ err, p.memberRef index = .error err → faults err := fun err =>
        hm op index p err (List.mem_singleton_self _) (.refl p)
      refine (s.emits_call hsize hp (.method op index) index pos.line hm).bind fun r q h => ?_
      obtain ⟨m, hq, hg⟩ := h
      exact .pure ⟨m, hq, hg, rfl⟩
    · simp only [Position.after_scan, hw]
      exact Ends.imp (emits_returning (emits_insn hp (.method op index))) fun _ _ h => ⟨nobody, h⟩
  | _ =>
    refine s.copied (m := nobody) ?_
    exact emits_returning (emits_insn hp _)

theorem emits_copies (hp : p.Sound) (pos : Position) (insns : List Insn)
    (hm : MembersKnown faults p insns) :
    Ends p ((insns.foldlM s.copy pos).run e)
      (fun r q => ∃ gs, s.Segments pos e.nextLabel insns gs ∧ p.Grows q ∧
        e.Gains q r.2 (gs.flatMap Segment.templates) (gs.map Segment.labels).sum 0
          (gs.flatMap Segment.ranges)) faults := by
  induction insns generalizing p e pos with
  | nil => exact Ends.pure ⟨[], .nil, .refl hp, .refl p e⟩
  | cons i rest ih =>
    have hi : MembersKnown faults p [i] := fun op index q err h =>
      hm op index q err (List.mem_cons.2 (.inl (List.mem_singleton.1 h)))
    refine Ends.bind (s.emits_copy hsize hp pos i hi) fun r q h => ?_
    obtain ⟨m, hq, hg, hr⟩ := h
    have hrest : MembersKnown faults q rest := fun op index q' err h hq' =>
      hm op index q' err (List.mem_cons_of_mem _ h) (hq.within.trans hq')
    refine (ih hq.sound r.1 hrest).imp fun r' q' h => ?_
    obtain ⟨gs, hgs, hq', hg'⟩ := h
    rw [hr, hg.nextLabel] at hgs
    exact ⟨_, .cons m hgs, hq.trans hq', hg.trans hq'.within hg'⟩

theorem emits_onThrows (hp : p.Sound) :
    Emits faults p e s.onThrows (s.throwsReport e.nextLocal e.nextLabel) 2 1 [] (fun _ => True) := by
  refine emits_of_eq
    (τ := Marker.opening ++ ([] ++ ([Template.var Op.astore e.nextLocal, .var Op.aload e.nextLocal] ++
      (s.report .throws e.nextLabel ++
        (Marker.closing ++ [Template.var Op.aload e.nextLocal, .op Op.athrow])))))
    (l := 0 + (0 + (0 + (2 + 0)))) (k := 0 + (1 + (0 + (0 + 0))))
    (ρ := [] ++ ([] ++ ([] ++ ([] ++ [])))) ?_ rfl rfl rfl rfl fun _ h => h
  refine emits_bind (emits_block hsize hp _) fun _ e1 q1 _ h1 hl1 hr1 => ?_
  have hr1 : e1.nextLocal = e.nextLocal := congrArg Prod.fst hr1
  refine emits_bind (emits_newLocal h1.sound) fun a e2 q2 ha h2 hl2 _ => ?_
  rw [ha, hr1]
  refine emits_bind (emits_block hsize h2.sound _) fun _ e3 q3 _ h3 hl3 _ => ?_
  have hl3 : e3.nextLabel = e.nextLabel := hl3.trans (hl2.trans hl1)
  have thrown := s.emits_dispatch hsize (e := e3) h3.sound .throws
  rw [hl3] at thrown
  exact emits_bind thrown fun _ _ q4 _ h4 _ _ => emits_block hsize h4.sound _

omit hsize in
theorem emits_prologue (hp : p.Sound) (insns : List Insn) :
    Emits faults p e (insns.forM insn) (insns.map .plain) 0 0 [] (fun _ => True) := by
  induction insns generalizing p e with
  | nil => exact emits_pure hp trivial
  | cons i rest ih => exact emits_bind (emits_insn hp i) fun _ _ _ _ hq _ _ => ih hq.sound

theorem emits_beforeIfWanted (hp : p.Sound) :
    Emits faults p e (if s.wants .before then s.before else pure ())
      (if s.wants .before then s.startReport e.nextLocal e.nextLabel else []) (s.ifWanted .before 2)
      (s.ifWanted .before 1) [] (fun _ => True) := by
  unfold ifWanted
  by_cases hw : s.wants .before
  · simp only [hw, if_true]
    exact s.emits_before hsize hp
  · simp only [hw]
    exact emits_pure hp trivial

theorem emits_finish (hp : p.Sound) (start stop : Label) :
    Ends p ((s.finish start stop).run e) (fun r q => p.Grows q ∧
      e.Gains q r.2 (if s.wants .throws then
        .place e.nextLabel :: s.throwsReport e.nextLocal (e.nextLabel + 1) else [])
        (s.ifWanted .throws 3) (s.ifWanted .throws 1) [] ∧
      List.Forall₂ (Range.Settles q)
        (if s.wants .throws then [⟨start, stop, e.nextLabel⟩] else []) r.1.toList) faults := by
  unfold finish ifWanted
  by_cases hw : s.wants .throws
  · simp only [hw, if_true]
    have code : Emits faults p e (do let l ← newLabel; block [.place l]; s.onThrows; pure l)
        ([] ++ ([Template.place e.nextLabel] ++ (s.throwsReport e.nextLocal (e.nextLabel + 1) ++ [])))
        (1 + (0 + (2 + 0))) (0 + (0 + (1 + 0))) ([] ++ ([] ++ ([] ++ []))) (· = e.nextLabel) := by
      refine emits_bind (emits_newLabel hp) fun l e1 q1 hl h1 hl1 hr1 => ?_
      rw [hl]
      refine emits_bind (emits_block hsize h1.sound _) fun _ e2 q2 _ h2 hl2 hr2 => ?_
      have hlabel : e2.nextLabel = e.nextLabel + 1 := hl2.trans hl1
      have hlocal : e2.nextLocal = e.nextLocal := congrArg Prod.fst (hr2.trans hr1)
      have thrown := s.emits_onThrows hsize (e := e2) h2.sound
      rw [hlabel, hlocal] at thrown
      exact emits_bind thrown fun _ _ q3 _ h3 _ _ => emits_pure h3.sound rfl
    have split : ∀ {α : Type} (f : Label → Emit α), (do
        let l ← newLabel
        block [.place l]
        s.onThrows
        f l) = ((do let l ← newLabel; block [.place l]; s.onThrows; pure l) >>= f) := by
      intro α f
      simp only [bind_assoc, pure_bind]
    rw [split]
    refine ends_bind code fun l e' q h => ?_
    obtain ⟨hq, hg, hl⟩ := h
    refine ends_bind (throwable_ends hsize hq.sound) fun i e'' q' h' => ?_
    obtain ⟨hq', he, hi⟩ := h'
    cases he
    refine Ends.pure ⟨hq.trans hq', ?_, .cons ⟨rfl, rfl, hl, hi⟩ .nil⟩
    simpa using hg.trans hq'.within (.refl q' _)
  · simp only [hw]
    exact Ends.pure ⟨.refl hp, .refl p e, .nil⟩

theorem emits_rebuild (hp : p.Sound) (prologue rest : List Insn) (hm : MembersKnown faults p rest) :
    Ends p ((s.rebuild prologue rest).run e)
      (fun r q => ∃ w, s.Rebuilt e.nextLabel e.room prologue rest w ∧ p.Grows q ∧
        e.Gains q r.2 w.code (s.ifWanted .before 2 + (2 + ((w.segments.map Segment.labels).sum +
            s.ifWanted .throws 3)))
          (s.ifWanted .before 1 + s.ifWanted .throws 1) (w.segments.flatMap Segment.ranges) ∧
        List.Forall₂ (Range.Settles q)
          (if s.wants .throws then [⟨w.start, w.start + 1, w.handler⟩] else []) r.1.toList)
      faults := by
  rw [rebuild_eq]
  refine ends_bind (emits_prologue hp prologue) fun _ e1 q1 h => ?_
  obtain ⟨h1, g1, -⟩ := h
  have hl1 : e1.nextLabel = e.nextLabel := g1.nextLabel
  have hr1 : e1.room = e.room := g1.room
  refine ends_bind (s.emits_beforeIfWanted hsize h1.sound) fun _ e2 q2 h => ?_
  obtain ⟨h2, g2, -⟩ := h
  refine ends_bind (emits_newLabel h2.sound) fun start e3 q3 h => ?_
  obtain ⟨h3, g3, hstart⟩ := h
  refine ends_bind (emits_newLabel h3.sound) fun stop e4 q4 h => ?_
  obtain ⟨h4, g4, hstop⟩ := h
  dsimp only at hstart hstop
  have hstop : stop = start + 1 := by rw [hstop, hstart, g3.nextLabel]
  refine ends_bind (emits_block hsize h4.sound _) fun _ e5 q5 h => ?_
  obtain ⟨h5, g5, -⟩ := h
  have hl5 : e5.nextLabel = start + 2 := by rw [g5.nextLabel, g4.nextLabel, g3.nextLabel, hstart]
  have hm5 : MembersKnown faults q5 rest := fun op index q err h hq => hm op index q err h
    (h1.within.trans (h2.within.trans (h3.within.trans (h4.within.trans (h5.within.trans hq)))))
  have copied : Ends q5 ((s.copyAll (lastLine prologue) rest).run e5)
      (fun r q => ∃ gs, s.Segments { line := lastLine prologue } e5.nextLabel rest gs ∧ q5.Grows q ∧
        e5.Gains q r.2 (gs.flatMap Segment.templates) (gs.map Segment.labels).sum 0
          (gs.flatMap Segment.ranges)) faults := by
    refine ends_bind (s.emits_copies hsize h5.sound _ rest hm5) fun _ e' q h => ?_
    exact Ends.pure h
  refine ends_bind copied fun _ e6 q6 h => ?_
  obtain ⟨gs, hgs, h6, g6⟩ := h
  refine ends_bind (emits_block hsize h6.sound _) fun _ e7 q7 h => ?_
  obtain ⟨h7, g7, -⟩ := h
  refine (s.emits_finish hsize h7.sound start stop).imp fun r q h => ?_
  obtain ⟨h8, g8, hown⟩ := h
  have hl7 : e7.nextLabel = start + 2 + (gs.map Segment.labels).sum := by
    rw [g7.nextLabel, g6.nextLabel, hl5]
    rfl
  have hr7 : e7.room = Emission.takeLocal^[s.ifWanted .before 1] e.room :=
    g7.room.trans (g6.room.trans (g5.room.trans (g4.room.trans (g3.room.trans (g2.room.trans
      (congrArg _ hr1))))))
  have hlocal : e1.nextLocal = e.room.1 := congrArg Prod.fst hr1
  let w : Parts := ⟨prologue, if s.wants .before then s.startReport e.room.1 e.nextLabel else [],
    start, gs, start + 2 + (gs.map Segment.labels).sum, if s.wants .throws then
      .place e7.nextLabel :: s.throwsReport e7.nextLocal (e7.nextLabel + 1) else []⟩
  have w7 := h8.within
  have w6 := h7.within.trans w7
  have w5 := h6.within.trans w6
  have w4 := h5.within.trans w5
  have w3 := h4.within.trans w4
  have w2 := h3.within.trans w3
  have w1 := h2.within.trans w2
  have g := g1.trans w1 (g2.trans w2 (g3.trans w3 (g4.trans w4 (g5.trans w5 (g6.trans w6
    (g7.trans w7 g8))))))
  have grown := h1.trans (h2.trans (h3.trans (h4.trans (h5.trans (h6.trans (h7.trans h8))))))
  refine ⟨w, ⟨rfl, rfl, ?_, ?_, rfl, ?_⟩, grown, ?_, ?_⟩
  · change start = _
    rw [hstart, g2.nextLabel, hl1]
  · change s.Segments _ (start + 2) rest gs
    rw [← hl5]
    exact hgs
  · simp only [w, hl7, ← hr7]
    rfl
  · rw [hl1, hlocal] at g
    simpa only [w, Parts.code, hstop, List.nil_append, List.append_nil, List.singleton_append,
      Nat.zero_add, ← Nat.add_assoc] using g
  · rw [hl7, hstop] at hown
    exact hown

end WeaveSite

/-! ## Bodies -/

namespace Weave

/-- The first local variable behind those of a method and its parameters. -/
def firstFree (context : MethodContext) (given : Body) : UInt16 :=
  max given.maxLocals (argumentSlots context)

/-- The body is made of the parts of a woven method, with their constants in the pool. -/
structure WovenFrom (s : WeaveSite) (q : Pool) (given : Body) (entry : Nat) (w : WeaveSite.Parts)
    (woven : Body) : Prop where
  rebuilt : s.Rebuilt given.nextLabel (firstFree s.context given, firstFree s.context given)
    (given.insns.take entry) (given.insns.drop entry) w
  insns : Template.SettleAll q w.code woven.insns
  tryCatch : ∃ calls own, woven.tryCatch = calls ++ given.tryCatch ++ own ∧
    List.Forall₂ (Range.Settles q) (w.segments.flatMap Segment.ranges) calls ∧
    List.Forall₂ (Range.Settles q)
      (if s.wants .throws then [⟨w.start, w.start + 1, w.handler⟩] else []) own
  maxLocals : woven.maxLocals = (Emission.takeLocal^[s.ifWanted .before 1 + s.ifWanted .throws 1]
    (firstFree s.context given, firstFree s.context given)).2
  tables : woven.locals = given.locals ∧ woven.localTypes = given.localTypes ∧
    woven.declaredFrames = given.declaredFrames

omit hsize in
theorem WovenFrom.within {s : WeaveSite} {p q : Pool} {given woven : Body} {entry : Nat}
    {w : WeaveSite.Parts} (hpq : p.Within q) (hw : WovenFrom s p given entry w woven) :
    WovenFrom s q given entry w woven := by
  obtain ⟨calls, own, htryCatch, hcalls, hown⟩ := hw.tryCatch
  exact ⟨hw.rebuilt, hw.insns.imp fun _ _ h => h.within hpq,
    ⟨calls, own, htryCatch, hcalls.imp fun _ _ h => h.within hpq, hown.imp fun _ _ h => h.within hpq⟩,
    hw.maxLocals, hw.tables⟩

/-- Weaving puts the parts together, or it fails for want of room in the pool or because an invoked
member cannot be looked up. -/
theorem body_ends (hp : p.Sound) (plan : WeavePlan) (context : MethodContext) (given : Body)
    (entry : Nat) (hm : WeaveSite.MembersKnown faults p (given.insns.drop entry)) :
    Ends p (body plan context given entry)
      (fun woven q => p.Grows q ∧ ∃ w, WovenFrom ⟨plan, context⟩ q given entry w woven) faults := by
  refine Ends.bind (WeaveSite.emits_rebuild hsize ⟨plan, context⟩ hp _ _ hm) fun r q h => ?_
  obtain ⟨w, hw, hq, hg, hown⟩ := h
  obtain ⟨is, his, hsettle⟩ := hg.insns
  obtain ⟨rs, hrs, hcalls⟩ := hg.callRanges
  simp only [List.nil_append] at his hrs
  refine .pure ⟨hq, w, hw, ?_, ⟨rs, r.1.toList, ?_, hcalls, hown⟩, congrArg Prod.snd hg.room,
    rfl, rfl, rfl⟩
  · rw [his]
    exact hsettle
  · rw [hrs]

end Weave

end Emitting

/-! ## Whole methods -/

/-- Weaving a method, step by step. -/
theorem Weave.method_steps {plan : WeavePlan} {context : MethodContext} {h : Hierarchy} {major : UInt16}
    {code c : CodeAttribute} {p q : Pool}
    (hc : (method plan context h major code).run.run p = (.ok c, q)) :
    ∃ given entry woven r, decode code = .ok given ∧ entryPoint given context p h = .ok entry ∧
      (body plan context given entry).run.run p = (.ok woven, r) ∧
      (assemble woven context h major).run.run r = (.ok c, q) := by
  unfold method at hc
  rw [run_bind_eq_ok] at hc
  obtain ⟨given, p1, hdecode, hc⟩ := hc
  obtain ⟨hgiven, rfl⟩ := ofExcept_eq_ok hdecode
  rw [run_bind_eq_ok] at hc
  obtain ⟨_, _, hget, hc⟩ := hc
  cases hget
  rw [run_bind_eq_ok] at hc
  obtain ⟨entry, p2, hfirst, hc⟩ := hc
  obtain ⟨hentry, rfl⟩ := ofExcept_eq_ok hfirst
  rw [run_bind_eq_ok] at hc
  obtain ⟨woven, r, hwoven, hc⟩ := hc
  exact ⟨given, entry, woven, r, hgiven, hentry, adding_eq_ok hwoven, hc⟩

theorem Weave.body_grows {plan : WeavePlan} {context : MethodContext} {given woven : Body} {entry : Nat}
    {p r : Pool} (hp : p.Sound)
    (h : (body plan context given entry).run.run p = (.ok woven, r)) :
    p.Grows r ∧ ∃ w, WovenFrom ⟨plan, context⟩ r given entry w woven :=
  (body_ends (fun _ _ => trivial) hp plan context given entry fun _ _ _ _ _ _ _ => trivial).of_ok h

/-- What a method is woven to. -/
theorem Weave.method_parts {plan : WeavePlan} {context : MethodContext} {h : Hierarchy} {major : UInt16}
    {code c : CodeAttribute} {p q : Pool} (hp : p.Sound)
    (hc : (method plan context h major code).run.run p = (.ok c, q)) :
    ∃ given entry woven w b a e r, decode code = .ok given ∧ entryPoint given context p h = .ok entry ∧
      p.Within r ∧ r.Within q ∧ WovenFrom ⟨plan, context⟩ r given entry w woven ∧
      Assemble.live woven context r h = .ok (b, a) ∧ encode b r = .ok e ∧ c.code = e.code ∧
      c.exceptions = e.exceptions := by
  obtain ⟨given, entry, woven, r, hgiven, hentry, hwoven, hc⟩ := method_steps hc
  obtain ⟨hgrows, w, hw⟩ := body_grows hp hwoven
  obtain ⟨b, a, e, hlive, he, hcode, hexceptions, hq, -⟩ := assemble_eq_ok hgrows.sound hc
  exact ⟨given, entry, woven, w, b, a, e, r, hgiven, hentry, hgrows.within, hq.within, hw, hlive, he,
    hcode, hexceptions⟩

end Interpose
