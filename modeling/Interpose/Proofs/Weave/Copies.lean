import Interpose.Proofs.Execution.Woven
import Interpose.Proofs.Inference.Flow
/-!
# Copies of instructions

Woven code has a piece for each instruction of the method: its copy with what is woven around it. The
report of the start belongs to the first instruction behind the entry point (`Parts.pieces`). The copies
stand in the order of the instructions (`Parts.spot_lt`), labels stand at their copies
(`WovenFrom.lastPlace_spot`), and control goes through all that is woven between them
(`Template.Through`).

Result:
* `WovenFrom.reached_spot`: control reaches the copy of every instruction that it reaches in the method.
-/

namespace Interpose

/-! ## Where control goes through -/

namespace Template

variable {bound : Nat}

/-- Control goes through the templates from the first one to behind the last. A branch to a label from
a number on may lead past others. -/
inductive Through (bound : Nat) : List Template → Prop
  | nil : Through bound []
  | next {t : Template} {ts : List Template} : t.onward = true → Through bound ts →
    Through bound (t :: ts)
  | past {op : Opcode} {l : Nat} {between ts : List Template} : bound ≤ l → Through bound ts →
    Through bound (.jump op l :: (between ++ .place l :: ts))

theorem Through.append {ts ts' : List Template} (h : Through bound ts) (h' : Through bound ts') :
    Through bound (ts ++ ts') := by
  induction h with
  | nil => exact h'
  | next ht _ ih => exact .next ht ih
  | past hl _ ih =>
    rw [List.cons_append, List.append_assoc]
    exact .past hl ih

theorem Straight.through {ts : List Template} (h : Straight ts) : Through bound ts := by
  induction ts with
  | nil => exact .nil
  | cons t ts ih =>
    exact .next (h t (List.mem_cons_self ..)).2 (ih fun t ht => h t (List.mem_cons_of_mem _ ht))

theorem through_verdictCheck {l : Nat} (h : bound ≤ l) (t : JavaType) :
    Through bound (Block.verdictCheck t l (l + 1)) := by
  have hthrow : Through bound (.pushInt Spy.stateThrow :: .jump Op.ifIcmpne (l + 1) ::
      ([Template.field Op.getfield Spy.valueField, .type Op.checkcast throwableClass, .op Op.athrow] ++
        .place (l + 1) :: [.op Op.pop])) :=
    .next rfl (.past (Nat.le_succ_of_le h) (.next rfl .nil))
  have hreturn : Through bound (.jump Op.ifIcmpne l ::
      (([Template.op Op.pop, .field Op.getfield Spy.valueField] ++
        (t.unboxing ++ [.op t.returnOpcode])) ++ .place l :: _)) :=
    .past h hthrow
  have hall := Through.next (t := .op Op.dup) rfl (.next (t := .field Op.getfield Spy.stateField) rfl
    (.next (t := .op Op.dup) rfl (.next (t := .pushInt Spy.stateReturn) rfl hreturn)))
  simpa [Block.verdictCheck] using hall

theorem through_around {ts : List Template} (h : Through bound ts) :
    Through bound (Marker.around ts) := by
  have hopening : Through bound Marker.opening := .next rfl (.next rfl .nil)
  have hclosing : Through bound Marker.closing := .next rfl (.next rfl .nil)
  exact hopening.append (h.append hclosing)

end Template

namespace WeaveSite

open Template

variable (s : WeaveSite) {bound l : Nat} (h : bound ≤ l)
include h

theorem through_report (k : EventKind) : Through bound (s.report k l) :=
  .next rfl (.next rfl (.next rfl (through_verdictCheck h _)))

theorem through_startReport (arguments : UInt16) : Through bound (s.startReport arguments l) :=
  through_around ((packing_straight _).through.append
    ((s.beforeDispatch_straight _ _ _ _).through.append
      ((through_verdictCheck h _).append (unpacking_straight _ _).through)))

theorem through_returnReport : Through bound (s.returnReport l) :=
  through_around ((s.returnType.duplicating_straight.append s.returnType.boxing_straight).through.append
    (s.through_report h _))

theorem through_lineReport (n : UInt16) : Through bound (s.lineReport n l) :=
  through_around (.next rfl (s.through_report h _))

theorem through_callBeforeReport (line : Int32) (m : MemberRef) :
    Through bound (s.callBeforeReport line m l) :=
  through_around (.next rfl (.next rfl (.next rfl (.next rfl (s.through_report h _)))))

theorem through_callReturnReport : Through bound (s.callReturnReport l) := by
  unfold callReturnReport
  split
  · exact through_around (s.through_report h _)
  · exact .nil

/-- Behind an invocation with a handler of its own, control goes past the handler. -/
theorem through_guardedBack : Through bound (s.guardedBack l) := by
  have hpast : Through bound (.jump Op.goto (l + 3) :: ((.place (l + 2) ::
      (s.callThrowsReport (l + 4 + s.callReturnLabels) ++ [.op Op.athrow])) ++ .place (l + 3) :: [])) :=
    .past (Nat.le_add_right_of_le h) .nil
  have hreturn := s.through_callReturnReport (Nat.le_add_right_of_le h : bound ≤ l + 4)
  have hall := Through.next (t := .place (l + 1)) rfl (hreturn.append hpast)
  simpa [guardedBack] using hall

end WeaveSite

/-- Control goes through templates and carries with it what it has. -/
theorem Stage.conveyed_through (σ : Stage) {R : Nat → Prop} (hR : σ.body.Conveys R) {k : Nat}
    {ts : List Template} (h : Template.Through σ.bound ts) (hat : σ.Has k ts) (hk : R k) :
    R (k + ts.length) := by
  have onward {k : Nat} {t : Template} (hcode : σ.code[k]? = some t) (ht : t.onward = true)
      (hk : R k) : R (k + 1) := by
    obtain ⟨insn, hinsn, hsettles⟩ := forall₂_getElem? σ.settled hcode
    exact hR _ _ hk (.next hinsn (by rw [hsettles.isTerminal, ht]; rfl) rfl)
  induction h generalizing k with
  | nil => exact hk
  | @next t ts ht _ ih =>
    rw [List.length_cons, Nat.add_comm ts.length, ← Nat.add_assoc]
    exact ih hat.tail (onward hat.head ht hk)
  | @past op l between ts hl _ ih =>
    have hplace := hat.tail.append_right
    obtain ⟨insn, hinsn, hsettles⟩ := forall₂_getElem? σ.settled hat.head
    cases hsettles
    have hjump := hR _ _ hk (.jump hinsn (List.mem_singleton_self _)
      (σ.placed _ l hl hplace.head))
    have hlength : k + (Template.jump op l :: (between ++ .place l :: ts)).length =
        k + 1 + between.length + 1 + ts.length := by
      rw [List.length_cons, List.length_append, List.length_cons]
      omega
    rw [hlength]
    exact ih hplace.tail (onward hplace.head rfl hjump)

/-- Control that comes to templates goes through them. -/
theorem Stage.reached_through (σ : Stage) {k : Nat} {ts : List Template}
    (h : Template.Through σ.bound ts) (hat : σ.Has k ts) (hk : σ.body.Reached k) :
    σ.body.Reached (k + ts.length) :=
  σ.conveyed_through σ.body.conveys_reached h hat hk

/-! ## Pieces -/

/-- Control goes through all that is woven around a copy, and the labels there are numbered from a
number on. -/
structure Segment.Surrounded (bound : Nat) (g : Segment) : Prop where
  front : Template.Through bound g.front
  back : Template.Through bound g.back
  fresh : ∀ l : Nat, .place l ∈ g.front ∨ .place l ∈ g.back → bound ≤ l

def Segment.behind (ts : List Template) (g : Segment) : Segment :=
  { g with front := ts ++ g.front }

namespace WeaveSite

open Template

variable (s : WeaveSite) {bound : Nat}

theorem segment_fresh_around (p : Position) (l : Label) (m : MemberRef) (i : Insn) {l' : Nat}
    (hl' : .place l' ∈ (s.segment p l m i).front ∨ .place l' ∈ (s.segment p l m i).back) : l ≤ l' := by
  by_cases hlabel : ∃ l'', i = .label l''
  · obtain ⟨l'', rfl⟩ := hlabel
    rw [segment_label] at hl'
    rcases hl' with hl' | hl' <;> cases hl'
  · have hfresh := s.segment_fresh p (Nat.zero_le l) m (i := i) fun l'' he => absurd ⟨l'', he⟩ hlabel
    refine (hfresh.between l' (mem_freshLabels.2 ⟨Nat.zero_le _, ?_⟩)).1
    rw [Segment.templates, List.mem_append, List.mem_cons]
    exact hl'.imp_right .inr

theorem guardedSegment_surrounded (i : Insn) {l : Nat} (h : bound ≤ l) :
    Through bound (s.guardedSegment i l).front ∧ Through bound (s.guardedSegment i l).back := by
  unfold guardedSegment
  split
  · exact ⟨.next rfl .nil, s.through_guardedBack h⟩
  · exact ⟨.nil, s.through_callReturnReport h⟩

theorem segment_surrounded (p : Position) {l : Nat} (h : bound ≤ l) (m : MemberRef) (i : Insn) :
    (s.segment p l m i).Surrounded bound := by
  have through : Through bound (s.segment p l m i).front ∧ Through bound (s.segment p l m i).back := by
    cases i with
    | line n =>
      unfold segment
      simp only
      split
      · exact ⟨.nil, s.through_lineReport h n⟩
      · exact ⟨.nil, .nil⟩
    | simple op =>
      unfold segment
      simp only
      split
      · exact ⟨s.through_returnReport h, .nil⟩
      · exact ⟨.nil, .nil⟩
    | method op index =>
      unfold segment callSegment
      simp only
      split
      · split
        · obtain ⟨hfront, hback⟩ := s.guardedSegment_surrounded (.method op index)
            (Nat.le_add_right_of_le h : bound ≤ l + 2)
          exact ⟨(s.through_callBeforeReport h _ _).append hfront, hback⟩
        · exact s.guardedSegment_surrounded _ h
      · exact ⟨.nil, .nil⟩
    | _ => exact ⟨.nil, .nil⟩
  exact ⟨through.1, through.2, fun l' hl' => Nat.le_trans h (s.segment_fresh_around p l m i hl')⟩

/-- Only invocations have handlers of their own. -/
theorem segment_ranges (p : Position) (l : Label) (m : MemberRef) {i : Insn}
    (h : (s.segment p l m i).ranges ≠ []) : ∃ op index, i = .method op index := by
  cases i with
  | method op index => exact ⟨op, index, rfl⟩
  | line n =>
    unfold segment at h
    simp only at h
    split at h <;> exact absurd rfl h
  | simple op =>
    unfold segment at h
    simp only at h
    split at h <;> exact absurd rfl h
  | _ => exact absurd rfl h

/-- What stands between the code up to the entry point and the code behind it. -/
def Parts.opening (w : Parts) : List Template :=
  w.before ++ [Template.place w.start]

/-- The copies of all instructions with what is woven around them. The report of the start is in front
of the first instruction behind the entry point. -/
def Parts.pieces (w : Parts) : List Segment :=
  w.prologue.map (fun i => { insn := i }) ++
    w.segments.modifyHead (Segment.behind w.opening)

/-- Where the piece of an instruction starts. -/
def Parts.edge (w : Parts) (i : Nat) : Nat :=
  pieceStart Segment.templates w.pieces i

/-- Where the copy of an instruction stands. -/
def Parts.spot (w : Parts) (i : Nat) : Nat :=
  w.edge i + ((w.pieces[i]?).map (·.front.length)).getD 0

/-- Where the code behind the report of the start begins. -/
def Parts.entrance (w : Parts) : Nat :=
  w.prologue.length + w.before.length

/-- Where the code behind the report of the start ends; the handler of the method follows. -/
def Parts.exit (w : Parts) : Nat :=
  w.entrance + 1 + (w.segments.flatMap Segment.templates).length

variable {w : Parts} {i j : Nat} {g : Segment}

theorem templates_bare (insns : List Insn) :
    (insns.map fun i => ({ insn := i } : Segment)).flatMap Segment.templates = insns.map .plain := by
  rw [List.flatMap_map]
  exact List.map_eq_flatMap.symm

/-- Behind the pieces stand the end of the range of the method and its handler. -/
theorem Parts.code_eq_pieces (h : w.segments ≠ []) :
    w.code = w.pieces.flatMap Segment.templates ++ (.place (w.start + 1) :: w.finish) := by
  obtain ⟨g, gs, hsegments⟩ := List.exists_cons_of_ne_nil h
  rw [code, pieces, hsegments, List.modifyHead_cons, List.flatMap_append, List.flatMap_cons,
    List.flatMap_cons, templates_bare]
  simp [Segment.templates, Segment.behind, opening]

theorem Parts.edge_pieces (h : w.segments ≠ []) : w.edge w.pieces.length = w.exit := by
  have hlength := congrArg List.length (code_eq_pieces h)
  rw [code, List.length_append, List.length_append, List.length_cons, List.length_append,
    List.length_map, List.length_append] at hlength
  rw [edge, pieceStart_length, exit, entrance]
  omega

theorem Parts.length_code (w : Parts) : w.code.length = w.exit + 1 + w.finish.length := by
  simp only [code, exit, entrance, List.length_append, List.length_cons, List.length_map]
  omega

theorem Parts.edge_prologue (w : Parts) : w.edge w.prologue.length = w.prologue.length := by
  have hlength : w.prologue.length = (w.prologue.map fun i => ({ insn := i } : Segment)).length := by
    rw [List.length_map]
  rw [edge, pieceStart, pieces, hlength, List.take_left, templates_bare,
    List.length_map, List.length_map]

theorem Parts.spot_eq (hg : w.pieces[i]? = some g) : w.spot i = w.edge i + g.front.length := by
  rw [spot, hg]
  rfl

theorem Parts.edge_next (hg : w.pieces[i]? = some g) :
    w.edge (i + 1) = w.spot i + 1 + g.back.length := by
  rw [spot_eq hg, edge, pieceStart_succ hg, ← edge, Segment.templates, List.length_append,
    List.length_cons]
  omega

theorem Parts.edge_mono (hij : i ≤ j) : w.edge i ≤ w.edge j :=
  pieceStart_mono hij

theorem Parts.spot_lt_edge (hg : w.pieces[i]? = some g) (hij : i < j) :
    w.spot i < w.edge j := by
  have hmono : w.edge (i + 1) ≤ w.edge j := edge_mono hij
  rw [edge_next hg] at hmono
  omega

theorem Parts.edge_le_spot (w : Parts) (i : Nat) : w.edge i ≤ w.spot i :=
  Nat.le_add_right _ _

/-- Copies keep the order of the instructions. -/
theorem Parts.spot_lt (hij : i < j) (hj : j < w.pieces.length) : w.spot i < w.spot j :=
  Nat.lt_of_lt_of_le (spot_lt_edge (List.getElem?_eq_getElem (Nat.lt_trans hij hj)) hij)
    (w.edge_le_spot j)

theorem Parts.spot_mono (hij : i ≤ j) (hj : j < w.pieces.length) : w.spot i ≤ w.spot j := by
  rcases Nat.eq_or_lt_of_le hij with rfl | hlt
  · exact Nat.le_refl _
  · exact Nat.le_of_lt (spot_lt hlt hj)

theorem Parts.spot_lt_iff (hi : i < w.pieces.length) (hj : j < w.pieces.length) :
    w.spot i < w.spot j ↔ i < j := by
  refine ⟨fun h => ?_, fun h => spot_lt h hj⟩
  by_contra hle
  rcases Nat.eq_or_lt_of_le (Nat.le_of_not_lt hle) with rfl | hlt
  · exact Nat.lt_irrefl _ h
  · exact Nat.lt_asymm h (spot_lt hlt hi)

theorem Parts.code_piece (h : w.segments ≠ []) {t : Template} (hg : w.pieces[i]? = some g)
    (ht : g.templates[j]? = some t) : w.code[w.edge i + j]? = some t := by
  have hpiece := getElem?_piece hg (List.getElem?_eq_some_iff.1 ht).1
  rw [ht] at hpiece
  rw [code_eq_pieces h, edge, List.getElem?_append_left (List.getElem?_eq_some_iff.1 hpiece).1]
  exact hpiece

/-- Every place in the code is in a piece or behind them all. -/
theorem Parts.code_places (h : w.segments ≠ []) {k : Nat} {t : Template} (hk : w.code[k]? = some t) :
    (∃ i g j, w.pieces[i]? = some g ∧ k = w.edge i + j ∧ g.templates[j]? = some t) ∨
      (w.edge w.pieces.length ≤ k ∧ (t = .place (w.start + 1) ∨ t ∈ w.finish)) := by
  rw [code_eq_pieces h, List.getElem?_append] at hk
  split at hk
  · obtain ⟨i, g, j, hg, hj, rfl⟩ := exists_piece ‹_›
    rw [getElem?_piece hg hj] at hk
    exact .inl ⟨i, g, j, hg, rfl, hk⟩
  · refine .inr ⟨?_, List.mem_cons.1 (List.mem_of_getElem? hk)⟩
    rw [edge, pieceStart_length]
    omega

end WeaveSite

namespace Weave

open WeaveSite Template

variable {s : WeaveSite} {q : Pool} {given woven : Body} {entry : Nat} {w : Parts}

namespace WovenFrom

section Pieces

variable (hw : WovenFrom s q given entry w woven)
include hw

theorem start_fresh : given.nextLabel ≤ w.start := by
  rw [hw.rebuilt.start]
  exact Nat.le_add_right _ _

theorem pieces_length : w.pieces.length = given.insns.length := by
  rw [Parts.pieces, List.length_append, List.length_map, List.length_modifyHead,
    hw.rebuilt.segments.length_eq, hw.rebuilt.prologue, ← List.length_append, List.take_append_drop]

theorem piece_of_lt {i : Nat} (hi : i < given.insns.length) : ∃ g, w.pieces[i]? = some g :=
  ⟨_, List.getElem?_eq_getElem (hw.pieces_length ▸ hi)⟩

theorem through_before : Through given.nextLabel w.before := by
  rw [hw.rebuilt.before]
  split
  · exact s.through_startReport (Nat.le_refl _) _
  · exact .nil

theorem fresh_before {l : Nat} (hl : .place l ∈ w.before) : given.nextLabel ≤ l := by
  rw [hw.rebuilt.before] at hl
  split at hl
  · have hmem := mem_freshLabels.2 ⟨Nat.zero_le _, hl⟩
    rw [s.freshLabels_startReport (Nat.zero_le _)] at hmem
    simp only [List.mem_cons, List.not_mem_nil, or_false] at hmem
    rcases hmem with rfl | rfl
    · exact Nat.le_refl _
    · exact Nat.le_succ _
  · cases hl

theorem handler_behind : w.start + 2 ≤ w.handler := by
  rw [hw.rebuilt.handler]
  exact Nat.le_add_right _ _

theorem fresh_finish {l : Nat} (hl : .place l ∈ w.finish) : given.nextLabel ≤ l := by
  rw [hw.rebuilt.finish] at hl
  split at hl
  · have hmem := mem_freshLabels.2 ⟨Nat.zero_le _, hl⟩
    rw [freshLabels_place (Nat.zero_le _), s.freshLabels_throwsReport (Nat.zero_le _)] at hmem
    simp only [List.mem_cons, List.not_mem_nil, or_false] at hmem
    have hle : w.handler ≤ l := by
      rcases hmem with rfl | rfl | rfl
      · exact Nat.le_refl _
      · exact Nat.le_succ _
      · exact Nat.le_add_right _ 2
    exact Nat.le_trans hw.start_fresh (Nat.le_trans (Nat.le_of_add_right_le hw.handler_behind) hle)
  · cases hl

/-- Nothing is woven around the code up to the entry point; behind it, a piece is the segment of its
instruction, the first one with the report of the start in front. -/
theorem piece_cases {i : Nat} {g : Segment} (hg : w.pieces[i]? = some g) :
    given.insns[i]? = some g.insn ∧ (i < w.prologue.length ∧ g = { insn := g.insn } ∨
      w.prologue.length ≤ i ∧ ∃ pos l m, w.start + 2 ≤ l ∧
        g = (s.segment pos l m g.insn).behind
          (if i = w.prologue.length then w.opening else [])) := by
  have hinsns : given.insns = w.prologue ++ given.insns.drop entry := by
    rw [hw.rebuilt.prologue, List.take_append_drop]
  rw [Parts.pieces] at hg
  rcases Nat.lt_or_ge i w.prologue.length with hi | hi
  · rw [List.getElem?_append_left (by rwa [List.length_map]), List.getElem?_map] at hg
    obtain ⟨insn, hinsn, rfl⟩ := Option.map_eq_some_iff.1 hg
    refine ⟨?_, .inl ⟨hi, rfl⟩⟩
    rw [hinsns, List.getElem?_append_left hi, hinsn]
  · rw [List.getElem?_append_right (by rwa [List.length_map]), List.length_map] at hg
    rw [hinsns, List.getElem?_append_right hi]
    obtain ⟨n, rfl⟩ := Nat.exists_eq_add_of_le hi
    rw [Nat.add_sub_cancel_left] at hg ⊢
    cases n with
    | zero =>
      rw [List.getElem?_modifyHead_zero] at hg
      obtain ⟨g0, hg0, rfl⟩ := Option.map_eq_some_iff.1 hg
      obtain ⟨hinsn, pos, l, m, hl, he⟩ := hw.rebuilt.segments.get hg0
      refine ⟨hinsn, .inr ⟨hi, pos, l, m, hl, ?_⟩⟩
      rw [if_pos (Nat.add_zero _)]
      exact congrArg (Segment.behind w.opening) he
    | succ n =>
      rw [List.getElem?_modifyHead_succ] at hg
      obtain ⟨hinsn, pos, l, m, hl, he⟩ := hw.rebuilt.segments.get hg
      refine ⟨hinsn, .inr ⟨hi, pos, l, m, hl, ?_⟩⟩
      rw [if_neg (Nat.ne_of_gt (Nat.lt_add_of_pos_right n.succ_pos))]
      exact he

theorem insn_of_piece {i : Nat} {g : Segment} (hg : w.pieces[i]? = some g) :
    given.insns[i]? = some g.insn :=
  (hw.piece_cases hg).1

theorem piece_surrounded {i : Nat} {g : Segment} (hg : w.pieces[i]? = some g) :
    g.Surrounded given.nextLabel := by
  obtain ⟨-, ⟨-, he⟩ | ⟨-, pos, l, m, hl, he⟩⟩ := hw.piece_cases hg
  · rw [he]
    exact ⟨.nil, .nil, fun l hl => by rcases hl with hl | hl <;> cases hl⟩
  · have hbound : given.nextLabel ≤ l := Nat.le_trans hw.start_fresh (Nat.le_of_add_right_le hl)
    obtain ⟨hfront, hback, hfresh⟩ := s.segment_surrounded pos hbound m g.insn
    have hopening : Through given.nextLabel (if i = w.prologue.length then w.opening else []) := by
      split
      · exact hw.through_before.append (.next rfl .nil)
      · exact .nil
    rw [he]
    refine ⟨hopening.append hfront, hback, fun l' hl' => ?_⟩
    rcases hl' with hl' | hl'
    · rcases List.mem_append.1 hl' with hl' | hl'
      · split at hl'
        · rcases List.mem_append.1 hl' with hl' | hl'
          · exact hw.fresh_before hl'
          · cases List.mem_singleton.1 hl'
            exact hw.start_fresh
        · cases hl'
      · exact hfresh l' (.inl hl')
    · exact hfresh l' (.inr hl')

/-- The piece of an invocation with a handler of its own. -/
theorem piece_guarded {i : Nat} {g : Segment} (hg : w.pieces[i]? = some g) (hranges : g.ranges ≠ []) :
    (∃ op index, g.insn = .method op index) ∧ ∃ l, given.nextLabel ≤ l ∧ Segment.Guarded s g l := by
  obtain ⟨-, ⟨-, he⟩ | ⟨-, pos, l, m, hl, he⟩⟩ := hw.piece_cases hg
  · rw [he] at hranges
    exact absurd rfl hranges
  · rw [he] at hranges
    refine ⟨s.segment_ranges pos l m hranges, ?_⟩
    obtain ⟨l', hl', hr, ⟨front, hf⟩, hb⟩ := (s.segment_guarded pos l m g.insn).resolve_left hranges
    have hbound : given.nextLabel ≤ l := Nat.le_trans hw.start_fresh (Nat.le_of_add_right_le hl)
    refine ⟨l', Nat.le_trans hbound hl', ?_⟩
    rw [he]
    exact ⟨hr, ⟨_, (congrArg (_ ++ ·) hf).trans (List.append_assoc ..).symm⟩, hb⟩

end Pieces

section Code

variable (hw : WovenFrom s q given entry w woven) (hne : w.segments ≠ [])
include hne

theorem code_spot {i : Nat} {g : Segment} (hg : w.pieces[i]? = some g) :
    w.code[w.spot i]? = some (.plain g.insn) := by
  rw [Parts.spot_eq hg]
  refine Parts.code_piece hne hg ?_
  rw [Segment.templates, List.getElem?_append_right (Nat.le_refl _), Nat.sub_self]
  rfl

include hw

/-- The copy of an instruction is that instruction. -/
theorem insn_at_spot {i : Nat} {insn : Insn} (hi : given.insns[i]? = some insn) :
    woven.insns[w.spot i]? = some insn := by
  obtain ⟨g, hg⟩ := hw.piece_of_lt (List.getElem?_eq_some_iff.1 hi).1
  obtain ⟨insn', hinsn', hsettles⟩ := hw.insn_of_code (code_spot hne hg)
  cases hsettles
  rw [hinsn', ← hi, hw.insn_of_piece hg]

/-- A label of the method is placed only where it is copied. -/
theorem spot_of_place {k : Nat} {l : Nat} (hl : l < given.nextLabel) (hk : w.code[k]? = some (.place l)) :
    ∃ i, k = w.spot i ∧ given.insns[i]? = some (.label l) := by
  rcases Parts.code_places hne hk with ⟨i, g, j, hg, rfl, hj⟩ | ⟨-, ht⟩
  · have hfresh := (hw.piece_surrounded hg).fresh l
    rw [Segment.templates, List.getElem?_append] at hj
    split at hj
    · exact absurd (hfresh (.inl (List.mem_of_getElem? hj))) (Nat.not_le_of_lt hl)
    · obtain ⟨n, hn⟩ := Nat.exists_eq_add_of_le (Nat.le_of_not_lt ‹_›)
      rw [hn, Nat.add_sub_cancel_left] at hj
      cases n with
      | zero =>
        refine ⟨i, ?_, ?_⟩
        · rw [Parts.spot_eq hg, hn]
          rfl
        · have hplain : Template.plain g.insn = .place l := Option.some.inj hj
          rw [hw.insn_of_piece hg, Template.plain.inj hplain]
      | succ n =>
        rw [List.getElem?_cons_succ] at hj
        exact absurd (hfresh (.inr (List.mem_of_getElem? hj))) (Nat.not_le_of_lt hl)
  · rcases ht with ht | ht
    · cases ht
      exact absurd hw.start_fresh (Nat.not_le_of_lt (Nat.lt_of_succ_lt hl))
    · exact absurd (hw.fresh_finish ht) (Nat.not_le_of_lt hl)

/-- A label of the method has its last place at the copy of its last place. -/
theorem lastPlace_spot (hlabels : LabelsBelow given) {i : Nat} {l : Label} (hi : LastPlace given.insns l i) :
    LastPlace woven.insns l (w.spot i) := by
  refine ⟨hw.insn_at_spot hne hi.1, fun k hk hkl => ?_⟩
  obtain ⟨j, rfl, hj⟩ := hw.spot_of_place hne (hlabels l (List.mem_of_getElem? hi.1))
    (hw.place_of_label hkl)
  have hlt := (List.getElem?_eq_some_iff.1 hj).1
  rw [Parts.spot_lt_iff (hw.pieces_length ▸ hi.lt) (hw.pieces_length ▸ hlt)] at hk
  exact hi.2 j hk hj

end Code

/-! ## Where control comes -/

/-- Woven code as a stage on which all is watched. -/
def watched (hw : WovenFrom s q given entry w woven) (hlabels : LabelsBelow given) : Stage where
  pool := q
  body := woven
  code := w.code
  settled := hw.insns
  bound := given.nextLabel
  placed := fun _ _ hl hk => hw.lastPlace_fresh hlabels hl hk
  skips := fun _ => True

section Reached

variable (hw : WovenFrom s q given entry w woven) (hne : w.segments ≠ []) (hlabels : LabelsBelow given)
include hne

theorem has_around {i : Nat} {g : Segment} (hg : w.pieces[i]? = some g) :
    (hw.watched hlabels).Has (w.edge i) g.front ∧ (hw.watched hlabels).Has (w.spot i + 1) g.back := by
  have hat : (hw.watched hlabels).Has (w.edge i) (g.front ++ ([Template.plain g.insn] ++ g.back)) :=
    fun j t hj => Parts.code_piece hne hg hj
  refine ⟨hat.append_left, ?_⟩
  rw [Parts.spot_eq hg]
  exact hat.append_right.append_right

include hw hlabels

/-- From the start of a piece control goes to the copy. -/
theorem reached_spot_of_edge {i : Nat} {g : Segment} (hg : w.pieces[i]? = some g)
    (hi : woven.Reached (w.edge i)) : woven.Reached (w.spot i) := by
  have hfront := (hw.has_around hne hlabels hg).1
  rw [Parts.spot_eq hg]
  exact (hw.watched hlabels).reached_through (hw.piece_surrounded hg).front hfront hi

/-- From an instruction that goes on, control goes to the next piece. -/
theorem reached_edge_of_spot {i : Nat} {insn : Insn} (hi : given.insns[i]? = some insn)
    (hon : insn.isTerminal = false) (hreached : woven.Reached (w.spot i)) :
    woven.Reached (w.edge (i + 1)) := by
  obtain ⟨g, hg⟩ := hw.piece_of_lt (List.getElem?_eq_some_iff.1 hi).1
  have hback := (hw.has_around hne hlabels hg).2
  rw [Parts.edge_next hg]
  refine (hw.watched hlabels).reached_through (hw.piece_surrounded hg).back hback ?_
  exact .step hreached (.next (hw.insn_at_spot hne hi) hon rfl)

/-- A table entry of the method covers what is woven from a copy on to the next piece if it covered the
instruction. -/
theorem covers_from_spot {t : TryCatch} {a b i k : Nat} (ha : LastPlace given.insns t.start a)
    (hb : LastPlace given.insns t.stop b) (hi : i < given.insns.length) (hlo : w.spot i ≤ k)
    (hhi : k < w.edge (i + 1)) : t.Covers woven.insns k ↔ t.Covers given.insns i := by
  have ha' := hw.lastPlace_spot hne hlabels ha
  have hb' := hw.lastPlace_spot hne hlabels hb
  have hlt {j : Nat} (hj : j < given.insns.length) : j < w.pieces.length := hw.pieces_length ▸ hj
  constructor
  · rintro ⟨x, y, hx, hy, hxk, hky⟩
    cases hx.unique ha'
    cases hy.unique hb'
    refine ⟨a, b, ha, hb, ?_, ?_⟩
    · by_contra hia
      have hedge := Parts.edge_mono (w := w) (Nat.succ_le_of_lt (Nat.lt_of_not_le hia))
      have hspot := w.edge_le_spot a
      exact absurd (Nat.le_trans hedge (Nat.le_trans hspot hxk)) (Nat.not_le_of_lt hhi)
    · by_contra hbi
      have hspot := Parts.spot_mono (Nat.le_of_not_lt hbi) (hlt hi)
      exact absurd (Nat.le_trans hspot hlo) (Nat.not_le_of_lt hky)
  · rintro ⟨x, y, hx, hy, hxi, hiy⟩
    cases hx.unique ha
    cases hy.unique hb
    refine ⟨_, _, ha', hb', Nat.le_trans (Parts.spot_mono hxi (hlt hi)) hlo, ?_⟩
    exact Nat.lt_of_lt_of_le hhi (Nat.le_trans (Parts.edge_mono hiy) (w.edge_le_spot b))

/-- A table entry of the method covers what is woven in front of a copy if it starts in front of the
instruction and does not end there. -/
theorem covers_before_spot {t : TryCatch} {a b i n : Nat} (ha : LastPlace given.insns t.start a)
    (hb : LastPlace given.insns t.stop b) (hi : i < given.insns.length) (hlo : w.edge i ≤ n)
    (hhi : n < w.spot i) : t.Covers woven.insns n ↔ a < i ∧ i ≤ b := by
  have ha' := hw.lastPlace_spot hne hlabels ha
  have hb' := hw.lastPlace_spot hne hlabels hb
  have hlt {j : Nat} (hj : j < given.insns.length) : j < w.pieces.length := hw.pieces_length ▸ hj
  constructor
  · rintro ⟨x, y, hx, hy, hxn, hny⟩
    cases hx.unique ha'
    cases hy.unique hb'
    refine ⟨(Parts.spot_lt_iff (hlt ha.lt) (hlt hi)).1 (Nat.lt_of_le_of_lt hxn hhi), ?_⟩
    by_contra hbi
    have hedge := Parts.spot_lt_edge (w := w) (List.getElem?_eq_getElem (hlt hb.lt)) (Nat.lt_of_not_le hbi)
    exact absurd (Nat.lt_of_lt_of_le hny (Nat.le_trans (Nat.le_of_lt hedge) hlo)) (Nat.lt_irrefl _)
  · rintro ⟨hai, hib⟩
    have hedge := Parts.spot_lt_edge (w := w) (List.getElem?_eq_getElem (hlt ha.lt)) hai
    exact ⟨_, _, ha', hb', Nat.le_trans (Nat.le_of_lt hedge) hlo,
      Nat.lt_of_lt_of_le hhi (Parts.spot_mono hib (hlt hb.lt))⟩

/-- Control reaches the copy of every instruction that it reaches in the method. -/
theorem reached_spot {i : Nat} (hreached : given.Reached i) (hi : i < given.insns.length) :
    woven.Reached (w.spot i) := by
  induction hreached with
  | entry =>
    obtain ⟨g, hg⟩ := hw.piece_of_lt hi
    exact hw.reached_spot_of_edge hne hlabels hg .entry
  | @step i j _ hleads ih =>
    cases hleads with
    | next hinsn hon hj =>
      subst hj
      obtain ⟨g, hg⟩ := hw.piece_of_lt hi
      have hspot := ih (List.getElem?_eq_some_iff.1 hinsn).1
      exact hw.reached_spot_of_edge hne hlabels hg (hw.reached_edge_of_spot hne hlabels hinsn hon hspot)
    | jump hinsn hl hj =>
      have hspot := ih (List.getElem?_eq_some_iff.1 hinsn).1
      exact .step hspot (.jump (hw.insn_at_spot hne hinsn) hl (hw.lastPlace_spot hne hlabels hj))
    | @thrown insn t hinsn hreal ht hcovers hj =>
      have hlt := (List.getElem?_eq_some_iff.1 hinsn).1
      obtain ⟨g, hg⟩ := hw.piece_of_lt hlt
      have hcovers' : t.Covers woven.insns (w.spot i) := by
        obtain ⟨a, b, ha, hb, hab⟩ := hcovers
        exact (hw.covers_from_spot hne hlabels ha hb hlt (Nat.le_refl _)
          (Parts.spot_lt_edge hg (Nat.lt_succ_self i))).2 ⟨a, b, ha, hb, hab⟩
      obtain ⟨calls, own, htable, -⟩ := hw.tryCatch
      have hmem : t ∈ woven.tryCatch := by
        rw [htable]
        exact List.mem_append_left _ (List.mem_append_right _ ht)
      exact .step (ih hlt) (.thrown (hw.insn_at_spot hne hinsn) hreal hmem hcovers'
        (hw.lastPlace_spot hne hlabels hj))

omit hlabels in
/-- A label of the method that stands in woven code stands at a copy. -/
theorem lastPlace_of_spot {k : Nat} {l : Label} (hl : l < given.nextLabel)
    (hk : LastPlace woven.insns l k) : ∃ i, k = w.spot i ∧ LastPlace given.insns l i := by
  obtain ⟨i, rfl, hi⟩ := hw.spot_of_place hne hl (hw.place_of_label hk.1)
  have hlt := (List.getElem?_eq_some_iff.1 hi).1
  refine ⟨i, rfl, hi, fun j hij hj => ?_⟩
  have hj' := (List.getElem?_eq_some_iff.1 hj).1
  exact hk.2 _ (Parts.spot_lt hij (hw.pieces_length ▸ hj')) (hw.insn_at_spot hne hj)

end Reached

end WovenFrom

/-! ## The entry point -/

/-- Control comes to the entry point of a method: that is its first instruction, or the one behind an
instruction that control reaches. -/
def Enters (given : Body) (entry : Nat) : Prop :=
  entry = 0 ∨ ∃ i insn, entry = i + 1 ∧ given.insns[i]? = some insn ∧ insn.isTerminal = false ∧
    given.Reached i ∧ entry < given.insns.length

theorem constructorCall_eq_ok {pool : Pool} {frames : Array (Option Frame)} {i n : Nat}
    {insns : List Insn} (h : constructorCall pool frames i insns = .ok n) :
    ∃ k index f, n = i + k ∧ insns[k]? = some (.method Op.invokespecial index) ∧
      frames[n]? = some (some f) := by
  have later {i : Nat} {insn : Insn} {rest : List Insn} (hrest : ∃ k index f, n = i + 1 + k ∧
      rest[k]? = some (.method Op.invokespecial index) ∧ frames[n]? = some (some f)) :
      ∃ k index f, n = i + k ∧ (insn :: rest)[k]? = some (.method Op.invokespecial index) ∧
        frames[n]? = some (some f) := by
    obtain ⟨k, index, f, hn, hk, hf⟩ := hrest
    exact ⟨k + 1, index, f, by omega, hk, hf⟩
  fun_induction constructorCall pool frames i insns with
  | case1 i => cases h
  | case2 i index rest ih =>
    obtain ⟨m, -, h⟩ := bind_eq_ok.1 h
    split at h
    · split at h
      · obtain ⟨d, -, h⟩ := bind_eq_ok.1 h
        split at h
        · cases h
          exact ⟨0, index, _, rfl, rfl, ‹_›⟩
        · exact later (ih h)
      · exact later (ih h)
    · exact later (ih h)
  | case3 i insn rest _ ih => exact later (ih h)

theorem enters_of_entryPoint {given : Body} {context : MethodContext} {p : Pool} {h : Hierarchy}
    {entry : Nat} (hentry : entryPoint given context p h = .ok entry) : Enters given entry := by
  unfold entryPoint at hentry
  split at hentry
  · obtain ⟨a, ha, hentry⟩ := bind_eq_ok.1 hentry
    obtain ⟨n, hn, hentry⟩ := bind_eq_ok.1 hentry
    cases hentry
    obtain ⟨k, index, f, hk, hinsn, hf⟩ := constructorCall_eq_ok hn
    rw [Nat.zero_add] at hk
    subst hk
    obtain ⟨m, -, hm, -⟩ := Analysis.analyze_eq_ok ha
    have hof := Analysis.of_ofBody hm
    have hreached : given.Reached n :=
      (Analysis.analyze_frame_iff ha).1 ⟨f, by unfold Analysis.frame; rw [hf]; rfl⟩
    have hnext : given.Reached (n + 1) := .step hreached (.next hinsn rfl rfl)
    exact .inr ⟨n, _, rfl, hinsn, rfl, hreached, Analysis.reached_lt hm ha (hof.reached_iff.2 hnext)⟩
  · cases hentry
    exact .inl rfl

namespace WovenFrom

section Entrance

variable (hw : WovenFrom s q given entry w woven) (hlabels : LabelsBelow given)
include hw

theorem has_rest : (hw.watched hlabels).Has w.prologue.length (w.before ++ ([Template.place w.start] ++
    (w.segments.flatMap Segment.templates ++ .place (w.start + 1) :: w.finish))) := by
  intro j t hj
  change w.code[_]? = _
  rw [Parts.code, List.getElem?_append_right (by rw [List.length_map]; exact Nat.le_add_right _ _),
    List.length_map, Nat.add_sub_cancel_left]
  exact hj

/-- The handler of the method stands behind the end of its range. -/
theorem has_finish : (hw.watched hlabels).Has (w.exit + 1) w.finish := by
  have hat := (hw.has_rest hlabels).append_right.append_right.append_right.tail
  simpa [Parts.exit, Parts.entrance] using hat

include hlabels

/-- The range of the method itself is that of the code behind the report of the start. -/
theorem own_places : LastPlace woven.insns w.start w.entrance ∧
    LastPlace woven.insns (w.start + 1) w.exit := by
  have hrest := (hw.has_rest hlabels).append_right
  refine ⟨hw.lastPlace_fresh hlabels hw.start_fresh hrest.append_left.head,
    hw.lastPlace_fresh hlabels (Nat.le_succ_of_le hw.start_fresh) ?_⟩
  exact hrest.append_right.append_right.head

omit hlabels in
theorem segments_ne_of_lt (hlt : entry < given.insns.length) : w.segments ≠ [] := by
  intro hnil
  have hlength := hw.rebuilt.segments.length_eq
  rw [hnil, List.length_nil, List.length_drop] at hlength
  omega

theorem reached_prologue (henters : Enters given entry) : woven.Reached w.prologue.length := by
  have hprologue := congrArg List.length hw.rebuilt.prologue
  rw [List.length_take] at hprologue
  rcases henters with rfl | ⟨i, insn, rfl, hinsn, hon, hreached, hlt⟩
  · rw [hprologue, Nat.zero_min]
    exact .entry
  · have hne := hw.segments_ne_of_lt hlt
    have hspot := hw.reached_spot hne hlabels hreached (Nat.lt_of_succ_lt hlt)
    have hedge := hw.reached_edge_of_spot hne hlabels hinsn hon hspot
    rw [← w.edge_prologue, hprologue, Nat.min_eq_left (Nat.le_of_lt hlt)]
    exact hedge

/-- Control comes behind the report of the start. -/
theorem reached_entrance (henters : Enters given entry) : woven.Reached w.entrance :=
  (hw.watched hlabels).reached_through hw.through_before (hw.has_rest hlabels).append_left
    (hw.reached_prologue hlabels henters)

/-- There is code behind the entry point: without any, nothing would be protected or control would come
to the end. -/
theorem segments_ne {context : MethodContext} {p : Pool} {h : Hierarchy} {m : Analysis.Method}
    {a : Analysis} (hm : Analysis.Method.ofBody woven context p h = .ok m)
    (ha : analyze woven context p h = .ok a) (henters : Enters given entry) : w.segments ≠ [] := by
  intro hnil
  have hof := Analysis.of_ofBody hm
  have hexit : w.exit = w.entrance + 1 := by rw [Parts.exit, hnil]; rfl
  obtain ⟨hstart, hstop⟩ := hw.own_places hlabels
  have hwants : s.wants .throws = true := by
    by_contra hwants
    have hfinish := hw.rebuilt.finish
    rw [if_neg hwants] at hfinish
    have hlength : woven.insns.length = w.exit + 1 := by
      rw [← hw.insns.length_eq, Parts.code, hfinish, hexit, Parts.entrance, hnil]
      simp only [List.length_append, List.length_map, List.length_cons, List.flatMap_nil,
        List.length_nil]
      omega
    have hentrance := hw.reached_entrance hlabels henters
    have hbehind : woven.Reached w.exit := hexit ▸ .step hentrance (.next hstart.1 rfl rfl)
    have hlast : woven.Reached (w.exit + 1) := .step hbehind (.next hstop.1 rfl rfl)
    have hlt := Analysis.reached_lt hm ha (hof.reached_iff.2 hlast)
    omega
  obtain ⟨calls, own, htable, -, hown⟩ := hw.tryCatch
  rw [if_pos hwants] at hown
  obtain ⟨t, ht, hsettles⟩ := (mem_forall₂ hown).1 _ (List.mem_singleton_self _)
  have hmem : t ∈ woven.tryCatch := by
    rw [htable]
    exact List.mem_append_right _ ht
  obtain ⟨g, -, hgstart, hgstop, -, -, hreal, -⟩ := (mem_forall₂ hof.guards).1 t hmem
  rw [hsettles.start] at hgstart
  rw [hsettles.stop] at hgstop
  obtain ⟨k, insn, hlo, hhi, hk, hkreal⟩ := anyReal_eq_true.1 hreal
  have hk : woven.insns[k]? = some insn := List.getElem?_toArray.symm.trans hk
  rw [hgstart.unique hstart] at hlo
  rw [hgstop.unique hstop, hexit] at hhi
  obtain rfl : k = w.entrance := by omega
  rw [hstart.1] at hk
  cases hk
  cases hkreal

end Entrance

end WovenFrom

end Weave

end Interpose
