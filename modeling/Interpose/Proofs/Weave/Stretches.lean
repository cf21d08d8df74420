import Interpose.Proofs.Weave.Entrance
/-!
# Where reports stand

Between two copies stands a stretch of woven code that consists of reports (`WeaveSite.Parts.Stretch`). The
table of the method protects a stretch as it protects an instruction next to it, if it protects the stretch
at all (`WovenFrom.covers_stretch`). Every invocation of a dispatch method stands in a stretch, with the
check of its verdict behind it (`WovenFrom.check_behind`).
-/

namespace Interpose

/-! ## Checks behind dispatches -/

namespace Template

/-- Behind every invocation of a dispatch method its verdict is checked, with labels from a number on. -/
def Checked (bound : Nat) (t : JavaType) (ts : List Template) : Prop :=
  ∀ j k, ts[j]? = some (Block.invocation k) →
    ∃ l : Nat, bound ≤ l ∧ Block.verdictCheck t l (l + 1) <+: ts.drop (j + 1)

variable {bound : Nat} {t : JavaType} {ts ts' : List Template}

theorem calm_invocation (k : EventKind) : (Block.invocation k).calm = false := by
  cases k <;> decide

/-- What sends nothing has nothing to check. -/
theorem checked_of_calm (h : ∀ x ∈ ts, x.calm = true) : Checked bound t ts := by
  intro j k hj
  have hcalm := h _ (List.mem_of_getElem? hj)
  rw [calm_invocation] at hcalm
  cases hcalm

theorem Checked.append (h : Checked bound t ts) (h' : Checked bound t ts') : Checked bound t (ts ++ ts') := by
  intro j k hj
  rw [List.getElem?_append] at hj
  split at hj
  · rename_i hlt
    obtain ⟨l, hl, hprefix⟩ := h j k hj
    refine ⟨l, hl, ?_⟩
    rw [List.drop_append_of_le_length (Nat.succ_le_of_lt hlt)]
    exact hprefix.trans (List.prefix_append _ _)
  · obtain ⟨n, hn⟩ := Nat.exists_eq_add_of_le (Nat.le_of_not_lt ‹_›)
    rw [hn, Nat.add_sub_cancel_left] at hj
    obtain ⟨l, hl, hprefix⟩ := h' n k hj
    refine ⟨l, hl, ?_⟩
    rwa [hn, Nat.add_assoc, List.drop_append, List.drop_of_length_le (Nat.le_add_right _ _), List.nil_append,
      Nat.add_sub_cancel_left]

theorem checked_nil : Checked bound t [] :=
  checked_of_calm fun _ hx => nomatch hx

theorem Checked.cons {x : Template} (hx : x.calm = true) (h : Checked bound t ts) : Checked bound t (x :: ts) :=
  Checked.append (checked_of_calm fun _ hy => List.mem_singleton.1 hy ▸ hx) h

/-- A dispatch and the check of its verdict. -/
theorem checked_dispatch {l : Nat} (hl : bound ≤ l) (k : EventKind) (h : ∀ x ∈ ts, x.calm = true) :
    Checked bound t (Block.invocation k :: (Block.verdictCheck t l (l + 1) ++ ts)) := by
  intro j k' hj
  cases j with
  | zero => exact ⟨l, hl, List.prefix_append _ _⟩
  | succ j =>
    have hcalm : (Block.invocation k').calm = true := by
      rcases List.mem_append.1 (List.mem_of_getElem? hj) with hmem | hmem
      · exact (WeaveSite.verdictCheck_harmless t l (l + 1)).calm _ hmem
      · exact h _ hmem
    rw [calm_invocation] at hcalm
    cases hcalm

end Template

namespace WeaveSite

open Template

variable (s : WeaveSite) {bound l : Nat} (h : bound ≤ l)
include h

theorem report_checked (k : EventKind) : Checked bound s.returnType (s.report k l) := by
  have haddress : ∀ x ∈ Block.address s.plan, x.calm = true := by simp [Block.address, calm]
  have hdispatch : Checked bound s.returnType
      (Block.invocation k :: (Block.verdictCheck s.returnType l (l + 1) ++ [])) :=
    checked_dispatch h k (by simp)
  rw [List.append_nil] at hdispatch
  simpa [report] using (checked_of_calm haddress).append hdispatch

omit h in
theorem checked_around {ts : List Template} (hts : Checked bound s.returnType ts) :
    Checked bound s.returnType (Marker.around ts) :=
  (checked_of_calm (by decide)).append (hts.append (checked_of_calm (by decide)))

theorem startReport_checked (arguments : UInt16) :
    Checked bound s.returnType (s.startReport arguments l) := by
  have hdispatch : Checked bound s.returnType (Block.invocation .before ::
      (Block.verdictCheck s.returnType l (l + 1) ++ Block.unpacking arguments s.parameters)) :=
    checked_dispatch h .before (unpacking_harmless arguments s.parameters).calm
  have hreport := s.checked_around ((checked_of_calm (packing_harmless s.parameters).calm).append
    (.cons (x := .var Op.astore arguments) rfl (.cons (x := .var Op.aload arguments) rfl
      ((checked_of_calm (s.operands_harmless .before).calm).append hdispatch))))
  rw [operands, if_pos rfl] at hreport
  simpa [startReport, Block.beforeDispatch] using hreport

theorem returnReport_checked : Checked bound s.returnType (s.returnReport l) :=
  s.checked_around ((checked_of_calm
    (s.returnType.duplicating_harmless.append s.returnType.boxing_harmless).calm).append
      (s.report_checked h _))

theorem lineReport_checked (n : UInt16) : Checked bound s.returnType (s.lineReport n l) :=
  s.checked_around (.cons rfl (s.report_checked h _))

theorem callBeforeReport_checked (line : Int32) (m : MemberRef) :
    Checked bound s.returnType (s.callBeforeReport line m l) :=
  s.checked_around ((checked_of_calm (by simp [calm])).append (s.report_checked h _))

theorem callReturnReport_checked : Checked bound s.returnType (s.callReturnReport l) := by
  unfold callReturnReport
  split
  · exact s.checked_around (s.report_checked h _)
  · exact checked_nil

theorem callThrowsReport_checked : Checked bound s.returnType (s.callThrowsReport l) :=
  s.checked_around ((checked_of_calm (by decide)).append (s.report_checked h _))

theorem throwsReport_checked (thrown : UInt16) : Checked bound s.returnType (s.throwsReport thrown l) := by
  exact (checked_of_calm (by decide)).append (.cons rfl (.cons rfl ((s.report_checked h _).append
    ((checked_of_calm (by decide)).append (.cons rfl (.cons rfl checked_nil))))))

theorem guardedBack_checked : Checked bound s.returnType (s.guardedBack l) := by
  have hl : bound ≤ l + 4 := Nat.le_add_right_of_le h
  have hgoto : (Template.jump Op.goto (l + 3)).calm = true :=
    decide_eq_true (show Cursor.Format.of Op.goto = .branch by decide)
  exact .cons rfl ((s.callReturnReport_checked hl).append (.cons hgoto (.cons rfl
    ((s.callThrowsReport_checked (Nat.le_add_right_of_le hl)).append (.cons rfl (.cons rfl checked_nil))))))

theorem guardedSegment_checked (i : Insn) : Checked bound s.returnType (s.guardedSegment i l).front ∧
    Checked bound s.returnType (s.guardedSegment i l).back := by
  unfold guardedSegment
  split
  · exact ⟨.cons rfl checked_nil, s.guardedBack_checked h⟩
  · exact ⟨checked_nil, s.callReturnReport_checked h⟩

/-- What is woven around a copy checks the verdicts of its dispatches. -/
theorem segment_checked (p : Position) (m : MemberRef) (i : Insn) :
    Checked bound s.returnType (s.segment p l m i).front ∧
      Checked bound s.returnType (s.segment p l m i).back := by
  cases i with
  | line n =>
    unfold segment
    simp only
    split
    · exact ⟨checked_nil, s.lineReport_checked h n⟩
    · exact ⟨checked_nil, checked_nil⟩
  | simple op =>
    unfold segment
    simp only
    split
    · exact ⟨s.returnReport_checked h, checked_nil⟩
    · exact ⟨checked_nil, checked_nil⟩
  | method op index =>
    unfold segment callSegment
    simp only
    split
    · split
      · obtain ⟨hfront, hback⟩ := s.guardedSegment_checked (Nat.le_add_right_of_le h : bound ≤ l + 2)
          (.method op index)
        exact ⟨(s.callBeforeReport_checked h _ _).append hfront, hback⟩
      · exact s.guardedSegment_checked h _
    · exact ⟨checked_nil, checked_nil⟩
  | _ => exact ⟨checked_nil, checked_nil⟩

/-! ## Stretches -/

omit h

/-- The call in front of the entry point, if there is one. -/
def Parts.caller (w : Parts) : Option Nat :=
  match w.prologue.length with
  | 0 => none
  | i + 1 => some i

/-- A stretch of woven code between two copies, and the instruction that the table of the method protects it
like. -/
inductive Parts.Stretch (w : Parts) : Option Nat → Nat → Nat → Prop
  | start : Stretch w w.caller w.prologue.length w.entrance
  | front {i g} : w.pieces[i]? = some g → Stretch w (some i) (w.door i) (w.spot i)
  | back {i g} : w.pieces[i]? = some g → Stretch w (some i) (w.spot i + 1) (w.edge (i + 1))
  | finish : Stretch w none (w.exit + 1) w.code.length

/-- The door of an instruction is behind the report of the start. -/
theorem Parts.spot_of_front {w : Parts} {i : Nat} {g : Segment} {front : List Template} (hg : w.pieces[i]? = some g)
    (hfront : g.front = (if i = w.prologue.length then w.opening else []) ++ front) :
    w.spot i = w.door i + front.length := by
  have hlength : (if i = w.prologue.length then w.opening else []).length =
      if i = w.prologue.length then w.opening.length else 0 := by split <;> rfl
  rw [Parts.spot_eq hg, Parts.door, hfront, List.length_append, hlength, Nat.add_assoc]

section Places

variable {w : Parts} (hne : w.segments ≠ [])
include hne

theorem Parts.prologue_lt : w.prologue.length < w.pieces.length := by
  have := List.length_pos_iff.2 hne
  rw [pieces, List.length_append, List.length_map, List.length_modifyHead]
  omega

/-- The report of the start is in the piece behind the entry point. -/
theorem Parts.entrance_lt_spot {i : Nat} (hle : w.prologue.length ≤ i) (hi : i < w.pieces.length) :
    w.entrance < w.spot i := by
  obtain ⟨g, gs, hsegments⟩ := List.exists_cons_of_ne_nil hne
  have hfirst : w.pieces[w.prologue.length]? = some (g.behind w.opening) := by
    rw [pieces, List.getElem?_append_right (by rw [List.length_map]), List.length_map, Nat.sub_self, hsegments]
    rfl
  refine Nat.lt_of_lt_of_le ?_ (Parts.spot_mono hle hi)
  rw [Parts.spot_eq hfirst, Parts.edge_prologue, Segment.behind, Parts.opening, Parts.entrance]
  simp only [List.length_append, List.length_singleton]
  omega

/-- There are no copies in a stretch. -/
theorem Parts.Stretch.copyless {o : Option Nat} {lo hi n i : Nat} (h : w.Stretch o lo hi) (hlo : lo ≤ n)
    (hhi : n < hi) (hi : i < w.pieces.length) : n ≠ w.spot i := by
  rintro rfl
  cases h with
  | start =>
    rcases Nat.lt_or_ge i w.prologue.length with hlt | hge
    · have hedge := Parts.spot_lt_edge (w := w) (List.getElem?_eq_getElem hi) hlt
      rw [Parts.edge_prologue] at hedge
      omega
    · exact Nat.lt_asymm hhi (Parts.entrance_lt_spot hne hge hi)
  | @front j g hg =>
    have hj := (List.getElem?_eq_some_iff.1 hg).1
    rw [Parts.spot_lt_iff hi hj] at hhi
    have hedge := Parts.spot_lt_edge (w := w) (List.getElem?_eq_getElem hi) hhi
    rw [Parts.door] at hlo
    omega
  | @back j g hg =>
    have hj := (List.getElem?_eq_some_iff.1 hg).1
    have hji := (Parts.spot_lt_iff hj hi).1 hlo
    exact absurd (Nat.le_trans (Parts.edge_mono hji) (w.edge_le_spot i)) (Nat.not_le_of_lt hhi)
  | finish =>
    have hedge := Parts.spot_lt_edge (w := w) (List.getElem?_eq_getElem hi) hi
    rw [Parts.edge_pieces hne] at hedge
    omega

end Places

end WeaveSite

namespace Weave

open WeaveSite Template

namespace WovenFrom

variable {s : WeaveSite} {q : Pool} {given woven : Body} {entry : Nat} {w : Parts}

section Fronts

variable (hw : WovenFrom s q given entry w woven)
include hw

/-- What is woven around a copy, apart from the report of the start. -/
theorem piece_checked {i : Nat} {g : Segment} (hg : w.pieces[i]? = some g) :
    ∃ front, g.front = (if i = w.prologue.length then w.opening else []) ++ front ∧
      (front ≠ [] → g.insn.isPseudo = false) ∧ Checked given.nextLabel s.returnType front ∧
      Checked given.nextLabel s.returnType g.back := by
  obtain ⟨-, ⟨hlt, he⟩ | ⟨-, pos, l, m, hl, he⟩⟩ := hw.piece_cases hg
  · refine ⟨[], ?_, fun h => absurd rfl h, checked_nil, ?_⟩
    · rw [if_neg (Nat.ne_of_lt hlt), he]
      rfl
    · rw [he]
      exact checked_nil
  · have hbound : given.nextLabel ≤ l := Nat.le_trans hw.start_fresh (Nat.le_of_add_right_le hl)
    obtain ⟨hfront, hback⟩ := s.segment_checked hbound pos m g.insn
    refine ⟨(s.segment pos l m g.insn).front, congrArg Segment.front he, s.front_of_segment, hfront, ?_⟩
    rw [he]
    exact hback

/-- Only what takes bytes has something woven in front of it, but for the report of the start. -/
theorem real_of_front {i : Nat} {g : Segment} (hg : w.pieces[i]? = some g) (hlt : w.door i < w.spot i) :
    g.insn.isPseudo = false := by
  obtain ⟨front, hfront, hreal, -⟩ := hw.piece_checked hg
  refine hreal ?_
  rintro rfl
  rw [Parts.spot_of_front hg hfront, List.length_nil] at hlt
  exact absurd hlt (Nat.lt_irrefl _)

end Fronts

section Stretches

variable (hw : WovenFrom s q given entry w woven) (hne : w.segments ≠ []) (hlabels : LabelsBelow given)
  {o : Option Nat} {lo hi n : Nat}
include hw hne hlabels

/-- A table entry of the method covers a stretch if it covers the instruction of the stretch. -/
theorem covers_stretch (h : w.Stretch o lo hi) (hlo : lo ≤ n) (hhi : n < hi) {t : TryCatch} {a b : Nat}
    (ha : LastPlace given.insns t.start a) (hb : LastPlace given.insns t.stop b) :
    t.Covers woven.insns n ↔ ∃ i ∈ o, t.Covers given.insns i := by
  have covers {i : Nat} : t.Covers given.insns i ↔ a ≤ i ∧ i < b := by
    constructor
    · rintro ⟨x, y, hx, hy, h⟩
      rwa [hx.unique ha, hy.unique hb] at h
    · exact fun h => ⟨a, b, ha, hb, h⟩
  cases h with
  | start =>
    have hlt := hw.pieces_length ▸ Parts.prologue_lt hne
    have hspot := Parts.entrance_lt_spot hne (Nat.le_refl _) (Parts.prologue_lt hne)
    rw [hw.covers_before_spot hne hlabels ha hb hlt (w.edge_prologue.symm ▸ hlo) (Nat.lt_trans hhi hspot)]
    unfold Parts.caller
    split
    · simp_all
    · rename_i i hlength
      simp only [Option.mem_some_iff, exists_eq_left', covers, hlength]
      omega
  | @front i g hg =>
    have hlt := (List.getElem?_eq_some_iff.1 (hw.insn_of_piece hg)).1
    have hedge : w.edge i ≤ n := Nat.le_trans (Nat.le_add_right _ _) hlo
    have hreal := hw.real_of_front hg (Nat.lt_of_le_of_lt hlo hhi)
    have apart {l : Label} {j : Nat} (hj : LastPlace given.insns l j) : j ≠ i := by
      rintro rfl
      rw [Option.some.inj ((hw.insn_of_piece hg).symm.trans hj.1)] at hreal
      cases hreal
    have := apart ha
    have := apart hb
    rw [hw.covers_before_spot hne hlabels ha hb hlt hedge hhi]
    simp only [Option.mem_some_iff, exists_eq_left', covers]
    omega
  | @back i g hg =>
    have hlt := (List.getElem?_eq_some_iff.1 (hw.insn_of_piece hg)).1
    rw [hw.covers_from_spot hne hlabels ha hb hlt (Nat.le_of_succ_le hlo) hhi]
    simp
  | finish =>
    refine iff_of_false ?_ (by simp)
    rintro ⟨x, y, -, hy, -, hny⟩
    rw [hy.unique (hw.lastPlace_spot hne hlabels hb)] at hny
    have hedge := Parts.spot_lt_edge (w := w)
      (List.getElem?_eq_getElem (hw.pieces_length ▸ hb.lt)) (hw.pieces_length ▸ hb.lt)
    rw [Parts.edge_pieces hne] at hedge
    omega

omit hne hlabels in
theorem before_checked : Checked given.nextLabel s.returnType w.before := by
  rw [hw.rebuilt.before]
  split
  · exact s.startReport_checked (Nat.le_refl _) _
  · exact checked_nil

omit hne hlabels in
theorem finish_checked : Checked given.nextLabel s.returnType w.finish := by
  rw [hw.rebuilt.finish]
  split
  · refine .cons rfl (s.throwsReport_checked (Nat.le_succ_of_le ?_) _)
    exact Nat.le_trans hw.start_fresh (Nat.le_of_add_right_le hw.handler_behind)
  · exact checked_nil

/-- In a stretch stand templates that check the verdicts of their dispatches. -/
theorem stretch_checked (h : w.Stretch o lo hi) : ∃ ts, (hw.watched hlabels).Has lo ts ∧
    hi = lo + ts.length ∧ Checked given.nextLabel s.returnType ts := by
  cases h with
  | start => exact ⟨_, (hw.has_rest hlabels).append_left, rfl, hw.before_checked⟩
  | @front i g hg =>
    obtain ⟨front, hfront, -, hchecked, -⟩ := hw.piece_checked hg
    refine ⟨front, ?_, Parts.spot_of_front hg hfront, hchecked⟩
    have hat := (hw.has_around hne hlabels hg).1
    rw [hfront] at hat
    have hdoor := hat.append_right
    rw [Parts.door]
    split at hdoor
    · rename_i hfirst
      rwa [if_pos hfirst]
    · rename_i hfirst
      rwa [if_neg hfirst]
  | @back i g hg =>
    obtain ⟨-, -, -, -, hchecked⟩ := hw.piece_checked hg
    exact ⟨_, (hw.has_around hne hlabels hg).2, Parts.edge_next hg, hchecked⟩
  | finish => exact ⟨_, hw.has_finish hlabels, w.length_code, hw.finish_checked⟩

/-- Every dispatch stands in a stretch. -/
theorem stretch_of_dispatch {k : EventKind} (hn : w.code[n]? = some (Block.invocation k)) :
    ∃ o lo hi, w.Stretch o lo hi ∧ lo ≤ n ∧ n < hi := by
  have apart {i : Insn} : Block.invocation k ≠ .plain i := by cases k <;> nofun
  rcases Parts.place_cases hne hn with ⟨i, g, hg, hin, ⟨hlt, -⟩ | ⟨-, hcopy⟩ | ⟨hlt, -⟩⟩ | ⟨hend, -⟩
  · by_cases hfirst : i = w.prologue.length
    · subst hfirst
      rcases Nat.lt_trichotomy n w.entrance with hbefore | rfl | hbehind
      · exact ⟨_, _, _, .start, w.edge_prologue ▸ hin.1, hbefore⟩
      · have hplace := (hw.has_rest hlabels).append_right.head
        exact absurd (Option.some.inj (hn.symm.trans hplace)) apart
      · refine ⟨_, _, _, .front hg, ?_, hlt⟩
        rw [Parts.door, if_pos rfl, Parts.edge_prologue, Parts.opening, List.length_append]
        exact hbehind
    · refine ⟨_, _, _, .front hg, ?_, hlt⟩
      rw [Parts.door, if_neg hfirst]
      exact hin.1
  · exact absurd hcopy apart
  · exact ⟨_, _, _, .back hg, hlt, hin.2⟩
  · rw [Parts.edge_pieces hne] at hend
    refine ⟨_, _, _, .finish, Nat.lt_of_le_of_ne hend ?_, (List.getElem?_eq_some_iff.1 hn).1⟩
    rintro rfl
    have hplace := (hw.has_rest hlabels).append_right.append_right.append_right.head
    exact absurd (Option.some.inj (hn.symm.trans hplace)) apart

/-- Behind every dispatch, in its stretch, its verdict is checked. -/
theorem check_behind {k : EventKind} (hn : w.code[n]? = some (Block.invocation k)) :
    ∃ o lo hi, ∃ l : Nat, w.Stretch o lo hi ∧ lo ≤ n ∧
      n + 1 + (Block.verdictCheck s.returnType l (l + 1)).length ≤ hi ∧ given.nextLabel ≤ l ∧
      (hw.watched hlabels).Has (n + 1) (Block.verdictCheck s.returnType l (l + 1)) := by
  obtain ⟨o, lo, hi, hstretch, hlo, hhi⟩ := hw.stretch_of_dispatch hne hlabels hn
  obtain ⟨ts, hat, rfl, hchecked⟩ := hw.stretch_checked hne hlabels hstretch
  obtain ⟨j, rfl⟩ := Nat.exists_eq_add_of_le hlo
  have hj := Nat.lt_of_add_lt_add_left hhi
  have hdispatch : ts[j]? = some (Block.invocation k) := by
    have hthere := hat j _ (List.getElem?_eq_getElem hj)
    rw [List.getElem?_eq_getElem hj, ← hn]
    exact hthere.symm
  obtain ⟨l, hl, hprefix⟩ := hchecked j k hdispatch
  refine ⟨o, lo, _, l, hstretch, hlo, ?_, hl, fun x t hx => ?_⟩
  · have hlength := hprefix.length_le
    rw [List.length_drop] at hlength
    omega
  · obtain ⟨behind, hbehind⟩ := hprefix
    have hthere : ts[j + 1 + x]? = some t := by
      rw [← List.getElem?_drop, ← hbehind, List.getElem?_append_left (List.getElem?_eq_some_iff.1 hx).1, hx]
    have hcode := hat _ t hthere
    rwa [← Nat.add_assoc, ← Nat.add_assoc] at hcode

end Stretches

end WovenFrom

end Weave

end Interpose
