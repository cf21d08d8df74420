import Interpose.Proofs.Code.ListedPaths
import Interpose.Proofs.Code.Tidy
import Interpose.Proofs.Weave.Routing
/-!
# Live code

Control comes to the piece of an instruction in woven code only if it reaches the instruction in the
method (`WovenFrom.reached_of_piece`): what is woven leads to nothing but itself
(`Template.Enclosed`), and what covers something woven covers something in the method that control
reaches.
-/

namespace Interpose

/-! ## Where reports lead -/

namespace Template

def leads : Template → List Label
  | plain i => i.targets
  | _ => []

theorem Settles.targets {q : Pool} {t : Template} {i : Insn} (h : t.Settles q i) : i.targets = t.leads := by
  cases h <;> rfl

/-- Templates lead only to labels that are placed among them. -/
def Enclosed (ts : List Template) : Prop :=
  ∀ t ∈ ts, ∀ l ∈ t.leads, place l ∈ ts

theorem Enclosed.append {ts ts' : List Template} (h : Enclosed ts) (h' : Enclosed ts') :
    Enclosed (ts ++ ts') := by
  intro t ht l hl
  rcases List.mem_append.1 ht with ht | ht
  · exact List.mem_append_left _ (h t ht l hl)
  · exact List.mem_append_right _ (h' t ht l hl)

/-- Templates that lead nowhere but on. -/
def Leadless (ts : List Template) : Prop :=
  ∀ t ∈ ts, t.leads = []

theorem Leadless.enclosed {ts : List Template} (h : Leadless ts) : Enclosed ts := by
  intro t ht l hl
  rw [h t ht] at hl
  cases hl

theorem Leadless.append {ts ts' : List Template} (h : Leadless ts) (h' : Leadless ts') :
    Leadless (ts ++ ts') := by
  intro t ht
  rcases List.mem_append.1 ht with ht | ht
  · exact h t ht
  · exact h' t ht

theorem leadless_nil : Leadless [] := fun _ h => nomatch h

theorem Leadless.cons {t : Template} {ts : List Template} (ht : t.leads = []) (h : Leadless ts) :
    Leadless (t :: ts) := by
  intro x hx
  rcases List.mem_cons.1 hx with rfl | hx
  · exact ht
  · exact h x hx

theorem leadless_flatMap {α : Type} {xs : List α} {f : α → List Template} (h : ∀ x, Leadless (f x)) :
    Leadless (xs.flatMap f) := by
  intro t ht
  obtain ⟨x, -, ht⟩ := List.mem_flatMap.1 ht
  exact h x t ht

end Template

open Template

namespace JavaType

theorem boxing_leadless (t : JavaType) : Leadless t.boxing := by
  unfold boxing
  split
  · exact leadless_nil.cons rfl
  · split
    · exact leadless_nil.cons rfl
    · exact leadless_nil

theorem duplicating_leadless (t : JavaType) : Leadless t.duplicating := by
  unfold duplicating
  split
  · exact leadless_nil
  · exact leadless_nil.cons rfl
  · exact leadless_nil.cons rfl

theorem unboxing_leadless (t : JavaType) : Leadless t.unboxing := by
  have cast : ∀ c : String, Leadless (if c = objectClass then [] else [.type Op.checkcast c]) := by
    intro c
    split
    · exact leadless_nil
    · exact leadless_nil.cons rfl
  cases t with
  | void => exact leadless_nil.cons rfl
  | object _ | array _ => exact cast _
  | _ => exact (leadless_nil.cons rfl).cons rfl

end JavaType

namespace WeaveSite

variable (s : WeaveSite)

theorem packing_leadless (parameters : List (JavaType × UInt16)) : Leadless (Block.packing parameters) := by
  refine Leadless.append ((leadless_nil.cons rfl).cons rfl) (leadless_flatMap fun ⟨⟨t, _⟩, _⟩ => ?_)
  exact (Leadless.append (((leadless_nil.cons rfl).cons rfl).cons rfl) t.boxing_leadless).append
    (leadless_nil.cons rfl)

theorem unpacking_leadless (arguments : UInt16) (parameters : List (JavaType × UInt16)) :
    Leadless (Block.unpacking arguments parameters) := by
  refine leadless_flatMap fun ⟨⟨t, _⟩, _⟩ => ?_
  exact (Leadless.append (((leadless_nil.cons rfl).cons rfl).cons rfl) t.unboxing_leadless).append
    (leadless_nil.cons rfl)

theorem beforeDispatch_leadless (name descriptor : String) (isStatic : Bool) (arguments : UInt16) :
    Leadless (Block.beforeDispatch s.plan name descriptor isStatic arguments) := by
  intro x hx
  simp only [Block.beforeDispatch, Block.address, List.mem_append, List.mem_cons,
    List.not_mem_nil, or_false] at hx
  rcases hx with ((rfl | rfl) | rfl | rfl) | rfl | rfl | rfl | rfl | rfl | rfl
  all_goals try exact rfl
  split <;> exact rfl

theorem verdictCheck_enclosed (t : JavaType) (l l' : Label) : Enclosed (Block.verdictCheck t l l') := by
  intro x hx l'' hl
  have hunboxing := t.unboxing_leadless
  simp only [Block.verdictCheck, List.mem_append, List.mem_cons, List.not_mem_nil, or_false] at hx ⊢
  rcases hx with (hx | hx) | hx
  · rcases hx with rfl | rfl | rfl | rfl | rfl | rfl | rfl
    all_goals try exact absurd hl List.not_mem_nil
    rw [List.mem_singleton.1 hl]
    simp
  · rw [hunboxing x hx] at hl
    cases hl
  · rcases hx with rfl | rfl | rfl | rfl | rfl | rfl | rfl | rfl | rfl
    all_goals try exact absurd hl List.not_mem_nil
    rw [List.mem_singleton.1 hl]
    simp

theorem enclosed_around {ts : List Template} (h : Enclosed ts) : Enclosed (Marker.around ts) := by
  have hopening : Leadless Marker.opening := (leadless_nil.cons rfl).cons rfl
  have hclosing : Leadless Marker.closing := (leadless_nil.cons rfl).cons rfl
  exact hopening.enclosed.append (h.append hclosing.enclosed)

theorem report_enclosed (k : EventKind) (l : Label) : Enclosed (s.report k l) :=
  Enclosed.append (Leadless.enclosed (((leadless_nil.cons rfl).cons rfl).cons rfl))
    (verdictCheck_enclosed _ _ _)

theorem startReport_enclosed (arguments : UInt16) (l : Label) : Enclosed (s.startReport arguments l) :=
  enclosed_around ((packing_leadless _).enclosed.append
    ((s.beforeDispatch_leadless _ _ _ _).enclosed.append
      ((verdictCheck_enclosed _ _ _).append (unpacking_leadless _ _).enclosed)))

theorem returnReport_enclosed (l : Label) : Enclosed (s.returnReport l) :=
  enclosed_around ((s.returnType.duplicating_leadless.append s.returnType.boxing_leadless).enclosed.append
    (s.report_enclosed _ _))

theorem lineReport_enclosed (n : UInt16) (l : Label) : Enclosed (s.lineReport n l) :=
  enclosed_around (Enclosed.append (leadless_nil.cons rfl).enclosed (s.report_enclosed _ _))

theorem callBeforeReport_enclosed (line : Int32) (m : MemberRef) (l : Label) :
    Enclosed (s.callBeforeReport line m l) :=
  enclosed_around (Enclosed.append
    ((((leadless_nil.cons rfl).cons rfl).cons rfl).cons rfl).enclosed (s.report_enclosed _ _))

theorem callReturnReport_enclosed (l : Label) : Enclosed (s.callReturnReport l) := by
  unfold callReturnReport
  split
  · exact enclosed_around (s.report_enclosed _ _)
  · exact leadless_nil.enclosed

theorem callThrowsReport_enclosed (l : Label) : Enclosed (s.callThrowsReport l) :=
  enclosed_around (Enclosed.append
    (((leadless_nil.cons rfl).cons rfl).cons rfl).enclosed (s.report_enclosed _ _))

theorem guardedBack_enclosed (l : Label) : Enclosed (s.guardedBack l) := by
  intro t ht l' hl'
  simp only [guardedBack, List.mem_cons, List.mem_append, List.not_mem_nil, or_false] at ht ⊢
  rcases ht with rfl | ht | (rfl | rfl) | ht | rfl | rfl
  · cases hl'
  · exact .inr (.inl (s.callReturnReport_enclosed _ t ht l' hl'))
  · rw [List.mem_singleton.1 hl']
    simp
  · cases hl'
  · exact .inr (.inr (.inr (.inl (s.callThrowsReport_enclosed _ t ht l' hl'))))
  · cases hl'
  · cases hl'

theorem throwsReport_enclosed (thrown : UInt16) (l : Label) : Enclosed (s.throwsReport thrown l) := by
  have hopening : Leadless Marker.opening := (leadless_nil.cons rfl).cons rfl
  have hclosing : Leadless Marker.closing := (leadless_nil.cons rfl).cons rfl
  exact hopening.enclosed.append (Enclosed.append ((leadless_nil.cons rfl).cons rfl).enclosed
    ((s.report_enclosed _ _).append (hclosing.enclosed.append
      ((leadless_nil.cons rfl).cons rfl).enclosed)))

theorem guardedSegment_enclosed (i : Insn) (l : Label) :
    Enclosed (s.guardedSegment i l).front ∧ Enclosed (s.guardedSegment i l).back := by
  unfold guardedSegment
  split
  · exact ⟨(leadless_nil.cons rfl).enclosed, s.guardedBack_enclosed l⟩
  · exact ⟨leadless_nil.enclosed, s.callReturnReport_enclosed l⟩

/-- What is woven around a copy leads only to labels on the same side of it. -/
theorem segment_enclosed (p : Position) (l : Label) (m : MemberRef) (i : Insn) :
    Enclosed (s.segment p l m i).front ∧ Enclosed (s.segment p l m i).back := by
  have bare : Enclosed ([] : List Template) := leadless_nil.enclosed
  cases i with
  | line n =>
    unfold segment
    simp only
    split
    · exact ⟨bare, s.lineReport_enclosed n l⟩
    · exact ⟨bare, bare⟩
  | simple op =>
    unfold segment
    simp only
    split
    · exact ⟨s.returnReport_enclosed l, bare⟩
    · exact ⟨bare, bare⟩
  | method op index =>
    unfold segment callSegment
    simp only
    split
    · split
      · obtain ⟨hfront, hback⟩ := s.guardedSegment_enclosed (.method op index) (l + 2)
        exact ⟨(s.callBeforeReport_enclosed _ _ _).append hfront, hback⟩
      · exact s.guardedSegment_enclosed _ l
    · exact ⟨bare, bare⟩
  | _ => exact ⟨bare, bare⟩

/-- Only source lines and invocations have something woven behind them. -/
theorem back_of_segment {p : Position} {l : Label} {m : MemberRef} {i : Insn}
    (h : (s.segment p l m i).back ≠ []) : (∃ n, i = .line n) ∨ ∃ op index, i = .method op index := by
  cases i with
  | line n => exact .inl ⟨n, rfl⟩
  | method op index => exact .inr ⟨op, index, rfl⟩
  | simple op =>
    unfold segment at h
    simp only at h
    split at h <;> exact absurd rfl h
  | _ => exact absurd rfl h

/-- Only returns and invocations have something woven in front of them. -/
theorem front_of_segment {p : Position} {l : Label} {m : MemberRef} {i : Insn}
    (h : (s.segment p l m i).front ≠ []) : i.isPseudo = false := by
  cases i with
  | line n =>
    unfold segment at h
    simp only at h
    split at h <;> exact absurd rfl h
  | label _ => exact absurd rfl h
  | _ => rfl

/-! ## Places in pieces -/

def Parts.InPiece (w : Parts) (i k : Nat) : Prop :=
  w.edge i ≤ k ∧ k < w.edge (i + 1)

section Pieces

variable {w : Parts} {i j k : Nat} {g : Segment}

theorem Parts.InPiece.unique (hi : w.InPiece i k) (hj : w.InPiece j k) : i = j := by
  rcases Nat.lt_trichotomy i j with h | h | h
  · exact absurd (Nat.le_trans (Parts.edge_mono h) hj.1) (Nat.not_le_of_lt hi.2)
  · exact h
  · exact absurd (Nat.le_trans (Parts.edge_mono h) hi.1) (Nat.not_le_of_lt hj.2)

theorem Parts.InPiece.lt (hi : w.InPiece i k) : i < w.pieces.length := by
  by_contra hge
  have hend : ∀ n, w.pieces.length ≤ n → w.edge n = w.edge w.pieces.length := by
    intro n hn
    rw [Parts.edge, Parts.edge, pieceStart, pieceStart, List.take_of_length_le hn, List.take_length]
  obtain ⟨hlo, hhi⟩ := hi
  rw [hend i (Nat.le_of_not_lt hge)] at hlo
  rw [hend (i + 1) (Nat.le_succ_of_le (Nat.le_of_not_lt hge))] at hhi
  exact Nat.not_lt_of_le hlo hhi

theorem Parts.InPiece.lt_end (hi : w.InPiece i k) : k < w.edge w.pieces.length :=
  Nat.lt_of_lt_of_le hi.2 (Parts.edge_mono hi.lt)

theorem Parts.inPiece_spot (hg : w.pieces[i]? = some g) : w.InPiece i (w.spot i) :=
  ⟨w.edge_le_spot i, Parts.spot_lt_edge hg (Nat.lt_succ_self i)⟩

/-- Behind a place comes one of the same piece or the start of the next one. -/
theorem Parts.InPiece.next (hi : w.InPiece i (k + 1)) (hj : w.InPiece j k) :
    i = j ∨ i = j + 1 ∧ k + 1 = w.edge (j + 1) := by
  rcases Nat.lt_or_ge (k + 1) (w.edge (j + 1)) with hlt | hge
  · exact .inl (hi.unique ⟨Nat.le_succ_of_le hj.1, hlt⟩)
  · have hedge : k + 1 = w.edge (j + 1) := Nat.le_antisymm hj.2 hge
    refine .inr ⟨?_, hedge⟩
    rcases Nat.lt_trichotomy i (j + 1) with h | h | h
    · have hle := Parts.edge_mono (w := w) (Nat.succ_le_of_lt h)
      exact absurd hi.2 (Nat.not_lt_of_le (hedge ▸ hle))
    · exact h
    · have hlt : j + 1 < w.pieces.length := Nat.lt_trans h hi.lt
      have hspot := Parts.spot_lt_edge (w := w) (List.getElem?_eq_getElem hlt) h
      have hle := Nat.lt_of_le_of_lt (w.edge_le_spot (j + 1)) hspot
      exact absurd (Nat.lt_of_lt_of_le hle hi.1) (hedge ▸ Nat.lt_irrefl _)

/-- A place in the code is in a piece, in front of its copy, at it or behind it, or behind all
pieces. -/
theorem Parts.place_cases (hne : w.segments ≠ []) {t : Template} (hk : w.code[k]? = some t) :
    (∃ i g, w.pieces[i]? = some g ∧ w.InPiece i k ∧
      (k < w.spot i ∧ t ∈ g.front ∨ k = w.spot i ∧ t = .plain g.insn ∨ w.spot i < k ∧ t ∈ g.back)) ∨
    w.edge w.pieces.length ≤ k ∧ (t = .place (w.start + 1) ∨ t ∈ w.finish) := by
  rcases Parts.code_places hne hk with ⟨i, g, n, hg, rfl, hn⟩ | h
  · refine .inl ⟨i, g, hg, ⟨Nat.le_add_right _ _, ?_⟩, ?_⟩
    · have hlt := (List.getElem?_eq_some_iff.1 hn).1
      rw [Segment.templates, List.length_append, List.length_cons] at hlt
      rw [Parts.edge_next hg, Parts.spot_eq hg]
      omega
    · rw [Parts.spot_eq hg]
      rw [Segment.templates, List.getElem?_append] at hn
      split at hn
      · exact .inl ⟨by omega, List.mem_of_getElem? hn⟩
      · obtain ⟨n', hn'⟩ := Nat.exists_eq_add_of_le (Nat.le_of_not_lt ‹_›)
        rw [hn', Nat.add_sub_cancel_left] at hn
        cases n' with
        | zero => exact .inr (.inl ⟨by omega, (Option.some.inj hn).symm⟩)
        | succ n' => exact .inr (.inr ⟨by omega, List.mem_of_getElem? hn⟩)
  · exact .inr h

end Pieces

end WeaveSite

namespace Weave

open WeaveSite

namespace WovenFrom

variable {s : WeaveSite} {q : Pool} {given woven : Body} {entry : Nat} {w : Parts}

section Around

variable (hw : WovenFrom s q given entry w woven)
include hw

theorem before_enclosed : Enclosed w.before := by
  rw [hw.rebuilt.before]
  split
  · exact s.startReport_enclosed _ _
  · exact leadless_nil.enclosed

theorem finish_enclosed : Enclosed w.finish := by
  rw [hw.rebuilt.finish]
  split
  · exact (leadless_nil.cons rfl).enclosed.append (s.throwsReport_enclosed _ _)
  · exact leadless_nil.enclosed

variable {i : Nat} {g : Segment} (hg : w.pieces[i]? = some g)
include hg

theorem piece_enclosed : Enclosed g.front ∧ Enclosed g.back := by
  obtain ⟨-, ⟨-, he⟩ | ⟨-, pos, l, m, -, he⟩⟩ := hw.piece_cases hg
  · rw [he]
    exact ⟨leadless_nil.enclosed, leadless_nil.enclosed⟩
  · obtain ⟨hfront, hback⟩ := s.segment_enclosed pos l m g.insn
    rw [he]
    refine ⟨Enclosed.append ?_ hfront, hback⟩
    split
    · exact hw.before_enclosed.append (leadless_nil.cons rfl).enclosed
    · exact leadless_nil.enclosed

/-- What has something woven behind it goes on. -/
theorem piece_onward (hstandard : ∀ insn ∈ given.insns, insn.Standard) (hback : g.back ≠ []) :
    g.insn.isTerminal = false := by
  obtain ⟨hinsn, ⟨-, he⟩ | ⟨-, pos, l, m, -, he⟩⟩ := hw.piece_cases hg
  · rw [he] at hback
    exact absurd rfl hback
  · rw [he] at hback
    rcases s.back_of_segment hback with ⟨n, hn⟩ | ⟨op, index, hop⟩
    · rw [hn]
      rfl
    · have hformat := hstandard _ (List.mem_of_getElem? hinsn)
      rw [hop] at hformat ⊢
      have all : ∀ op, Cursor.Format.of op = .method ∨ Cursor.Format.of op = .interface →
          Op.isTerminal op = false := by
        refine Op.all ?_
        decide +kernel
      simpa [Insn.isTerminal, Insn.opcode] using all op hformat

/-- But for the report of the start, only what takes bytes has something woven in front of it. -/
theorem piece_real (hi : i ≠ w.prologue.length) (hfront : g.front ≠ []) : g.insn.isPseudo = false := by
  obtain ⟨-, ⟨-, he⟩ | ⟨-, pos, l, m, -, he⟩⟩ := hw.piece_cases hg
  · rw [he] at hfront
    exact absurd rfl hfront
  · rw [if_neg hi] at he
    rw [he] at hfront
    exact s.front_of_segment hfront

end Around

section Places

variable (hw : WovenFrom s q given entry w woven) (hne : w.segments ≠ []) (htidy : given.Tidy)
include hw hne htidy

/-- The labels of a piece stand there. -/
theorem inPiece_of_label {i k : Nat} {g : Segment} (hg : w.pieces[i]? = some g) {l : Label}
    (hl : .place l ∈ g.front ∨ .place l ∈ g.back) (hk : LastPlace woven.insns l k) : w.InPiece i k := by
  have hfresh := (hw.piece_surrounded hg).fresh l hl
  obtain ⟨hfront, hback⟩ := hw.has_around hne htidy.labels hg
  have hspot := Parts.spot_eq hg
  have hnext := Parts.edge_next hg
  rcases hl with hl | hl
  · obtain ⟨n, hn⟩ := List.mem_iff_getElem?.1 hl
    have hlt := (List.getElem?_eq_some_iff.1 hn).1
    rw [hk.unique (hw.lastPlace_fresh htidy.labels hfresh (hfront n _ hn))]
    exact ⟨by omega, by omega⟩
  · obtain ⟨n, hn⟩ := List.mem_iff_getElem?.1 hl
    have hlt := (List.getElem?_eq_some_iff.1 hn).1
    rw [hk.unique (hw.lastPlace_fresh htidy.labels hfresh (hback n _ hn))]
    exact ⟨by omega, by omega⟩

section Behind

variable (hlabels : LabelsBelow given)
include hlabels
omit htidy

omit hne in
/-- The labels of the handler of the method stand there. -/
theorem behind_of_label {k : Nat} {l : Label} (hl : .place l ∈ w.finish)
    (hk : LastPlace woven.insns l k) : w.exit < k := by
  obtain ⟨n, hn⟩ := List.mem_iff_getElem?.1 hl
  rw [hk.unique (hw.lastPlace_fresh hlabels (hw.fresh_finish hl) (hw.has_finish hlabels n _ hn))]
  omega

/-- From where the range of the method ends, nothing is protected. -/
theorem not_covered_behind (hclosed : given.Closed) {n : Nat} {insn : Insn} {t : TryCatch} (hn : w.exit ≤ n)
    (hinsn : woven.insns[n]? = some insn) (hreal : insn.isPseudo = false) (hmem : t ∈ woven.tryCatch) :
    ¬ t.Covers woven.insns n := by
  intro hcovers
  have spot_lt {i : Nat} (hi : i < w.pieces.length) : w.spot i < w.exit :=
    Parts.edge_pieces hne ▸ (Parts.inPiece_spot (List.getElem?_eq_getElem hi)).lt_end
  obtain ⟨calls, own, htable, hcalls, hown⟩ := hw.tryCatch
  rw [htable, List.mem_append, List.mem_append] at hmem
  rcases hmem with (hmem | hmem) | hmem
  · obtain ⟨r, hr, hrange⟩ := (mem_forall₂ hcalls).2 _ hmem
    obtain ⟨i, g, l, op, index, hg, -, hl, hguarded, rfl⟩ := hw.range_of_mem hr
    have hat := (hw.range_covers_iff hne hlabels hg hl hguarded hrange hinsn hreal).1 hcovers
    exact absurd (spot_lt (List.getElem?_eq_some_iff.1 hg).1) (Nat.not_lt_of_le (hat ▸ hn))
  · obtain ⟨b, hb⟩ := hclosed.2 t hmem t.stop (List.mem_cons_of_mem _ (List.mem_cons_self ..))
    obtain ⟨x, y, -, hy, -, hny⟩ := hcovers
    rw [hy.unique (hw.lastPlace_spot hne hlabels hb)] at hny
    exact absurd (Nat.lt_trans hny (spot_lt (hw.pieces_length ▸ hb.lt))) (Nat.not_lt_of_le hn)
  · obtain ⟨-, hrange⟩ := range_of_own hown hmem
    exact absurd ((hw.own_covers_iff hlabels hrange).1 hcovers).2 (Nat.not_lt_of_le hn)

/-- From where the range of the method ends, control goes to the handler of the method and never leaves
it. -/
theorem leads_behind (hclosed : given.Closed) {n j : Nat} (hn : w.exit ≤ n) (hleads : woven.Leads n j) :
    w.exit < j := by
  cases hleads with
  | next _ _ hj => omega
  | @jump insn l hinsn hl hplace =>
    obtain ⟨t, ht, hsettles⟩ := hw.code_of_insn hinsn
    rw [hsettles.targets] at hl
    rcases Parts.place_cases hne ht with ⟨i, g, -, hin, -⟩ | ⟨-, rfl | hmem⟩
    · have hlt := hin.lt_end
      rw [Parts.edge_pieces hne] at hlt
      exact absurd hlt (Nat.not_lt_of_le hn)
    · cases hl
    · exact hw.behind_of_label hlabels (hw.finish_enclosed t hmem l hl) hplace
  | @thrown insn t hinsn hreal hmem hcovers _ =>
    exact absurd hcovers (hw.not_covered_behind hne hlabels hclosed hn hinsn hreal hmem)

end Behind

/-- The handler of the method is in no piece. -/
theorem own_handler_behind {own : List TryCatch} {t : TryCatch} {k : Nat}
    (hown : List.Forall₂ (Range.Settles q)
      (if s.wants .throws then [⟨w.start, w.start + 1, w.handler⟩] else []) own) (ht : t ∈ own)
    (hk : LastPlace woven.insns t.handler k) (i : Nat) : ¬ w.InPiece i k := by
  intro hi
  obtain ⟨hwants, hrange⟩ := range_of_own hown ht
  rw [hrange.handler] at hk
  have hexit := hk.unique (hw.handler_place htidy.labels hwants)
  have hlt := hi.lt_end
  rw [Parts.edge_pieces hne] at hlt
  omega

end Places

/-! ## Where control comes from -/

section Backward

variable (hw : WovenFrom s q given entry w woven) (hne : w.segments ≠ []) (htidy : given.Tidy)
  (henters : Enters given entry)
  (hbefore : ∀ i insn, entry = i + 1 → given.insns[i]? = some insn → insn.isPseudo = false)
include hw hne htidy henters hbefore

/-- A table entry of the method that covers something in a piece covers something in the method that
control reaches, if it reaches the instruction of the piece. -/
theorem covered_of_inPiece {i j : Nat} {insn : Insn} {t : TryCatch} (ht : t ∈ given.tryCatch)
    (hj : w.InPiece i j) (hi : given.Reached i) (hinsn : woven.insns[j]? = some insn)
    (hreal : insn.isPseudo = false) (hcovers : t.Covers woven.insns j) :
    ∃ x y, given.Reached x ∧ given.insns[x]? = some y ∧ y.isPseudo = false ∧ t.Covers given.insns x := by
  have place := htidy.closed.2 t ht
  obtain ⟨a, ha⟩ := place t.start (List.mem_cons_self ..)
  obtain ⟨b, hb⟩ := place t.stop (List.mem_cons_of_mem _ (List.mem_cons_self ..))
  have hlt : i < given.insns.length := hw.pieces_length ▸ hj.lt
  obtain ⟨g, hg⟩ := hw.piece_of_lt hlt
  have hown := hw.insn_of_piece hg
  rcases Nat.lt_or_ge j (w.spot i) with hfront | hspot
  · -- in front of the copy
    obtain ⟨hai, hib⟩ := (hw.covers_before_spot hne htidy.labels ha hb hlt hj.1 hfront).1 hcovers
    by_cases hentry : i = w.prologue.length
    · have hprologue := congrArg List.length hw.rebuilt.prologue
      rw [List.length_take, ← hentry] at hprologue
      obtain rfl : i = entry := by omega
      rcases henters with rfl | ⟨i', y, rfl, hy, -, hreached, -⟩
      · exact absurd hai (Nat.not_lt_zero a)
      · exact ⟨i', y, hreached, hy, hbefore i' y rfl hy, a, b, ha, hb, Nat.le_of_lt_succ hai, hib⟩
    · have hreal' := hw.piece_real hg hentry (by
        intro hnil
        rw [Parts.spot_eq hg, hnil] at hfront
        exact absurd hj.1 (Nat.not_le_of_lt hfront))
      refine ⟨i, _, hi, hown, hreal', a, b, ha, hb, Nat.le_of_lt hai, Nat.lt_of_le_of_ne hib ?_⟩
      rintro rfl
      rw [Option.some.inj (hown.symm.trans hb.1)] at hreal'
      cases hreal'
  · -- at the copy or behind it
    have hcovers' := (hw.covers_from_spot hne htidy.labels ha hb hlt hspot hj.2).1 hcovers
    cases hpseudo : g.insn.isPseudo with
    | false => exact ⟨i, _, hi, hown, hpseudo, hcovers'⟩
    | true =>
      have hback : g.back ≠ [] := by
        intro hnil
        have hnext := Parts.edge_next hg
        rw [hnil, List.length_nil] at hnext
        have hat := hw.insn_at_spot hne hown
        rw [show w.spot i = j from Nat.le_antisymm hspot (by have := hj.2; omega), hinsn] at hat
        rw [Option.some.inj hat, hpseudo] at hreal
        cases hreal
      have hline : ∃ n, g.insn = .line n := by
        obtain ⟨-, ⟨-, he⟩ | ⟨-, pos, l, m, -, he⟩⟩ := hw.piece_cases hg
        · rw [he] at hback
          exact absurd rfl hback
        · rw [he] at hback
          rcases s.back_of_segment hback with h | ⟨op, index, hop⟩
          · exact h
          · rw [hop] at hpseudo
            cases hpseudo
      obtain ⟨n, hn⟩ := hline
      obtain ⟨x, y, hix, hx, hxreal, hxreached, hlines⟩ := htidy.real_of_line (hn ▸ hown) hi
      obtain ⟨a', b', ha', hb', hai, hib⟩ := hcovers'
      refine ⟨x, y, hxreached, hx, hxreal, a', b', ha', hb', Nat.le_of_lt (Nat.lt_of_le_of_lt hai hix), ?_⟩
      by_contra hbx
      rcases Nat.eq_or_lt_of_le (Nat.le_of_not_lt hbx) with rfl | hlt'
      · rw [Option.some.inj (hx.symm.trans hb'.1)] at hxreal
        cases hxreal
      · obtain ⟨n', hn'⟩ := hlines b' (Nat.le_of_lt hib) hlt'
        rw [hb'.1] at hn'
        cases hn'

/-- Control comes to a piece only if it reaches the instruction in the method. -/
theorem reached_of_piece {k : Nat} (hk : woven.Reached k) {i : Nat} (hi : w.InPiece i k) :
    given.Reached i := by
  induction hk generalizing i with
  | entry =>
    obtain rfl : i = 0 := by
      by_contra hpos
      have hfirst : (0 : Nat) < w.pieces.length := Nat.lt_of_le_of_lt (Nat.zero_le i) hi.lt
      have hspot := Parts.spot_lt_edge (w := w) (List.getElem?_eq_getElem hfirst) (Nat.pos_of_ne_zero hpos)
      exact absurd hi.1 (Nat.not_le_of_lt (Nat.lt_of_le_of_lt (Nat.zero_le _) hspot))
    exact .entry
  | @step j k _ hleads ih =>
    obtain ⟨insn, hinsn⟩ : ∃ insn, woven.insns[j]? = some insn := by
      cases hleads <;> exact ⟨_, ‹_›⟩
    obtain ⟨t, ht, hsettles⟩ := hw.code_of_insn hinsn
    rcases Parts.place_cases hne ht with ⟨i', g, hg, hin, hwhere⟩ | ⟨hend, -⟩
    · have hreached := ih hin
      have hown := hw.insn_of_piece hg
      cases hleads with
      | next hj hon hjk =>
        subst hjk
        cases hj.symm.trans hinsn
        rcases hi.next hin with rfl | ⟨rfl, hedge⟩
        · exact hreached
        · refine .step hreached (.next hown ?_ rfl)
          by_cases hback : g.back = []
          · have hnext := Parts.edge_next hg
            rw [hback, List.length_nil] at hnext
            have hspot := hw.insn_at_spot hne hown
            rw [show w.spot i' = j by omega, hinsn] at hspot
            rwa [← Option.some.inj hspot]
          · exact hw.piece_onward hg htidy.standard hback
      | @jump _ l hj hl hplace =>
        cases hj.symm.trans hinsn
        rw [hsettles.targets] at hl
        obtain ⟨hfront, hback⟩ := hw.piece_enclosed hg
        rcases hwhere with ⟨-, hmem⟩ | ⟨-, rfl⟩ | ⟨-, hmem⟩
        · rwa [hi.unique (hw.inPiece_of_label hne htidy hg (.inl (hfront t hmem l hl)) hplace)]
        · have hbelow := htidy.target_below (List.mem_of_getElem? hown) ((Insn.mem_targets_iff _).1 hl)
          obtain ⟨x, rfl, hx⟩ := hw.lastPlace_of_spot hne hbelow hplace
          rw [hi.unique (Parts.inPiece_spot (List.getElem?_eq_getElem (hw.pieces_length ▸ hx.lt)))]
          exact .step hreached (.jump hown hl hx)
        · rwa [hi.unique (hw.inPiece_of_label hne htidy hg (.inr (hback t hmem l hl)) hplace)]
      | @thrown _ t' hj hreal hmem hcovers hplace =>
        cases hj.symm.trans hinsn
        obtain ⟨calls, own, htable, hcalls, hown'⟩ := hw.tryCatch
        rw [htable, List.mem_append, List.mem_append] at hmem
        rcases hmem with (hmem | hmem) | hmem
        · obtain ⟨r, hr, hrange⟩ := (mem_forall₂ hcalls).2 _ hmem
          obtain ⟨i0, g0, l, op, index, hg0, -, hl, hguarded, rfl⟩ := hw.range_of_mem hr
          have hj0 := (hw.range_covers_iff hne htidy.labels hg0 hl hguarded hrange hinsn hreal).1 hcovers
          have hin0 : w.InPiece i0 j := hj0 ▸ Parts.inPiece_spot hg0
          rw [hrange.handler] at hplace
          have hlabel : .place (l + 2) ∈ g0.back := by
            rw [hguarded.back, guardedBack]
            simp
          rw [hi.unique (hw.inPiece_of_label hne htidy hg0 (.inr hlabel) hplace)]
          exact ih hin0
        · obtain ⟨x, y, hx, hy, hyreal, hxcovers⟩ := hw.covered_of_inPiece hne htidy henters hbefore hmem
            hin hreached hinsn hreal hcovers
          have hbelow := htidy.table_below hmem
            (List.mem_cons_of_mem _ (List.mem_cons_of_mem _ (List.mem_singleton_self _)))
          obtain ⟨n, rfl, hn⟩ := hw.lastPlace_of_spot hne hbelow hplace
          rw [hi.unique (Parts.inPiece_spot (List.getElem?_eq_getElem (hw.pieces_length ▸ hn.lt)))]
          exact .step hx (.thrown hy hyreal hmem hxcovers hn)
        · exact absurd hi (hw.own_handler_behind hne htidy hown' hmem hplace i)
    · rw [Parts.edge_pieces hne] at hend
      have hlt := hi.lt_end
      rw [Parts.edge_pieces hne] at hlt
      exact absurd (hw.leads_behind hne htidy.labels htidy.closed hend hleads) (Nat.lt_asymm hlt)

end Backward

end WovenFrom

end Weave

end Interpose
