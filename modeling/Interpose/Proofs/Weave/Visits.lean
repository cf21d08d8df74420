import Interpose.Proofs.Code.Assembled
import Interpose.Proofs.Code.Spoken
import Interpose.Proofs.Weave.Live
/-!
# Whole pieces

Control that comes to the first instruction of a report comes to all of it, and carries with it what it
has (`Stage.Visits`). So it comes to all of the piece of an instruction in woven code if it reaches the
instruction in the method (`WovenFrom.reached_piece`), and to all of the handler of the method
(`WovenFrom.conveyed_own`).
-/

namespace Interpose

/-! ## Visits -/

namespace Stage

open Template

variable {σ : Stage} {R : Nat → Prop} {ts ts' between : List Template}

/-- What control carries to the first of the templates it carries to every one. -/
def Visits (σ : Stage) (R : Nat → Prop) (ts : List Template) : Prop :=
  σ.body.Conveys R → ∀ k, σ.Has k ts → R k → ∀ j < ts.length, R (k + j)

theorem visits_nil : σ.Visits R [] :=
  fun _ _ _ _ _ hj => absurd hj (Nat.not_lt_zero _)

theorem visits_one (t : Template) : σ.Visits R [t] := by
  intro _ k _ hk j hj
  rw [Nat.lt_one_iff.1 hj]
  exact hk

theorem Visits.append (h : σ.Visits R ts) (hthrough : Through σ.bound ts) (h' : σ.Visits R ts') :
    σ.Visits R (ts ++ ts') := by
  intro hR k hat hk j hj
  rcases Nat.lt_or_ge j ts.length with hlt | hge
  · exact h hR k hat.append_left hk j hlt
  · obtain ⟨n, rfl⟩ := Nat.exists_eq_add_of_le hge
    rw [List.length_append] at hj
    rw [← Nat.add_assoc]
    exact h' hR _ hat.append_right (σ.conveyed_through hR hthrough hat.append_left hk) n (Nat.lt_of_add_lt_add_left hj)

theorem Visits.cons {t : Template} (ht : t.onward = true) (h : σ.Visits R ts) : σ.Visits R (t :: ts) :=
  (visits_one t).append (.next ht .nil) h

theorem visits_straight (h : Straight ts) : σ.Visits R ts := by
  induction ts with
  | nil => exact visits_nil
  | cons t ts ih =>
    exact .cons (h t (List.mem_cons_self ..)).2 (ih fun t ht => h t (List.mem_cons_of_mem _ ht))

/-- A conditional branch past templates leads to them and behind them. -/
theorem Visits.past {op : Opcode} {l : Nat} (hop : (jump op l).onward = true) (hl : σ.bound ≤ l)
    (h : σ.Visits R between) (h' : σ.Visits R ts) :
    σ.Visits R (jump op l :: (between ++ place l :: ts)) := by
  intro hR k hat hk j hj
  have hplace := hat.tail.append_right
  cases j with
  | zero => exact hk
  | succ j =>
    rw [← Nat.add_assoc, Nat.add_right_comm]
    obtain ⟨insn, hinsn, hsettles⟩ := forall₂_getElem? σ.settled hat.head
    have hnext : R (k + 1) := by
      exact hR _ _ hk (.next hinsn (by rw [hsettles.isTerminal, hop]; rfl) rfl)
    rcases Nat.lt_or_ge j between.length with hlt | hge
    · exact h hR _ hat.tail.append_left hnext j hlt
    · obtain ⟨n, rfl⟩ := Nat.exists_eq_add_of_le hge
      cases hsettles
      have hjump := hR _ _ hk (.jump hinsn (List.mem_singleton_self _) (σ.placed _ l hl hplace.head))
      have hbehind : σ.Visits R (place l :: ts) := .cons rfl h'
      rw [List.length_cons, List.length_append, Nat.succ_lt_succ_iff] at hj
      rw [← Nat.add_assoc]
      exact hbehind hR _ hplace hjump n (Nat.lt_of_add_lt_add_left hj)

end Stage

namespace WeaveSite

open Template Stage

variable (s : WeaveSite) {σ : Stage} {R : Nat → Prop} {l : Nat} (h : σ.bound ≤ l)
include h

theorem visits_verdictCheck (t : JavaType) : σ.Visits R (Block.verdictCheck t l (l + 1)) := by
  have hthrow : σ.Visits R (.pushInt Spy.stateThrow :: .jump Op.ifIcmpne (l + 1) ::
      ([Template.field Op.getfield Spy.valueField, .type Op.checkcast throwableClass, .op Op.athrow] ++
        .place (l + 1) :: [.op Op.pop])) :=
    .cons rfl (.past rfl (Nat.le_succ_of_le h) (.cons rfl (.cons rfl (visits_one _))) (visits_one _))
  have hvalue : σ.Visits R ([Template.op Op.pop, .field Op.getfield Spy.valueField] ++
      (t.unboxing ++ [Template.op t.returnOpcode])) :=
    .cons rfl (.cons rfl ((visits_straight t.unboxing_straight).append t.unboxing_straight.through
      (visits_one _)))
  have hreturn : σ.Visits R (.jump Op.ifIcmpne l :: (([Template.op Op.pop, .field Op.getfield Spy.valueField]
      ++ (t.unboxing ++ [Template.op t.returnOpcode])) ++ .place l :: _)) :=
    .past rfl h hvalue hthrow
  have hall := Visits.cons (t := .op Op.dup) rfl (.cons (t := .field Op.getfield Spy.stateField) rfl
    (.cons (t := .op Op.dup) rfl (.cons (t := .pushInt Spy.stateReturn) rfl hreturn)))
  simpa [Block.verdictCheck] using hall

omit h in
theorem visits_around {ts : List Template} (hthrough : Through σ.bound ts) (hvisits : σ.Visits R ts) :
    σ.Visits R (Marker.around ts) := by
  have hopening : σ.Visits R Marker.opening := .cons rfl (visits_one _)
  have hclosing : σ.Visits R Marker.closing := .cons rfl (visits_one _)
  exact hopening.append (.next rfl (.next rfl .nil)) (hvisits.append hthrough hclosing)

theorem visits_report (k : EventKind) : σ.Visits R (s.report k l) :=
  .cons rfl (.cons rfl (.cons rfl (visits_verdictCheck h _)))

theorem visits_startReport (arguments : UInt16) : σ.Visits R (s.startReport arguments l) :=
  visits_around ((packing_straight _).through.append ((s.beforeDispatch_straight _ _ _ _).through.append
      ((through_verdictCheck h _).append (unpacking_straight _ _).through)))
    ((visits_straight (packing_straight _)).append (packing_straight _).through
      ((visits_straight (s.beforeDispatch_straight _ _ _ _)).append
        (s.beforeDispatch_straight _ _ _ _).through ((visits_verdictCheck h _).append
          (through_verdictCheck h _) (visits_straight (unpacking_straight _ _)))))

theorem visits_returnReport : σ.Visits R (s.returnReport l) :=
  visits_around
    ((s.returnType.duplicating_straight.append s.returnType.boxing_straight).through.append
      (s.through_report h _))
    ((visits_straight (s.returnType.duplicating_straight.append s.returnType.boxing_straight)).append
      (s.returnType.duplicating_straight.append s.returnType.boxing_straight).through (s.visits_report h _))

theorem visits_lineReport (n : UInt16) : σ.Visits R (s.lineReport n l) :=
  visits_around (.next rfl (s.through_report h _)) (.cons rfl (s.visits_report h _))

theorem visits_callBeforeReport (line : Int32) (m : MemberRef) :
    σ.Visits R (s.callBeforeReport line m l) :=
  visits_around (.next rfl (.next rfl (.next rfl (.next rfl (s.through_report h _)))))
    (.cons rfl (.cons rfl (.cons rfl (.cons rfl (s.visits_report h _)))))

theorem visits_callReturnReport : σ.Visits R (s.callReturnReport l) := by
  unfold callReturnReport
  split
  · exact visits_around (s.through_report h _) (s.visits_report h _)
  · exact visits_nil

theorem visits_callThrowsReport : σ.Visits R (s.callThrowsReport l) :=
  visits_around (.next rfl (.next rfl (.next rfl (s.through_report h _))))
    (.cons rfl (.cons rfl (.cons rfl (s.visits_report h _))))

theorem through_callThrowsReport : Through σ.bound (s.callThrowsReport l) :=
  through_around (.next rfl (.next rfl (.next rfl (s.through_report h _))))

theorem visits_throwsReport (thrown : UInt16) : σ.Visits R (s.throwsReport thrown l) := by
  have hclosing : σ.Visits R (Marker.closing ++ [Template.var Op.aload thrown, .op Op.athrow]) :=
    .cons rfl (.cons rfl (.cons rfl (visits_one _)))
  exact .cons rfl (.cons rfl (.cons rfl (.cons rfl
    ((s.visits_report h _).append (s.through_report h _) hclosing))))

/-- What stands behind an invocation with a handler of its own is visited if the handler is. -/
theorem visits_guardedBack (hhandler : ∀ j, σ.code[j]? = some (place (l + 2)) → R j) :
    σ.Visits R (s.guardedBack l) := by
  have hl : σ.bound ≤ l + 4 := Nat.le_add_right_of_le h
  have hl' : σ.bound ≤ l + 4 + s.callReturnLabels := Nat.le_add_right_of_le hl
  have hthrows : σ.Visits R (s.callThrowsReport (l + 4 + s.callReturnLabels) ++
      [Template.op Op.athrow]) :=
    (s.visits_callThrowsReport hl').append (s.through_callThrowsReport hl') (visits_one _)
  have hrest : σ.Visits R ([Template.jump Op.goto (l + 3)] ++ (.place (l + 2) ::
      ((s.callThrowsReport (l + 4 + s.callReturnLabels) ++ [.op Op.athrow]) ++ [.place (l + 3)]))) := by
    intro hR k hat hk j hj
    cases j with
    | zero => exact hk
    | succ j =>
      have hat' := hat.append_right
      have hplace := hat'.tail.append_right
      rw [← Nat.add_assoc, Nat.add_right_comm]
      cases j with
      | zero => exact hhandler _ hat'.head
      | succ j =>
        have hbehind : R (k + 1 + 1) := by
          obtain ⟨insn, hinsn, hsettles⟩ := forall₂_getElem? σ.settled hat'.head
          cases hsettles
          exact hR _ _ (hhandler _ hat'.head) (.next hinsn rfl rfl)
        rw [← Nat.add_assoc, Nat.add_right_comm]
        rcases Nat.lt_or_ge j (s.callThrowsReport (l + 4 + s.callReturnLabels) ++
          [Template.op Op.athrow]).length with hlt | hge
        · exact hthrows hR _ hat'.tail.append_left hbehind j hlt
        · -- the goto leads behind the handler
          simp only [List.length_append, List.length_cons, List.length_nil] at hj hge
          obtain ⟨insn, hinsn, hsettles⟩ := forall₂_getElem? σ.settled hat.head
          cases hsettles
          have hjump := hR _ _ hk (.jump hinsn (List.mem_singleton_self _)
            (σ.placed _ (l + 3) (Nat.le_add_right_of_le h) hplace.head))
          simp only [List.length_append, List.length_cons, List.length_nil] at hjump
          rwa [show k + 1 + 1 + j = k + 1 + 1 + ((s.callThrowsReport (l + 4 + s.callReturnLabels)).length +
            (0 + 1)) by omega]
  have hall := Visits.cons (t := .place (l + 1)) rfl ((s.visits_callReturnReport hl).append
    (s.through_callReturnReport hl) hrest)
  simpa [guardedBack] using hall

/-- What is woven around a copy is visited: in front of it, and behind it if its handler is. -/
theorem guardedSegment_visits (i : Insn)
    (hhandler : ∀ l', (s.guardedSegment i l).ranges = [⟨l', l' + 1, l' + 2⟩] →
      ∀ j, σ.code[j]? = some (place (l' + 2)) → R j) :
    σ.Visits R (s.guardedSegment i l).front ∧ σ.Visits R (s.guardedSegment i l).back := by
  unfold guardedSegment at hhandler ⊢
  split
  · rename_i hthrows
    rw [if_pos hthrows] at hhandler
    exact ⟨visits_one _, s.visits_guardedBack h (hhandler l rfl)⟩
  · exact ⟨visits_nil, s.visits_callReturnReport h⟩

theorem segment_visits (p : Position) (m : MemberRef) (i : Insn)
    (hhandler : ∀ l', (s.segment p l m i).ranges = [⟨l', l' + 1, l' + 2⟩] →
      ∀ j, σ.code[j]? = some (place (l' + 2)) → R j) :
    σ.Visits R (s.segment p l m i).front ∧ σ.Visits R (s.segment p l m i).back := by
  cases i with
  | line n =>
    unfold segment
    simp only
    split
    · exact ⟨visits_nil, s.visits_lineReport h n⟩
    · exact ⟨visits_nil, visits_nil⟩
  | simple op =>
    unfold segment
    simp only
    split
    · exact ⟨s.visits_returnReport h, visits_nil⟩
    · exact ⟨visits_nil, visits_nil⟩
  | method op index =>
    unfold segment callSegment at hhandler ⊢
    simp only at hhandler ⊢
    split
    · rename_i hcalls
      rw [if_pos hcalls] at hhandler
      split
      · rename_i hbefore
        rw [if_pos hbefore] at hhandler
        obtain ⟨hfront, hback⟩ := s.guardedSegment_visits (Nat.le_add_right_of_le h : σ.bound ≤ l + 2)
          (.method op index) hhandler
        exact ⟨(s.visits_callBeforeReport h _ _).append (s.through_callBeforeReport h _ _) hfront, hback⟩
      · rename_i hbefore
        rw [if_neg hbefore] at hhandler
        exact s.guardedSegment_visits h _ hhandler
    · exact ⟨visits_nil, visits_nil⟩
  | _ => exact ⟨visits_nil, visits_nil⟩

end WeaveSite

/-! ## Pieces -/

namespace Weave

open WeaveSite Template Stage

namespace WovenFrom

variable {s : WeaveSite} {q : Pool} {given woven : Body} {entry : Nat} {w : Parts}

section Forward

variable (hw : WovenFrom s q given entry w woven) (hne : w.segments ≠ []) (hlabels : LabelsBelow given)
  {R : Nat → Prop}
include hw

theorem visits_before : (hw.watched hlabels).Visits R w.before := by
  rw [hw.rebuilt.before]
  split
  · exact s.visits_startReport (Nat.le_refl _) _
  · exact visits_nil

section Conveyed

variable (hR : woven.Conveys R)
include hR

include hne hlabels

/-- What control carries to an invocation it carries to the handler of the invocation. -/
theorem conveyed_handler {i j : Nat} {l : Nat} {g : Segment} (hg : w.pieces[i]? = some g)
    (hranges : g.ranges = [⟨l, l + 1, l + 2⟩]) (hj : w.code[j]? = some (.place (l + 2)))
    (hspot : R (w.spot i)) : R j := by
  obtain ⟨⟨op, index, hinsn⟩, l', hl', hguarded⟩ := hw.piece_guarded hg (by rw [hranges]; nofun)
  have hl : l' = l := by
    have hsame := hguarded.ranges.symm.trans hranges
    simp only [List.cons.injEq, Range.mk.injEq] at hsame
    exact hsame.1.1
  subst hl
  obtain ⟨calls, own, htable, hcalls, -⟩ := hw.tryCatch
  have hmem : (⟨l', l' + 1, l' + 2⟩ : Range) ∈ w.segments.flatMap Segment.ranges := by
    rw [← ranges_pieces, List.mem_flatMap]
    exact ⟨g, List.mem_of_getElem? hg, by rw [hranges]; exact List.mem_singleton_self _⟩
  obtain ⟨t, ht, hsettles⟩ := (mem_forall₂ hcalls).1 _ hmem
  have hcall := hw.insn_at_spot hne (hinsn ▸ hw.insn_of_piece hg)
  refine hR _ _ hspot (.thrown (t := t) hcall rfl ?_ ?_ ?_)
  · rw [htable, List.mem_append, List.mem_append]
    exact .inl (.inl ht)
  · exact (hw.range_covers_iff hne hlabels hg hl' hguarded hsettles hcall rfl).2 rfl
  · rw [hsettles.handler]
    exact hw.lastPlace_fresh hlabels (Nat.le_add_right_of_le hl') hj

theorem piece_visits {i : Nat} {g : Segment} (hg : w.pieces[i]? = some g)
    (hspot : R (w.spot i)) :
    (hw.watched hlabels).Visits R g.front ∧ (hw.watched hlabels).Visits R g.back := by
  obtain ⟨-, ⟨-, he⟩ | ⟨-, pos, l, m, hl, he⟩⟩ := hw.piece_cases hg
  · rw [he]
    exact ⟨visits_nil, visits_nil⟩
  · have hbound : given.nextLabel ≤ l := Nat.le_trans hw.start_fresh (Nat.le_of_add_right_le hl)
    have hranges : g.ranges = (s.segment pos l m g.insn).ranges := (congrArg Segment.ranges he).trans rfl
    obtain ⟨hfront, hback⟩ := s.segment_visits (σ := hw.watched hlabels) hbound pos m g.insn
      fun l' hl' j hj => hw.conveyed_handler hne hlabels hR hg (hranges.trans hl') hj hspot
    rw [he]
    refine ⟨?_, hback⟩
    change Visits _ _ ((if i = w.prologue.length then w.opening else []) ++ _)
    split
    · exact ((hw.visits_before hlabels).append hw.through_before (visits_one _)).append
        (hw.through_before.append (.next rfl .nil)) hfront
    · exact hfront

omit hne in
/-- What control carries to the start of the range of the method it carries to all of the handler of the
method, if there is one. -/
theorem conveyed_own {context : MethodContext} {p : Pool} {h : Hierarchy} {m : Analysis.Method}
    (hof : m.Of woven context p h) (hentrance : R w.entrance) {n : Nat} (hn : n < w.finish.length) :
    R (w.exit + 1 + n) := by
  have hfinish := hw.rebuilt.finish
  cases hwants : s.wants .throws with
  | false =>
    rw [if_neg (by simp [hwants])] at hfinish
    rw [hfinish] at hn
    exact absurd hn (Nat.not_lt_zero _)
  | true =>
    rw [if_pos hwants] at hfinish
    obtain ⟨calls, own, htable, -, hown⟩ := hw.tryCatch
    rw [if_pos hwants] at hown
    obtain ⟨t, ht, hsettles⟩ := (mem_forall₂ hown).1 _ (List.mem_singleton_self _)
    have hmem : t ∈ woven.tryCatch := by
      rw [htable]
      exact List.mem_append_right _ ht
    -- control comes to the range, which holds something that takes bytes
    obtain ⟨g, -, hstart, hstop, -, -, hreal, -⟩ := (mem_forall₂ hof.guards).1 t hmem
    obtain ⟨hstart', hstop'⟩ := hw.own_places hlabels
    rw [hsettles.start] at hstart
    rw [hsettles.stop] at hstop
    obtain ⟨k, insn, hlo, hhi, hk, hreal⟩ := anyReal_eq_true.1 hreal
    rw [hstart.unique hstart'] at hlo
    rw [hstop.unique hstop'] at hhi
    obtain ⟨c, insn, hlo, hck, hc, hreal, hconveyed⟩ :=
      hR.exists_real hentrance hlo (List.getElem?_toArray.symm.trans hk) hreal
    have hhandler := hw.handler_place hlabels hwants
    have hfirst : R (w.exit + 1) := by
      refine hR _ _ hconveyed (.thrown (t := t) hc hreal hmem ?_ (hsettles.handler ▸ hhandler))
      exact (hw.own_covers_iff hlabels hsettles).2 ⟨hlo, Nat.lt_of_le_of_lt hck hhi⟩
    have hvisits : (hw.watched hlabels).Visits R w.finish := by
      rw [hfinish]
      refine .cons rfl (s.visits_throwsReport ?_ _)
      exact Nat.le_succ_of_le (Nat.le_trans hw.start_fresh (Nat.le_of_add_right_le hw.handler_behind))
    exact hvisits hR _ (hw.has_finish hlabels) hfirst n hn

end Conveyed

variable (htidy : given.Tidy) (henters : Enters given entry)
include hne htidy henters

/-- Control comes to the start of a piece, unless it leads past it to a label. -/
theorem reached_edge {i : Nat} (hi : given.Reached i)
    (hlabel : i = w.prologue.length ∨ ∀ l, given.insns[i]? ≠ some (.label l)) : woven.Reached (w.edge i) := by
  rcases hlabel with rfl | hlabel
  · rw [Parts.edge_prologue]
    exact hw.reached_prologue htidy.labels henters
  · cases hi with
    | entry => exact .entry
    | @step j _ hj hleads =>
      cases hleads with
      | next hinsn hon hjk =>
        subst hjk
        have hj' := hw.reached_spot hne htidy.labels hj (List.getElem?_eq_some_iff.1 hinsn).1
        exact hw.reached_edge_of_spot hne htidy.labels hinsn hon hj'
      | jump _ _ hplace => exact absurd hplace.1 (hlabel _)
      | thrown _ _ _ _ hplace => exact absurd hplace.1 (hlabel _)

/-- Control that reaches an instruction in the method comes to all of its piece. -/
theorem reached_piece {i k : Nat} (hi : given.Reached i) (hk : w.InPiece i k) : woven.Reached k := by
  have hlt : i < given.insns.length := hw.pieces_length ▸ hk.lt
  obtain ⟨g, hg⟩ := hw.piece_of_lt hlt
  have hown := hw.insn_of_piece hg
  have hspot := hw.reached_spot hne htidy.labels hi hlt
  obtain ⟨hfront, hback⟩ := hw.piece_visits hne htidy.labels woven.conveys_reached hg hspot
  obtain ⟨hatFront, hatBack⟩ := hw.has_around hne htidy.labels hg
  have hspotEq := Parts.spot_eq hg
  have hnext := Parts.edge_next hg
  rcases Nat.lt_trichotomy k (w.spot i) with hbefore | rfl | hbehind
  · have hedge : woven.Reached (w.edge i) := by
      refine hw.reached_edge hne htidy henters hi ?_
      by_cases hentry : i = w.prologue.length
      · exact .inl hentry
      refine .inr fun l hl => ?_
      have hmark := hw.piece_real hg hentry (by
        intro hnil
        rw [hnil, List.length_nil, Nat.add_zero] at hspotEq
        exact absurd hk.1 (Nat.not_le_of_lt (hspotEq ▸ hbefore)))
      rw [Option.some.inj (hown.symm.trans hl)] at hmark
      cases hmark
    obtain ⟨n, rfl⟩ := Nat.exists_eq_add_of_le hk.1
    exact hfront woven.conveys_reached _ hatFront hedge n (by omega)
  · exact hspot
  · have hon := hw.piece_onward hg htidy.standard (by
      intro hnil
      rw [hnil, List.length_nil, Nat.add_zero] at hnext
      exact absurd hk.2 (Nat.not_lt_of_le (hnext ▸ hbehind)))
    have hfirst : woven.Reached (w.spot i + 1) := hspot.step (.next (hw.insn_at_spot hne hown) hon rfl)
    obtain ⟨n, rfl⟩ := Nat.exists_eq_add_of_le (Nat.succ_le_of_lt hbehind)
    exact hback woven.conveys_reached _ hatBack hfirst n (by have := hk.2; omega)

end Forward

end WovenFrom

end Weave

end Interpose
