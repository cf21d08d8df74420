import Interpose.Proofs.Weave.Elements
import Interpose.Proofs.Weave.Visits
/-!
# What woven code says

Without dead code, woven code says up to the entry point what the method says, and from there on the
report of the start, the segments of the live instructions and the handler of the method
(`WovenFrom.spoken_parts`).
-/

namespace Interpose

/-! ## Source lines -/

namespace Body.Tidy

variable {b : Body} (hb : b.Tidy)
include hb

omit hb in
/-- Control comes to what stands behind a source line from there, unless it is a label. -/
theorem reached_before {i : Nat} {x : Insn} (hx : b.insns[i + 1]? = some x) (hlabel : ∀ l, x ≠ .label l)
    (hreached : b.Reached (i + 1)) : b.Reached i := by
  cases hreached with
  | step hj hleads =>
    cases hleads with
    | next _ _ hij =>
      cases Nat.succ.inj hij
      exact hj
    | jump _ _ hplace => exact absurd (Option.some.inj (hx.symm.trans hplace.1)) (hlabel _)
    | thrown _ _ _ _ hplace => exact absurd (Option.some.inj (hx.symm.trans hplace.1)) (hlabel _)

/-- What is live is reached, if it is no label. -/
theorem live_iff_reached {i : Nat} {insn : Insn} (hi : b.insns[i]? = some insn)
    (hlabel : ∀ l, insn ≠ .label l) :
    b.Live i ↔ b.Reached i := by
  cases hreal : insn.isPseudo with
  | false => exact Body.live_iff_reached hi hreal
  | true =>
    cases insn with
    | label l => exact absurd rfl (hlabel l)
    | line n =>
      obtain ⟨x, y, hix, hy, hyreal, hlines⟩ := hb.lines_end hi
      refine ⟨fun hlive => ?_, fun hreached => Body.live_of_reached hreached (Nat.le_of_lt hix) hy hyreal⟩
      have hx : b.Reached x := (Body.live_iff (Nat.le_of_lt hix) hy hyreal fun k z hlo hhi hz => by
        obtain ⟨n, hn⟩ := hlines k hlo hhi
        cases hn.symm.trans hz
        rfl).1 hlive
      have back : ∀ m, m ≤ x - i → b.Reached (x - m) := by
        intro m hm
        induction m with
        | zero => exact hx
        | succ m ih =>
          have hstep : x - m = x - (m + 1) + 1 := by omega
          have hnext : ∃ z, b.insns[x - (m + 1) + 1]? = some z ∧ ∀ l, z ≠ .label l := by
            rw [← hstep]
            rcases Nat.eq_zero_or_pos m with rfl | hpos
            · exact ⟨y, hy, fun l he => by rw [he] at hyreal; cases hyreal⟩
            · obtain ⟨n, hn⟩ := hlines (x - m) (by omega) (by omega)
              exact ⟨_, hn, fun _ he => nomatch he⟩
          obtain ⟨z, hz, hzlabel⟩ := hnext
          exact reached_before hz hzlabel (hstep ▸ ih (by omega))
      have := back (x - i) (Nat.le_refl _)
      rwa [show x - (x - i) = i by omega] at this
    | _ => cases hreal

end Body.Tidy

namespace Template

/-- No template is a mark of a source line. -/
def Lineless (ts : List Template) : Prop :=
  ∀ t ∈ ts, ∀ n, t ≠ .plain (.line n)

theorem Lineless.append {ts ts' : List Template} (h : Lineless ts) (h' : Lineless ts') : Lineless (ts ++ ts') :=
  fun t ht => (List.mem_append.1 ht).elim (h t) (h' t)

theorem lineless_of_calm {ts : List Template} (h : ∀ t ∈ ts, t.calm = true) : Lineless ts := by
  rintro t ht n rfl
  cases h _ ht

theorem Dispatches.lineless {s : WeaveSite} {k : EventKind} {ts : List Template} (h : Dispatches s k ts) :
    Lineless (Marker.around ts) := by
  obtain ⟨u, v, rfl, hu, hv⟩ := h.parts
  have hcall : Lineless [Block.invocation k] := fun t ht n he => by
    rw [List.mem_singleton.1 ht] at he
    cases he
  have hmarks : Lineless Marker.opening ∧ Lineless Marker.closing :=
    ⟨lineless_of_calm (by decide), lineless_of_calm (by decide)⟩
  exact hmarks.1.append (((lineless_of_calm hu).append ((lineless_of_calm (s.operands_harmless k).calm).append
    (hcall.append (lineless_of_calm hv)))).append hmarks.2)

theorem lineless_nil : Lineless [] := fun _ ht => nomatch ht

theorem Lineless.cons {t : Template} {ts : List Template} (ht : ∀ n, t ≠ .plain (.line n)) (h : Lineless ts) :
    Lineless (t :: ts) :=
  fun x hx => (List.mem_cons.1 hx).elim (fun he => he ▸ ht) (h x)

end Template

open Template

namespace WeaveSite

variable (s : WeaveSite)

theorem lineless_of_report {k : EventKind} {ts : List Template}
    (h : ∃ us, ts = Marker.around us ∧ Dispatches s k us) : Lineless ts := by
  obtain ⟨us, rfl, hus⟩ := h
  exact hus.lineless

theorem callReturnReport_lineless (l : Label) : Lineless (s.callReturnReport l) := by
  cases hk : s.wants .callReturn with
  | true => exact s.lineless_of_report (s.callReturnReport_dispatches hk l)
  | false =>
    rw [callReturnReport, if_neg (by simp [hk])]
    exact lineless_nil

theorem guardedSegment_lineless (i : Insn) (l : Label) :
    Lineless (s.guardedSegment i l).front ∧ Lineless (s.guardedSegment i l).back := by
  unfold guardedSegment
  split
  · refine ⟨lineless_nil.cons (by simp [place]), .cons (by simp [place]) ((s.callReturnReport_lineless _).append
      (.cons (by simp [jump]) (.cons (by simp [place]) ?_)))⟩
    exact (s.lineless_of_report (s.callThrowsReport_dispatches _)).append
      (.cons (by simp [op]) (.cons (by simp [place]) lineless_nil))
  · exact ⟨lineless_nil, s.callReturnReport_lineless l⟩

/-- No source line is marked around a copy. -/
theorem segment_lineless (p : Position) (l : Label) (m : MemberRef) (i : Insn) :
    Lineless (s.segment p l m i).front ∧ Lineless (s.segment p l m i).back := by
  cases i with
  | line n =>
    unfold segment
    simp only
    split
    · exact ⟨lineless_nil, s.lineless_of_report (s.lineReport_dispatches n l)⟩
    · exact ⟨lineless_nil, lineless_nil⟩
  | simple op =>
    unfold segment
    simp only
    split
    · exact ⟨s.lineless_of_report (s.returnReport_dispatches l), lineless_nil⟩
    · exact ⟨lineless_nil, lineless_nil⟩
  | method op index =>
    unfold segment callSegment
    simp only
    split
    · split
      · obtain ⟨hfront, hback⟩ := s.guardedSegment_lineless (.method op index) (l + 2)
        exact ⟨(s.lineless_of_report (s.callBeforeReport_dispatches _ _ _)).append hfront, hback⟩
      · exact s.guardedSegment_lineless _ l
    · exact ⟨lineless_nil, lineless_nil⟩
  | _ => exact ⟨lineless_nil, lineless_nil⟩

open Element

variable {s} {l : Label} {room : UInt16 × UInt16} {first rest : List Insn} {w : Parts}

theorem Rebuilt.before_composes (h : s.Rebuilt l room first rest w) :
    Composes s.context (Element.wanted s.plan .before) w.before := by
  rw [h.before]
  exact s.composes_wanted (fun hk => by rw [if_pos hk]; exact s.startReport_dispatches _ _)
    fun hk => by rw [if_neg (by simp [hk])]

theorem Rebuilt.before_lineless (h : s.Rebuilt l room first rest w) : Lineless w.before := by
  rw [h.before]
  split
  · exact s.lineless_of_report (s.startReport_dispatches _ _)
  · exact lineless_nil

end WeaveSite

namespace WeaveSite

open Element

variable {s : WeaveSite} {l : Label} {room : UInt16 × UInt16} {first rest : List Insn} {w : Parts}

theorem Rebuilt.finish_composes (h : s.Rebuilt l room first rest w) :
    Composes s.context (Element.left s.plan) w.finish := by
  rw [h.finish, Element.left]
  cases hk : s.wants .throws with
  | true =>
    obtain ⟨us, hus, hdispatches⟩ := s.throwsReport_dispatches
      (Emission.takeLocal^[s.ifWanted .before 1] room).1 (w.handler + 1)
    rw [if_pos (show s.plan.kinds.has .throws = true from hk), if_pos rfl, hus]
    exact .place _ (.report hdispatches (.link (.inr (.inr ⟨_, rfl⟩)) (.link (.inr (.inl rfl)) .nil)))
  | false =>
    have hk : s.plan.kinds.has .throws = false := hk
    rw [if_neg (by rw [hk]; decide), if_neg (by decide)]
    exact .nil

theorem Rebuilt.finish_lineless (h : s.Rebuilt l room first rest w) : Lineless w.finish := by
  rw [h.finish]
  split
  · obtain ⟨us, hus, hdispatches⟩ := s.throwsReport_dispatches
      (Emission.takeLocal^[s.ifWanted .before 1] room).1 (w.handler + 1)
    rw [hus]
    exact .cons (by simp [place]) (hdispatches.lineless.append
      (.cons (by simp [var]) (.cons (by simp [op]) lineless_nil)))
  · exact lineless_nil

end WeaveSite

/-! ## Places of segments -/

/-- Lists one behind the other are said one behind the other. -/
theorem Body.spoken_flatten {b : Body} {a : Nat} {zss : List (List Insn)} {i : Nat}
    {f : List Insn → Nat → List Insn}
    (h : ∀ (j : Nat) (zs : List Insn), zss[j]? = some zs →
      b.spoken (a + (zss.take j).flatten.length) zs = f zs (i + j)) :
    b.spoken a zss.flatten = (zss.zipIdx i).flatMap fun x => f x.1 x.2 := by
  induction zss generalizing a i with
  | nil => rfl
  | cons zs zss ih =>
    rw [List.flatten_cons, Body.spoken_append, List.zipIdx_cons, List.flatMap_cons]
    refine congrArg₂ _ (h 0 zs rfl) ?_
    refine ih fun j zs' hj => ?_
    have := h (j + 1) zs' hj
    rw [List.take_succ_cons, List.flatten_cons, List.length_append] at this
    rw [Nat.add_assoc a, this, Nat.add_assoc i, Nat.add_comm 1 j]

/-- What is said depends on what is live alone. -/
theorem Body.spoken_congr {b b' : Body} {i : Nat} {insns : List Insn}
    (h : ∀ n insn, insns[n]? = some insn → (∀ l, insn ≠ .label l) → (b.Live (i + n) ↔ b'.Live (i + n))) :
    b.spoken i insns = b'.spoken i insns := by
  refine List.flatMap_congr fun x hx => ?_
  obtain ⟨n, hn⟩ := List.getElem?_of_mem hx
  rw [List.getElem?_zipIdx, Option.map_eq_some_iff] at hn
  obtain ⟨insn, hinsn, rfl⟩ := hn
  by_cases hlabel : ∃ l, insn = .label l
  · obtain ⟨l, rfl⟩ := hlabel
    simp [Insn.wording]
  · have hiff := h n insn hinsn fun l he => hlabel ⟨l, he⟩
    by_cases hb : b.Live (i + n)
    · rw [if_pos hb, if_pos (hiff.1 hb)]
    · rw [if_neg hb, if_neg fun hb' => hb (hiff.2 hb')]

/-- A label says nothing. -/
theorem Body.spoken_label {b : Body} {i : Nat} {l : Label} {insns : List Insn} :
    b.spoken i (.label l :: insns) = b.spoken (i + 1) insns := by
  by_cases h : b.Live i
  · exact Body.spoken_cons h
  · exact Body.spoken_cons_dead h

/-- What control comes to is said, if no source lines are marked in it. -/
theorem Body.spoken_of_reached {b : Body} {i : Nat} {insns : List Insn}
    (hat : ∀ n insn, insns[n]? = some insn → b.insns[i + n]? = some insn)
    (hreached : ∀ n < insns.length, b.Reached (i + n)) (hlines : ∀ x ∈ insns, ∀ n, x ≠ .line n) :
    b.spoken i insns = wording insns := by
  refine Body.spoken_eq_wording fun n insn hn hlabel => ?_
  have hreal : insn.isPseudo = false := by
    cases insn with
    | label l => exact absurd rfl (hlabel l)
    | line m => exact absurd rfl (hlines _ (List.mem_of_getElem? hn) m)
    | _ => rfl
  exact (Body.live_iff_reached (hat n insn hn) hreal).2 (hreached n (List.getElem?_eq_some_iff.1 hn).1)

theorem lines_of_lineless {q : Pool} {ts : List Template} {xs : List Insn} (hxs : SettleAll q ts xs)
    (h : Lineless ts) : ∀ x ∈ xs, ∀ n, x ≠ .line n := by
  rintro x hx n rfl
  obtain ⟨k, hk⟩ := List.getElem?_of_mem hx
  obtain ⟨t, ht, hsettles⟩ := forall₂_getElem? hxs.flip hk
  have hsettles : t.Settles q (.line n) := hsettles
  cases hsettles
  exact h _ (List.mem_of_getElem? ht) n rfl

/-- What settles segments comes in as many parts. -/
theorem settleAll_segments {q : Pool} {gs : List Segment} {zs : List Insn}
    (h : SettleAll q (gs.flatMap Segment.templates) zs) :
    ∃ zss, zs = zss.flatten ∧ List.Forall₂ (fun g z => SettleAll q (Segment.templates g) z) gs zss := by
  induction gs generalizing zs with
  | nil =>
    cases h
    exact ⟨[], rfl, .nil⟩
  | cons g gs ih =>
    rw [List.flatMap_cons] at h
    obtain ⟨z, zs, rfl, hz, hzs⟩ := forall₂_append_left h
    obtain ⟨zss, rfl, hzss⟩ := ih hzs
    exact ⟨z :: zss, rfl, .cons hz hzss⟩

/-- The parts start where the segments start. -/
theorem length_settled {q : Pool} {gs : List Segment} {zss : List (List Insn)}
    (h : List.Forall₂ (fun g z => SettleAll q (Segment.templates g) z) gs zss) (j : Nat) :
    (zss.take j).flatten.length = pieceStart Segment.templates gs j := by
  induction h generalizing j with
  | nil => simp [pieceStart]
  | cons hg _ ih =>
    cases j with
    | zero => rfl
    | succ j =>
      rw [List.take_succ_cons, List.flatten_cons, List.length_append, ih, ← hg.length_eq]
      simp [pieceStart]

namespace WeaveSite

variable {w : Parts}

/-- The code up to the entry point stays where it is. -/
theorem Parts.edge_of_le {i : Nat} (hi : i ≤ w.prologue.length) : w.edge i = i := by
  rw [Parts.edge, Parts.pieces, pieceStart, List.take_append, List.length_map, Nat.sub_eq_zero_of_le hi,
    List.take_zero, List.append_nil, ← List.map_take, templates_bare, List.length_map, List.length_take,
    Nat.min_eq_left hi]

/-- The piece of an instruction behind the entry point ends with its segment. -/
theorem Parts.edge_segment {j : Nat} (hj : j < w.segments.length) : w.edge (w.prologue.length + (j + 1)) =
    w.entrance + 1 + pieceStart Segment.templates w.segments (j + 1) := by
  rw [Parts.edge, Parts.pieces, Parts.entrance, pieceStart, pieceStart, List.take_append,
    List.length_map, Nat.add_sub_cancel_left, List.take_of_length_le (by simp), List.flatMap_append,
    List.length_append, templates_bare, List.length_map]
  cases hsegments : w.segments with
  | nil =>
    rw [hsegments] at hj
    exact absurd hj (Nat.not_lt_zero _)
  | cons g gs =>
    simp only [List.modifyHead_cons, List.take_succ_cons, List.flatMap_cons, List.length_append,
      Segment.templates, Segment.behind, Parts.opening, List.length_cons, List.length_nil]
    omega

/-- What is in the segment of an instruction behind the entry point is in its piece. -/
theorem Parts.inPiece_segment {j m : Nat} {g : Segment} (hg : w.segments[j]? = some g)
    (hm : m < g.templates.length) :
    w.InPiece (w.prologue.length + j) (w.entrance + 1 + pieceStart Segment.templates w.segments j + m) := by
  have hj := (List.getElem?_eq_some_iff.1 hg).1
  refine ⟨?_, ?_⟩
  · cases j with
    | zero =>
      rw [Nat.add_zero, Parts.edge_prologue, Parts.entrance]
      omega
    | succ j =>
      rw [Parts.edge_segment (Nat.lt_of_succ_lt hj)]
      omega
  · rw [Nat.add_assoc w.prologue.length, Parts.edge_segment hj, pieceStart_succ hg]
    omega

end WeaveSite

namespace Weave

open WeaveSite

namespace WovenFrom

variable {s : WeaveSite} {q : Pool} {given woven : Body} {entry : Nat} {w : Parts}

section Lines

variable (hw : WovenFrom s q given entry w woven)
include hw

theorem piece_lineless {i : Nat} {g : Segment} (hg : w.pieces[i]? = some g) :
    Lineless g.front ∧ Lineless g.back := by
  obtain ⟨-, ⟨-, he⟩ | ⟨-, pos, l, m, -, he⟩⟩ := hw.piece_cases hg
  · rw [he]
    exact ⟨lineless_nil, lineless_nil⟩
  · obtain ⟨hfront, hback⟩ := s.segment_lineless pos l m g.insn
    rw [he]
    refine ⟨?_, hback⟩
    change Lineless ((if i = w.prologue.length then w.opening else []) ++ _)
    split
    · exact (hw.rebuilt.before_lineless.append (lineless_nil.cons (by simp [place]))).append hfront
    · exact hfront

variable (hne : w.segments ≠ [])
include hne

/-- A mark of a source line in woven code is a copy. -/
theorem spot_of_line {k : Nat} {n : UInt16} (hk : woven.insns[k]? = some (.line n)) :
    ∃ i, k = w.spot i ∧ given.insns[i]? = some (.line n) := by
  obtain ⟨t, ht, hsettles⟩ := hw.code_of_insn hk
  have hplain : t = .plain (.line n) := by
    cases hsettles
    rfl
  subst hplain
  rcases Parts.place_cases hne ht with ⟨i, g, hg, -, ⟨-, hmem⟩ | ⟨rfl, hinsn⟩ | ⟨-, hmem⟩⟩ | ⟨-, hplace | hmem⟩
  · exact absurd rfl ((hw.piece_lineless hg).1 _ hmem n)
  · injection hinsn with hinsn
    exact ⟨i, rfl, hinsn ▸ hw.insn_of_piece hg⟩
  · exact absurd rfl ((hw.piece_lineless hg).2 _ hmem n)
  · cases hplace
  · exact absurd rfl (hw.rebuilt.finish_lineless _ hmem n)

variable (htidy : given.Tidy)
include htidy

/-- Every mark of a source line in woven code leads to something. -/
theorem led : Led woven.insns := by
  refine led_of_lead fun k n hk => ?_
  obtain ⟨i, rfl, hi⟩ := hw.spot_of_line hne hk
  obtain ⟨x, y, hix, hy, hreal, -⟩ := htidy.lines_end hi
  exact ⟨w.spot x, y, Parts.spot_lt hix (hw.pieces_length ▸ (List.getElem?_eq_some_iff.1 hy).1),
    hw.insn_at_spot hne hy, hreal⟩

end Lines

section Said

variable (hw : WovenFrom s q given entry w woven) (hne : w.segments ≠ []) (htidy : given.Tidy)
  (henters : Enters given entry)
  (hbefore : ∀ i insn, entry = i + 1 → given.insns[i]? = some insn → insn.isPseudo = false)
include hw hne htidy henters hbefore

/-- The piece of an instruction is live if the instruction is. -/
theorem live_iff {i k : Nat} {x insn : Insn} (hi : given.insns[i]? = some x) (hx : ∀ l, x ≠ .label l)
    (hin : w.InPiece i k) (hk : woven.insns[k]? = some insn) (hinsn : ∀ l, insn ≠ .label l) :
    woven.Live k ↔ given.Live i := by
  have hpiece {j z : Nat} (hz : w.InPiece z j) : woven.Reached j ↔ given.Reached z :=
    ⟨fun h => hw.reached_of_piece hne htidy henters hbefore h hz,
      fun h => hw.reached_piece hne htidy henters h hz⟩
  rw [htidy.live_iff_reached hi hx]
  cases hreal : insn.isPseudo with
  | false => rw [Body.live_iff_reached hk hreal, hpiece hin]
  | true =>
    obtain ⟨n, rfl⟩ : ∃ n, insn = .line n := by
      cases insn with
      | label l => exact absurd rfl (hinsn l)
      | line n => exact ⟨n, rfl⟩
      | _ => cases hreal
    obtain ⟨i', rfl, hi'⟩ := hw.spot_of_line hne hk
    obtain ⟨g, hg⟩ := hw.piece_of_lt (List.getElem?_eq_some_iff.1 hi').1
    obtain rfl : i' = i := (Parts.inPiece_spot hg).unique hin
    obtain ⟨e, y, hie, hy, hyreal, hlines⟩ := htidy.lines_end hi'
    have hlt : e < w.pieces.length := hw.pieces_length ▸ (List.getElem?_eq_some_iff.1 hy).1
    obtain ⟨ge, hge⟩ := hw.piece_of_lt (List.getElem?_eq_some_iff.1 hy).1
    have hey := hw.insn_at_spot hne hy
    have hbefore := Parts.spot_lt hie hlt
    refine ⟨fun hlive => ?_, fun hreached => Body.live_of_reached ((hpiece hin).2 hreached)
      (Nat.le_of_lt hbefore) hey
      hyreal⟩
    obtain ⟨j, z, hij, hj, hjreal, hmarks, hreached⟩ := hlive
    have hje : j ≤ w.spot e := by
      by_contra hgt
      rw [hmarks _ y (Nat.le_of_lt hbefore) (Nat.lt_of_not_le hgt) hey] at hyreal
      cases hyreal
    obtain ⟨t, ht, -⟩ := hw.code_of_insn hj
    have hend := Parts.spot_lt_edge hge (Nat.lt_add_one e)
    rcases Parts.place_cases hne ht with ⟨c, gc, hgc, hc, -⟩ | ⟨hgt, -⟩
    · have hce : c ≤ e := by
        by_contra hgt
        have := Parts.edge_mono (w := w) (show e + 1 ≤ c by omega)
        have := hc.1
        omega
      have hic : i' ≤ c := by
        by_contra hgt
        have := Parts.edge_mono (w := w) (show c + 1 ≤ i' by omega)
        have := hc.2
        have := w.edge_le_spot i'
        omega
      have hlive := Body.live_of_reached ((hpiece hc).1 hreached) hce hy hyreal
      have hmarks : ∀ lo, i' ≤ lo → ∀ k x, lo ≤ k → k < e → given.insns[k]? = some x → x.isPseudo = true := by
        intro lo hlo k x hk hke hkx
        obtain ⟨n, hn⟩ := hlines k (Nat.le_trans hlo hk) hke
        cases hn.symm.trans hkx
        rfl
      rw [Body.live_iff hce hy hyreal (hmarks c hic)] at hlive
      exact (htidy.live_iff_reached hi hx).1 ((Body.live_iff (Nat.le_of_lt hie) hy hyreal
        (hmarks i' (Nat.le_refl _))).2 hlive)
    · have := Parts.edge_mono (w := w) (show e + 1 ≤ w.pieces.length from hlt)
      omega

end Said

section Said

open Classical

variable (hw : WovenFrom s q given entry w woven)
include hw

/-- The code of a woven method part by part. -/
theorem insns_parts : ∃ bs zss fs,
    woven.insns = w.prologue ++ (bs ++ (.label w.start :: (zss.flatten ++ .label (w.start + 1) :: fs))) ∧
    SettleAll q w.before bs ∧ List.Forall₂ (fun g z => SettleAll q (Segment.templates g) z) w.segments zss ∧
    SettleAll q w.finish fs := by
  have h := hw.insns
  rw [WeaveSite.Parts.code] at h
  obtain ⟨ps, xs, hinsns, hps, h⟩ := forall₂_append_left h
  obtain ⟨bs, xs, rfl, hbs, h⟩ := forall₂_append_left h
  obtain ⟨_, xs, hstart, hrest, rfl⟩ := List.forall₂_cons_left_iff.1 h
  obtain ⟨zs, xs, rfl, hzs, hend⟩ := forall₂_append_left hrest
  obtain ⟨_, fs, hstop, hfs, rfl⟩ := List.forall₂_cons_left_iff.1 hend
  cases hstart
  cases hstop
  obtain ⟨zss, rfl, hzss⟩ := settleAll_segments hzs
  rw [forall₂_map_plain hps] at hinsns
  exact ⟨bs, zss, fs, hinsns, hbs, hzss, hfs⟩

/-- Woven code consists of instructions that a reader can answer. -/
theorem standard (hgiven : ∀ insn ∈ given.insns, insn.Standard) : ∀ insn ∈ woven.insns, insn.Standard := by
  obtain ⟨bs, zss, fs, hinsns, hbs, hzss, hfs⟩ := hw.insns_parts
  rw [hinsns]
  simp only [List.forall_mem_append, List.forall_mem_cons]
  refine ⟨fun x hx => ?_,
    hw.rebuilt.before_composes.standard (fun x hx => absurd hx (Element.not_own_wanted _ _ x)) hbs, trivial,
    fun x hx => ?_, trivial,
    hw.rebuilt.finish_composes.standard (fun x hx => absurd hx (Element.not_own_left _ x)) hfs⟩
  · rw [hw.rebuilt.prologue] at hx
    exact hgiven x (List.mem_of_mem_take hx)
  · obtain ⟨zs, hzs, hin⟩ := List.mem_flatten.1 hx
    clear hx
    obtain ⟨j, hj⟩ := List.getElem?_of_mem hzs
    obtain ⟨g, hg, hsettles⟩ := forall₂_getElem? hzss.flip hj
    obtain ⟨hinsn, pos, l, m, -, he⟩ := hw.rebuilt.segments.get hg
    rw [List.getElem?_drop] at hinsn
    have hown := hgiven _ (List.mem_of_getElem? hinsn)
    have hsettles : SettleAll q g.templates zs := hsettles
    have bare (hbare : g = { insn := g.insn }) : x.Standard := by
      rw [hbare] at hsettles
      cases hsettles with
      | cons hz hrest =>
        cases hz
        cases hrest
        rwa [List.mem_singleton.1 hin]
    cases hwording : g.insn.wording with
    | none =>
      refine bare (he.trans (s.segment_plain pos l m ?_))
      cases hi : g.insn <;> rw [hi] at hwording <;> first | rfl | cases hwording
    | some y =>
      cases hinside : (pos.scan.observe g.insn).inside with
      | true => exact bare (he.trans (s.segment_inside pos l m g.insn hinside))
      | false =>
        rw [he] at hsettles
        refine (s.segment_composes pos l m hwording hinside).standard (fun z hz => ?_) hsettles x hin
        rw [Element.own_of_woven hz]
        exact (Insn.standard_wording hwording).2 hown

variable (hne : w.segments ≠ [])
include hne

theorem length_prologue : w.prologue.length = entry := by
  have hlength := hw.rebuilt.segments.length_eq
  have hpos := List.length_pos_iff.2 hne
  rw [List.length_drop] at hlength
  rw [hw.rebuilt.prologue, List.length_take]
  omega

variable (htidy : given.Tidy) (henters : Enters given entry)
  (hbefore : ∀ i insn, entry = i + 1 → given.insns[i]? = some insn → insn.isPseudo = false)
include htidy henters hbefore

/-- Up to the entry point woven code says what the method says. -/
theorem spoken_prologue : woven.spoken 0 w.prologue = given.spoken 0 w.prologue := by
  obtain ⟨bs, zss, fs, hinsns, -⟩ := hw.insns_parts
  refine Body.spoken_congr fun n insn hn hlabel => ?_
  have hlt := (List.getElem?_eq_some_iff.1 hn).1
  rw [Nat.zero_add]
  refine hw.live_iff hne htidy henters hbefore (x := insn) ?_ hlabel ⟨?_, ?_⟩ ?_ hlabel
  · rw [hw.rebuilt.prologue, List.getElem?_take] at hn
    split at hn
    · exact hn
    · cases hn
  · exact Nat.le_of_eq (Parts.edge_of_le (Nat.le_of_lt hlt))
  · rw [Parts.edge_of_le hlt]
    exact Nat.lt_succ_self n
  · rw [hinsns, List.getElem?_append_left hlt, hn]

/-- A segment says all or nothing. -/
theorem spoken_segment {j : Nat} {g : Segment} {zs : List Insn} (hg : w.segments[j]? = some g)
    (hzs : SettleAll q g.templates zs)
    (hat : ∀ n insn, zs[n]? = some insn →
      woven.insns[w.entrance + 1 + pieceStart Segment.templates w.segments j + n]? = some insn) :
    woven.spoken (w.entrance + 1 + pieceStart Segment.templates w.segments j) zs =
      if given.Live (entry + j) then wording zs else [] := by
  obtain ⟨hinsn, pos, l, m, -, he⟩ := hw.rebuilt.segments.get hg
  rw [List.getElem?_drop] at hinsn
  have hin {n : Nat} (hn : n < zs.length) : w.InPiece (entry + j)
      (w.entrance + 1 + pieceStart Segment.templates w.segments j + n) := by
    have := Parts.inPiece_segment hg (m := n) (by rwa [hzs.length_eq])
    rwa [hw.length_prologue hne] at this
  by_cases hlabel : ∃ l, g.insn = .label l
  · obtain ⟨l', hl'⟩ := hlabel
    rw [hl', segment_label] at he
    rw [he] at hzs
    cases hzs with
    | cons hz hzs =>
      cases hz
      cases hzs
      rw [show wording [Insn.label l'] = [] from rfl, ite_self]
      exact Body.spoken_eq_nil fun n insn hn hlabel => by
        cases n with
        | zero => exact absurd (Option.some.inj hn).symm (hlabel l')
        | succ n => cases hn
  · have hx : ∀ l, g.insn ≠ .label l := fun l hl => hlabel ⟨l, hl⟩
    have hiff {n : Nat} {insn : Insn} (hn : zs[n]? = some insn) (hinsn' : ∀ l, insn ≠ .label l) :=
      hw.live_iff hne htidy henters hbefore hinsn hx (hin (List.getElem?_eq_some_iff.1 hn).1)
      (hat n insn hn) hinsn'
    by_cases hlive : given.Live (entry + j)
    · rw [if_pos hlive]
      exact Body.spoken_eq_wording fun n insn hn hinsn' => (hiff hn hinsn').2 hlive
    · rw [if_neg hlive]
      exact Body.spoken_eq_nil fun n insn hn hinsn' => fun h => hlive ((hiff hn hinsn').1 h)

/-- Behind the entry point woven code says the report of the start, the segments of live
instructions and the handler of the method. -/
theorem spoken_parts {context : MethodContext} {p : Pool} {h : Hierarchy} {m : Analysis.Method}
    (hof : m.Of woven context p h) : ∃ bs zss fs,
    SettleAll q w.before bs ∧ List.Forall₂ (fun g z => SettleAll q (Segment.templates g) z) w.segments zss ∧
    SettleAll q w.finish fs ∧
    woven.spoken 0 (woven.insns.take entry) = given.spoken 0 (given.insns.take entry) ∧
    woven.spoken entry (woven.insns.drop entry) = wording bs ++
      ((zss.zipIdx entry).flatMap (fun x => if given.Live x.2 then wording x.1 else []) ++ wording fs) := by
  obtain ⟨bs, zss, fs, hinsns, hbs, hzss, hfs⟩ := hw.insns_parts
  have hlength := hw.length_prologue hne
  have hprologue : woven.insns.take entry = w.prologue := by
    rw [hinsns, ← hlength, List.take_left]
  have hrest : woven.insns.drop entry =
      bs ++ (.label w.start :: (zss.flatten ++ .label (w.start + 1) :: fs)) := by
    rw [hinsns, ← hlength, List.drop_left]
  have hentrance : w.entrance = entry + bs.length := by
    rw [WeaveSite.Parts.entrance, hlength, hbs.length_eq]
  have hexit : w.exit = w.entrance + 1 + zss.flatten.length := by
    have := length_settled hzss w.segments.length
    rw [List.take_of_length_le (Nat.le_of_eq hzss.length_eq.symm), pieceStart_length] at this
    rw [WeaveSite.Parts.exit, this]
  have hat {n k : Nat} {insn : Insn} {zs : List Insn} (hk : zs <+: woven.insns.drop k)
      (hn : zs[n]? = some insn) :
      woven.insns[k + n]? = some insn := by
    obtain ⟨rest, hrest⟩ := hk
    rw [← List.getElem?_drop, ← hrest, List.getElem?_append_left (List.getElem?_eq_some_iff.1 hn).1, hn]
  have hsegments : woven.insns.drop (w.entrance + 1) = zss.flatten ++ .label (w.start + 1) :: fs := by
    rw [hentrance, Nat.add_assoc, ← List.drop_drop, hrest, ← List.drop_drop, List.drop_left]
    rfl
  refine ⟨bs, zss, fs, hbs, hzss, hfs, ?_, ?_⟩
  · rw [hprologue, hw.spoken_prologue hne htidy henters hbefore, hw.rebuilt.prologue]
  rw [hrest, Body.spoken_append, Body.spoken_label, Body.spoken_append, Body.spoken_label]
  refine congrArg₂ _ ?_ (congrArg₂ _ ?_ ?_)
  · refine Body.spoken_of_reached (fun n insn hn => hat (hrest ▸ List.prefix_append _ _) hn) (fun n hn => ?_)
      (lines_of_lineless hbs hw.rebuilt.before_lineless)
    have hreached := hw.visits_before htidy.labels woven.conveys_reached _ (hw.has_rest htidy.labels).append_left
      (hw.reached_prologue htidy.labels henters) n (hbs.length_eq ▸ hn)
    rwa [hlength] at hreached
  · rw [← hentrance]
    refine Body.spoken_flatten (f := fun zs i => if given.Live i then wording zs else []) fun j zs hj => ?_
    obtain ⟨g, hg, hzs⟩ := forall₂_getElem? hzss.flip hj
    rw [length_settled hzss]
    refine hw.spoken_segment hne htidy henters hbefore hg hzs fun n insn hn => hat ?_ hn
    rw [← length_settled hzss, ← List.drop_drop, hsegments]
    obtain ⟨front, back, rfl, hfront⟩ := List.getElem?_eq_some_iff.1 hj |>.elim fun hlt he =>
      (⟨zss.take j, zss.drop (j + 1),
        by rw [← he, ← List.drop_eq_getElem_cons hlt, List.take_append_drop], by simp; omega⟩ :
        ∃ front back, zss = front ++ zs :: back ∧ front.length = j)
    rw [← hfront, List.take_left, List.flatten_append, List.append_assoc, List.drop_left, List.flatten_cons,
      List.append_assoc]
    exact List.prefix_append _ _
  · rw [← hentrance, ← hexit]
    refine Body.spoken_of_reached (fun n insn hn => hat ?_ hn) (fun n hn => ?_)
      (lines_of_lineless hfs hw.rebuilt.finish_lineless)
    · rw [hexit, ← List.drop_drop, ← List.drop_drop, hsegments, List.drop_left]
      exact List.prefix_rfl
    · exact hw.conveyed_own htidy.labels woven.conveys_reached hof
        (hw.reached_entrance htidy.labels henters) (hfs.length_eq ▸ hn)

end Said

end WovenFrom

end Weave

end Interpose
