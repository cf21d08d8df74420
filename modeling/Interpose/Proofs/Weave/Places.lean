import Interpose.Proofs.Code.Labels
import Interpose.Proofs.Weave.Shape
import Interpose.Proofs.Pieces
/-!
# Places in woven code

Where the segments of woven code stand, and the labels in them. A label of the method that is woven
has its last place at the start of the segment of the instruction that places it
(`WovenFrom.lastPlace`), and a label of a report is placed once (`WovenFrom.lastPlace_fresh`).
-/

namespace Interpose

/-! ## Labels of reports -/

namespace Template

def placed : Template → Option Label
  | plain i => i.placed
  | _ => none

/-- The labels from a number on that templates place, in order. -/
def freshLabels (bound : Nat) (ts : List Template) : List Nat :=
  ts.filterMap fun t => t.placed.filter (bound ≤ ·)

variable {bound : Nat}

@[simp] theorem freshLabels_nil : freshLabels bound [] = [] := rfl

@[simp] theorem freshLabels_append (ts ts' : List Template) :
    freshLabels bound (ts ++ ts') = freshLabels bound ts ++ freshLabels bound ts' :=
  List.filterMap_append

theorem freshLabels_cons_none {t : Template} (h : t.placed = none) (ts : List Template) :
    freshLabels bound (t :: ts) = freshLabels bound ts := by
  unfold freshLabels
  rw [List.filterMap_cons, h]
  rfl

theorem freshLabels_place {l : Nat} (h : bound ≤ l) (ts : List Template) :
    freshLabels bound (place l :: ts) = l :: freshLabels bound ts := by
  have : (place l).placed = some l := rfl
  unfold freshLabels
  rw [List.filterMap_cons, this, Option.filter_some, if_pos (by simpa using h)]

/-- Whether control goes on with the next template. -/
def onward : Template → Bool
  | plain i => !i.isTerminal
  | pushInt _ | pushString _ => true
  | type op _ | field op _ | method op _ => !Op.isTerminal op

theorem Settles.isTerminal {q : Pool} {t : Template} {i : Insn} (h : t.Settles q i) :
    i.isTerminal = !t.onward := by
  cases h with
  | small hlow hhigh =>
    have hbyte : ∀ n, n < 9 → (Insn.simple (UInt8.ofNat n)).isTerminal = false := by decide
    have hiconst : Op.iconst0.toNat = 3 := rfl
    exact hbyte _ (by omega)
  | plain i => exact (Bool.not_not _).symm
  | byte _ _ | short _ _ | integer _ | string _ _ => rfl
  | type _ | field _ | method _ => exact (Bool.not_not _).symm

/-- Control goes through the templates one by one: none places a label, and none leaves. -/
def Straight (ts : List Template) : Prop :=
  ∀ t ∈ ts, t.placed = none ∧ t.onward = true

theorem Straight.append {ts ts' : List Template} (h : Straight ts) (h' : Straight ts') :
    Straight (ts ++ ts') := by
  intro t ht
  rcases List.mem_append.1 ht with ht | ht
  · exact h t ht
  · exact h' t ht

theorem Straight.freshLabels {ts : List Template} (h : Straight ts) :
    freshLabels bound ts = [] := by
  induction ts with
  | nil => rfl
  | cons t ts ih =>
    rw [freshLabels_cons_none (h t (List.mem_cons_self ..)).1,
      ih fun t ht => h t (List.mem_cons_of_mem _ ht)]

theorem mem_freshLabels {ts : List Template} {l : Nat} :
    l ∈ freshLabels bound ts ↔ bound ≤ l ∧ place l ∈ ts := by
  unfold freshLabels
  rw [List.mem_filterMap]
  constructor
  · rintro ⟨t, ht, hl⟩
    obtain ⟨hp, hb⟩ := Option.filter_eq_some_iff.1 hl
    cases t with
    | plain i =>
      rw [show i = .label l from placed_eq_some.1 hp] at ht
      exact ⟨by simpa using hb, ht⟩
    | _ => cases hp
  · rintro ⟨hb, ht⟩
    exact ⟨_, ht, Option.filter_eq_some_iff.2 ⟨rfl, by simpa using hb⟩⟩

/-- A label that is placed in two places is placed twice. -/
theorem index_unique {ts : List Template} (hn : (freshLabels bound ts).Nodup) {l : Nat}
    (hl : bound ≤ l) {i j : Nat} (hi : ts[i]? = some (place l)) (hj : ts[j]? = some (place l)) :
    i = j := by
  induction ts generalizing i j with
  | nil => simp at hi
  | cons t ts ih =>
    have once : t = place l → place l ∉ ts := by
      rintro rfl h
      rw [freshLabels_place hl] at hn
      exact (List.nodup_cons.1 hn).1 (mem_freshLabels.2 ⟨hl, h⟩)
    have htail : (freshLabels bound ts).Nodup := by
      refine List.Nodup.sublist ?_ hn
      rw [← List.singleton_append, freshLabels_append]
      exact List.sublist_append_right _ _
    cases i with
    | zero =>
      cases j with
      | zero => rfl
      | succ j =>
        have hj : ts[j]? = some (place l) := hj
        exact absurd (List.mem_of_getElem? hj) (once (by simpa using hi))
    | succ i =>
      cases j with
      | zero =>
        have hi : ts[i]? = some (place l) := hi
        exact absurd (List.mem_of_getElem? hi) (once (by simpa using hj))
      | succ j => rw [ih htail hi hj]

end Template

/-! ## Labels of the parts -/

section Reports

open Template

variable (s : WeaveSite) {bound : Nat}

theorem JavaType.boxing_straight (t : JavaType) : Straight t.boxing := by
  intro x hx
  unfold JavaType.boxing at hx
  split at hx
  · cases List.mem_singleton.1 hx
    exact ⟨rfl, rfl⟩
  · split at hx
    · cases List.mem_singleton.1 hx
      exact ⟨rfl, rfl⟩
    · cases hx

theorem JavaType.duplicating_straight (t : JavaType) : Straight t.duplicating := by
  intro x hx
  unfold JavaType.duplicating at hx
  split at hx
  · cases hx
  · cases List.mem_singleton.1 hx
    exact ⟨rfl, rfl⟩
  · cases List.mem_singleton.1 hx
    exact ⟨rfl, rfl⟩

theorem unwrapping_straight (owner name descriptor : String) :
    Straight (JavaType.unwrapping owner name descriptor) := by
  intro x hx
  rcases List.mem_cons.1 hx with rfl | hx
  · exact ⟨rfl, rfl⟩
  · cases List.mem_singleton.1 hx
    exact ⟨rfl, rfl⟩

theorem JavaType.unboxing_straight (t : JavaType) : Straight t.unboxing := by
  have cast : ∀ c : String, Straight (if c = objectClass then [] else [.type Op.checkcast c]) := by
    intro c x hx
    split at hx
    · cases hx
    · cases List.mem_singleton.1 hx
      exact ⟨rfl, rfl⟩
  cases t with
  | object name => exact cast name
  | array component => exact cast _
  | void =>
    intro x hx
    cases List.mem_singleton.1 hx
    exact ⟨rfl, rfl⟩
  | _ => exact unwrapping_straight _ _ _

theorem freshLabels_verdictCheck {l : Nat} (h : bound ≤ l) (t : JavaType) :
    freshLabels bound (Block.verdictCheck t l (l + 1)) = [l, l + 1] := by
  have h1 : bound ≤ l + 1 := Nat.le_succ_of_le h
  unfold Block.verdictCheck
  simp only [freshLabels_append, t.unboxing_straight.freshLabels]
  simp only [freshLabels, List.filterMap_cons, List.filterMap_nil, op, jump, place, placed,
    Insn.placed, Option.filter_none, Option.filter_some, h, h1, decide_true, if_true,
    List.nil_append]

theorem freshLabels_around (ts : List Template) :
    freshLabels bound (Marker.around ts) = freshLabels bound ts := by
  simp only [Marker.around, Marker.opening, Marker.closing, freshLabels_append]
  simp [freshLabels, op, placed, Insn.placed]

namespace WeaveSite

theorem freshLabels_report {l : Nat} (h : bound ≤ l) (k : EventKind) :
    freshLabels bound (s.report k l) = [l, l + 1] := by
  unfold report
  rw [freshLabels_append, freshLabels_verdictCheck h]
  rfl

theorem packing_straight (parameters : List (JavaType × UInt16)) :
    Straight (Block.packing parameters) := by
  refine Straight.append (fun x hx => ?_) fun x hx => ?_
  · simp only [List.mem_cons, List.not_mem_nil, or_false] at hx
    rcases hx with rfl | rfl <;> exact ⟨rfl, rfl⟩
  · obtain ⟨⟨⟨t, slot⟩, i⟩, -, hx⟩ := List.mem_flatMap.1 hx
    refine ((Straight.append (fun x hx => ?_) t.boxing_straight).append fun x hx => ?_) x hx
    · simp only [List.mem_cons, List.not_mem_nil, or_false] at hx
      rcases hx with rfl | rfl | rfl
      · exact ⟨rfl, rfl⟩
      · exact ⟨rfl, rfl⟩
      · exact ⟨rfl, by cases t <;> rfl⟩
    · cases List.mem_singleton.1 hx
      exact ⟨rfl, rfl⟩

theorem unpacking_straight (arguments : UInt16) (parameters : List (JavaType × UInt16)) :
    Straight (Block.unpacking arguments parameters) := by
  intro x hx
  obtain ⟨⟨⟨t, slot⟩, i⟩, -, hx⟩ := List.mem_flatMap.1 hx
  refine ((Straight.append (fun x hx => ?_) t.unboxing_straight).append fun x hx => ?_) x hx
  · simp only [List.mem_cons, List.not_mem_nil, or_false] at hx
    rcases hx with rfl | rfl | rfl <;> exact ⟨rfl, rfl⟩
  · cases List.mem_singleton.1 hx
    exact ⟨rfl, by cases t <;> rfl⟩

theorem beforeDispatch_straight (name descriptor : String) (isStatic : Bool) (arguments : UInt16) :
    Straight (Block.beforeDispatch s.plan name descriptor isStatic arguments) := by
  intro x hx
  simp only [Block.beforeDispatch, Block.address, List.mem_append, List.mem_cons,
    List.not_mem_nil, or_false] at hx
  rcases hx with ((rfl | rfl) | rfl | rfl) | rfl | rfl | rfl | rfl | rfl | rfl
  all_goals try exact ⟨rfl, rfl⟩
  split <;> exact ⟨rfl, rfl⟩

theorem freshLabels_startReport {l : Nat} (h : bound ≤ l) (arguments : UInt16) :
    freshLabels bound (s.startReport arguments l) = [l, l + 1] := by
  unfold startReport
  rw [freshLabels_around, freshLabels_append, freshLabels_append, freshLabels_append,
    freshLabels_verdictCheck h, (packing_straight _).freshLabels,
    (s.beforeDispatch_straight _ _ _ _).freshLabels, (unpacking_straight _ _).freshLabels]
  rfl

theorem freshLabels_returnReport {l : Nat} (h : bound ≤ l) :
    freshLabels bound (s.returnReport l) = [l, l + 1] := by
  unfold returnReport
  rw [freshLabels_around, freshLabels_append, s.freshLabels_report h, freshLabels_append,
    s.returnType.duplicating_straight.freshLabels, s.returnType.boxing_straight.freshLabels]
  rfl

theorem freshLabels_lineReport {l : Nat} (h : bound ≤ l) (n : UInt16) :
    freshLabels bound (s.lineReport n l) = [l, l + 1] := by
  unfold lineReport
  rw [freshLabels_around, freshLabels_cons_none rfl, s.freshLabels_report h]

theorem freshLabels_callBeforeReport {l : Nat} (h : bound ≤ l) (line : Int32) (m : MemberRef) :
    freshLabels bound (s.callBeforeReport line m l) = [l, l + 1] := by
  unfold callBeforeReport
  rw [freshLabels_around, freshLabels_append, s.freshLabels_report h]
  rfl

theorem freshLabels_callReturnReport {l : Nat} (h : bound ≤ l) :
    freshLabels bound (s.callReturnReport l) = if s.wants .callReturn then [l, l + 1] else [] := by
  unfold callReturnReport
  split
  · rw [freshLabels_around, s.freshLabels_report h]
  · rfl

theorem freshLabels_callThrowsReport {l : Nat} (h : bound ≤ l) :
    freshLabels bound (s.callThrowsReport l) = [l, l + 1] := by
  unfold callThrowsReport
  rw [freshLabels_around, freshLabels_append, s.freshLabels_report h]
  rfl

theorem freshLabels_throwsReport {l : Nat} (h : bound ≤ l) (thrown : UInt16) :
    freshLabels bound (s.throwsReport thrown l) = [l, l + 1] := by
  unfold throwsReport
  rw [freshLabels_append, freshLabels_append, freshLabels_append, freshLabels_append,
    s.freshLabels_report h]
  rfl

/-- The labels of templates are used once each and are among those from one number up to another. -/
structure Fresh (bound l l' : Nat) (ts : List Template) : Prop where
  nodup : (freshLabels bound ts).Nodup
  between : ∀ x ∈ freshLabels bound ts, l ≤ x ∧ x < l'

theorem Fresh.append {l l' l'' : Nat} {ts ts' : List Template} (h : Fresh bound l l' ts)
    (h' : Fresh bound l' l'' ts') (hl : l ≤ l') (hl' : l' ≤ l'') : Fresh bound l l'' (ts ++ ts') := by
  constructor
  · rw [freshLabels_append, List.nodup_append]
    refine ⟨h.nodup, h'.nodup, fun x hx y hy => ?_⟩
    have := h.between x hx
    have := h'.between y hy
    omega
  · intro x hx
    rw [freshLabels_append] at hx
    rcases List.mem_append.1 hx with hx | hx
    · have := h.between x hx
      omega
    · have := h'.between x hx
      omega

/-- Two labels one behind the other. -/
theorem Fresh.pair {l : Nat} {ts : List Template} (h : freshLabels bound ts = [l, l + 1]) :
    Fresh bound l (l + 2) ts := by
  constructor
  · rw [h]
    simp
  · intro x hx
    rw [h] at hx
    simp only [List.mem_cons, List.not_mem_nil, or_false] at hx
    omega

theorem Fresh.none {l : Nat} {ts : List Template} (h : freshLabels bound ts = []) :
    Fresh bound l l ts := by
  constructor
  · rw [h]
    exact List.nodup_nil
  · rw [h]
    exact nofun

theorem guardedSegment_fresh {l : Nat} (h : bound ≤ l) {i : Insn} (hi : i.placed = none) :
    Fresh bound l (l + (s.guardedSegment i l).labels) (s.guardedSegment i l).templates := by
  have hplain : (Template.plain i).placed = none := hi
  unfold guardedSegment
  by_cases hw : s.wants .callThrows
  · simp only [hw, if_true, Segment.templates, List.singleton_append]
    have labels : freshLabels bound (.place l :: .plain i :: s.guardedBack l) =
        l :: (l + 1) :: ((if s.wants .callReturn then [l + 4, l + 4 + 1] else []) ++
          ((l + 2) :: ([l + 4 + s.callReturnLabels, l + 4 + s.callReturnLabels + 1] ++ [l + 3]))) := by
      unfold guardedBack
      rw [freshLabels_place h, freshLabels_cons_none hplain, freshLabels_place (by omega),
        freshLabels_append, s.freshLabels_callReturnReport (by omega), List.cons_append,
        freshLabels_cons_none rfl, List.singleton_append, freshLabels_place (by omega),
        freshLabels_append, s.freshLabels_callThrowsReport (by omega), freshLabels_cons_none rfl,
        freshLabels_place (by omega), freshLabels_nil]
    unfold callReturnLabels at labels ⊢
    by_cases hr : s.wants .callReturn
    all_goals
      simp only [hr, Bool.false_eq_true, if_true, if_false, List.cons_append, List.nil_append]
        at labels ⊢
      constructor
      · rw [labels]
        simp only [List.nodup_cons, List.mem_cons, List.not_mem_nil, or_false, not_false_iff,
          List.nodup_nil, and_true]
        omega
      · intro x hx
        rw [labels] at hx
        simp only [List.mem_cons, List.not_mem_nil, or_false] at hx
        omega
  · simp only [hw, Bool.false_eq_true, if_false, Segment.templates, List.nil_append]
    have labels : freshLabels bound (.plain i :: s.callReturnReport l) =
        if s.wants .callReturn then [l, l + 1] else [] := by
      rw [freshLabels_cons_none hplain, s.freshLabels_callReturnReport h]
    unfold callReturnLabels
    by_cases hr : s.wants .callReturn
    · simp only [hr, if_true] at labels ⊢
      exact .pair labels
    · simp only [hr] at labels ⊢
      exact .none labels

theorem callSegment_fresh {l : Nat} (h : bound ≤ l) (line : Int32) (m : MemberRef) {i : Insn}
    (hi : i.placed = none) :
    Fresh bound l (l + (s.callSegment line m i l).labels) (s.callSegment line m i l).templates := by
  unfold callSegment
  split
  · have hreport := Fresh.pair (s.freshLabels_callBeforeReport h line m)
    have := hreport.append (s.guardedSegment_fresh (Nat.le_add_right_of_le h) hi)
      (Nat.le_add_right _ _) (Nat.le_add_right _ _)
    rw [Nat.add_assoc] at this
    simpa only [Segment.templates, List.append_assoc] using this
  · exact s.guardedSegment_fresh h hi

theorem segment_insn (p : Position) (l : Label) (m : MemberRef) (i : Insn) :
    (s.segment p l m i).insn = i := by
  cases i with
  | line n =>
    unfold segment
    simp only
    split <;> rfl
  | simple op =>
    unfold segment
    simp only
    split <;> rfl
  | method op index =>
    unfold segment callSegment guardedSegment
    simp only
    split
    · split <;> split <;> rfl
    · rfl
  | _ => rfl

/-- The labels of a segment, but for one that the method places. -/
theorem segment_fresh (p : Position) {l : Nat} (h : bound ≤ l) (m : MemberRef) {i : Insn}
    (hi : ∀ l', i = .label l' → l' < bound) :
    Fresh bound l (l + (s.segment p l m i).labels) (s.segment p l m i).templates := by
  have alone : Fresh bound l (l + 0) [.plain i] := by
    refine Fresh.none ?_
    cases hp : (Template.plain i).placed with
    | none => rw [freshLabels_cons_none hp, freshLabels_nil]
    | some l' =>
      have hlt := hi l' (placed_eq_some.1 hp)
      unfold freshLabels
      rw [List.filterMap_cons, hp, Option.filter_some, if_neg (by simpa using hlt)]
      rfl
  cases i with
  | line n =>
    unfold segment
    simp only
    split
    · refine Fresh.pair ?_
      unfold Segment.templates
      rw [List.nil_append, freshLabels_cons_none rfl, s.freshLabels_lineReport h]
    · exact alone
  | simple op =>
    unfold segment
    simp only
    split
    · refine Fresh.pair ?_
      unfold Segment.templates
      rw [freshLabels_append, s.freshLabels_returnReport h, freshLabels_cons_none rfl,
        freshLabels_nil, List.append_nil]
    · exact alone
  | method op index =>
    unfold segment
    simp only
    split
    · exact s.callSegment_fresh h _ m rfl
    · exact alone
  | _ => exact alone

theorem segments_fresh {p : Position} {l : Nat} (h : bound ≤ l) {insns : List Insn}
    (hi : ∀ l', .label l' ∈ insns → l' < bound) {gs : List Segment} (hgs : s.Segments p l insns gs) :
    Fresh bound l (l + (gs.map Segment.labels).sum) (gs.flatMap Segment.templates) := by
  induction hgs with
  | nil => exact Fresh.none rfl
  | @cons p l i rest gs m _ ih =>
    have hfirst := s.segment_fresh p h m (i := i) fun l' e => hi l' (e ▸ List.mem_cons_self ..)
    have hrest := ih (Nat.le_add_right_of_le h) fun l' hl => hi l' (List.mem_cons_of_mem _ hl)
    have := hfirst.append hrest (Nat.le_add_right _ _) (Nat.le_add_right _ _)
    rw [Nat.add_assoc] at this
    exact this

/-- All labels of woven code but those of the method itself. -/
theorem Rebuilt.fresh {l : Nat} {room : UInt16 × UInt16} {first insns : List Insn} {w : Parts}
    (hw : s.Rebuilt l room first insns w) (hfirst : ∀ l', .label l' ∈ first → l' < l)
    (hi : ∀ l', .label l' ∈ insns → l' < l) : Fresh l l (w.handler + 3) w.code := by
  obtain ⟨hprologue, hbefore, hstart, hsegments, hhandler, hfinish⟩ := hw
  obtain ⟨prologue, before, start, gs, handler, finish⟩ := w
  simp only at hprologue hbefore hstart hsegments hhandler hfinish
  have hl : l ≤ start := by
    rw [hstart]
    exact Nat.le_add_right _ _
  have hle : start + 2 ≤ handler := by
    rw [hhandler]
    exact Nat.le_add_right _ _
  have hbefore : Fresh l l start before := by
    rw [hbefore, hstart, ifWanted]
    split
    · exact .pair (s.freshLabels_startReport (Nat.le_refl l) _)
    · exact .none rfl
  have hfinish : Fresh l handler (handler + 3) finish := by
    rw [hfinish]
    split
    · have hlabel : freshLabels l [place handler] = [handler] := by
        rw [freshLabels_place (by omega), freshLabels_nil]
      have hone : Fresh l handler (handler + 1) [place handler] := by
        refine ⟨by simp [hlabel], fun x hx => ?_⟩
        rw [hlabel] at hx
        cases List.mem_singleton.1 hx
        omega
      exact hone.append (.pair (s.freshLabels_throwsReport (by omega) _)) (by omega) (by omega)
    · exact ⟨List.nodup_nil, nofun⟩
  have hsegments : Fresh l (start + 2) handler (gs.flatMap Segment.templates) := by
    rw [hhandler]
    exact s.segments_fresh (by omega) hi hsegments
  have hrest := hsegments.append hfinish (by omega) (by omega)
  -- the label behind the segments is numbered in front of theirs
  have hcode : freshLabels l (place start :: (gs.flatMap Segment.templates ++
      (place (start + 1) :: finish))) = start :: (freshLabels l (gs.flatMap Segment.templates) ++
        (start + 1) :: freshLabels l finish) := by
    rw [freshLabels_place hl, freshLabels_append, freshLabels_place (by omega)]
  have hbehind : Fresh l start (handler + 3) (place start :: (gs.flatMap Segment.templates ++
      (place (start + 1) :: finish))) := by
    constructor
    · rw [hcode, List.nodup_cons, List.perm_middle.nodup_iff, List.nodup_cons, ← freshLabels_append]
      refine ⟨fun hx => ?_, fun hx => ?_, hrest.nodup⟩
      · rcases List.mem_append.1 hx with hx | hx
        · have := hsegments.between _ hx
          omega
        · rcases List.mem_cons.1 hx with hx | hx
          · omega
          · have := hfinish.between _ hx
            omega
      · have := hrest.between _ hx
        omega
    · intro x hx
      rw [hcode] at hx
      rcases List.mem_cons.1 hx with rfl | hx
      · omega
      · rcases List.mem_append.1 hx with hx | hx
        · have := hsegments.between _ hx
          omega
        · rcases List.mem_cons.1 hx with rfl | hx
          · omega
          · have := hfinish.between _ hx
            omega
  have hend : start ≤ handler + 3 := by omega
  subst hprologue
  have hprologue : Fresh l l l (prologue.map plain) := by
    refine .none (List.eq_nil_iff_forall_not_mem.2 fun x hx => ?_)
    obtain ⟨hle, hplace⟩ := mem_freshLabels.1 hx
    obtain ⟨i, hi, he⟩ := List.mem_map.1 hplace
    cases he
    exact Nat.lt_irrefl _ (Nat.lt_of_lt_of_le (hfirst x hi) hle)
  exact hprologue.append (hbefore.append hbehind hl hend) (Nat.le_refl l)
    (Nat.le_trans hl hend)

end WeaveSite

end Reports

/-! ## Places of the parts -/

namespace WeaveSite

variable {s : WeaveSite}

theorem Segments.length_eq {p : Position} {l : Label} {insns : List Insn} {gs : List Segment}
    (h : s.Segments p l insns gs) : gs.length = insns.length := by
  induction h with
  | nil => rfl
  | cons m _ ih => simp [ih]

/-- The segment of an instruction, with what is known there and labels behind a given one. -/
theorem Segments.get {p : Position} {l i : Nat} {insns : List Insn} {gs : List Segment} {g : Segment}
    (h : s.Segments p l insns gs) (hg : gs[i]? = some g) :
    insns[i]? = some g.insn ∧ ∃ p' l' m, l ≤ l' ∧ g = s.segment p' l' m g.insn := by
  induction h generalizing i with
  | nil => simp at hg
  | @cons p l insn rest gs m _ ih =>
    cases i with
    | zero =>
      cases hg
      rw [s.segment_insn]
      exact ⟨rfl, p, l, m, Nat.le_refl l, rfl⟩
    | succ i =>
      obtain ⟨hi, p', l', m', hl, hg⟩ := ih hg
      exact ⟨hi, p', l', m', Nat.le_trans (Nat.le_add_right _ _) hl, hg⟩

theorem segment_label (p : Position) (l : Label) (m : MemberRef) (l' : Label) :
    s.segment p l m (.label l') = { insn := .label l' } := rfl

def Parts.offset (w : Parts) (i : Nat) : Nat :=
  w.before.length + 1 + pieceStart Segment.templates w.segments i

theorem Parts.offset_succ {w : Parts} {i : Nat} {g : Segment} (h : w.segments[i]? = some g) :
    w.offset (i + 1) = w.offset i + g.templates.length := by
  unfold offset
  rw [pieceStart_succ h]
  omega

theorem Parts.offset_mono {w : Parts} {i j : Nat} (h : i ≤ j) : w.offset i ≤ w.offset j :=
  Nat.add_le_add_left (pieceStart_mono h) _

/-- The code in front of an offset, at it and behind it. -/
theorem Parts.code_eq {w : Parts} (h : w.prologue = []) :
    w.code = w.before ++ (.place w.start :: (w.segments.flatMap Segment.templates ++
      (.place (w.start + 1) :: w.finish))) := by
  rw [code, h]
  rfl

theorem Parts.code_segment {w : Parts} (h : w.prologue = []) {i j : Nat} {g : Segment} {t : Template}
    (hg : w.segments[i]? = some g) (ht : g.templates[j]? = some t) :
    w.code[w.offset i + j]? = some t := by
  have hj := (List.getElem?_eq_some_iff.1 ht).1
  have hpiece := getElem?_piece hg hj
  rw [ht] at hpiece
  have hlt := (List.getElem?_eq_some_iff.1 hpiece).1
  have hk : w.offset i + j =
      w.before.length + ((pieceStart Segment.templates w.segments i + j) + 1) := by
    unfold offset
    omega
  rw [code_eq h, hk, List.getElem?_append_right (Nat.le_add_right _ _), Nat.add_sub_cancel_left,
    List.getElem?_cons_succ, List.getElem?_append_left hlt, hpiece]

/-- Every place in the code is in one of its parts. -/
theorem Parts.code_cases {w : Parts} (h : w.prologue = []) {k : Nat} {t : Template}
    (hk : w.code[k]? = some t) :
    (k < w.before.length ∧ t ∈ w.before) ∨ (k = w.before.length ∧ t = .place w.start) ∨
    (∃ i g j, w.segments[i]? = some g ∧ k = w.offset i + j ∧ g.templates[j]? = some t) ∨
    t = .place (w.start + 1) ∨ t ∈ w.finish := by
  rw [code_eq h, List.getElem?_append] at hk
  split at hk
  · exact .inl ⟨‹_›, List.mem_of_getElem? hk⟩
  · obtain ⟨n, hn⟩ := Nat.exists_eq_add_of_le (Nat.le_of_not_lt ‹_›)
    rw [hn, Nat.add_sub_cancel_left] at hk
    cases n with
    | zero =>
      cases hk
      exact .inr (.inl ⟨hn, rfl⟩)
    | succ n =>
      rw [List.getElem?_cons_succ, List.getElem?_append] at hk
      split at hk
      · obtain ⟨i, g, j, hg, hj, rfl⟩ := exists_piece ‹_›
        rw [getElem?_piece hg hj] at hk
        refine .inr (.inr (.inl ⟨i, g, j, hg, ?_, hk⟩))
        unfold offset
        omega
      · rcases List.mem_cons.1 (List.mem_of_getElem? hk) with ht | ht
        · exact .inr (.inr (.inr (.inl ht)))
        · exact .inr (.inr (.inr (.inr ht)))

end WeaveSite

namespace Weave

open Template

variable {s : WeaveSite} {q : Pool} {given woven : Body} {w : WeaveSite.Parts}

namespace WovenFrom

section Anywhere

variable {entry : Nat} (hw : WovenFrom s q given entry w woven)
include hw

theorem insn_of_code {k : Nat} {t : Template} (hk : w.code[k]? = some t) :
    ∃ i, woven.insns[k]? = some i ∧ t.Settles q i :=
  forall₂_getElem? hw.insns hk

theorem code_of_insn {k : Nat} {i : Insn} (hk : woven.insns[k]? = some i) :
    ∃ t, w.code[k]? = some t ∧ t.Settles q i :=
  forall₂_getElem? hw.insns.flip hk

theorem place_of_label {k : Nat} {l : Label} (hk : woven.insns[k]? = some (.label l)) :
    w.code[k]? = some (place l) := by
  obtain ⟨t, ht, hsettles⟩ := hw.code_of_insn hk
  cases hsettles
  exact ht

theorem label_of_place {k : Nat} {l : Label} (hk : w.code[k]? = some (place l)) :
    woven.insns[k]? = some (.label l) := by
  obtain ⟨i, hi, hsettles⟩ := hw.insn_of_code hk
  cases hsettles
  exact hi

/-- A label of a report has its only place where it is written. -/
theorem lastPlace_fresh (hlabels : LabelsBelow given) {k : Nat} {l : Nat} (hl : given.nextLabel ≤ l)
    (hk : w.code[k]? = some (place l)) : LastPlace woven.insns l k := by
  refine ⟨hw.label_of_place hk, fun j hj hjl => ?_⟩
  have hfresh := WeaveSite.Rebuilt.fresh s hw.rebuilt
    (fun l' hl' => hlabels l' (List.mem_of_mem_take hl')) fun l' hl' => hlabels l' (List.mem_of_mem_drop hl')
  have := index_unique hfresh.nodup hl hk (hw.place_of_label hjl)
  omega

end Anywhere

variable (hw : WovenFrom s q given 0 w woven)
include hw

theorem prologue : w.prologue = [] := hw.rebuilt.prologue

theorem segments : s.Segments { line := -1 } (w.start + 2) given.insns w.segments :=
  hw.rebuilt.segments

/-- The segment of an instruction. -/
theorem segment_of_insn {i : Nat} {insn : Insn} (hi : given.insns[i]? = some insn) :
    ∃ g p l m, w.segments[i]? = some g ∧ w.start + 2 ≤ l ∧ g = s.segment p l m insn := by
  have hlt := (List.getElem?_eq_some_iff.1 hi).1
  rw [← hw.segments.length_eq] at hlt
  obtain ⟨hg, p, l, m, hl, he⟩ := hw.segments.get (List.getElem?_eq_getElem hlt)
  rw [hi] at hg
  cases hg
  exact ⟨_, p, l, m, List.getElem?_eq_getElem hlt, hl, he⟩

variable (hlabels : LabelsBelow given)
include hlabels

omit hw hlabels in
theorem not_fresh {bound a : Nat} {ts : List Template} {l : Nat} (hl : l < bound) (ha : bound ≤ a)
    (ht : place l ∈ ts) (hts : freshLabels 0 ts = [a, a + 1]) : False := by
  have := mem_freshLabels.2 ⟨Nat.zero_le _, ht⟩
  rw [hts] at this
  simp only [List.mem_cons, List.not_mem_nil, or_false] at this
  omega

omit hlabels in
/-- A label of the method is only placed in the segment of an instruction that places it. -/
theorem given_of_place {k : Nat} {l : Nat} (hl : l < given.nextLabel)
    (hk : w.code[k]? = some (place l)) : ∃ i, k = w.offset i ∧ given.insns[i]? = some (.label l) := by
  have hstart : given.nextLabel ≤ w.start := by
    rw [hw.rebuilt.start]
    exact Nat.le_add_right _ _
  have hlt : l < w.start := Nat.lt_of_lt_of_le hl hstart
  rcases WeaveSite.Parts.code_cases hw.prologue hk with
    ⟨-, ht⟩ | ⟨-, ht⟩ | ⟨i, g, j, hg, rfl, ht⟩ | ht | ht
  · rw [hw.rebuilt.before] at ht
    split at ht
    · exact (not_fresh hl (Nat.le_refl _) ht (s.freshLabels_startReport (Nat.zero_le _) _)).elim
    · cases ht
  · cases ht
    exact absurd hlt (Nat.lt_irrefl _)
  · obtain ⟨hi, p, l', m, hl', he⟩ := hw.segments.get hg
    by_cases hlabel : ∃ l'', g.insn = .label l''
    · obtain ⟨l'', hlabel⟩ := hlabel
      rw [hlabel, WeaveSite.segment_label] at he
      subst he
      obtain ⟨hj, ht⟩ := List.getElem?_eq_some_iff.1 ht
      have hj : j = 0 := by simpa [Segment.templates] using hj
      subst hj
      cases ht
      exact ⟨i, rfl, hi⟩
    · have hfresh := s.segment_fresh p (Nat.zero_le l') m (i := g.insn) fun l'' e =>
        absurd ⟨l'', e⟩ hlabel
      rw [← he] at hfresh
      have := hfresh.between l (mem_freshLabels.2 ⟨Nat.zero_le _, List.mem_of_getElem? ht⟩)
      have : w.start + 2 ≤ l := Nat.le_trans hl' this.1
      omega
  · cases ht
    omega
  · have hhandler : w.start ≤ w.handler := by
      rw [hw.rebuilt.handler, Nat.add_assoc]
      exact Nat.le_add_right _ _
    rw [hw.rebuilt.finish] at ht
    split at ht
    · rcases List.mem_cons.1 ht with ht | ht
      · cases ht
        omega
      · exact (not_fresh hlt (Nat.le_succ_of_le hhandler) ht
          (s.freshLabels_throwsReport (Nat.zero_le _) _)).elim
    · cases ht

/-- A label of the method has its last place where the segment of its last place starts. -/
theorem lastPlace {i : Nat} {l : Label} (hl : LastPlace given.insns l i) :
    LastPlace woven.insns l (w.offset i) := by
  have hlt := hlabels l (List.mem_of_getElem? hl.1)
  obtain ⟨g, p, l', m, hg, -, rfl⟩ := hw.segment_of_insn hl.1
  refine ⟨hw.label_of_place (WeaveSite.Parts.code_segment hw.prologue (j := 0) hg rfl), fun k hk hkl => ?_⟩
  obtain ⟨i', rfl, hi'⟩ := hw.given_of_place hlt (hw.place_of_label hkl)
  have hle : i' ≤ i := by
    rcases Nat.lt_or_ge i i' with h | h
    · exact absurd hi' (hl.2 i' h)
    · exact h
  have := WeaveSite.Parts.offset_mono (w := w) hle
  omega

end WovenFrom

end Weave

end Interpose
