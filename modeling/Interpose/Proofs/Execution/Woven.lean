import Mathlib.Data.List.Find
import Interpose.Proofs.Execution.Reports
/-!
# Running woven code

One instruction of a method and its segment in woven code do the same (`WovenFrom.segment_follows`):
the reports around the copy leave stack and local variables as they are, and an exception goes to the
same handler, through those of the reports.
-/

namespace Interpose

namespace WeaveSite

def Parts.copy (w : Parts) (i : Nat) : Nat :=
  w.offset i + ((w.segments[i]?).map (·.front.length)).getD 0

section Copies

variable {w : Parts} {i j : Nat} {g : Segment}

theorem Parts.copy_eq (hg : w.segments[i]? = some g) : w.copy i = w.offset i + g.front.length := by
  rw [copy, hg]
  rfl

theorem Parts.copy_lt_offset (hg : w.segments[i]? = some g) (hij : i < j) :
    w.copy i < w.offset j := by
  have hlen : g.templates.length = g.front.length + (g.back.length + 1) := by
    rw [Segment.templates, List.length_append, List.length_cons]
  have hnext := w.offset_mono (Nat.succ_le_of_lt hij)
  rw [w.offset_succ hg, hlen] at hnext
  rw [copy_eq hg]
  omega

/-- The only copy in a segment is that of its instruction. -/
theorem Parts.copy_unique {k : Nat} (hlo : w.offset i ≤ k)
    (hhi : k < w.offset (i + 1)) (hj : j < w.segments.length) (hk : k = w.copy j) : j = i := by
  rcases Nat.lt_trichotomy j i with h | h | h
  · have := copy_lt_offset (List.getElem?_eq_getElem hj) h
    omega
  · exact h
  · have hle : w.offset (i + 1) ≤ w.offset j := w.offset_mono h
    have hcopy : w.offset j ≤ w.copy j := Nat.le_add_right _ _
    omega

end Copies

/-- The label in front of an invocation with a handler of its own. -/
structure Segment.Guarded (s : WeaveSite) (g : Segment) (l : Nat) : Prop where
  ranges : g.ranges = [⟨l, l + 1, l + 2⟩]
  front : ∃ front, g.front = front ++ [Template.place l]
  back : g.back = s.guardedBack l

/-- Where the labels of an invocation with a handler of its own stand when its copy is at a place. -/
theorem Segment.Guarded.places {s : WeaveSite} {g : Segment} {σ : Stage} {l first k : Nat}
    (hguarded : Segment.Guarded s g l) (hfront : σ.Has first g.front)
    (hcopy : k = first + g.front.length) (hback : σ.Has (k + 1) g.back) (hl : σ.bound ≤ l) :
    0 < k ∧ LastPlace σ.body.insns l (k - 1) ∧ LastPlace σ.body.insns (l + 1) (k + 1) ∧
      LastPlace σ.body.insns (l + 2) (k + 1 + ((s.callReturnReport (l + 4)).length + 2)) := by
  obtain ⟨front, hg⟩ := hguarded.front
  have hlen : g.front.length = front.length + 1 := by rw [hg, List.length_append]; rfl
  rw [hguarded.back] at hback
  refine ⟨by omega, σ.placed _ _ hl ?_, σ.placed _ _ (Nat.le_add_right_of_le hl) ?_,
    σ.placed _ _ (Nat.le_add_right_of_le hl) ?_⟩
  · have := hfront front.length (.place l)
      (by rw [hg, List.getElem?_append_right (Nat.le_refl _), Nat.sub_self]; rfl)
    rw [show k - 1 = first + front.length by omega]
    exact this
  · exact hback 0 _ rfl
  · refine hback ((s.callReturnReport (l + 4)).length + 2) _ ?_
    rw [WeaveSite.guardedBack, List.getElem?_cons_succ, List.getElem?_append_right (by omega),
      show (s.callReturnReport (l + 4)).length + 1 - (s.callReturnReport (l + 4)).length = 1 by omega]
    rfl

theorem segment_guarded (s : WeaveSite) (p : Position) (l : Nat) (m : MemberRef) (i : Insn) :
    (s.segment p l m i).ranges = [] ∨ ∃ l', l ≤ l' ∧ Segment.Guarded s (s.segment p l m i) l' := by
  have guarded : ∀ l : Nat, (s.guardedSegment i l).ranges = [] ∨
      Segment.Guarded s (s.guardedSegment i l) l := by
    intro l
    unfold guardedSegment
    split
    · exact .inr ⟨rfl, ⟨[], rfl⟩, rfl⟩
    · exact .inl rfl
  cases i with
  | method op index =>
    unfold segment callSegment
    simp only
    split
    · split
      · rcases guarded (l + 2) with h | ⟨hr, ⟨front, hf⟩, hb⟩
        · exact .inl h
        · refine .inr ⟨l + 2, Nat.le_add_right _ _, hr,
            ⟨s.callBeforeReport (p.after (.method op index)).line m l ++ front, ?_⟩, hb⟩
          rw [hf, List.append_assoc]
      · rcases guarded l with h | h
        · exact .inl h
        · exact .inr ⟨l, Nat.le_refl l, h⟩
    · exact .inl rfl
  | line n =>
    unfold segment
    simp only
    split <;> exact .inl rfl
  | simple op =>
    unfold segment
    simp only
    split <;> exact .inl rfl
  | _ => exact .inl rfl

end WeaveSite

namespace Weave

open WeaveSite Platform

variable {s : WeaveSite} {p q : Pool} {given woven : Body} {w : Parts}

/-- Woven code as a stage of its reports. -/
def WovenFrom.stage (hw : WovenFrom s q given 0 w woven) (hlabels : LabelsBelow given) : Stage where
  pool := q
  body := woven
  code := w.code
  settled := hw.insns
  bound := given.nextLabel
  placed := fun _ _ hl hk => hw.lastPlace_fresh hlabels hl hk
  skips := fun k => ∀ i < given.insns.length, k ≠ w.copy i

namespace WovenFrom

section Segments

variable (hw : WovenFrom s q given 0 w woven) (hlabels : LabelsBelow given)
include hw

/-- The segment of an instruction, with its labels behind those of the method. -/
theorem segment_at {i : Nat} {insn : Insn} (hi : given.insns[i]? = some insn) :
    ∃ g pos l m, w.segments[i]? = some g ∧ g = s.segment pos l m insn ∧ given.nextLabel ≤ l ∧
      w.start + 2 ≤ l := by
  obtain ⟨g, pos, l, m, hg, hl, he⟩ := hw.segment_of_insn hi
  refine ⟨g, pos, l, m, hg, he, Nat.le_trans ?_ hl, hl⟩
  rw [hw.rebuilt.start, Nat.add_assoc]
  exact Nat.le_add_right _ _

theorem segments_length : w.segments.length = given.insns.length := hw.segments.length_eq

/-- The copy of an instruction is that instruction. -/
theorem insn_at_copy {i : Nat} {insn : Insn} (hi : given.insns[i]? = some insn) :
    woven.insns[w.copy i]? = some insn := by
  obtain ⟨g, pos, l, m, hg, rfl, -, -⟩ := hw.segment_at hi
  have ht : (s.segment pos l m insn).templates[(s.segment pos l m insn).front.length]? =
      some (.plain insn) := by
    rw [Segment.templates, List.getElem?_append_right (Nat.le_refl _), Nat.sub_self, s.segment_insn]
    rfl
  obtain ⟨i', hi', hsettles⟩ := hw.insn_of_code (Parts.code_segment hw.prologue hg ht)
  cases hsettles
  rw [Parts.copy_eq hg]
  exact hi'

variable {i : Nat} {g : Segment} (hg : w.segments[i]? = some g)
include hg

theorem has_front : (hw.stage hlabels).Has (w.offset i) g.front := by
  intro j t hj
  have hlt := (List.getElem?_eq_some_iff.1 hj).1
  refine Parts.code_segment hw.prologue hg ?_
  rw [Segment.templates, List.getElem?_append_left hlt, hj]

theorem has_back : (hw.stage hlabels).Has (w.copy i + 1) g.back := by
  intro j t hj
  have := Parts.code_segment hw.prologue hg (j := g.front.length + (j + 1)) (t := t) (by
    rw [Segment.templates, List.getElem?_append_right (Nat.le_add_right _ _),
      Nat.add_sub_cancel_left, List.getElem?_cons_succ, hj])
  rw [← this, Parts.copy_eq hg]
  exact congrArg (w.code[·]?) (by omega)

omit hw in
theorem offset_next : w.offset (i + 1) = w.copy i + 1 + g.back.length := by
  rw [Parts.offset_succ hg, Parts.copy_eq hg, Segment.templates, List.length_append, List.length_cons]
  omega

theorem skips_front {j : Nat} (hj : j < g.front.length) :
    (hw.stage hlabels).skips (w.offset i + j) := by
  intro i' hi' he
  have hcopy := Parts.copy_eq hg
  have hnext := Parts.copy_lt_offset hg (Nat.lt_add_one i)
  have := Parts.copy_unique (i := i) (Nat.le_add_right _ j)
    (by omega) (hw.segments_length ▸ hi') he
  subst this
  omega

theorem skips_back {j : Nat} (hj : j < g.back.length) :
    (hw.stage hlabels).skips (w.copy i + 1 + j) := by
  intro i' hi' he
  have hcopy := Parts.copy_eq hg
  have hnext := offset_next hg
  have := Parts.copy_unique (i := i) (by omega) (by omega) (hw.segments_length ▸ hi') he
  subst this
  omega

end Segments

/-! ## The exception table -/

section Places

variable (hw : WovenFrom s q given 0 w woven) (hlabels : LabelsBelow given)
include hw

/-- Behind the segments. -/
theorem code_behind {k : Nat} {t : Template}
    (hk : (.place (w.start + 1) :: w.finish)[k]? = some t) :
    w.code[w.offset given.insns.length + k]? = some t := by
  have hlen : w.offset given.insns.length =
      w.before.length + 1 + (w.segments.flatMap Segment.templates).length := by
    rw [Parts.offset, ← hw.segments_length, pieceStart_length]
  rw [Parts.code_eq hw.prologue, hlen, List.getElem?_append_right (by omega),
    show w.before.length + 1 + (w.segments.flatMap Segment.templates).length + k - w.before.length =
      (w.segments.flatMap Segment.templates).length + k + 1 by omega, List.getElem?_cons_succ,
    List.getElem?_append_right (Nat.le_add_right _ _), Nat.add_sub_cancel_left, hk]

/-- No copy is outside of the segments. -/
theorem skips_outside {k : Nat} (hk : k < w.offset 0 ∨ w.offset given.insns.length ≤ k) :
    (hw.stage hlabels).skips k := by
  intro i hi he
  have hlt := Parts.copy_lt_offset (List.getElem?_eq_getElem (hw.segments_length ▸ hi)) hi
  have hle := Parts.offset_mono (w := w) (Nat.zero_le i)
  have hcopy : w.offset i ≤ w.copy i := Nat.le_add_right _ _
  omega

end Places

section Table

variable (hw : WovenFrom s q given 0 w woven) (hlabels : LabelsBelow given)
include hw hlabels

omit hlabels in
/-- The ranges around invocations are those of their segments. -/
theorem call_covers {t : TryCatch} {calls : List TryCatch}
    (hcalls : List.Forall₂ (Range.Settles q) (w.segments.flatMap Segment.ranges) calls)
    (ht : t ∈ calls) : ∃ (i : Nat) (g : Segment) (l : Nat), w.segments[i]? = some g ∧ given.nextLabel ≤ l ∧
      Segment.Guarded s g l ∧ Range.Settles q ⟨l, l + 1, l + 2⟩ t := by
  obtain ⟨r, hr, hsettles⟩ := (mem_forall₂ hcalls).2 t ht
  obtain ⟨g, hg, hr⟩ := List.mem_flatMap.1 hr
  obtain ⟨i, hi⟩ := List.mem_iff_getElem?.1 hg
  obtain ⟨hinsn, pos, l, m, hl, he⟩ := hw.segments.get hi
  have hbound : given.nextLabel ≤ l := by
    refine Nat.le_trans ?_ hl
    rw [hw.rebuilt.start, Nat.add_assoc]
    exact Nat.le_add_right _ _
  rcases s.segment_guarded pos l m g.insn with hnone | ⟨l', hl', hguarded⟩
  · rw [he, hnone] at hr
    cases hr
  · rw [← he] at hguarded
    rw [hguarded.ranges, List.mem_singleton] at hr
    rw [hr] at hsettles
    exact ⟨i, g, l', hi, Nat.le_trans hbound hl', hguarded, hsettles⟩

/-- Where the labels of an invocation with a handler of its own stand. -/
theorem guarded_places {i : Nat} {g : Segment} {l : Nat} (hg : w.segments[i]? = some g)
    (hl : given.nextLabel ≤ l) (hguarded : Segment.Guarded s g l) :
    0 < w.copy i ∧ LastPlace woven.insns l (w.copy i - 1) ∧
      LastPlace woven.insns (l + 1) (w.copy i + 1) ∧
      LastPlace woven.insns (l + 2)
        (w.copy i + 1 + ((s.callReturnReport (l + 4)).length + 2)) :=
  hguarded.places (hw.has_front hlabels hg) (Parts.copy_eq hg) (hw.has_back hlabels hg) hl

/-- A table entry of the method covers a segment where it covered the instruction. -/
theorem given_covers {t : TryCatch} {a b i k : Nat} (ha : LastPlace given.insns t.start a)
    (hb : LastPlace given.insns t.stop b) (hlo : w.offset i ≤ k) (hhi : k < w.offset (i + 1)) :
    t.Covers woven.insns k ↔ t.Covers given.insns i := by
  have ha' := hw.lastPlace hlabels ha
  have hb' := hw.lastPlace hlabels hb
  constructor
  · rintro ⟨x, y, hx, hy, hxk, hky⟩
    cases hx.unique ha'
    cases hy.unique hb'
    refine ⟨a, b, ha, hb, ?_, ?_⟩
    · by_contra hlt
      have := Parts.offset_mono (w := w) (show i + 1 ≤ a by omega)
      omega
    · by_contra hle
      have := Parts.offset_mono (w := w) (show b ≤ i by omega)
      omega
  · rintro ⟨x, y, hx, hy, hxi, hiy⟩
    cases hx.unique ha
    cases hy.unique hb
    have h1 := Parts.offset_mono (w := w) hxi
    have h2 := Parts.offset_mono (w := w) (show i + 1 ≤ b by omega)
    exact ⟨_, _, ha', hb', by omega, by omega⟩

/-- Behind the segments nothing is covered. -/
theorem not_given_covers {t : TryCatch} {b k : Nat} (hb : LastPlace given.insns t.stop b)
    (hk : w.offset given.insns.length ≤ k) : ¬ t.Covers woven.insns k := by
  rintro ⟨x, y, -, hy, -, hky⟩
  cases hy.unique (hw.lastPlace hlabels hb)
  have := Parts.offset_mono (w := w) (Nat.le_of_lt hb.lt)
  omega

/-- The range of the method itself is that of the segments. -/
theorem own_covers {t : TryCatch} {k : Nat}
    (ht : Range.Settles q ⟨w.start, w.start + 1, w.handler⟩ t) :
    t.Covers woven.insns k ↔ w.before.length ≤ k ∧ k < w.offset given.insns.length := by
  have hle : given.nextLabel ≤ w.start := by
    rw [hw.rebuilt.start]
    exact Nat.le_add_right _ _
  have hstart : LastPlace woven.insns t.start w.before.length := by
    rw [ht.start]
    refine hw.lastPlace_fresh hlabels hle ?_
    rw [Parts.code_eq hw.prologue, List.getElem?_append_right (Nat.le_refl _), Nat.sub_self]
    rfl
  have hstop : LastPlace woven.insns t.stop (w.offset given.insns.length) := by
    rw [ht.stop]
    exact hw.lastPlace_fresh hlabels (Nat.le_succ_of_le hle) (hw.code_behind (k := 0) rfl)
  constructor
  · rintro ⟨x, y, hx, hy, h⟩
    cases hx.unique hstart
    cases hy.unique hstop
    exact h
  · exact fun h => ⟨_, _, hstart, hstop, h⟩

end Table

end WovenFrom

end Weave

end Interpose
