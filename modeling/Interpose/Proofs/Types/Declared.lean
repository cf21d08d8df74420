import Interpose.Proofs.Outcome
import Interpose.Proofs.Types.Order
/-!
# Declared types

A declared frame names the classes of references: after each merge at its instruction, an object or
null there takes the declared class. That moves a type sideways as often as up, so the order of
types alone does not say what becomes of a slot. But a declared class, once taken, stays: every
object that arrives later takes it too.

* `Frame.meets_of_meet`: the frame where a path arrives, slot by slot.
* `Frame.refine_absorbs`, `Frame.Meets.absorbs`, `Frame.Meets.keeps`: a path that arrives is taken
  in, and stays taken in.
* `Frame.Absorbs.meet_self`: what has been taken in changes nothing when it arrives again.
-/

namespace Interpose

theorem mergeSlot_isObject {h : Hierarchy} {a b c : VType} (hm : mergeSlot h a b = some c) :
    a.isObject = c.isObject ∧ b.isObject = c.isObject := by
  rcases mergeSlot_cases h hm with ⟨rfl, rfl⟩ | ⟨rfl, rfl, x, rfl⟩ | ⟨rfl, rfl, x, rfl⟩ |
    ⟨x, y, rfl, rfl, rfl⟩ <;> exact ⟨rfl, rfl⟩

/-- Objects and null always merge. -/
theorem mergeSlot_isSome (h : Hierarchy) {a b : VType} (ha : a.isObject = true)
    (hb : b.isObject = true) : ∃ c, mergeSlot h a b = some c := by
  cases a with
  | null =>
    cases b with
    | null => exact ⟨_, mergeSlot_self h _⟩
    | object y => exact ⟨.object y, by simp [mergeSlot]⟩
    | _ => cases hb
  | object x =>
    cases b with
    | null => exact ⟨.object x, by simp [mergeSlot]⟩
    | object y => exact ⟨_, mergeSlot_object h x y⟩
    | _ => cases hb
  | _ => cases ha

namespace Frame

/-! ## Single slots -/

/-- The declared type says nothing about a slot of this type. -/
def Silent (x v : VType) : Prop :=
  ∀ n, x = .object n → v.isObject = false

theorem refineSlot_object (n : String) {v : VType} (hv : v.isObject = true) :
    refineSlot v (.object n) = .object n := by
  simp [refineSlot, hv]

theorem Silent.refineSlot {x v : VType} (hs : Silent x v) : refineSlot v x = v := by
  cases x with
  | object n => simp [Frame.refineSlot, hs n rfl]
  | _ => rfl

theorem silent_of_not_isObject {x v : VType} (hv : v.isObject = false) : Silent x v :=
  fun _ _ => hv

/-- A declared type names the class of an object or says nothing. -/
theorem silent_or (x v : VType) : (∃ n, x = .object n ∧ v.isObject = true) ∨ Silent x v := by
  cases x with
  | object n =>
    cases hv : v.isObject with
    | true => exact .inl ⟨n, rfl, rfl⟩
    | false => exact .inr fun _ _ => hv
  | _ => exact .inr nofun

/-- A slot that is declared to be `x` has taken in a type: that it arrives again changes nothing. -/
def SlotAbsorbs (h : Hierarchy) (x w v : VType) : Prop :=
  ∃ c, mergeSlot h w v = some c ∧ refineSlot c x = w

variable {h : Hierarchy} {x w v u c : VType}

theorem slotAbsorbs_object {n : String} (hw : w.isObject = true) :
    SlotAbsorbs h (.object n) w v ↔ w = .object n ∧ v.isObject = true := by
  constructor
  · rintro ⟨c, hc, he⟩
    obtain ⟨hwc, hvc⟩ := mergeSlot_isObject hc
    rw [refineSlot_object n (hwc.symm.trans hw)] at he
    exact ⟨he.symm, hvc.trans (hwc.symm.trans hw)⟩
  · rintro ⟨rfl, hv⟩
    obtain ⟨c, hc⟩ := mergeSlot_isSome h hw hv
    exact ⟨c, hc, refineSlot_object n ((mergeSlot_isObject hc).1.symm.trans hw)⟩

theorem slotAbsorbs_silent (hs : Silent x w) : SlotAbsorbs h x w v ↔ VType.Accepts h w v := by
  constructor
  · rintro ⟨c, hc, he⟩
    have hsc : Silent x c := fun n hn => (mergeSlot_isObject hc).1.symm.trans (hs n hn)
    rw [hsc.refineSlot] at he
    exact hc.trans (congrArg some he)
  · intro hc
    exact ⟨w, hc, hs.refineSlot⟩

theorem refineSlot_absorbs (h : Hierarchy) (x v : VType) : SlotAbsorbs h x (refineSlot v x) v := by
  rcases silent_or x v with ⟨n, rfl, hv⟩ | hs
  · rw [refineSlot_object n hv, slotAbsorbs_object rfl]
    exact ⟨rfl, hv⟩
  · rw [hs.refineSlot, slotAbsorbs_silent hs]
    exact .refl h v

theorem meetSlot_absorbs (hl : h.Lawful) (hm : mergeSlot h w v = some c) :
    SlotAbsorbs h x (refineSlot c x) v := by
  rcases silent_or x c with ⟨n, rfl, hc⟩ | hs
  · rw [refineSlot_object n hc, slotAbsorbs_object rfl]
    exact ⟨rfl, (mergeSlot_isObject hm).2.trans hc⟩
  · rw [hs.refineSlot, slotAbsorbs_silent hs]
    exact (mergeSlot_upper hl hm).2

theorem SlotAbsorbs.meetSlot (hl : h.Lawful) (hu : SlotAbsorbs h x w u)
    (hm : mergeSlot h w v = some c) : SlotAbsorbs h x (refineSlot c x) u := by
  have hwc := (mergeSlot_isObject hm).1
  rcases silent_or x c with ⟨n, rfl, hc⟩ | hs
  · rw [refineSlot_object n hc, slotAbsorbs_object rfl]
    exact ⟨rfl, ((slotAbsorbs_object (hwc.trans hc)).1 hu).2⟩
  · have hsw : Silent x w := fun n hn => hwc.trans (hs n hn)
    rw [hs.refineSlot, slotAbsorbs_silent hs]
    exact (mergeSlot_upper hl hm).1.trans hl ((slotAbsorbs_silent hsw).1 hu)

/-! ## Slot by slot -/

/-- Stacks of one height merge if all their slots do. -/
theorem exists_mergeStack {as bs : List VType} (hlen : as.length = bs.length)
    (hall : ∀ (i : Nat) (a b : VType), as[i]? = some a → bs[i]? = some b →
      ∃ c, mergeSlot h a b = some c) : ∃ cs, mergeStack h as bs = some cs := by
  induction as generalizing bs with
  | nil => exact ⟨[], by rw [List.eq_nil_of_length_eq_zero hlen.symm]; rfl⟩
  | cons a as ih =>
    match bs, hlen with
    | b :: bs, hlen =>
      obtain ⟨c, hc⟩ := hall 0 a b rfl rfl
      obtain ⟨cs, hcs⟩ := ih (Nat.succ.inj hlen) fun i => hall (i + 1)
      exact ⟨c :: cs, by simp [mergeStack, hc, hcs]⟩

/-- A slot that the declared frame leaves out is refined by nothing. -/
theorem getElem?_refineSlots (vs hints : List VType) (i : Nat) :
    (refineSlots vs hints)[i]? = vs[i]?.map (refineSlot · (hints[i]?.getD .top)) := by
  induction vs generalizing hints i with
  | nil => rfl
  | cons v vs ih =>
    cases hints with
    | nil =>
      have : (refineSlot · .top) = id := rfl
      simp [refineSlots, this]
    | cons hint hints =>
      cases i with
      | zero => rfl
      | succ i => exact ih hints i

/-- What a declared frame says about the operands of a stack; of another height, it says nothing. -/
def operandHints (declared : Frame) (height : Nat) : List VType :=
  if height = declared.stack.length then declared.stack else []

theorem refineSlots_nil (vs : List VType) : refineSlots vs [] = vs := by
  cases vs <;> rfl

theorem refine_eq (f declared : Frame) : f.refine declared =
    ⟨refineSlots f.locals declared.locals,
      refineSlots f.stack (declared.operandHints f.stack.length)⟩ := by
  unfold refine operandHints
  split
  · rfl
  · rw [refineSlots_nil]

def undeclared : Frame := ⟨[], []⟩

theorem refine_undeclared (f : Frame) : f.refine undeclared = f := by
  rw [refine_eq]
  unfold operandHints undeclared
  simp only [List.length_nil, ite_self, refineSlots_nil]

/-! ## Whole frames -/

/-- The frame where a path arrives, with the classes that are declared there. -/
def meet (h : Hierarchy) (i : Nat) (f g declared : Frame) : Except CodeError Frame :=
  (f.merge h i g).map (·.refine declared)

/-- The slots of the frame where a path arrives. -/
structure Meets (h : Hierarchy) (f g declared k : Frame) : Prop where
  height : f.stack.length = g.stack.length
  same : k.stack.length = f.stack.length
  stack : ∀ (j : Nat) (w v : VType), f.stack[j]? = some w → g.stack[j]? = some v →
    ∃ c, mergeSlot h w v = some c ∧
      k.stack[j]? = some (refineSlot c ((declared.operandHints f.stack.length)[j]?.getD .top))
  locals : ∀ (j : Nat) (c : VType), k.locals[j]? = some c ↔
    ∃ w v, f.locals[j]? = some w ∧ g.locals[j]? = some v ∧
      refineSlot ((mergeSlot h w v).getD .top) (declared.locals[j]?.getD .top) = c

theorem meets_of_meet {i : Nat} {declared f g k : Frame} (hk : f.meet h i g declared = .ok k) :
    Meets h f g declared k := by
  obtain ⟨merged, hm, rfl⟩ := map_eq_ok.1 hk
  obtain ⟨hs, hls⟩ := merge_eq_ok.1 hm
  obtain ⟨hheight, hsame, hall⟩ := mergeStack_eq_some hs
  rw [refine_eq]
  refine ⟨hheight, (length_refineSlots _ _).trans hsame, fun j w v hw hv => ?_, fun j c => ?_⟩
  · obtain ⟨c, hc, hwv⟩ := hall j w v hw hv
    exact ⟨c, hwv, by rw [getElem?_refineSlots, hc, hsame]; rfl⟩
  · rw [getElem?_refineSlots, hls, Option.map_eq_some_iff]
    constructor
    · rintro ⟨b, hb, rfl⟩
      obtain ⟨w, v, hw, hv, rfl⟩ := getElem?_mergeLocals.1 hb
      exact ⟨w, v, hw, hv, rfl⟩
    · rintro ⟨w, v, hw, hv, rfl⟩
      exact ⟨_, getElem?_mergeLocals.2 ⟨w, v, hw, hv, rfl⟩, rfl⟩

/-- A frame has taken in another one, slot by slot. What is left out or left open takes in anything. -/
structure Absorbs (h : Hierarchy) (f g declared : Frame) : Prop where
  height : f.stack.length = g.stack.length
  stack : ∀ (j : Nat) (w v : VType), f.stack[j]? = some w → g.stack[j]? = some v →
    SlotAbsorbs h ((declared.operandHints f.stack.length)[j]?.getD .top) w v
  locals : ∀ (j : Nat) (w : VType), f.locals[j]? = some w → ∃ v, g.locals[j]? = some v ∧
    (w = .top ∨ SlotAbsorbs h (declared.locals[j]?.getD .top) w v)

/-- What has been taken in changes nothing when it arrives again. -/
theorem Absorbs.meet_self {declared f g : Frame} (hg : Absorbs h f g declared) (i : Nat) :
    f.meet h i g declared = .ok f := by
  obtain ⟨cs, hcs⟩ := exists_mergeStack hg.height fun j w v hw hv => by
    obtain ⟨c, hc, -⟩ := hg.stack j w v hw hv
    exact ⟨c, hc⟩
  have hm : f.merge h i g = .ok ⟨mergeLocals h f.locals g.locals, cs⟩ := merge_eq_ok.2 ⟨hcs, rfl⟩
  obtain ⟨-, hlen, hall⟩ := mergeStack_eq_some hcs
  refine map_eq_ok.2 ⟨_, hm, ?_⟩
  rw [refine_eq]
  have hlocals : refineSlots (mergeLocals h f.locals g.locals) declared.locals = f.locals := by
    refine List.ext_getElem? fun j => ?_
    rw [getElem?_refineSlots]
    cases hj : f.locals[j]? with
    | none =>
      rw [List.getElem?_eq_none_iff] at hj
      rw [Option.map_eq_none_iff, List.getElem?_eq_none_iff]
      simp only [mergeLocals, List.length_zipWith]
      omega
    | some w =>
      obtain ⟨v, hv, hwv⟩ := hg.locals j w hj
      rw [getElem?_mergeLocals.2 ⟨w, v, hj, hv, rfl⟩, Option.map_some, Option.some.injEq]
      rcases hwv with rfl | ⟨c, hc, he⟩
      · have htop : (mergeSlot h .top v).getD .top = .top := by
          cases v <;> rfl
        rw [htop, (silent_of_not_isObject rfl).refineSlot]
      · rw [hc]
        exact he
  have hstack : refineSlots cs (declared.operandHints cs.length) = f.stack := by
    refine List.ext_getElem? fun j => ?_
    rw [getElem?_refineSlots, hlen]
    cases hj : f.stack[j]? with
    | none =>
      rw [List.getElem?_eq_none_iff] at hj
      rw [Option.map_eq_none_iff, List.getElem?_eq_none_iff, hlen]
      exact hj
    | some w =>
      have hlt := (List.getElem?_eq_some_iff.1 hj).1
      rw [hg.height] at hlt
      have hv : g.stack[j]? = some g.stack[j] := List.getElem?_eq_getElem hlt
      obtain ⟨c, hc, he⟩ := hg.stack j w _ hj hv
      obtain ⟨c', hc', hm'⟩ := hall j w _ hj hv
      rw [hc] at hm'
      cases hm'
      rw [hc', Option.map_some, he]
  rw [hlocals, hstack]

/-- A frame that arrives first is taken in, with the classes that are declared. -/
theorem refine_absorbs (h : Hierarchy) (f declared : Frame) :
    Absorbs h (f.refine declared) f declared := by
  rw [refine_eq]
  refine ⟨length_refineSlots _ _, fun j w v hw hv => ?_, fun j w hw => ?_⟩
  · rw [getElem?_refineSlots, hv, Option.map_some, Option.some.injEq] at hw
    rw [← hw, length_refineSlots]
    exact refineSlot_absorbs h _ v
  · rw [getElem?_refineSlots, Option.map_eq_some_iff] at hw
    obtain ⟨v, hv, rfl⟩ := hw
    exact ⟨v, hv, .inr (refineSlot_absorbs h _ v)⟩

section Meets

variable {declared f g k : Frame} (hk : Meets h f g declared k)
include hk

theorem Meets.slot {j : Nat} {c : VType} (hc : k.stack[j]? = some c) : ∃ w v c',
    f.stack[j]? = some w ∧ g.stack[j]? = some v ∧ mergeSlot h w v = some c' ∧
      c = refineSlot c' ((declared.operandHints k.stack.length)[j]?.getD .top) := by
  have hlt : j < f.stack.length := hk.same ▸ (List.getElem?_eq_some_iff.1 hc).1
  have hlt' : j < g.stack.length := hk.height ▸ hlt
  have hw : f.stack[j]? = some f.stack[j] := List.getElem?_eq_getElem hlt
  have hv : g.stack[j]? = some g.stack[j] := List.getElem?_eq_getElem hlt'
  obtain ⟨c', hc', e⟩ := hk.stack j _ _ hw hv
  rw [hc, Option.some.injEq, ← hk.same] at e
  exact ⟨_, _, c', hw, hv, hc', e⟩

/-- A frame that arrives is taken in. -/
theorem Meets.absorbs (hl : h.Lawful) : Absorbs h k g declared := by
  refine ⟨hk.same.trans hk.height, fun j w v hw hv => ?_, fun j w hw => ?_⟩
  · obtain ⟨a, v', c, -, hv', hc, rfl⟩ := hk.slot hw
    rw [hv, Option.some.injEq] at hv'
    cases hv'
    exact meetSlot_absorbs hl hc
  · obtain ⟨a, v, -, hv, rfl⟩ := (hk.locals j w).1 hw
    refine ⟨v, hv, ?_⟩
    cases hm : mergeSlot h a v with
    | none => exact .inl (silent_of_not_isObject rfl).refineSlot
    | some c => exact .inr (meetSlot_absorbs hl hm)

/-- What has been taken in stays taken in. -/
theorem Meets.keeps (hl : h.Lawful) {u : Frame} (hu : Absorbs h f u declared) :
    Absorbs h k u declared := by
  refine ⟨hk.same.trans hu.height, fun j w v hw hv => ?_, fun j w hw => ?_⟩
  · obtain ⟨a, b, c, ha, -, hc, rfl⟩ := hk.slot hw
    have := hu.stack j a v ha hv
    rw [← hk.same] at this
    exact this.meetSlot hl hc
  · obtain ⟨a, b, ha, -, rfl⟩ := (hk.locals j w).1 hw
    obtain ⟨v, hv, hav⟩ := hu.locals j a ha
    refine ⟨v, hv, ?_⟩
    cases hm : mergeSlot h a b with
    | none => exact .inl (silent_of_not_isObject rfl).refineSlot
    | some c =>
      rcases hav with rfl | hav
      · -- only the open type merges with the open type
        have hb : c = .top := by
          cases b <;> simp [mergeSlot] at hm
          exact hm.symm
        rw [hb]
        exact .inl (silent_of_not_isObject rfl).refineSlot
      · exact .inr (hav.meetSlot hl hm)

end Meets

end Frame

end Interpose
