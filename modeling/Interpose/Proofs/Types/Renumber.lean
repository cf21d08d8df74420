import Mathlib.Logic.Equiv.Defs
import Interpose.Proofs.Types.Transfer
/-!
# Renumbering instructions

An object that is not constructed yet is named by the number of the instruction that made it. When
the instructions of a body get other numbers, the types in its frames change accordingly. All that
type inference does with types commutes with that.

* `execute_renumber`: an instruction under another number makes of a renumbered frame the renumbered
  result.
* `Frame.merge_renumber`, `Frame.refine_renumber`: the same of frames that meet and of declared ones.
-/

namespace Interpose

def VType.renumber (s : Nat → Nat) : VType → VType
  | .uninitialized site name => .uninitialized (s site) name
  | v => v

def Frame.renumber (s : Nat → Nat) (f : Frame) : Frame :=
  { locals := f.locals.map (VType.renumber s), stack := f.stack.map (VType.renumber s) }

def Machine.renumber (s : Nat → Nat) (m : Machine) : Machine :=
  { m.toFrame.renumber s with peak := m.peak }

/-! ## Types and frames -/

namespace VType

@[simp] theorem renumber_id (v : VType) : v.renumber id = v := by
  cases v <;> rfl

theorem renumber_of_ne {s : Nat → Nat} {v : VType} (h : ∀ i n, v ≠ .uninitialized i n) :
    v.renumber s = v := by
  cases v with
  | uninitialized i n => exact absurd rfl (h i n)
  | _ => rfl

variable {e : Equiv.Perm Nat}

@[simp] theorem renumber_symm (v : VType) : (v.renumber e).renumber e.symm = v := by
  cases v <;> simp [renumber]

theorem renumber_injective : Function.Injective (renumber e) :=
  Function.LeftInverse.injective renumber_symm

theorem renumber_eq_made {v : VType} {i : Nat} {n : String} :
    v.renumber e = .uninitialized (e i) n ↔ v = .uninitialized i n := by
  constructor
  · exact fun h => renumber_injective (h.trans rfl)
  · rintro rfl
    rfl

theorem isReference_renumber (v : VType) : (v.renumber e).isReference = v.isReference := by
  cases v <;> rfl

theorem isObject_renumber (v : VType) : (v.renumber e).isObject = v.isObject := by
  cases v <;> rfl

/-- Instructions respect what renumbering does to types. -/
theorem renumber_respected (e : Equiv.Perm Nat) : Respected e (fun v w => v = w.renumber e) where
  self _ h := (renumber_of_ne h).symm
  wide {_ w} h := by cases w <;> rw [h] <;> rfl
  reference {_ w} h := by rw [h, isReference_renumber]
  element {_ w} h := by
    rw [h]
    cases w with
    | object name =>
      simp only [renumber, Machine.elementType]
      split <;> rfl
    | _ => rfl
  this {_ w} h := by cases w <;> rw [h] <;> simp [renumber]
  made h := by rw [h, renumber_eq_made]
  maker {k n w} h := by
    cases w with
    | uninitialized i m =>
      cases h
      exact ⟨i, rfl⟩
    | _ => cases h

end VType

@[simp] theorem Frame.renumber_id (f : Frame) : f.renumber id = f := by
  simp [Frame.renumber, show VType.renumber id = id from funext VType.renumber_id]

variable {e : Equiv.Perm Nat}

@[simp] theorem Frame.renumber_symm (f : Frame) : (f.renumber e).renumber e.symm = f := by
  simp [Frame.renumber, Function.comp_def]

theorem Frame.renumber_injective : Function.Injective (Frame.renumber e) :=
  Function.LeftInverse.injective Frame.renumber_symm

/-! ## Instructions -/

theorem Frame.under_renumber (f : Frame) :
    Frame.Under (fun v w => v = w.renumber e) (f.renumber e) f := by
  refine ⟨List.forall₂_map_left_iff.2 (List.forall₂_same.2 fun _ _ => rfl), fun i w hw => ?_⟩
  exact ⟨w.renumber e, by rw [Frame.renumber, List.getElem?_map, hw]; rfl, .inr rfl⟩

/-- Locals that are below each other have the same open slots, so they are renumbered. -/
theorem LocalsUnder.eq_renumber {vs ws : List VType}
    (h : LocalsUnder (fun v w => v = w.renumber e) vs ws)
    (h' : LocalsUnder (fun v w => v = w.renumber e.symm) ws vs) :
    vs = ws.map (VType.renumber e) := by
  refine List.ext_getElem? fun i => ?_
  rw [List.getElem?_map]
  cases hw : ws[i]? with
  | none =>
    rw [List.getElem?_eq_none_iff] at hw
    exact List.getElem?_eq_none_iff.2 (Nat.le_trans h'.length_le hw)
  | some w =>
    obtain ⟨v, hv, hvw⟩ := h i w hw
    obtain ⟨w', hw', hwv⟩ := h' i v hv
    rw [hw] at hw'
    cases hw'
    refine hv.trans (congrArg some ?_)
    rcases hvw with rfl | rfl
    · rcases hwv with rfl | hwv
      · rfl
      · rw [hwv]
        exact (VType.renumber_symm (e := e.symm) v).symm
    · rfl

theorem Frame.eq_renumber {f g : Frame} (h : Frame.Under (fun v w => v = w.renumber e) g f)
    (h' : Frame.Under (fun v w => v = w.renumber e.symm) f g) : g = f.renumber e := by
  have hs : g.stack = f.stack.map (VType.renumber e) := by
    rw [← List.forall₂_eq_eq_eq]
    exact List.forall₂_map_right_iff.2 h.stack
  cases g
  exact congrArg₂ Frame.mk (h.locals.eq_renumber h'.locals) hs

/-- An instruction makes of the renumbered frame what it made of the frame, renumbered. -/
theorem execute_renumber {pool : Pool} {owner : String} {i : Nat} {insn : Insn} {f : Frame}
    {after : Machine} (h : execute pool owner i insn { f with peak := 0 } = .ok after) :
    execute pool owner (e i) insn { f.renumber e with peak := 0 } = .ok (after.renumber e) := by
  -- each frame is below the other one, and what is executed on both ends so too
  obtain ⟨after', h', hu⟩ := execute_under (VType.renumber_respected e) (Pool.Within.refl pool)
    (fun _ => rfl) (m := { f.renumber e with peak := 0 }) (n := { f with peak := 0 })
    ⟨f.under_renumber, rfl⟩ h
  obtain ⟨after'', h'', hu'⟩ := execute_under (VType.renumber_respected e.symm)
    (Pool.Within.refl pool) (fun _ => rfl) (m := { f with peak := 0 })
    (n := { f.renumber e with peak := 0 })
    ⟨by simpa using (f.renumber e).under_renumber (e := e.symm), rfl⟩ h'
  rw [e.symm_apply_apply, h] at h''
  cases h''
  obtain ⟨frame', peak'⟩ := after'
  rw [h', show frame' = after.toFrame.renumber e from Frame.eq_renumber hu.frame hu'.frame,
    show peak' = after.peak from hu.peak]
  rfl

/-! ## Frames that meet -/

theorem mergeSlot_renumber (h : Hierarchy) (a b : VType) :
    mergeSlot h (a.renumber e) (b.renumber e) = (mergeSlot h a b).map (VType.renumber e) := by
  by_cases hab : a = b
  · rw [hab, mergeSlot_self, mergeSlot_self]
    rfl
  · have hne : a.renumber e ≠ b.renumber e := fun h => hab (VType.renumber_injective h)
    unfold mergeSlot
    rw [if_neg hne, if_neg hab]
    cases a with
    | object x =>
      cases b with
      | object y =>
        simp only [VType.renumber]
        split <;> rfl
      | _ => rfl
    | _ => cases b <;> rfl

namespace Frame

theorem mergeStack_renumber (h : Hierarchy) (as bs : List VType) :
    mergeStack h (as.map (VType.renumber e)) (bs.map (VType.renumber e)) =
      (mergeStack h as bs).map (List.map (VType.renumber e)) := by
  induction as generalizing bs with
  | nil => cases bs <;> rfl
  | cons a as ih =>
    cases bs with
    | nil => rfl
    | cons b bs =>
      simp only [List.map_cons, mergeStack, mergeSlot_renumber, ih]
      cases mergeSlot h a b with
      | none => rfl
      | some v => cases mergeStack h as bs <;> rfl

theorem mergeLocals_renumber (h : Hierarchy) (as bs : List VType) :
    mergeLocals h (as.map (VType.renumber e)) (bs.map (VType.renumber e)) =
      (mergeLocals h as bs).map (VType.renumber e) := by
  unfold mergeLocals
  rw [List.zipWith_map, List.map_zipWith]
  refine congrFun (congrFun (congrArg _ (funext fun a => funext fun b => ?_)) as) bs
  rw [mergeSlot_renumber]
  cases mergeSlot h a b <;> rfl

theorem merge_renumber {h : Hierarchy} {i j : Nat} {f g k : Frame}
    (hm : (f.renumber e).merge h j (g.renumber e) = .ok k) :
    ∃ k', f.merge h i g = .ok k' ∧ k = k'.renumber e := by
  obtain ⟨hs, hl⟩ := merge_eq_ok.1 hm
  obtain ⟨ks, hks, hs⟩ := Option.map_eq_some_iff.1 ((mergeStack_renumber ..).symm.trans hs)
  refine ⟨⟨mergeLocals h f.locals g.locals, ks⟩, merge_eq_ok.2 ⟨hks, rfl⟩, ?_⟩
  obtain ⟨kl, kss⟩ := k
  rw [show kl = _ from hl.trans (mergeLocals_renumber ..), ← show _ = kss from hs]
  rfl

theorem refineSlot_renumber (v hint : VType) :
    refineSlot (v.renumber e) hint = (refineSlot v hint).renumber e := by
  cases hint with
  | object name =>
    simp only [refineSlot, VType.isObject_renumber]
    split <;> rfl
  | _ => rfl

theorem refineSlots_renumber (vs hints : List VType) :
    refineSlots (vs.map (VType.renumber e)) hints =
      (refineSlots vs hints).map (VType.renumber e) := by
  induction vs generalizing hints with
  | nil => cases hints <;> rfl
  | cons v vs ih =>
    cases hints with
    | nil => rfl
    | cons hint hints => simp only [List.map_cons, refineSlots, refineSlot_renumber, ih]

theorem refine_renumber (f declared : Frame) :
    (f.renumber e).refine declared = (f.refine declared).renumber e := by
  simp only [Frame.refine, Frame.renumber, refineSlots_renumber, List.length_map]
  split <;> rfl

end Frame

end Interpose
