import Interpose.Proofs.Inference.Peak
/-!
# Frames have room

The numbers that type inference answers for the local variables and for the operand stack are at most
65535, and every frame stays within them, but for a caught object on a stack that nothing is pushed on. So
neither the locals nor the stack of a frame are too many to be counted in two bytes.

* `Progress.run_localsCounted`: while frames change, none has more local variables than were counted.
* `analyze_frame_room`: what that means for the frames of the answer.
-/

namespace Interpose

namespace Analysis

variable {m : Method}

theorem arrive_locals_le {t : Nat} {e : Option Frame} {g k : Frame} (h : m.arrive t e g = .ok k) :
    k.locals.length ≤ g.locals.length := by
  obtain ⟨merged, hnone, hsome, hk⟩ := Method.arrive_cases h
  have hrefined : k.locals.length = merged.locals.length := by
    rcases hk with rfl | ⟨hint, rfl⟩
    · rfl
    · exact Frame.length_refineSlots _ _
  rw [hrefined]
  cases e with
  | none => exact Nat.le_of_eq (by rw [hnone rfl])
  | some f =>
    obtain ⟨-, hlocals⟩ := Frame.merge_eq_ok.1 (hsome f rfl)
    rw [hlocals, Frame.mergeLocals, List.length_zipWith]
    exact Nat.min_le_right _ _

/-- An instruction delivers the local variables in front of it or behind it. -/
theorem deliveries_locals_le {i : Nat} {insn : Insn} {f : Frame} {ds : List (Nat × Frame)}
    {after : Machine} (h : m.deliveries i insn f = .ok (ds, after)) :
    ∀ t ∈ ds, t.2.locals.length ≤ max f.locals.length after.locals.length := by
  obtain ⟨-, jumps, next, hjumps, hnext, rfl⟩ := Method.deliveries_eq_ok.1 h
  intro t ht
  rw [List.mem_append, List.mem_append] at ht
  rcases ht with (ht | ht) | ht
  · obtain ⟨-, g, -, -, rfl⟩ := Method.mem_toHandlers.1 ht
    exact Nat.le_max_left _ _
  · obtain ⟨l, -, -, hframe⟩ := (mem_forall₂ hjumps).2 t ht
    rw [hframe]
    exact Nat.le_max_right _ _
  · rcases hnext with ⟨-, rfl⟩ | ⟨-, -, rfl⟩
    · cases ht
    · rw [List.mem_singleton.1 ht]
      exact Nat.le_max_right _ _

namespace Progress

variable {p q : Progress}

def LocalsCounted (p : Progress) : Prop :=
  ∀ i f, p.frame i = some f → f.locals.length ≤ p.maxLocals

theorem deliverAll_localsCounted (hp : p.LocalsCounted) {ds : List (Nat × Frame)}
    (hds : ∀ t ∈ ds, t.2.locals.length ≤ p.maxLocals)
    (h : ds.foldlM (fun p t => p.deliver m t.1 t.2) p = .ok q) : q.LocalsCounted := by
  induction ds generalizing p with
  | nil =>
    cases h
    exact hp
  | cons d ds ih =>
    rw [List.foldlM_cons] at h
    obtain ⟨p', hd, h⟩ := bind_eq_ok.1 h
    obtain ⟨k, hk, rfl⟩ := deliver_eq_ok.1 hd
    have hcount := receive_maxLocals (p := p) d.1 k
    refine ih (fun i f hf => ?_) (fun t ht => ?_) h
    · rw [hcount]
      rw [frame_receive] at hf
      split at hf
      · cases hf
        exact Nat.le_trans (arrive_locals_le hk) (hds d (List.mem_cons_self ..))
      · exact hp i f hf
    · rw [hcount]
      exact hds t (List.mem_cons_of_mem d ht)

theorem step_localsCounted (hp : p.LocalsCounted) {i : Nat} (h : p.step m i = .ok q) :
    q.LocalsCounted := by
  rcases step_eq_ok.1 h with ⟨-, rfl⟩ | ⟨f, insn, ds, after, hf, -, hdeliveries, hfold⟩
  · exact hp
  · refine deliverAll_localsCounted (fun j g hg => ?_) (fun t ht => ?_) hfold
    · exact Nat.le_trans (hp j g hg) (Nat.le_max_left _ _)
    · have hle := deliveries_locals_le hdeliveries t ht
      have hf := hp i f hf
      change _ ≤ max p.maxLocals after.locals.length
      omega

theorem run_localsCounted (hp : p.LocalsCounted) {limit : Nat} (h : run m limit p = .ok q) :
    q.LocalsCounted := by
  induction limit generalizing p with
  | zero =>
    unfold run at h
    split at h
    · cases h
      exact hp
    · cases h
  | succ limit ih =>
    unfold run at h
    split at h
    · cases h
      exact hp
    · rename_i i p' hn
      split at h
      · cases h
      · rename_i hstep
        refine ih (step_localsCounted (fun j f hf => ?_) hstep) h
        obtain ⟨hframes, -, -, hlocals, -⟩ := next_eq_some hn
        rw [hlocals]
        refine hp j f ?_
        rw [← hf, frame, frame, hframes]

theorem start_localsCounted {maxLocals : Nat} : (start m maxLocals).LocalsCounted := by
  intro i f hf
  rw [frame_start] at hf
  split at hf
  · cases hf
    exact Nat.le_max_left _ _
  · cases hf

end Progress

variable {b : Body} {context : MethodContext} {pool : Pool} {h : Hierarchy} {a : Analysis}

/-- Neither the locals nor the stack of an inferred frame have more than 65535 slots. -/
theorem analyze_frame_room (ha : analyze b context pool h = .ok a) {i : Nat} {f : Frame}
    (hf : a.frame i = some f) : f.locals.length ≤ 0xFFFF ∧ f.stack.length ≤ 0xFFFF := by
  obtain ⟨m, p, hm, -, -, ⟨limit, hrun⟩, hframes, hroom, -⟩ := analyze_eq_ok ha
  constructor
  · have hp : p.frame i = some f := by
      rw [← hf, Analysis.frame, hframes]
      rfl
    exact Nat.le_trans (Progress.run_localsCounted Progress.start_localsCounted hrun i f hp) hroom
  · obtain ⟨height, hpath⟩ := path_of_reached ha hm ((analyze_reached hm ha).1 ⟨f, hf⟩)
    obtain ⟨insn, f', -, -, hf', hheight, -⟩ := path_counted ha hpath
    cases hf.symm.trans hf'
    rw [hheight]
    have hle := (maxStack_covers_iff ha).2 i height (.before hpath)
    have := a.maxStack.toNat_lt
    omega

end Analysis

end Interpose
