import Interpose.Proofs.Inference.Result
import Interpose.Proofs.Weave.Shape
/-!
# Where arguments stand

The slots that woven code finds the parameters in are their own ones, below those it takes for itself
(`parameters_below`), as long as there is room for the initial frame.
-/

namespace Interpose

def MethodContext.receiverSlots (context : MethodContext) : Nat :=
  if context.isStatic then 0 else 1

theorem length_initialFrame (context : MethodContext) :
    context.receiverSlots + context.descriptor.parameterSlots ≤ (initialFrame context).locals.length ∧
      context.descriptor.parameters.length ≤ (initialFrame context).locals.length := by
  have types : ∀ ts : List JavaType,
      (ts.map JavaType.slots).sum ≤ (ts.flatMap fun t => (VType.ofJava t).slots).length ∧
        ts.length ≤ (ts.flatMap fun t => (VType.ofJava t).slots).length := by
    intro ts
    induction ts with
    | nil => exact ⟨Nat.le_refl _, Nat.le_refl _⟩
    | cons t ts ih =>
      have hslots := VType.length_slots_ofJava t
      simp only [List.map_cons, List.sum_cons, List.flatMap_cons, List.length_append, List.length_cons]
      omega
  obtain ⟨hslots, hcount⟩ := types context.descriptor.parameters
  have hsum : context.descriptor.parameterSlots =
    (context.descriptor.parameters.map JavaType.slots).sum := rfl
  unfold MethodContext.receiverSlots initialFrame
  rw [hsum]
  simp only [List.length_append]
  split
  · simp only [List.length_nil]
    omega
  · split
    · simp only [List.length_singleton]
      omega
    · simp only [List.length_singleton]
      omega

theorem Block.length_parameterSlots (first : UInt16) (ts : List JavaType) :
    (Block.parameterSlots first ts).length = ts.length := by
  induction ts generalizing first with
  | nil => rfl
  | cons t ts ih => simp only [Block.parameterSlots, List.length_cons, ih]

/-- The slots of parameters lie behind the first and below the sum of all. -/
theorem Block.mem_parameterSlots {first : UInt16} {ts : List JavaType}
    (hroom : first.toNat + (ts.map JavaType.slots).sum ≤ 0xFFFF) {x : JavaType × UInt16}
    (hx : x ∈ Block.parameterSlots first ts) :
    x.2.toNat + x.1.slots ≤ first.toNat + (ts.map JavaType.slots).sum := by
  induction ts generalizing first with
  | nil => cases hx
  | cons t ts ih =>
    rw [List.map_cons, List.sum_cons] at hroom ⊢
    rcases List.mem_cons.1 hx with rfl | hx
    · simp only
      omega
    · have hnext : (first + UInt16.ofNat t.slots).toNat = first.toNat + t.slots := by
        have hsmall : t.slots < UInt16.size := by
          change t.slots < 65536
          omega
        rw [UInt16.toNat_add, UInt16.toNat_ofNat_of_lt' hsmall]
        exact Nat.mod_eq_of_lt (by omega)
      have := ih (by omega) hx
      omega

namespace Weave

/-- The slots that reports take lie behind those of the method and of its arguments. -/
theorem le_firstFree (context : MethodContext) (b : Body) :
    b.maxLocals.toNat ≤ (firstFree context b).toNat ∧
      (argumentSlots context).toNat ≤ (firstFree context b).toNat := by
  unfold firstFree
  rw [show max b.maxLocals (argumentSlots context) =
    if b.maxLocals ≤ argumentSlots context then argumentSlots context else b.maxLocals from rfl]
  split
  · exact ⟨UInt16.le_iff_toNat_le.1 ‹_›, Nat.le_refl _⟩
  · rename_i hlt
    rw [UInt16.le_iff_toNat_le] at hlt
    exact ⟨Nat.le_refl _, by omega⟩

variable {context : MethodContext}

theorem argumentSlots_of_le
    (hslots : context.receiverSlots + context.descriptor.parameterSlots ≤ 0xFFFF) :
    (argumentSlots context).toNat = context.descriptor.parameterSlots + context.receiverSlots := by
  have hsmall : context.descriptor.parameterSlots < UInt16.size := by
    change context.descriptor.parameterSlots < 65536
    omega
  unfold argumentSlots
  unfold MethodContext.receiverSlots at hslots ⊢
  rw [UInt16.toNat_add, UInt16.toNat_ofNat_of_lt' hsmall]
  split
  · exact Nat.mod_eq_of_lt (by simp only [UInt16.toNat_zero]; omega)
  · rw [if_neg ‹_›] at hslots
    exact Nat.mod_eq_of_lt (by simp only [UInt16.toNat_one]; omega)

variable {b : Body} {pool : Pool} {h : Hierarchy} {a : Analysis}
  (ha : analyze b context pool h = .ok a) (plan : WeavePlan)
include ha

theorem argumentSlots_toNat : (argumentSlots context).toNat =
    context.descriptor.parameterSlots + context.receiverSlots := by
  have hroom := Analysis.analyze_room ha
  obtain ⟨hslots, -⟩ := length_initialFrame context
  exact argumentSlots_of_le (by omega)

/-- The parameters lie in slots below those that reports take. -/
theorem parameters_below {x : JavaType × UInt16}
    (hx : x ∈ (WeaveSite.mk plan context).parameters) :
    x.2.toNat + x.1.slots ≤ (firstFree context b).toNat := by
  have hroom := Analysis.analyze_room ha
  obtain ⟨hslots, -⟩ := length_initialFrame context
  have hfirst : (WeaveSite.mk plan context).firstParameter.toNat = context.receiverSlots := by
    unfold WeaveSite.firstParameter MethodContext.receiverSlots
    split <;> rfl
  have hsum : ((context.descriptor.parameters).map JavaType.slots).sum =
      context.descriptor.parameterSlots := rfl
  have hbelow := Block.mem_parameterSlots (by rw [hfirst, hsum]; omega) hx
  obtain ⟨-, hfree⟩ := le_firstFree context b
  rw [argumentSlots_toNat ha] at hfree
  rw [hfirst, hsum] at hbelow
  omega

theorem length_parameters : (WeaveSite.mk plan context).parameters.length < 65536 := by
  have hroom := Analysis.analyze_room ha
  obtain ⟨-, hcount⟩ := length_initialFrame context
  unfold WeaveSite.parameters
  rw [Block.length_parameterSlots]
  change context.descriptor.parameters.length < 65536
  omega

end Weave

end Interpose
