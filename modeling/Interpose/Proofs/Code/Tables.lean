import Interpose.Proofs.ClassFile.Format
import Interpose.Proofs.Code.StackMap
import Interpose.Proofs.Inference.Room
/-!
# Tables of assembled code

Assembled code has at most four attributes, each of them a table. A table fits the format as soon as
its entries can be counted: the frames of a stack map are full frames, and those have no more types than
the method has local variables and operands (`assemble_tables`).
-/

namespace Interpose

open Analysis

namespace StackMap

theorem values_length_le (vs : List VType) : (values vs).length ≤ vs.length := by
  fun_induction values vs with
  | case1 | case2 => exact Nat.le_refl _
  | case3 v second rest hw ih =>
    simp only [List.length_cons]
    omega
  | case4 v second rest hw ih =>
    simp only [List.length_cons] at ih ⊢
    omega

theorem trimTop_length_le (vs : List VType) : (trimTop vs).length ≤ vs.length := by
  have hle := (List.dropWhile_sublist (· == VType.top) (l := vs.reverse)).length_le
  rw [List.length_reverse] at hle
  rw [trimTop, List.length_reverse]
  exact hle

/-- A frame with as many slots as can be counted. -/
structure Roomy (f : Frame) : Prop where
  locals : f.locals.length ≤ 0xFFFF
  stack : f.stack.length ≤ 0xFFFF

variable {offsets : Array Nat} {p : Pool}

theorem fullFrame_fits (hp : p.Sound) (delta : Nat) {f : Frame} (hf : SitedFrame offsets.size f)
    (hroom : Roomy f) :
    Ends p (fullFrame offsets delta f) (fun sf q => p.Grows q ∧ sf.Fits) CodeError.IsPoolSize := by
  have hlocals := Nat.le_trans (values_length_le (trimTop f.locals)) (trimTop_length_le f.locals)
  have hstack := values_length_le f.stack.reverse
  rw [List.length_reverse] at hstack
  refine (verificationTypes_ends hp fun v hv => hf v ?_).bind fun ls q h => ?_
  · exact List.mem_append_left _ (mem_trimTop (mem_values hv))
  refine (verificationTypes_ends h.1.sound fun v hv => hf v ?_).bind fun ss r hr => ?_
  · exact List.mem_append_right _ (List.mem_reverse.1 (mem_values hv))
  refine .pure ⟨h.1.trans hr.1, ?_, ?_⟩
  · rw [Countable, h.2.length_eq]
    exact Nat.lt_succ_of_le (Nat.le_trans hlocals hroom.locals)
  · rw [Countable, hr.2.length_eq]
    exact Nat.lt_succ_of_le (Nat.le_trans hstack hroom.stack)

theorem frames_fits {a : Analysis} (hsited : ∀ i f, a.frame i = some f → SitedFrame offsets.size f)
    (hroom : ∀ i f, a.frame i = some f → Roomy f) (hp : p.Sound) (previous : Option Nat)
    (chosen : List (Nat × Nat)) :
    Ends p (frames a offsets previous chosen) (fun sfs q => p.Grows q ∧ ∀ sf ∈ sfs, sf.Fits)
      CodeError.IsPoolSize := by
  induction chosen generalizing p previous with
  | nil => exact .pure ⟨.refl hp, nofun⟩
  | cons x chosen ih =>
    obtain ⟨o, i⟩ := x
    cases hi : a.frame i with
    | none =>
      rw [frames_skip hi]
      exact ih hp previous
    | some f =>
      rw [frames_cons hi]
      refine (fullFrame_fits hp _ (hsited i f hi) (hroom i f hi)).bind fun sf q h => ?_
      refine (ih h.1.sound (some o)).bind fun sfs r hr => .pure ⟨h.1.trans hr.1, ?_⟩
      exact List.forall_mem_cons.2 ⟨h.2, hr.2⟩

end StackMap

namespace Assemble

/-- A table that fits the format if its entries can be counted. -/
structure IsTable (a : Attribute) : Prop where
  notCode : ∀ body, a ≠ .code body
  fits : a.entries < 0x10000 → a.ListsFit

theorem length_tablesOf_le (b : Body) (e : Encoded) (frames : List StackMapFrame) :
    (tablesOf b e frames).length ≤ 4 := by
  simp only [tablesOf, List.length_append]
  have h1 := length_tableOf_le .lineNumberTable (e.lines.map fun x => ⟨UInt16.ofNat x.1, x.2⟩)
  have h2 := length_tableOf_le .localVariableTable (b.locals.filterMap (localEntry e))
  have h3 := length_tableOf_le .localVariableTypeTable (b.localTypes.filterMap (localEntry e))
  have h4 := length_tableOf_le .stackMapTable frames
  omega

theorem isTable_of_mem {b : Body} {e : Encoded} {frames : List StackMapFrame}
    (hframes : ∀ sf ∈ frames, sf.Fits) {x : Attribute} (hx : x ∈ tablesOf b e frames) : IsTable x := by
  rcases mem_tablesOf hx with rfl | rfl | rfl | rfl
  · exact ⟨nofun, id⟩
  · exact ⟨nofun, id⟩
  · exact ⟨nofun, id⟩
  · exact ⟨nofun, fun hcount => ⟨hcount, hframes⟩⟩

end Assemble

section Assembles

variable {body : Body} {context : MethodContext} {h : Hierarchy} {major : UInt16} {pool q : Pool}
  {c : CodeAttribute} {b : Body} {a : Analysis} {e : Encoded} {frames : List StackMapFrame}

theorem Assembles.frames_fit (hc : Assembles body context h major pool q c b a e frames) :
    ∀ sf ∈ frames, sf.Fits := by
  cases hc.framed with
  | mapped _ hr hrun _ =>
    obtain ⟨ha, -⟩ := live_reached hc.live
    refine ((StackMap.frames_fits (fun i f hf => ?_) (fun i f hf => ?_) hr.sound _ _).of_ok hrun).2
    · rw [(encode_fits hc.encoded).size]
      exact Assemble.live_sited hc.live hf
    · obtain ⟨hlocals, hstack⟩ := analyze_frame_room ha hf
      exact ⟨hlocals, hstack⟩
  | none _ => exact nofun

/-- Assembled code has at most four attributes, which are tables. -/
theorem assemble_tables (hp : pool.Sound)
    (hc : (assemble body context h major).run.run pool = (.ok c, q)) :
    c.attributes.length ≤ 4 ∧ ∀ a ∈ c.attributes, Assemble.IsTable a := by
  obtain ⟨b, a, e, frames, hc⟩ := assembles_of_assemble hp hc
  rw [hc.attributes]
  exact ⟨Assemble.length_tablesOf_le b e frames, fun x hx => Assemble.isTable_of_mem hc.frames_fit hx⟩

end Assembles

end Interpose
