import Mathlib.Data.List.Nodup
import Interpose.Proofs.Code.Symbolic
import Interpose.Proofs.Code.Inverse
/-!
# What decoding accepts

Code without subroutines is decoded exactly if it splits into whole instructions and every offset that is
named, by an instruction or by a table, is an instruction boundary (`CodeAttribute.WellFormed`). Then each
such offset has one label, which stands in front of the instruction there and in front of its source
lines, and which everything that names the offset uses (`CodeAttribute.Labelled`).

* `decode_accepts`: both of this, for every code attribute.
-/

namespace Interpose

namespace CodeAttribute

def WithoutSubroutines (c : CodeAttribute) : Prop :=
  ∀ pc, c.code.Start pc → pc < c.code.length → c.code.isSubroutine pc = false

/-- An offset that the code or a table beside it names. -/
inductive Names (c : CodeAttribute) : Int → Prop
  | target {pc : Nat} {d : Int} : c.code.Start pc → pc < c.code.length → d ∈ c.code.targets pc → Names c d
  | exception {e : ExceptionEntry} {o : Nat} : e ∈ c.exceptions →
    o ∈ [e.startPc.toNat, e.endPc.toNat, e.handlerPc.toNat] → Names c o
  | localVariable {e : LocalEntry} {o : Nat} : e ∈ c.localEntries ++ c.localTypeEntries →
    o ∈ [e.startPc.toNat, e.startPc.toNat + e.length.toNat] → Names c o
  | frame {o : Nat} {f : StackMapFrame} : (o, f) ∈ c.declaredFrames → Names c o

/-- The code splits into whole instructions, and what is named is where one of them starts or where the
code ends. -/
structure WellFormed (c : CodeAttribute) : Prop where
  splits : c.code.Splits
  named : ∀ d, c.Names d → ∃ o : Nat, d = o ∧ ((c.code.Start o ∧ o < c.code.length) ∨ o = c.code.length)

def linesAt (c : CodeAttribute) (o : Nat) : List UInt16 :=
  c.lineEntries.filterMap fun e => if e.startPc.toNat = o then some e.line else none

def labelOf (named : List Nat) (label : Nat → Label) (o : Nat) : List Insn :=
  if o ∈ named then [.label (label o)] else []

/-- The body is the code with labels in place of offsets. -/
structure Labelled (c : CodeAttribute) (b : Body) (items : List (Nat × Insn)) (named : List Nat)
    (label : Nat → Label) : Prop where
  read : readItems c.code = .ok (asItems items)
  /-- The instructions are those that start in the code, in order. -/
  starts : ∀ o, (∃ insn, (o, insn) ∈ items) ↔ c.code.Start o ∧ o < c.code.length
  ascending : (items.map (·.1)).Pairwise (· < ·)
  mem_named : ∀ o, o ∈ named ↔ c.Names (o : Int)
  apart : ∀ o ∈ named, ∀ o' ∈ named, label o = label o' → o = o'
  /-- In front of every instruction stand its label and then its lines. -/
  insns : b.insns = items.flatMap (fun x => labelOf named label x.1 ++
    ((c.linesAt x.1).map .line ++ [x.2.retarget label])) ++ labelOf named label c.code.length
  once : ∀ o ∈ named, b.insns.count (.label (label o)) = 1
  tryCatch : b.tryCatch = c.exceptions.map fun e =>
    ⟨label e.startPc.toNat, label e.endPc.toNat, label e.handlerPc.toNat, e.catchType⟩
  locals : b.locals = c.localEntries.map fun e =>
    ⟨label e.startPc.toNat, label (e.startPc.toNat + e.length.toNat), e.name, e.type, e.slot⟩
  localTypes : b.localTypes = c.localTypeEntries.map fun e =>
    ⟨label e.startPc.toNat, label (e.startPc.toNat + e.length.toNat), e.name, e.type, e.slot⟩
  declaredFrames : b.declaredFrames = c.declaredFrames.map fun x => (label x.1, x.2)

variable {c : CodeAttribute} {items : List (Nat × Item)}

theorem mem_tableOffsets {o : Nat} : o ∈ c.attributes.flatMap tableOffsets ↔
    (∃ e ∈ c.localEntries ++ c.localTypeEntries, o ∈ [e.startPc.toNat, e.startPc.toNat + e.length.toNat]) ∨
      ∃ f, (o, f) ∈ c.declaredFrames := by
  unfold localEntries localTypeEntries declaredFrames
  simp only [List.mem_append, List.mem_flatMap]
  constructor
  · rintro ⟨a, ha, ho⟩
    cases a with
    | stackMapTable frames =>
      obtain ⟨x, hx, rfl⟩ := List.mem_map.1 ho
      exact .inr ⟨x.2, _, ha, hx⟩
    | localVariableTable entries =>
      obtain ⟨e, he, ho⟩ := List.mem_flatMap.1 ho
      exact .inl ⟨e, .inl ⟨_, ha, he⟩, ho⟩
    | localVariableTypeTable entries =>
      obtain ⟨e, he, ho⟩ := List.mem_flatMap.1 ho
      exact .inl ⟨e, .inr ⟨_, ha, he⟩, ho⟩
    | _ => exact absurd ho List.not_mem_nil
  · rintro (⟨e, ⟨a, ha, he⟩ | ⟨a, ha, he⟩, ho⟩ | ⟨f, a, ha, hf⟩)
    · cases a with
      | localVariableTable entries => exact ⟨_, ha, List.mem_flatMap.2 ⟨e, he, ho⟩⟩
      | _ => exact absurd he List.not_mem_nil
    · cases a with
      | localVariableTypeTable entries => exact ⟨_, ha, List.mem_flatMap.2 ⟨e, he, ho⟩⟩
      | _ => exact absurd he List.not_mem_nil
    · cases a with
      | stackMapTable frames => exact ⟨_, ha, List.mem_map.2 ⟨_, hf, rfl⟩⟩
      | _ => exact absurd hf List.not_mem_nil

/-- What gets a label is what is named. -/
theorem mem_mentionedOffsets (hrun : c.code.Run 0 items) {o : Nat} :
    o ∈ c.mentionedOffsets items ↔ c.Names (o : Int) := by
  unfold mentionedOffsets
  rw [List.append_assoc, List.mem_append, List.mem_append, mem_tableOffsets]
  constructor
  · rintro (ho | ho | ⟨e, he, ho⟩ | ⟨f, hf⟩)
    · obtain ⟨⟨pc, x⟩, hx, ho⟩ := List.mem_flatMap.1 ho
      obtain ⟨-, -, -, htargets, -⟩ := hrun.of_mem hx
      obtain ⟨hstart, hlt⟩ := hrun.start .first _ hx
      exact .target hstart hlt (htargets ▸ List.mem_map.2 ⟨o, ho, rfl⟩)
    · obtain ⟨e, he, ho⟩ := List.mem_flatMap.1 ho
      exact .exception he ho
    · exact .localVariable he ho
    · exact .frame hf
  · generalize hd : (o : Int) = d
    intro h
    cases h with
    | @target pc _ hpc hlt hmem =>
      obtain ⟨x, hx⟩ := (hrun.mem_of_start hpc).resolve_left (Nat.ne_of_lt hlt)
      obtain ⟨-, -, -, htargets, -⟩ := hrun.of_mem hx
      rw [← htargets, ← hd] at hmem
      obtain ⟨o', ho', he⟩ := List.mem_map.1 hmem
      cases Int.ofNat.inj he
      exact .inl (List.mem_flatMap.2 ⟨_, hx, ho'⟩)
    | exception he ho =>
      cases Int.ofNat.inj hd
      exact .inr (.inl (List.mem_flatMap.2 ⟨_, he, ho⟩))
    | localVariable he ho =>
      cases Int.ofNat.inj hd
      exact .inr (.inr (.inl ⟨_, he, ho⟩))
    | frame hf =>
      cases Int.ofNat.inj hd
      exact .inr (.inr (.inr ⟨_, hf⟩))

theorem straight_of_withoutSubroutines (hc : c.WithoutSubroutines) : c.Straight := by
  intro items hread x hx
  have hrun := readItems_run hread
  obtain ⟨-, -, -, -, hsub, -⟩ := hrun.of_mem (o := x.1) (x := x.2) hx
  obtain ⟨hstart, hlt⟩ := hrun.start .first x hx
  rw [hsub, hc _ hstart hlt]

/-- Code that is well formed has symbolic code. -/
theorem symbolic_isOk : (∃ items placed, c.Symbolic items placed) ↔ c.WellFormed := by
  constructor
  · rintro ⟨items, placed, h⟩
    obtain ⟨hsplits, htargets⟩ := readItems_isOk.1 ⟨items, h.read⟩
    have known {o : Nat} (ho : c.Names (o : Int)) :
        (c.code.Start o ∧ o < c.code.length) ∨ o = c.code.length := by
      have hlabel := Symbolic.label_of_mentioned ((mem_mentionedOffsets h.run).2 ho)
      exact (h.known hlabel).imp_left fun ⟨x, hx⟩ => h.run.start .first _ hx
    refine ⟨hsplits, fun d hd => ?_⟩
    have hnonneg : 0 ≤ d := by
      cases hd with
      | target hpc hlt hmem => exact htargets _ hpc hlt d hmem
      | exception | localVariable | frame => exact Int.natCast_nonneg _
    obtain ⟨o, rfl⟩ := Int.eq_ofNat_of_zero_le hnonneg
    exact ⟨o, rfl, known hd⟩
  · intro h
    obtain ⟨items, hread⟩ := readItems_isOk.2 ⟨h.splits, fun pc hpc hlt d hd => by
      obtain ⟨o, rfl, -⟩ := h.named d (.target hpc hlt hd)
      exact Int.natCast_nonneg o⟩
    have hrun := readItems_run hread
    obtain ⟨placed, hplaced⟩ := symbolic_of_known hread fun o ho => by
      obtain ⟨o', he, hknown⟩ := h.named o ((mem_mentionedOffsets hrun).1 ho)
      cases Int.ofNat.inj he
      exact hknown.imp_left fun ⟨hstart, hlt⟩ =>
        (hrun.mem_of_start hstart).resolve_left (Nat.ne_of_lt hlt)
    exact ⟨items, placed, hplaced⟩

theorem Symbolic.straight {placed : List Item} (h : c.Symbolic items placed) (hc : c.Straight) :
    placed.any Item.isSubroutine = false := by
  refine placeMarks_straight h.marked fun y hy => ?_
  obtain ⟨z, hz, rfl⟩ := List.mem_map.1 hy
  rw [Item.isSubroutine_retarget, hc items h.read z hz]

theorem count_label (insns : List Insn) (l : Label) :
    insns.count (.label l) = (insns.filterMap Insn.placed).count l := by
  unfold List.count
  rw [List.countP_filterMap]
  refine List.countP_congr fun insn _ => ?_
  cases insn <;> simp [Insn.placed]

/-- The label of an offset stands where the offset is named. -/
theorem label_eq_labelOf (o : Nat) : ((c.offsetLabels items)[o]?.toList.map .label : List Insn) =
    labelOf (c.mentionedOffsets items) (c.offsetLabels items).of o := by
  unfold labelOf
  split
  · rename_i ho
    rw [Symbolic.label_of_mentioned ho]
    rfl
  · rename_i ho
    have hnone : (c.offsetLabels items)[o]? = none :=
      Std.TreeMap.getElem?_eq_none fun hmem => ho (mem_of_numberOffsets hmem)
    rw [hnone]
    rfl

theorem filterMap_insn? (placed : List Item) :
    (placed.filterMap Item.insn?).filterMap Insn.placed = placed.filterMap Item.placed := by
  rw [List.filterMap_filterMap]
  refine List.filterMap_congr fun x _ => ?_
  cases x <;> rfl

/-- The body of code without subroutines is labelled. -/
theorem Symbolic.labelled {insns : List (Nat × Insn)} {placed : List Item}
    (h : c.Symbolic (asItems insns) placed) :
    c.Labelled (c.straightBody (asItems insns) placed) insns (c.mentionedOffsets (asItems insns))
      (c.offsetLabels (asItems insns)).of where
  read := h.read
  starts o := by
    constructor
    · rintro ⟨insn, hinsn⟩
      exact h.run.start .first (o, .insn insn) (List.mem_map.2 ⟨_, hinsn, rfl⟩)
    · rintro ⟨hstart, hlt⟩
      obtain ⟨x, hx⟩ := (h.run.mem_of_start hstart).resolve_left (Nat.ne_of_lt hlt)
      obtain ⟨y, hy, he⟩ := List.mem_map.1 hx
      cases he
      exact ⟨y.2, hy⟩
  ascending := by
    have hascending := h.run.ascending
    rwa [asItems, List.map_map] at hascending
  mem_named o := mem_mentionedOffsets h.run
  apart o ho o' ho' he := by
    refine (numbered_numberOffsets _).inj _ _ _ (Symbolic.label_of_mentioned ho) ?_
    rw [he]
    exact Symbolic.label_of_mentioned ho'
  insns := by
    have marks (o : Nat) : (marksAt (c.offsetLabels (asItems insns)) (linesByOffset c.lineEntries) o).filterMap
        Item.insn? = labelOf (c.mentionedOffsets (asItems insns)) (c.offsetLabels (asItems insns)).of o ++
          (c.linesAt o).map .line := by
      unfold marksAt
      rw [List.filterMap_append, List.filterMap_map, List.filterMap_map, linesByOffset_getD,
        ← label_eq_labelOf]
      simp [Function.comp_def, Item.insn?, linesAt]
    change placed.filterMap Item.insn? = _
    rw [h.placed_eq, List.filterMap_append, List.filterMap_flatMap, asItems, List.flatMap_map,
      ← asItems, ← label_eq_labelOf]
    congr 1
    · refine List.flatMap_congr fun x _ => ?_
      unfold itemRow
      rw [List.filterMap_append, marks, List.append_assoc]
      rfl
    · rw [List.filterMap_map]
      simp [Function.comp_def, Item.insn?]
  once o ho := by
    rw [count_label]
    change ((placed.filterMap Item.insn?).filterMap Insn.placed).count _ = 1
    rw [filterMap_insn?]
    exact List.count_eq_one_of_mem h.nodup (h.label_placed (label_of_mentioned ho))
  tryCatch := rfl
  locals := rfl
  localTypes := rfl
  declaredFrames := rfl

end CodeAttribute

open CodeAttribute in
/-- Code without subroutines is decoded if and only if it is well formed, and then every offset that is
named has its label. -/
theorem decode_accepts {c : CodeAttribute} (hc : c.WithoutSubroutines) :
    ((∃ b, decode c = .ok b) ↔ c.WellFormed) ∧
      ∀ b, decode c = .ok b → ∃ items named label, c.Labelled b items named label := by
  have hstraight := straight_of_withoutSubroutines hc
  have body : ∀ b, decode c = .ok b ↔
      ∃ items placed, c.Symbolic items placed ∧ b = c.straightBody items placed := by
    intro b
    rw [decode_eq_ok]
    refine exists_congr fun items => exists_congr fun placed => and_congr_right fun h => ?_
    rw [h.straight hstraight]
    simp
  refine ⟨?_, fun b hb => ?_⟩
  · rw [← symbolic_isOk]
    constructor
    · rintro ⟨b, hb⟩
      obtain ⟨items, placed, h, -⟩ := (body b).1 hb
      exact ⟨items, placed, h⟩
    · rintro ⟨items, placed, h⟩
      exact ⟨_, (body _).2 ⟨items, placed, h, rfl⟩⟩
  · obtain ⟨items, placed, h, rfl⟩ := (body b).1 hb
    obtain ⟨insns, rfl⟩ := exists_asItems (hstraight items h.read)
    exact ⟨insns, _, _, h.labelled⟩

/-- A branch over an instruction with a source line, in a protected range, and a local variable up to the
end of the code. -/
def branchOverLine : CodeAttribute where
  maxStack := 1
  maxLocals := 1
  code := [Op.iconst0, Op.ifeq, 0, 4, Op.nop, Op.returnVoid]
  exceptions := [⟨1, 4, 5, 0⟩]
  attributes := [.lineNumberTable [⟨4, 7⟩], .localVariableTable [⟨0, 6, 1, 2, 0⟩]]

theorem decode_accepts_branchOverLine : branchOverLine.WellFormed ∧
    ∃ b items named label, decode branchOverLine = .ok b ∧
      branchOverLine.Labelled b items named label := by
  have hplain : branchOverLine.WithoutSubroutines := fun pc _ hlt =>
    (by decide : ∀ pc < 6, branchOverLine.code.isSubroutine pc = false) pc hlt
  obtain ⟨b, hb, -⟩ := any_toOption.1
    (by decide +kernel : (decode branchOverLine).toOption.any (fun _ => true) = true)
  obtain ⟨items, named, label, h⟩ := (decode_accepts hplain).2 b hb
  exact ⟨(decode_accepts hplain).1.1 ⟨b, hb⟩, b, items, named, label, hb, h⟩

end Interpose
