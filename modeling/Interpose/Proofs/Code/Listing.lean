import Mathlib.Algebra.GroupWithZero.Nat
import Interpose.Proofs.Code.Reread
/-!
# Code without labels

Bodies that say the same may name their labels differently. The listing of a body names none: an
instruction stands with the source lines marked in front of it, and a label is replaced by the number
of instructions in front of its place (`Body.listing`). A conditional branch may be listed as the two
branches it is split into; it then counts twice.

Results:
* `stepsFrom_rows`: the listing of decoded code has one step for each row.
-/

namespace Interpose

/-- An instruction with the source lines marked in front of it. Labels are numbers of instructions. -/
structure Step where
  lines : List UInt16
  insn : Insn
deriving DecidableEq

/-- A body without labels: its steps, and its protected ranges by numbers of instructions. -/
structure Listing where
  steps : List Step
  ranges : List TryCatch
deriving DecidableEq

namespace Insn

/-- The instruction with the pairs of a lookup switch in the order of their keys. -/
def sorted : Insn → Insn
  | lookupSwitch fallback pairs => lookupSwitch fallback (Encode.sortedPairs pairs)
  | insn => insn

/-- How many instructions an instruction counts for, split or not; marks count for none. -/
def weight (split : Bool) (insn : Insn) : Nat :=
  if insn.isPseudo then 0 else if split then 2 else 1

/-- The instructions listed for one. A split branch is the opposite branch over a jump; it leads to the
instruction with the given number. -/
def listed (split : Bool) (number : Label → Nat) (next : Nat) : Insn → List Insn
  | label _ | line _ => []
  | jump op target =>
    if split then
      (Op.invertBranch op).toList.flatMap fun opposite =>
        [jump opposite next, jump Op.goto (number target)]
    else [jump op (number target)]
  | insn => [insn.retarget number]

end Insn

/-- The number of instructions in front of a place, when the branches at some places are split. -/
def numberAt (split : Nat → Bool) (insns : List Insn) (i : Nat) : Nat :=
  ((insns.take i).zipIdx.map fun (insn, j) => insn.weight (split j)).sum

/-- The number of instructions in front of the place of a label; a label placed twice stands at its
last place. -/
def numberOf (split : Nat → Bool) (insns : List Insn) (l : Label) : Nat :=
  match (labelPositions insns)[l]? with
  | some i => numberAt split insns i
  | none => 0

/-- Instructions as steps: the lines stand in front of the first. -/
def marked (lines : List UInt16) : List Insn → List Step
  | [] => []
  | insn :: others => ⟨lines, insn⟩ :: others.map (⟨[], ·⟩)

/-- The steps of instructions from a place on, in front of which `k` instructions and the given source
lines stand. -/
def stepsFrom (split : Nat → Bool) (number : Label → Nat) (i k : Nat) (lines : List UInt16) :
    List Insn → List Step
  | [] => []
  | .label _ :: rest => stepsFrom split number (i + 1) k lines rest
  | .line n :: rest => stepsFrom split number (i + 1) k (lines ++ [n]) rest
  | insn :: rest =>
    marked lines (insn.listed (split i) number (k + 2))
      ++ stepsFrom split number (i + 1) (k + insn.weight (split i)) [] rest

namespace Body

/-- The body without labels, with the branches at some places split. -/
def listing (b : Body) (split : Nat → Bool) : Listing where
  steps := stepsFrom split (numberOf split b.insns) 0 0 [] b.insns
  ranges := b.tryCatch.map fun t =>
    { start := numberOf split b.insns t.start, stop := numberOf split b.insns t.stop,
      handler := numberOf split b.insns t.handler, catchType := t.catchType }

/-- The body with the pairs of lookup switches in the order of their keys. -/
def sorted (b : Body) : Body :=
  { b with insns := b.insns.map Insn.sorted }

/-- Every label that the body jumps to or protects with is placed. -/
def Closed (b : Body) : Prop :=
  (∀ insn ∈ b.insns, ∀ l ∈ insn.mentions, ∃ i, LastPlace b.insns l i) ∧
    ∀ t ∈ b.tryCatch, ∀ l ∈ [t.start, t.stop, t.handler], ∃ i, LastPlace b.insns l i

end Body

/-! ## Numbers of places -/

variable {split : Nat → Bool} {insns : List Insn} {number : Label → Nat}

theorem numberAt_succ {i : Nat} {insn : Insn} (h : insns[i]? = some insn) :
    numberAt split insns (i + 1) = numberAt split insns i + insn.weight (split i) := by
  obtain ⟨hi, rfl⟩ := List.getElem?_eq_some_iff.1 h
  have hlength : (insns.take i).length = i := List.length_take_of_le (Nat.le_of_lt hi)
  unfold numberAt
  rw [List.take_succ_eq_append_getElem hi, List.zipIdx_append, List.map_append, List.sum_append,
    hlength]
  simp

theorem numberOf_eq {l : Label} {i : Nat} (h : LastPlace insns l i) :
    numberOf split insns l = numberAt split insns i := by
  rw [numberOf, labelPositions_eq_some.2 h]

/-! ## Steps -/

theorem stepsFrom_real {insn : Insn} (hreal : insn.isPseudo = false) (i k : Nat)
    (lines : List UInt16) (rest : List Insn) :
    stepsFrom split number i k lines (insn :: rest) =
      marked lines (insn.listed (split i) number (k + 2))
        ++ stepsFrom split number (i + 1) (k + insn.weight (split i)) [] rest := by
  cases insn <;> first | rfl | cases hreal

theorem Insn.retarget_retarget (f g : Label → Label) (insn : Insn) :
    (insn.retarget f).retarget g = insn.retarget (g ∘ f) := by
  cases insn <;> simp [Insn.retarget, Function.comp_def]

theorem Insn.retarget_congr {f g : Label → Label} {insn : Insn}
    (h : ∀ l ∈ insn.mentions, f l = g l) : insn.retarget f = insn.retarget g := by
  cases insn with
  | jump op target => rw [retarget, retarget, h target (List.mem_singleton_self _)]
  | tableSwitch fallback low targets =>
    rw [retarget, retarget, h fallback (List.mem_cons_self ..),
      List.map_congr_left fun l hl => h l (List.mem_cons_of_mem _ hl)]
  | lookupSwitch fallback pairs =>
    rw [retarget, retarget, h fallback (List.mem_cons_self ..)]
    refine congrArg _ (List.map_congr_left fun pair hpair => ?_)
    exact congrArg (pair.1, ·) (h pair.2 (List.mem_cons_of_mem _ (List.mem_map_of_mem hpair)))
  | _ => rfl

theorem Insn.mentions_retarget (f : Label → Label) (insn : Insn) :
    (insn.retarget f).mentions = insn.mentions.map f := by
  cases insn <;> simp [Insn.retarget, Insn.mentions, Function.comp_def]

/-- No branch is split. -/
def whole : Nat → Bool := fun _ => false

/-- An instruction that is not split is listed as it is. -/
theorem Insn.listed_whole {insn : Insn} (hreal : insn.isPseudo = false) (i next : Nat) :
    insn.listed (whole i) number next = [insn.retarget number] := by
  cases insn <;> first | rfl | cases hreal

theorem stepsFrom_labels (i k : Nat) (lines : List UInt16) (labels : List Label) (rest : List Insn) :
    stepsFrom split number i k lines (labels.map .label ++ rest)
      = stepsFrom split number (i + labels.length) k lines rest := by
  induction labels generalizing i with
  | nil => rfl
  | cons l labels ih =>
    rw [List.map_cons, List.cons_append, stepsFrom, ih, List.length_cons, Nat.add_assoc,
      Nat.add_comm 1]

theorem stepsFrom_lines (i k : Nat) (done lines : List UInt16) (rest : List Insn) :
    stepsFrom split number i k done (lines.map .line ++ rest)
      = stepsFrom split number (i + lines.length) k (done ++ lines) rest := by
  induction lines generalizing i done with
  | nil => rw [List.append_nil]; rfl
  | cons n lines ih =>
    rw [List.map_cons, List.cons_append, stepsFrom, ih, List.length_cons, List.append_assoc,
      List.singleton_append, Nat.add_assoc, Nat.add_comm 1]

/-- Decoded code is listed row by row. -/
theorem stepsFrom_rows {labels : OffsetLabels} {lines : Std.TreeMap Nat (List UInt16)}
    {items : List (Nat × Insn)} (hreal : ∀ x ∈ items, x.2.isPseudo = false) (last : List Label)
    (i k : Nat) :
    stepsFrom whole number i k [] (items.flatMap (row labels lines) ++ last.map .label)
      = items.map fun x => ⟨lines.getD x.1 [], x.2.retarget (number ∘ labels.of)⟩ := by
  induction items generalizing i k with
  | nil =>
    have hlast : stepsFrom whole number i k [] (last.map .label ++ []) = [] :=
      stepsFrom_labels i k [] last []
    rwa [List.append_nil] at hlast
  | cons x items ih =>
    obtain ⟨hx, hitems⟩ := List.forall_mem_cons.1 hreal
    have hx : (x.2.retarget labels.of).isPseudo = false := by rwa [Insn.isPseudo_retarget]
    rw [List.flatMap_cons, List.append_assoc, row, List.append_assoc, stepsFrom_labels,
      List.append_assoc, stepsFrom_lines, List.singleton_append, stepsFrom_real hx,
      Insn.listed_whole hx, ih hitems, Insn.retarget_retarget]
    rfl

theorem numberAt_whole (insns : List Insn) (i : Nat) :
    numberAt whole insns i = ((insns.take i).map (Insn.weight false)).sum := by
  unfold numberAt
  conv_rhs => rw [← List.zipIdx_map_fst 0 (insns.take i), List.map_map]
  rfl

theorem sum_weight_rows {labels : OffsetLabels} {lines : Std.TreeMap Nat (List UInt16)}
    {items : List (Nat × Insn)} (hreal : ∀ x ∈ items, x.2.isPseudo = false) :
    ((items.flatMap (row labels lines)).map (Insn.weight false)).sum = items.length := by
  induction items with
  | nil => rfl
  | cons x items ih =>
    obtain ⟨hx, hitems⟩ := List.forall_mem_cons.1 hreal
    have hx : (x.2.retarget labels.of).weight false = 1 := by
      rw [Insn.weight, Insn.isPseudo_retarget, hx]
      rfl
    have hmark : ∀ marks : List Insn, (∀ m ∈ marks, m.isPseudo = true) →
        (marks.map (Insn.weight false)).sum = 0 := by
      intro marks hmarks
      induction marks with
      | nil => rfl
      | cons m marks ih =>
        obtain ⟨hm, hmarks⟩ := List.forall_mem_cons.1 hmarks
        rw [List.map_cons, List.sum_cons, ih hmarks, Insn.weight, if_pos hm]
    rw [List.flatMap_cons, List.map_append, List.sum_append, ih hitems, row, List.map_append,
      List.map_append, List.sum_append, List.sum_append, hmark _ (by simp [Insn.isPseudo]),
      hmark _ (by simp [Insn.isPseudo])]
    simp [hx]
    omega

/-- In front of the row of an item stand the instructions of the items before it. -/
theorem Decoded.numberAt_spot {c : CodeAttribute} {items : List (Nat × Insn)} {b : Body}
    (hb : Decoded c items b) (ho : Decoded.Ordered c items) {k : Nat} (hk : k ≤ items.length) :
    numberAt whole b.insns (Decoded.spot c items k) = k := by
  have htake : b.insns.take (Decoded.spot c items k)
      = (items.take k).flatMap (row (c.labels items) (linesByOffset c.lineEntries)) := by
    have hsplit : b.insns = (items.take k).flatMap (row (c.labels items) (linesByOffset c.lineEntries))
        ++ ((items.drop k).flatMap (row (c.labels items) (linesByOffset c.lineEntries))
          ++ (c.labels items)[c.code.length]?.toList.map .label) := by
      rw [hb.insns, ← List.append_assoc, ← List.flatMap_append, List.take_append_drop]
    rw [hsplit]
    exact List.take_left' rfl
  rw [numberAt_whole, htake, sum_weight_rows fun x hx => ho.real x (List.mem_of_mem_take hx),
    List.length_take_of_le hk]

/-- The label of an offset counts the items in front of it. -/
theorem Decoded.numberOf_label {c : CodeAttribute} {items : List (Nat × Insn)} {b : Body}
    (hb : Decoded c items b) (ho : Decoded.Ordered c items) {o k : Nat} {l : Label}
    (hl : (c.labels items)[o]? = some l) (hk : Decoded.At c items o k) :
    numberOf whole b.insns l = k := by
  have hle : k ≤ items.length := by
    rcases hk with ⟨i, hi⟩ | ⟨rfl, -⟩
    · exact Nat.le_of_lt (List.getElem?_eq_some_iff.1 hi).1
    · exact Nat.le_refl _
  rw [numberOf_eq (hb.lastPlace ho hl hk), hb.numberAt_spot ho hle]

end Interpose
