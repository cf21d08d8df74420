import Std.Data.TreeMap
import Interpose.Code.Body
/-!
# Layout

Where every instruction of a body comes to lie. The size of an instruction depends on its operands,
the padding of a switch on its offset, and the size of a branch on whether its target is within 16
bits. Every branch starts short; a pass lays the code out and widens the short branches whose
distance does not fit, and the passes end with the first that widens none. Each pass but the last
widens a branch, so one pass more than there are branches is enough.
-/

namespace Interpose

namespace Layout

/-- Bytes between a switch at an offset and its operands, which start at a multiple of 4. -/
def switchPadding (pc : Nat) : Nat :=
  (4 - (pc + 1) % 4) % 4

/-- Whether a number fits a signed byte. -/
def fitsByte (n : Int) : Bool :=
  -128 ≤ n && n ≤ 127

/-- Whether a distance fits a short branch. -/
def fitsShort (n : Int) : Bool :=
  -32768 ≤ n && n ≤ 32767

/-- The bytes an instruction takes at an offset, with its branch short or wide. -/
def size (pool : Pool) (pc : Nat) (wide : Bool) : Insn → Nat
  | .label _ | .line _ => 0
  | .simple _ => 1
  | .int op _ => if op = Op.sipush then 3 else 2
  | .var _ slot => if slot.toNat ≤ 3 then 1 else if slot.toNat ≤ 255 then 2 else 4
  | .iinc slot delta => if slot.toNat ≤ 255 && fitsByte delta.toInt then 3 else 6
  | .type _ _ | .field _ _ => 3
  | .method op _ => if op = Op.invokeinterface then 5 else 3
  | .dynamic _ => 5
  | .ldc index => if !pool.isWideAt index && index.toNat ≤ 255 then 2 else 3
  | .jump op _ => if !wide then 3 else if op = Op.goto then 5 else 8
  | .tableSwitch _ _ targets => 1 + switchPadding pc + 12 + 4 * targets.length
  | .lookupSwitch _ pairs => 1 + switchPadding pc + 8 + 8 * pairs.length
  | .multiNewArray _ _ => 4

/-- Which instructions are wide branches, instruction by instruction. -/
abbrev Widths := List Bool

/-- Offsets of the instructions from an offset on, and the offset behind the last, put behind those
computed so far (latest first). -/
def offsetsOnto (pool : Pool) (done : List Nat) (pc : Nat) : List Insn → Widths → List Nat × Nat
  | insn :: insns, wide :: widths =>
    offsetsOnto pool (pc :: done) (pc + size pool pc wide insn) insns widths
  | _, _ => (done.reverse, pc)

end Layout

/-- Where the instructions of a body lie. -/
structure Layout where
  widths : Layout.Widths
  /-- The offset of every instruction. -/
  offsets : List Nat
  /-- The offset of every placed label. -/
  labels : Std.TreeMap Label Nat
  length : Nat

namespace Layout

/-- The layout with the given branches wide. -/
def ofWidths (pool : Pool) (insns : List Insn) (widths : Widths) : Layout :=
  let (offsets, length) := offsetsOnto pool [] 0 insns widths
  let labels := (insns.zip offsets).foldl (fun labels (insn, pc) =>
    match insn with
    | .label l => labels.insert l pc
    | _ => labels) ∅
  { widths, offsets, labels, length }

/-- The offset of a label that has to be placed. -/
def offsetOf (l : Layout) (label : Label) : Except CodeError Nat :=
  match l.labels[label]? with
  | some o => .ok o
  | none => .error (.undefinedLabel label)

/-- Whether one instruction has to be a wide branch, now that it lies at an offset. -/
def widened (l : Layout) (insn : Insn) (pc : Nat) (wide : Bool) : Except CodeError Bool :=
  match insn with
  | .jump _ target =>
    if wide then .ok true
    else do
      let there ← l.offsetOf target
      return !fitsShort (there - pc : Int)
  | _ => .ok wide

/-- The branches that have to be wide under a layout: those that are, and those out of reach. -/
def widen (l : Layout) (insns : List Insn) : Except CodeError Widths :=
  ((insns.zip l.offsets).zip l.widths).mapM fun ((insn, pc), wide) => l.widened insn pc wide

/-- Lays code out and widens branches until none has to be widened. -/
def settle (pool : Pool) (insns : List Insn) : (passes : Nat) → Widths → Except CodeError Layout
  | 0, _ => .error .unsettled
  | passes + 1, widths => do
    let l := ofWidths pool insns widths
    let wider ← l.widen insns
    if wider = widths then return l else settle pool insns passes wider

/-- Branches of a body. -/
def jumps (insns : List Insn) : Nat :=
  insns.countP fun
    | .jump _ _ => true
    | _ => false

/-- The layout of a body with as few wide branches as the passes find. -/
def ofInsns (pool : Pool) (insns : List Insn) : Except CodeError Layout :=
  settle pool insns (jumps insns + 1) (insns.map fun _ => false)

end Layout

end Interpose
