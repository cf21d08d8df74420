import Std.Data.TreeMap
import Interpose.Code.Analysis
import Interpose.Code.Encode
/-!
# Stack maps

The stack map table of a body: one full frame at every offset control can jump to. Several branch
targets can share an offset, since labels take no bytes; the first of them gives the frame. A frame
lists one type per value, and the locals end with the last that is not `top`.
-/

namespace Interpose

/-- A computation on code that may add constants; what it added stays when it fails. -/
abbrev Assembly := ExceptT CodeError (StateM Pool)

/-- Adds a constant while assembling. -/
def Assembly.adding {α : Type} (m : Pool.Interning α) : Assembly α :=
  ExceptT.adapt .format m

/-- Decides without looking at the pool while assembling. -/
def Assembly.ofExcept {α : Type} (x : Except CodeError α) : Assembly α :=
  ExceptT.mk (pure x)

namespace StackMap

/-- A type as a stack map frame writes it. Objects name their class in the pool, and objects that
are not constructed yet the offset of their `new`. -/
def verificationType (offsets : Array Nat) : VType → Assembly VerificationType
  | .top => return .top
  | .int => return .integer
  | .float => return .float
  | .long => return .long
  | .double => return .double
  | .null => return .null
  | .uninitializedThis => return .uninitializedThis
  | .uninitialized site _ => return .uninitialized (UInt16.ofNat (offsets.getD site 0))
  | .object name => do return .object (← Assembly.adding (Pool.addClass name))

/-- The values of a list of slots: the slot behind a wide value is left out. -/
def values : List VType → List VType
  | [] => []
  | [v] => [v]
  | v :: second :: rest => if v.isWide then v :: values rest else v :: values (second :: rest)

/-- Slots up to the last that is not `top`. -/
def trimTop (slots : List VType) : List VType :=
  (slots.reverse.dropWhile (· == .top)).reverse

/-- The full frame a given distance behind the one before it. -/
def fullFrame (offsets : Array Nat) (delta : Nat) (f : Frame) : Assembly StackMapFrame := do
  let locals ← (values (trimTop f.locals)).mapM (verificationType offsets)
  let stack ← (values f.stack.reverse).mapM (verificationType offsets)
  return .full (UInt16.ofNat delta) locals stack

/-- The instruction whose frame stands at each offset that control can jump to. Behind the last
instruction there is nothing to jump to. -/
def instructionsByOffset (branches : List Nat) (e : Encoded) : Std.TreeMap Nat Nat :=
  branches.foldl (fun chosen i =>
    match e.offsets[i]? with
    | some o => chosen.insertIfNew o i
    | none => chosen) ∅

/-- The frames at offsets in ascending order; the offset of the frame before is given. -/
def frames (a : Analysis) (offsets : Array Nat) (previous : Option Nat) :
    List (Nat × Nat) → Assembly (List StackMapFrame)
  | [] => return []
  | (o, i) :: rest =>
    match a.frames[i]?.join with
    | none => frames a offsets previous rest
    | some f => do
      let delta := match previous with
        | none => o
        | some p => o - p - 1
      let first ← fullFrame offsets delta f
      let others ← frames a offsets (some o) rest
      return first :: others

/-- The stack map table of a body with its analysis and its bytes. -/
def table (a : Analysis) (e : Encoded) : Assembly (List StackMapFrame) :=
  frames a e.offsets none (instructionsByOffset (a.branchTargets.toList ++ e.widened) e).toList

end StackMap

end Interpose
