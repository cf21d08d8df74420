import Interpose.Code.Insn
import Interpose.Weave.Template
/-!
# Markers around injected code

Each injected block stands between two pairs of instructions that push a constant and drop it. They
do nothing when the code runs, and tell a later pass which code was injected by an earlier one.
-/

namespace Interpose

namespace Marker

/-- What an injected block starts with. -/
def opening : List Template := [.op Op.iconst2, .op Op.pop]

/-- What an injected block ends with. -/
def closing : List Template := [.op Op.iconst3, .op Op.pop]

end Marker

/-- Where a reader of instructions stands: in injected code or not, and behind which half marker. -/
structure MarkerScan where
  inside : Bool := false
  /-- The constant that was pushed by the last instruction, if it can start a marker. -/
  pending : Option Opcode := none
deriving DecidableEq

namespace MarkerScan

/-- Reads one instruction. Marks of labels and source lines do not separate the halves of a marker. -/
def observe (s : MarkerScan) (i : Insn) : MarkerScan :=
  if i.isPseudo then s
  else match s.pending, i with
    | some Op.iconst2, .simple Op.pop => { inside := true }
    | some Op.iconst3, .simple Op.pop => { inside := false }
    | _, .simple op =>
      if op = Op.iconst2 ∨ op = Op.iconst3 then { s with pending := some op }
      else { s with pending := none }
    | _, _ => { s with pending := none }

end MarkerScan

end Interpose
