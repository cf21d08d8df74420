import Interpose.Code.Analysis
/-!
# Dead code

Instructions that type inference never reaches have no frame, so no stack map can describe them.
They are left out, together with the source line marks that lead into nothing but them and the
protected ranges that hold nothing else.
-/

namespace Interpose

/-- The instructions that take bytes and are never reached. -/
def Analysis.deadCode (a : Analysis) (body : Body) : List Nat :=
  (body.insns.zip a.frames.toList).zipIdx.filterMap fun ((insn, frame), i) =>
    if frame.isNone && !insn.isPseudo then some i else none

/-- The instructions that stay, given which ones are reached; the second part says whether the first
of them that takes bytes is reached. A source line stays when that instruction is reached or when
there is none. -/
def keepLive (insns : List (Insn × Option Frame)) : List Insn × Bool :=
  insns.foldr (fun (insn, frame) (kept, leadsToLive) =>
    match insn with
    | .label _ => (insn :: kept, leadsToLive)
    | .line _ => (if leadsToLive then insn :: kept else kept, leadsToLive)
    | _ => if frame.isSome then (insn :: kept, true) else (kept, false)) ([], true)

/-- Whether a protected range still holds an instruction that takes bytes. -/
def TryCatch.holdsCode (positions : Std.TreeMap Label Nat) (code : Array Insn) (t : TryCatch) :
    Bool :=
  match positions[t.start]?, positions[t.stop]? with
  | some start, some stop => start < stop && anyReal code start stop
  | _, _ => false

/-- The body without the code that an analysis of it has not reached. -/
def withoutDeadCode (body : Body) (a : Analysis) : Body :=
  let insns := (keepLive (body.insns.zip a.frames.toList)).1
  let positions := labelPositions insns
  { body with insns, tryCatch := body.tryCatch.filter (·.holdsCode positions insns.toArray) }

end Interpose
