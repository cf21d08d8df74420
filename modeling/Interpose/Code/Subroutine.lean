import Std.Data.TreeMap
import Interpose.Code.Body
import Interpose.Reach
/-!
# Subroutines

Old compilers shared code through `jsr`, which pushes the address behind itself and jumps, and
`ret`, which jumps to such an address. Neither has a place in a symbolic body, so every call gets a
copy of the code it calls: `jsr` becomes a null push and a jump to the copy, and `ret` inside the
copy becomes a jump behind the call. Calls inside a copy are expanded the same way.

A copy holds the code that can be reached from the entry without going through a further call
(`members`); handlers of that code belong to it unless the main code owns them. Protected ranges
are copied with the code: a range is opened at the first copied instruction it covers and closed as
soon as copying leaves it or skips real code, and ranges made from one range of the method stay
together in the order of the method.
-/

namespace Interpose

/-- An instruction before subroutines are expanded. -/
inductive Item where
  | insn (i : Insn)
  | jsr (target : Label)
  | ret (slot : UInt16)

namespace Item

/-- Whether the item is a subroutine call or return. -/
def isSubroutine : Item → Bool
  | jsr _ | ret _ => true
  | insn _ => false

/-- The instruction of an item that is one. -/
def insn? : Item → Option Insn
  | insn i => some i
  | _ => none

/-- Whether the item is a mark that takes no bytes. -/
def isPseudo : Item → Bool
  | insn i => i.isPseudo
  | _ => false

/-- The label the item places. -/
def placed : Item → Option Label
  | insn i => i.placed
  | _ => none

end Item

namespace Subroutine

/-- How deep calls may nest. -/
def maxNesting : Nat := 32

/-- A protected range by instruction number. -/
structure Region where
  start : Nat
  stop : Nat
  handler : Nat
  entry : TryCatch

/-- Whether a range covers an instruction. -/
def Region.covers (r : Region) (i : Nat) : Bool :=
  r.start ≤ i && i < r.stop

/-- The code that calls are expanded in. -/
structure Program where
  items : Array Item
  positions : Std.TreeMap Label Nat
  regions : List Region

/-- A set of instruction numbers, by mark. -/
abbrev Members := Array Bool

/-- Whether a set holds an instruction number. -/
def Members.has (m : Members) (i : Nat) : Bool :=
  m[i]?.getD false

namespace Program

/-- The instructions of labels, in order. -/
def places (p : Program) (ls : List Label) : List Nat :=
  ls.filterMap (p.positions[·]?)

/-- The handlers of an instruction that other code does not own. -/
def handlers (p : Program) (owned : Members) (i : Nat) : List Nat :=
  (p.regions.filter fun r => r.covers i && !owned.has r.handler).map (·.handler)

/-- Where control goes from an instruction inside one copy: a call returns behind itself. -/
def successors (p : Program) (owned : Members) (i : Nat) : List Nat :=
  match p.items[i]? with
  | none => []
  | some (.insn insn) =>
    let along := p.places insn.targets ++ if insn.isTerminal then [] else [i + 1]
    if insn.isPseudo then along else along ++ p.handlers owned i
  | some (.jsr _) => (i + 1) :: p.handlers owned i
  | some (.ret _) => p.handlers owned i

/-- The code of the copy that starts at an instruction. -/
def members (p : Program) (owned : Members) (start : Nat) : Members :=
  reachable p.items.size (p.successors owned) start

end Program

/-- What has been written so far: instructions, and ranges with the number of their origin. -/
structure Expansion where
  next : Label
  code : Array Insn
  ranges : Array (Nat × TryCatch)

/-- Writes code; a failure is final. -/
abbrev Expand := StateT Expansion (Except CodeError)

/-- A label that nothing uses yet. -/
def fresh : Expand Label :=
  modifyGet fun e => (e.next, { e with next := e.next + 1 })

/-- Writes one instruction. -/
def emit (i : Insn) : Expand Unit :=
  modify fun e => { e with code := e.code.push i }

/-- Writes one range made from the region with the given number. -/
def record (region : Nat) (t : TryCatch) : Expand Unit :=
  modify fun e => { e with ranges := e.ranges.push (region, t) }

/-- The labels of the copies around a piece of code, innermost first. -/
abbrev Scopes := List (Std.TreeMap Label Label)

/-- What a label is called inside a copy: the innermost copy that renames it decides. -/
def rename (scopes : Scopes) (l : Label) : Label :=
  (scopes.findSome? (·[l]?)).getD l

/-- One copy to be written. -/
structure Copy where
  members : Members
  /-- The main code places also the labels of code that it does not own. -/
  isMain : Bool
  /-- Where `ret` goes. -/
  back : Option Label
  scopes : Scopes

/-- A call met while writing a copy. -/
structure Call where
  entryIndex : Nat
  entry : Label
  back : Label

/-- Ends a range that was opened at a label. -/
def close (scopes : Scopes) (number : Nat) (r : Region) (start : Label) : Expand Unit := do
  let stop ← fresh
  emit (.label stop)
  record number { r.entry with start, stop, handler := rename scopes r.entry.handler }

/-- Ends and starts one range in front of the copy of an instruction. -/
def cross (scopes : Scopes) (gap : Bool) (i : Nat) (number : Nat) (r : Region)
    (opened : Option Label) : Expand (Option Label) := do
  let inside := r.covers i
  let opened ← match opened with
    | some start =>
      if gap || !inside then do
        close scopes number r start
        pure none
      else pure (some start)
    | none => pure none
  if inside && opened.isNone then do
    let start ← fresh
    emit (.label start)
    return some start
  else return opened

/-- Where writing a copy stands: the open ranges by region, whether real code was skipped since the
last copied instruction, and the calls met so far (latest first). -/
structure Progress where
  opened : List (Option Label)
  gap : Bool
  calls : List Call

/-- Ends and starts ranges in front of the copy of an instruction, region by region. -/
def crossAll (p : Program) (c : Copy) (i : Nat) (s : Progress) : Expand Progress := do
  let opened ← (p.regions.zip s.opened).zipIdx.mapM fun ((r, o), number) =>
    cross c.scopes s.gap i number r o
  return { s with opened, gap := false }

/-- Writes the copy of one item. -/
def copyItem (p : Program) (c : Copy) (i : Nat) (item : Item) (s : Progress) : Expand Progress := do
  match item with
  | .insn (.label l) =>
    emit (.label (rename c.scopes l))
    return s
  | .insn insn =>
    emit (insn.retarget (rename c.scopes))
    return s
  | .jsr target =>
    let entry ← fresh
    let back ← fresh
    emit (.simple Op.aconstNull)
    emit (.jump Op.goto entry)
    emit (.label back)
    let entryIndex ← labelAt p.positions target
    return { s with calls := ⟨entryIndex, entry, back⟩ :: s.calls }
  | .ret _ =>
    match c.back with
    | some back =>
      emit (.jump Op.goto back)
      return s
    | none => throw (.subroutine i)

/-- Writes one item if the copy holds it. -/
def step (p : Program) (c : Copy) (s : Progress) (item : Item) (i : Nat) : Expand Progress := do
  if c.members.has i then
    let s ← if item.isPseudo then pure s else crossAll p c i s
    copyItem p c i item s
  else if c.isMain && item.placed.isSome then copyItem p c i item s
  else return { s with gap := s.gap || !item.isPseudo }

/-- Writes one copy and answers the calls in it. -/
def writeCopy (p : Program) (c : Copy) : Expand (List Call) := do
  let start : Progress := ⟨p.regions.map fun _ => none, false, []⟩
  let s ← p.items.toList.zipIdx.foldlM (fun s (item, i) => step p c s item i) start
  for ((r, o), number) in (p.regions.zip s.opened).zipIdx do
    if let some start := o then close c.scopes number r start
  return s.calls.reverse

/-- The renamings of a copy: every label in it gets a fresh one, in order. -/
def copyLabels (p : Program) (members : Members) : Expand (Std.TreeMap Label Label) :=
  p.items.toList.zipIdx.foldlM (fun scope (item, i) =>
    match members.has i, item.placed with
    | true, some l => do return scope.insert l (← fresh)
    | _, _ => return scope) ∅

/-- Writes a copy and then a copy of everything it calls, at most `nesting` calls deep. -/
def writeNested (p : Program) (main : Members) : (nesting : Nat) → Copy → Expand Unit
  | 0, c => do
    match ← writeCopy p c with
    | [] => return ()
    | call :: _ => throw (.subroutine call.entryIndex)
  | nesting + 1, c => do
    let calls ← writeCopy p c
    calls.forM fun call => do
      let members := p.members main call.entryIndex
      let scope ← copyLabels p members
      emit (.label call.entry)
      writeNested p main nesting
        { members, isMain := false, back := some call.back, scopes := scope :: c.scopes }

/-- The region of a protected range. A range must not end before it starts. -/
def region (positions : Std.TreeMap Label Nat) (t : TryCatch) : Except CodeError Region := do
  let start ← labelAt positions t.start
  let stop ← labelAt positions t.stop
  let handler ← labelAt positions t.handler
  return ⟨start, stop, handler, t⟩

/-- The ranges made from the regions, grouped by region. -/
def groupRanges (regions : List Region) (ranges : List (Nat × TryCatch)) : List TryCatch :=
  regions.zipIdx.flatMap fun (_, number) =>
    ranges.filterMap fun (k, t) => if k = number then some t else none

/-- Code in which no subroutine is left. -/
structure Expanded where
  insns : List Insn
  tryCatch : List TryCatch
  nextLabel : Label

/-- The instruction number of every label that items place. -/
def itemPositions (items : List Item) : Std.TreeMap Label Nat :=
  items.zipIdx.foldl (fun positions (item, i) =>
    match item.placed with
    | some l => positions.insert l i
    | none => positions) ∅

/-- Expands every subroutine; labels from `next` on are free. -/
def expand (items : List Item) (tryCatch : List TryCatch) (next : Label) :
    Except CodeError Expanded := do
  let positions := itemPositions items
  let regions ← tryCatch.mapM (region positions)
  if let some r := regions.find? fun r => r.stop < r.start then
    throw (.invertedRange r.entry.start)
  let p : Program := ⟨items.toArray, positions, regions⟩
  let main := p.members #[] 0
  let copy : Copy := { members := main, isMain := true, back := none, scopes := [] }
  let (_, e) ← (writeNested p main maxNesting copy).run ⟨next, #[], #[]⟩
  return ⟨e.code.toList, groupRanges regions e.ranges.toList, e.next⟩

end Subroutine

end Interpose
