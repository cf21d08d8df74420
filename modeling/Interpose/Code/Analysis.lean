import Std.Data.TreeSet
import Interpose.Code.Execute
/-!
# Type inference

`analyze` finds the frame in front of every instruction that control can reach. It starts with the
method's initial frame, executes instructions from a queue and delivers what comes out to their
successors: the handlers of the ranges around the instruction, the targets of its jumps and the
next instruction. A delivery merges with the frame that is there; an instruction whose frame has
changed is queued again. The result also decides whether woven code is legal: stack underflow, stacks
that do not match where paths meet, labels that are not placed and code that ends without returning
are all errors.

The queue runs empty as long as merging can change a frame only so often. For a hierarchy that
answers least common superclasses, `stepBound` steps are enough: a slot changes at most once for
each class name the method can bring up. So many steps are taken by recursion on their number; a
hierarchy of another kind may need more, and one that changes frames for ever gets no answer.
-/

namespace Interpose

/-- A handler of an instruction, and the class it catches. -/
structure Handler where
  target : Nat
  caught : String

/-- A protected range by instruction number. -/
structure Guard where
  start : Nat
  stop : Nat
  handler : Handler

/-- Whether a range covers an instruction. -/
def Guard.covers (g : Guard) (i : Nat) : Bool :=
  g.start ≤ i && i < g.stop

/-- Whether some instruction from one number up to another takes bytes. -/
def anyReal (code : Array Insn) (start stop : Nat) : Bool :=
  if start < stop then
    match code[start]? with
    | none => false
    | some insn => !insn.isPseudo || anyReal code (start + 1) stop
  else false
termination_by stop - start

namespace Analysis

/-- What the analysis of a method works with. -/
structure Method where
  pool : Pool
  context : MethodContext
  hierarchy : Hierarchy
  code : Array Insn
  positions : Std.TreeMap Label Nat
  guards : List Guard
  /-- The declared frames by instruction. -/
  hints : Std.TreeMap Nat Frame

/-- The protected range of a table entry. It has to hold an instruction that takes bytes. -/
def guard (pool : Pool) (code : Array Insn) (positions : Std.TreeMap Label Nat) (t : TryCatch) :
    Except CodeError Guard := do
  let start ← labelAt positions t.start
  let stop ← labelAt positions t.stop
  let handler ← labelAt positions t.handler
  if !(start < stop && anyReal code start stop) then throw (.emptyHandlerRange t.start)
  let caught ←
    if t.catchType = 0 then pure throwableClass else (pool.className t.catchType).mapError .format
  return ⟨start, stop, ⟨handler, caught⟩⟩

/-- The instructions that control can jump to: handlers and the targets of jumps. -/
def jumpTargets (insns : List Insn) (positions : Std.TreeMap Label Nat) (guards : List Guard) :
    Except CodeError (Std.TreeSet Nat) := do
  let handlers := guards.foldl (fun targets g => targets.insert g.handler.target) ∅
  insns.foldlM (fun targets insn =>
    insn.targets.foldlM (fun targets l => do return targets.insert (← labelAt positions l)) targets)
    handlers

namespace Method

/-- The handlers around an instruction, in table order. -/
def handlers (m : Method) (i : Nat) : List Handler :=
  (m.guards.filter (·.covers i)).map (·.handler)

/-- What is delivered to the handlers of an instruction: the locals in front of it and the thrown
object. Marks throw nothing. -/
def toHandlers (m : Method) (i : Nat) (insn : Insn) (f : Frame) : List (Nat × Frame) :=
  if insn.isPseudo then []
  else (m.handlers i).map fun h => (h.target, ⟨f.locals, [.object h.caught]⟩)

/-- What an instruction delivers to its successors, and the machine after it. -/
def deliveries (m : Method) (i : Nat) (insn : Insn) (f : Frame) :
    Except CodeError (List (Nat × Frame) × Machine) := do
  let after ← execute m.pool m.context.owner i insn { f with peak := 0 }
  let jumps ← insn.targets.mapM fun l => do return (← labelAt m.positions l, after.toFrame)
  let next ←
    if insn.isTerminal then pure []
    else if i + 1 < m.code.size then pure [(i + 1, after.toFrame)]
    else throw .fallOffEnd
  return (m.toHandlers i insn f ++ jumps ++ next, after)

/-- The frame at an instruction after a delivery. -/
def arrive (m : Method) (target : Nat) (existing : Option Frame) (incoming : Frame) :
    Except CodeError Frame := do
  let merged ←
    match existing with
    | some f => f.merge m.hierarchy target incoming
    | none => pure incoming
  return match m.hints[target]? with
    | some hint => merged.refine hint
    | none => merged

end Method

/-- How far the inference has come. -/
structure Progress where
  frames : Array (Option Frame)
  /-- Instructions to execute: the first list from its head on, then the second from its end on. -/
  front : List Nat
  back : List Nat
  queued : Array Bool
  maxStack : Nat
  maxLocals : Nat

namespace Progress

/-- Delivers a frame to an instruction, which is queued if its frame changes. -/
def deliver (m : Method) (p : Progress) (target : Nat) (incoming : Frame) :
    Except CodeError Progress := do
  let existing := (p.frames[target]?).join
  let merged ← m.arrive target existing incoming
  if existing = some merged then return p
  else
    let p := { p with frames := p.frames.setIfInBounds target (some merged) }
    if p.queued[target]?.getD true then return p
    else return { p with queued := p.queued.setIfInBounds target true, back := target :: p.back }

/-- Executes an instruction taken off the queue. -/
def step (m : Method) (p : Progress) (i : Nat) : Except CodeError Progress := do
  let p := { p with queued := p.queued.setIfInBounds i false }
  match (p.frames[i]?).join, m.code[i]? with
  | some f, some insn =>
    let (deliveries, after) ← m.deliveries i insn f
    let p := { p with
      maxStack := max p.maxStack after.peak
      maxLocals := max p.maxLocals after.locals.length }
    deliveries.foldlM (fun p (target, incoming) => p.deliver m target incoming) p
  | _, _ => return p

/-- Takes the next instruction off the queue. -/
def next (p : Progress) : Option (Nat × Progress) :=
  match p.front with
  | i :: front => some (i, { p with front })
  | [] =>
    match p.back.reverse with
    | i :: front => some (i, { p with front, back := [] })
    | [] => none

/-- Executes queued instructions until none is left, at most `limit` of them. -/
def run (m : Method) : (limit : Nat) → Progress → Except CodeError Progress
  | 0, p => if p.next.isNone then .ok p else .error .unsettled
  | limit + 1, p =>
    match p.next with
    | none => .ok p
    | some (i, p) =>
      match p.step m i with
      | .error e => .error e
      | .ok p => run m limit p

/-- Executes queued instructions until none is left, for as long as that takes. -/
def exhaust (m : Method) (p : Progress) : Option (Except CodeError Progress) :=
  match p.next with
  | none => some (.ok p)
  | some (i, p) =>
    match p.step m i with
    | .error e => some (.error e)
    | .ok p => p |>.exhaust m
partial_fixpoint

/-- Executes queued instructions until none is left. A run that is not over after the given number of
steps is left to take its time. -/
def finish (m : Method) (limit : Nat) (p : Progress) : Except CodeError Progress :=
  match p.run m limit with
  | .error .unsettled => (p.exhaust m).getD (.error .unsettled)
  | r => r

/-- The method's initial frame in front of its first instruction, which alone is queued. -/
def start (m : Method) (maxLocals : Nat) : Progress :=
  let initial := initialFrame m.context
  let n := m.code.size
  { frames := (Array.replicate n none).setIfInBounds 0 (some initial)
    front := [0]
    back := []
    queued := (Array.replicate n false).setIfInBounds 0 true
    maxStack := 0
    maxLocals := max initial.locals.length maxLocals }

end Progress

/-! ## How often frames can change -/

/-- The class and array names that a type stands for: its own and, of an array, those of its
components. -/
def namesOfType : JavaType → List String
  | .object name => [name]
  | .array component => (JavaType.array component).descriptor :: namesOfType component
  | _ => []

/-- The array names that can be made from a class name by one more dimension or by taking elements
away again. -/
def namesOfClass (name : String) : List String :=
  let depth := (name.toList.takeWhile (· == '[')).length
  arrayNameOf name :: (List.range (depth + 1)).map fun k => k.repeat componentName name

/-- The names that an instruction can bring up. -/
def namesOfInsn (pool : Pool) (insn : Insn) : List String :=
  let ofClass (index : UInt16) : List String :=
    match pool.className index with
    | .ok name => namesOfClass name
    | .error _ => []
  let ofField (descriptor : String) : List String :=
    match JavaType.ofDescriptor descriptor with
    | .ok t => namesOfType t
    | .error _ => []
  let ofMethod (descriptor : String) : List String :=
    match MethodDescriptor.ofDescriptor descriptor with
    | .ok d => namesOfType d.returnType
    | .error _ => []
  match insn with
  | .type _ index | .multiNewArray index _ => ofClass index
  | .int _ value => (primitiveArray value.toInt8.toUInt8).toList
  | .field _ index =>
    match pool.memberRef index with
    | .ok ref => ofField ref.descriptor
    | .error _ => []
  | .method _ index =>
    match pool.memberRef index with
    | .ok ref => ofMethod ref.descriptor
    | .error _ => []
  | .dynamic index =>
    match pool.get index with
    | .ok (.invokeDynamic _ nat) => ((pool.nameAndType nat).map (ofMethod ·.2)).toOption.getD []
    | _ => []
  | .ldc index =>
    match pool.get index with
    | .ok (.dynamic _ nat) => ((pool.nameAndType nat).map (ofField ·.2)).toOption.getD []
    | .ok (.stringRef _) => [stringClass]
    | .ok (.classRef _) => ["java/lang/Class"]
    | .ok (.methodType _) => ["java/lang/invoke/MethodType"]
    | .ok (.methodHandle _ _) => ["java/lang/invoke/MethodHandle"]
    | _ => []
  | _ => []

/-- The names that the frames of a method can hold before any merge. -/
def names (m : Method) : List String :=
  objectClass :: m.context.owner
    :: (m.context.descriptor.parameters.flatMap namesOfType
      ++ m.guards.map (·.handler.caught)
      ++ m.hints.toList.flatMap (fun (_, f) =>
        (f.locals ++ f.stack).flatMap fun
          | .object name => namesOfClass name
          | _ => [])
      ++ m.code.toList.flatMap (namesOfInsn m.pool))

/-- The greatest number of slots that locals and stack of a frame can have. -/
def slotBound (m : Method) : Nat :=
  let locals := m.code.foldl (fun n insn =>
    match insn with
    | .var _ slot => max n (slot.toNat + 2)
    | _ => n) (initialFrame m.context).locals.length
  locals + 6 * m.code.size + 1

/-- A number of steps after which the queue is empty for every hierarchy of least common
superclasses. -/
def stepBound (m : Method) : Nat :=
  1 + m.code.size * (1 + slotBound m * ((names m).length + 4))

end Analysis

/-- What type inference found out about a body. -/
structure Analysis where
  /-- The frame in front of every instruction; unreachable ones have none. -/
  frames : Array (Option Frame)
  /-- The instructions control can jump to. -/
  branchTargets : Std.TreeSet Nat
  maxStack : UInt16
  maxLocals : UInt16

namespace Analysis

/-- What the analysis of a body works with: labels and protected ranges resolved. -/
def Method.ofBody (body : Body) (context : MethodContext) (pool : Pool) (hierarchy : Hierarchy) :
    Except CodeError Method := do
  let positions := labelPositions body.insns
  let code := body.insns.toArray
  let guards ← body.tryCatch.mapM (guard pool code positions)
  return { pool, context, hierarchy, code, positions, guards,
           hints := declaredFrames pool context body positions }

end Analysis

/-- Infers the frames of a body. -/
def analyze (body : Body) (context : MethodContext) (pool : Pool) (hierarchy : Hierarchy) :
    Except CodeError Analysis := do
  let m ← Analysis.Method.ofBody body context pool hierarchy
  let branchTargets ← Analysis.jumpTargets body.insns m.positions m.guards
  if m.code.isEmpty then throw .fallOffEnd
  let start := Analysis.Progress.start m body.maxLocals.toNat
  let p ← start.finish m (Analysis.stepBound m)
  if p.maxStack > 0xFFFF then throw (.stackTooDeep p.maxStack)
  if p.maxLocals > 0xFFFF then throw (.badLocal p.maxLocals 0)
  return { frames := p.frames, branchTargets, maxStack := UInt16.ofNat p.maxStack,
           maxLocals := UInt16.ofNat p.maxLocals }

end Interpose
