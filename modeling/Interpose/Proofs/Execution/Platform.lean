import Interpose.Proofs.Code.Labels
/-!
# Running code

What instructions do to values. The stack, the local variables and the flow of control are the same
everywhere and spelled out here (`Platform.act`, `Platform.step`); whatever looks at objects, loads
constants or computes is an `Operation`, and a `Platform` says what it does. An exception goes to the
handler of the first entry of the table that covers the instruction and catches it.

Values are kept slot by slot. A wide value is followed by the mark `second`, as the types of its slots
are by `top`, so on the stack the mark is on top of the value.
-/

namespace Interpose

/-- The value in one slot. Floating-point numbers are kept as their bits. -/
inductive Word (Object : Type) where
  | int (n : Int32)
  | float (bits : UInt32)
  | long (n : Int64)
  | double (bits : UInt64)
  /-- The second slot of a wide value. -/
  | second
  | null
  | object (o : Object)
  /-- The instruction that a subroutine returns to. -/
  | address (i : Nat)
deriving DecidableEq

/-- What a platform carries out, with its constants by name. -/
inductive Operation where
  | simple (op : Opcode)
  | newArray (code : Int32)
  | type (op : Opcode) (className : String)
  | field (op : Opcode) (field : MemberRef)
  | method (op : Opcode) (method : MemberRef)
  | dynamic (bootstrap : UInt16) (name descriptor : String)
  | text (text : String)
  | constant (c : Constant)
  | multiNewArray (className : String) (dims : UInt8)
deriving DecidableEq

inductive Outcome (World Object : Type) where
  | done (world : World) (stack : List (Word Object))
  | thrown (world : World) (o : Object)
  /-- The operation is not defined on the operands. -/
  | stuck

/-- Where methods run: everything outside of stack and local variables is in a world. Whatever is thrown
can be caught as such. -/
structure Platform where
  World : Type
  Object : Type
  decEq : DecidableEq Object
  perform : Operation → World → List (Word Object) → Outcome World Object
  isA : World → Object → String → Bool
  thrown_isA : ∀ {op world stack world' o}, perform op world stack = .thrown world' o →
    isA world' o throwableClass = true

namespace Platform

variable (P : Platform)

instance : DecidableEq P.Object := P.decEq

/-- What a running method works on. -/
structure Store where
  world : P.World
  /-- The top of the stack comes first. -/
  stack : List (Word P.Object)
  locals : Nat → Word P.Object

/-- What an instruction asks for. -/
inductive Action where
  | next (s : P.Store)
  | jump (l : Label) (s : P.Store)
  | throw (world : P.World) (o : P.Object)
  | leave (value : List (Word P.Object)) (world : P.World)
  | stuck

end Platform

/-- The operation of an instruction; there is none if its constants cannot be looked up. -/
def Operation.ofInsn (pool : Pool) : Insn → Option Operation
  | .simple op => some (.simple op)
  | .int _ code => some (.newArray code)
  | .type op index => (pool.className index).toOption.map (.type op)
  | .field op index => (pool.memberRef index).toOption.map (.field op)
  | .method op index => (pool.memberRef index).toOption.map (.method op)
  | .dynamic index =>
    match pool.get index with
    | .ok (.invokeDynamic bootstrap nat) =>
      (pool.nameAndType nat).toOption.map fun (name, descriptor) => .dynamic bootstrap name descriptor
    | _ => none
  | .ldc index =>
    match pool.get index with
    | .ok (.stringRef t) => (pool.getUtf8 t).toOption.map .text
    | .ok c => some (.constant c)
    | .error _ => none
  | .multiNewArray index dims => (pool.className index).toOption.map (.multiNewArray · dims)
  | _ => none

def Op.movesWide (op : Opcode) : Bool :=
  op = Op.lload || op = Op.dload || op = Op.lstore || op = Op.dstore

namespace Word

variable {Object : Type}

/-- The stack after an opcode that only moves its topmost slots. -/
def rearranged : Opcode → List (Word Object) → Option (List (Word Object))
  | Op.pop, _ :: st => some st
  | Op.pop2, _ :: _ :: st => some st
  | Op.dup, a :: st => some (a :: a :: st)
  | Op.dupX1, a :: b :: st => some (a :: b :: a :: st)
  | Op.dupX2, a :: b :: c :: st => some (a :: b :: c :: a :: st)
  | Op.dup2, a :: b :: st => some (a :: b :: a :: b :: st)
  | Op.dup2X1, a :: b :: c :: st => some (a :: b :: c :: a :: b :: st)
  | Op.dup2X2, a :: b :: c :: d :: st => some (a :: b :: c :: d :: a :: b :: st)
  | Op.swap, a :: b :: st => some (b :: a :: st)
  | _, _ => none

def returned : Opcode → List (Word Object) → Option (List (Word Object))
  | Op.returnVoid, _ => some []
  | Op.ireturn, int n :: _ => some [int n]
  | Op.freturn, float b :: _ => some [float b]
  | Op.lreturn, second :: long n :: _ => some [second, long n]
  | Op.dreturn, second :: double b :: _ => some [second, double b]
  | Op.areturn, null :: _ => some [null]
  | Op.areturn, object o :: _ => some [object o]
  | _, _ => none

/-- The outcome of the six comparisons, in the order of their opcodes. -/
def compares (k : Nat) (a b : Int32) : Bool :=
  match k with
  | 0 => a == b
  | 1 => a != b
  | 2 => a < b
  | 3 => b ≤ a
  | 4 => b < a
  | _ => a ≤ b

def same [DecidableEq Object] : Word Object → Word Object → Option Bool
  | null, null => some true
  | object a, object b => some (a == b)
  | null, object _ | object _, null => some false
  | _, _ => none

/-- Whether a branch is taken, and the stack behind it. -/
def branch [DecidableEq Object] (op : Opcode) (st : List (Word Object)) :
    Option (Bool × List (Word Object)) :=
  if op = Op.goto then some (true, st)
  else if op = Op.ifnull || op = Op.ifnonnull then
    match st with
    | v :: st => (same v null).map fun e => (e == (op == Op.ifnull), st)
    | _ => none
  else if Op.between Op.ifeq Op.ifle op then
    match st with
    | int a :: st => some (compares (op - Op.ifeq).toNat a 0, st)
    | _ => none
  else if Op.between Op.ifIcmpeq Op.ifIcmple op then
    match st with
    | int b :: int a :: st => some (compares (op - Op.ifIcmpeq).toNat a b, st)
    | _ => none
  else if op = Op.ifAcmpeq || op = Op.ifAcmpne then
    match st with
    | b :: a :: st => (same a b).map fun e => (e == (op == Op.ifAcmpeq), st)
    | _ => none
  else none

end Word

def tableTarget (fallback : Label) (low : Int32) (targets : List Label) (key : Int32) : Label :=
  if low.toInt ≤ key.toInt then targets.getD (key.toInt - low.toInt).toNat fallback else fallback

def lookupTarget (fallback : Label) (pairs : List (Int32 × Label)) (key : Int32) : Label :=
  ((pairs.find? (·.1 == key)).map (·.2)).getD fallback

namespace Platform

variable {P : Platform}

namespace Store

def push (s : P.Store) (v : Word P.Object) : P.Store :=
  { s with stack := v :: s.stack }

def withStack (s : P.Store) (stack : List (Word P.Object)) : P.Store :=
  { s with stack }

def set (s : P.Store) (slot : Nat) (v : Word P.Object) : P.Store :=
  { s with locals := fun k => if k = slot then v else s.locals k }

def load (s : P.Store) (op : Opcode) (slot : Nat) : P.Store :=
  if Op.movesWide op then (s.push (s.locals slot)).push (s.locals (slot + 1))
  else s.push (s.locals slot)

def store (s : P.Store) (op : Opcode) (slot : Nat) : Option P.Store :=
  if Op.movesWide op then
    match s.stack with
    | b :: a :: st => some (((s.withStack st).set slot a).set (slot + 1) b)
    | _ => none
  else
    match s.stack with
    | v :: st => some ((s.withStack st).set slot v)
    | _ => none

end Store

variable (P)

def carryOut (pool : Pool) (insn : Insn) (s : P.Store) : P.Action :=
  match Operation.ofInsn pool insn with
  | none => .stuck
  | some op =>
    match P.perform op s.world s.stack with
    | .done world stack => .next { s with world, stack }
    | .thrown world o => .throw world o
    | .stuck => .stuck

def simple (pool : Pool) (op : Opcode) (s : P.Store) : P.Action :=
  if Op.isReturn op then
    match Word.returned op s.stack with
    | some value => .leave value s.world
    | none => .stuck
  else if op = Op.athrow then
    match s.stack with
    | .object o :: _ => if P.isA s.world o throwableClass then .throw s.world o else .stuck
    | stack =>
      match P.perform (.simple op) s.world stack with
      | .thrown world o => .throw world o
      | _ => .stuck
  else if Op.between Op.pop Op.swap op then
    match Word.rearranged op s.stack with
    | some stack => .next (s.withStack stack)
    | none => .stuck
  else if Op.between Op.iconstM1 Op.iconst5 op then
    .next (s.push (.int (Int32.ofInt (op.toNat - Op.iconst0.toNat))))
  else if op = Op.aconstNull then .next (s.push .null)
  else P.carryOut pool (.simple op) s

def act (pool : Pool) (insn : Insn) (s : P.Store) : P.Action :=
  match insn with
  | .label _ | .line _ => .next s
  | .simple op => P.simple pool op s
  | .int op n => if op = Op.newarray then P.carryOut pool insn s else .next (s.push (.int n))
  | .var op slot =>
    if op ≤ Op.aload then .next (s.load op slot.toNat)
    else
      match s.store op slot.toNat with
      | some s => .next s
      | none => .stuck
  | .iinc slot delta =>
    match s.locals slot.toNat with
    | .int n => .next (s.set slot.toNat (.int (n + delta.toInt32)))
    | _ => .stuck
  | .ldc index =>
    match pool.get index with
    | .ok (.integer n) => .next (s.push (.int n))
    | _ => P.carryOut pool insn s
  | .jump op l =>
    match Word.branch op s.stack with
    | some (true, stack) => .jump l (s.withStack stack)
    | some (false, stack) => .next (s.withStack stack)
    | none => .stuck
  | .tableSwitch fallback low targets =>
    match s.stack with
    | .int n :: stack => .jump (tableTarget fallback low targets n) (s.withStack stack)
    | _ => .stuck
  | .lookupSwitch fallback pairs =>
    match s.stack with
    | .int n :: stack => .jump (lookupTarget fallback pairs n) (s.withStack stack)
    | _ => .stuck
  | _ => P.carryOut pool insn s

/-- Whether an entry of the table is for an exception of an instruction. -/
def catches (pool : Pool) (place : Label → Option Nat) (world : P.World) (o : P.Object) (i : Nat)
    (t : TryCatch) : Bool :=
  match place t.start, place t.stop with
  | some start, some stop =>
    start ≤ i && i < stop && (t.catchType = 0 ||
      match pool.className t.catchType with
      | .ok name => P.isA world o name
      | .error _ => false)
  | _, _ => false

inductive Status where
  | running (i : Nat) (s : P.Store)
  | returned (value : List (Word P.Object)) (world : P.World)
  | thrown (o : P.Object) (world : P.World)
  | stuck

/-- An exception at an instruction of a body. The handler finds it alone on the stack. -/
def raise (pool : Pool) (b : Body) (i : Nat) (s : P.Store) (world : P.World) (o : P.Object) :
    P.Status :=
  let place (l : Label) : Option Nat := (labelPositions b.insns)[l]?
  match b.tryCatch.find? (P.catches pool place world o i) with
  | none => .thrown o world
  | some t =>
    match place t.handler with
    | some j => .running j { s with world, stack := [.object o] }
    | none => .stuck

/-- One instruction of a body. Behind a return, a throw and a branch that is always taken no run goes
on. -/
def step (pool : Pool) (b : Body) (i : Nat) (s : P.Store) : P.Status :=
  match b.insns[i]? with
  | none => .stuck
  | some insn =>
    match P.act pool insn s with
    | .next s => if insn.isTerminal then .stuck else .running (i + 1) s
    | .jump l s =>
      match (labelPositions b.insns)[l]? with
      | some j => .running j s
      | none => .stuck
    | .throw world o => P.raise pool b i s world o
    | .leave value world => .returned value world
    | .stuck => .stuck

/-- At most so many instructions: what was executed, each with the store in front of it, and where the
run is then. -/
def run (pool : Pool) (b : Body) : (fuel : Nat) → P.Status → List (Nat × P.Store) × P.Status
  | fuel + 1, .running i s =>
    let (events, status) := run pool b fuel (P.step pool b i s)
    ((i, s) :: events, status)
  | _, status => ([], status)

end Platform

/-! ## Exceptions -/

namespace Platform

variable {P : Platform} {pool : Pool}

theorem catches_eq_true {insns : List Insn} {w : P.World} {o : P.Object} {k : Nat} {t : TryCatch} :
    P.catches pool (fun l => (labelPositions insns)[l]?) w o k t = true ↔
      t.Covers insns k ∧ (t.catchType = 0 ∨
        ∃ name, pool.className t.catchType = .ok name ∧ P.isA w o name = true) := by
  unfold catches TryCatch.Covers
  simp only [← labelPositions_eq_some]
  cases (labelPositions insns)[t.start]? with
  | none => simp
  | some a =>
    cases (labelPositions insns)[t.stop]? with
    | none => simp
    | some b =>
      cases pool.className t.catchType with
      | error e => simp [and_assoc]
      | ok name => simp [and_assoc]

/-- Whatever an instruction throws can be caught as such. -/
theorem throwable_of_throws {insn : Insn} {s : P.Store} {w : P.World} {o : P.Object}
    (h : P.act pool insn s = .throw w o) : P.isA w o throwableClass = true := by
  have carried : P.carryOut pool insn s = .throw w o → P.isA w o throwableClass = true := by
    intro h
    unfold carryOut at h
    split at h
    · cases h
    · split at h
      · cases h
      · rename_i hx
        cases h
        exact P.thrown_isA hx
      · cases h
  cases insn with
  | label _ | line _ => cases h
  | simple op =>
    unfold act simple at h
    simp only at h
    split at h
    · split at h <;> cases h
    split at h
    · split at h
      · split at h
        · cases h
          assumption
        · cases h
      · split at h
        · cases h
          exact P.thrown_isA ‹_›
        · cases h
    split at h
    · split at h <;> cases h
    split at h
    · cases h
    split at h
    · cases h
    exact carried h
  | int op n =>
    unfold act at h
    simp only at h
    split at h
    · exact carried h
    · cases h
  | var op slot =>
    unfold act at h
    simp only at h
    split at h
    · cases h
    · split at h <;> cases h
  | iinc slot delta =>
    unfold act at h
    simp only at h
    split at h <;> cases h
  | ldc index =>
    unfold act at h
    simp only at h
    split at h
    · cases h
    · exact carried h
  | jump op l =>
    unfold act at h
    simp only at h
    split at h <;> cases h
  | tableSwitch _ _ _ | lookupSwitch _ _ =>
    unfold act at h
    simp only at h
    split at h <;> cases h
  | _ => exact carried h

/-- What is no object is not thrown: the platform throws something of its own. -/
theorem act_athrow_other {w w' : P.World} {o : P.Object} {st : List (Word P.Object)}
    (ν : Nat → Word P.Object) (hst : ∀ x rest, st ≠ .object x :: rest)
    (h : P.perform (.simple Op.athrow) w st = .thrown w' o) :
    P.act pool (.simple Op.athrow) ⟨w, st, ν⟩ = .throw w' o := by
  change P.simple pool Op.athrow ⟨w, st, ν⟩ = _
  unfold simple
  rw [if_neg (by decide), if_pos rfl]
  split
  · exact absurd ‹_› (hst _ _)
  · rw [h]

/-- If what is no object can be thrown, it is the platform that throws. -/
theorem thrown_of_athrow {w : P.World} {st : List (Word P.Object)} {ν : Nat → Word P.Object}
    (hst : ∀ x rest, st ≠ .object x :: rest) (h : P.act pool (.simple Op.athrow) ⟨w, st, ν⟩ ≠ .stuck) :
    ∃ w' o, P.perform (.simple Op.athrow) w st = .thrown w' o := by
  change P.simple pool Op.athrow ⟨w, st, ν⟩ ≠ _ at h
  unfold simple at h
  rw [if_neg (by decide), if_pos rfl] at h
  split at h
  · exact absurd ‹_› (hst _ _)
  · split at h
    · exact ⟨_, _, ‹_›⟩
    · exact absurd rfl h

theorem step_throw {b : Body} {i : Nat} {insn : Insn} {s : P.Store} {w : P.World} {o : P.Object}
    (hi : b.insns[i]? = some insn) (ha : P.act pool insn s = .throw w o) :
    P.step pool b i s = P.raise pool b i s w o := by
  simp only [step, hi, ha]

theorem step_next {b : Body} {i : Nat} {insn : Insn} {s u : P.Store} (hi : b.insns[i]? = some insn)
    (ha : P.act pool insn s = .next u) (hterminal : insn.isTerminal = false) :
    P.step pool b i s = .running (i + 1) u := by
  simp only [step, hi, ha, hterminal]
  rfl

theorem step_jump {b : Body} {i j : Nat} {insn : Insn} {s u : P.Store} {l : Label} (hi : b.insns[i]? = some insn)
    (ha : P.act pool insn s = .jump l u) (hj : LastPlace b.insns l j) :
    P.step pool b i s = .running j u := by
  simp only [step, hi, ha, labelPositions_eq_some.2 hj]

theorem step_leave {b : Body} {i : Nat} {insn : Insn} {s : P.Store} {value : List (Word P.Object)} {w : P.World}
    (hi : b.insns[i]? = some insn) (ha : P.act pool insn s = .leave value w) :
    P.step pool b i s = .returned value w := by
  simp only [step, hi, ha]

/-- Where nothing is covered an exception leaves the method. -/
theorem raise_uncovered {b : Body} {i : Nat} {s : P.Store} {w : P.World} {o : P.Object}
    (hnone : ∀ t ∈ b.tryCatch, ¬ t.Covers b.insns i) : P.raise pool b i s w o = .thrown o w := by
  have hfind : b.tryCatch.find?
      (P.catches pool (fun l => (labelPositions b.insns)[l]?) w o i) = none := by
    rw [List.find?_eq_none]
    intro t ht hcatches
    exact hnone t ht (catches_eq_true.1 hcatches).1
  simp only [raise, hfind]

/-- An exception goes to the handler of the first entry for it. -/
theorem raise_handled {b : Body} {i j : Nat} {s : P.Store} {w : P.World} {o : P.Object}
    {t : TryCatch}
    (hfind : b.tryCatch.find? (P.catches pool (fun l => (labelPositions b.insns)[l]?) w o i) = some t)
    (hj : LastPlace b.insns t.handler j) :
    P.raise pool b i s w o = .running j ⟨w, [.object o], s.locals⟩ := by
  simp only [raise, hfind, labelPositions_eq_some.2 hj]

/-! ## Runs -/

variable {b : Body}

theorem run_running (n i : Nat) (s : P.Store) : P.run pool b (n + 1) (.running i s) =
    ((i, s) :: (P.run pool b n (P.step pool b i s)).1, (P.run pool b n (P.step pool b i s)).2) := rfl

theorem run_returned (n : Nat) (value : List (Word P.Object)) (w : P.World) :
    P.run pool b n (.returned value w) = ([], .returned value w) := by
  cases n <;> rfl

theorem run_thrown (n : Nat) (o : P.Object) (w : P.World) :
    P.run pool b n (.thrown o w) = ([], .thrown o w) := by
  cases n <;> rfl

theorem run_stuck (n : Nat) : P.run pool b n .stuck = ([], .stuck) := by
  cases n <;> rfl

theorem run_add (n m : Nat) (a : P.Status) : P.run pool b (n + m) a =
    ((P.run pool b n a).1 ++ (P.run pool b m (P.run pool b n a).2).1, (P.run pool b m (P.run pool b n a).2).2) := by
  induction n generalizing a with
  | zero => rw [Nat.zero_add]; rfl
  | succ n ih =>
    cases a with
    | running i s =>
      rw [Nat.add_right_comm, run_running, run_running, ih]
      rfl
    | returned value w => simp only [run_returned, List.nil_append]
    | thrown o w => simp only [run_thrown, List.nil_append]
    | stuck => simp only [run_stuck, List.nil_append]

end Platform

end Interpose
