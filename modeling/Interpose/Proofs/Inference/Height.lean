import Interpose.Proofs.Inference.Result
/-!
# The height of the operand stack

How many slots an instruction takes off the operand stack and puts on it does not depend on their
types (`Insn.effect`). So the height of the stack can be followed along every path of control, by
counting alone (`ControlPath`). What type inference answers is what counting finds:

* `execute_height`: executing an instruction changes the height by its effect.
* `analyze_counts`: on every path the height in front of an instruction is that of its frame, enough
  slots are there for it, and control stays within the code; the instructions that have a frame are
  those on paths.
-/

namespace Interpose

/-- The slots that an instruction takes off the operand stack, and those it puts there. -/
structure SlotEffect where
  taken : Nat
  pushed : Nat
deriving DecidableEq

namespace Op

/-- The opcodes without operands by their effect on the operand stack. -/
def effects : List (SlotEffect × List Opcode) := [
  (⟨0, 0⟩, [nop, returnVoid]),
  (⟨0, 1⟩, [aconstNull, iconstM1, iconst0, iconst1, iconst2, iconst3, iconst4, iconst5, fconst0,
    fconst1, fconst2]),
  (⟨0, 2⟩, [lconst0, lconst1, dconst0, dconst1]),
  (⟨1, 0⟩, [pop, ireturn, freturn, areturn, athrow, monitorenter, monitorexit]),
  (⟨1, 1⟩, [ineg, fneg, i2f, f2i, i2b, i2c, i2s, arraylength]),
  (⟨1, 2⟩, [dup, i2l, i2d, f2l, f2d]),
  (⟨2, 0⟩, [pop2, lreturn, dreturn]),
  (⟨2, 1⟩, [iaload, faload, aaload, baload, caload, saload, iadd, fadd, isub, fsub, imul, fmul, idiv,
    fdiv, irem, frem, ishl, ishr, iushr, iand, ior, ixor, l2i, l2f, d2i, d2f, fcmpl, fcmpg]),
  (⟨2, 2⟩, [laload, daload, swap, lneg, dneg, l2d, d2l]),
  (⟨2, 3⟩, [dupX1]),
  (⟨2, 4⟩, [dup2]),
  (⟨3, 0⟩, [iastore, fastore, aastore, bastore, castore, sastore]),
  (⟨3, 2⟩, [lshl, lshr, lushr]),
  (⟨3, 4⟩, [dupX2]),
  (⟨3, 5⟩, [dup2X1]),
  (⟨4, 0⟩, [lastore, dastore]),
  (⟨4, 1⟩, [lcmp, dcmpl, dcmpg]),
  (⟨4, 2⟩, [ladd, dadd, lsub, dsub, lmul, dmul, ldiv, ddiv, lrem, drem, land, lor, lxor]),
  (⟨4, 6⟩, [dup2X2])]

def effect (op : Opcode) : Option SlotEffect :=
  (effects.find? (op ∈ ·.2)).map (·.1)

def movedSlots (op : Opcode) : Nat :=
  if op = lload || op = dload || op = lstore || op = dstore then 2 else 1

end Op

/-- The slots of the constant at a slot of the pool, if it can be loaded. A computed constant that
claims to have no value takes one all the same. -/
def Pool.loadedSlots (pool : Pool) (index : UInt16) : Option Nat :=
  match pool.get index with
  | .ok (.integer _) | .ok (.float _) | .ok (.stringRef _) | .ok (.classRef _)
  | .ok (.methodType _) | .ok (.methodHandle _ _) => some 1
  | .ok (.long _) | .ok (.double _) => some 2
  | .ok (.dynamic _ nat) => do
    let (_, descriptor) ← (pool.nameAndType nat).toOption
    return max 1 (← (JavaType.ofDescriptor descriptor).toOption).slots
  | _ => none

/-- What an invocation takes and puts, but for the object it is invoked on. -/
def MethodDescriptor.effect (d : MethodDescriptor) : SlotEffect :=
  ⟨d.parameterSlots, d.returnType.slots⟩

/-- What an instruction takes off the operand stack and puts on it. There is no telling when a constant
it names is of the wrong kind. -/
def Insn.effect (pool : Pool) : Insn → Option SlotEffect
  | .label _ | .line _ | .iinc _ _ => some ⟨0, 0⟩
  | .simple op => Op.effect op
  | .int op _ => some (if op = Op.newarray then ⟨1, 1⟩ else ⟨0, 1⟩)
  | .var op _ => some (if op ≤ Op.aload then ⟨0, Op.movedSlots op⟩ else ⟨Op.movedSlots op, 0⟩)
  | .type op _ => some (if op = Op.newObject then ⟨0, 1⟩ else ⟨1, 1⟩)
  | .field op index => do
    let ref ← (pool.memberRef index).toOption
    let type ← (JavaType.ofDescriptor ref.descriptor).toOption
    return if op = Op.getstatic then ⟨0, type.slots⟩
      else if op = Op.putstatic then ⟨type.slots, 0⟩
      else if op = Op.getfield then ⟨1, type.slots⟩
      else ⟨type.slots + 1, 0⟩
  | .method op index => do
    let ref ← (pool.memberRef index).toOption
    let e := (← (MethodDescriptor.ofDescriptor ref.descriptor).toOption).effect
    return if op = Op.invokestatic then e else { e with taken := e.taken + 1 }
  | .dynamic index =>
    match pool.get index with
    | .ok (.invokeDynamic _ nat) => do
      let (_, descriptor) ← (pool.nameAndType nat).toOption
      return (← (MethodDescriptor.ofDescriptor descriptor).toOption).effect
    | _ => none
  | .ldc index => (pool.loadedSlots index).map (⟨0, ·⟩)
  | .jump op _ => some (
      if op = Op.goto then ⟨0, 0⟩
      else if Op.between Op.ifIcmpeq Op.ifAcmpne op then ⟨2, 0⟩
      else ⟨1, 0⟩)
  | .tableSwitch _ _ _ | .lookupSwitch _ _ => some ⟨1, 0⟩
  | .multiNewArray _ dims => some ⟨dims.toNat, 1⟩

/-- Control can reach an instruction with so many slots on the operand stack: at the start, along a
fall-through, a jump or a switch, or by an exception, of which only the thrown object is on the
stack. -/
inductive ControlPath (pool : Pool) (b : Body) : Nat → Nat → Prop
  | start : ControlPath pool b 0 0
  | next {i height insn} {e : SlotEffect} : ControlPath pool b i height → b.insns[i]? = some insn →
    insn.effect pool = some e → insn.isTerminal = false →
    ControlPath pool b (i + 1) (height - e.taken + e.pushed)
  | jump {i j height l insn} {e : SlotEffect} : ControlPath pool b i height →
    b.insns[i]? = some insn → insn.effect pool = some e → l ∈ insn.targets → LastPlace b.insns l j →
    ControlPath pool b j (height - e.taken + e.pushed)
  | thrown {i j start stop height insn t} : ControlPath pool b i height → b.insns[i]? = some insn →
    insn.isPseudo = false → t ∈ b.tryCatch → LastPlace b.insns t.start start →
    LastPlace b.insns t.stop stop → start ≤ i → i < stop → LastPlace b.insns t.handler j →
    ControlPath pool b j 1

/-! ## The height behind an instruction -/

/-- The stack of the second machine is that of the first with an effect on its height. -/
def Machine.Shifts (m m' : Machine) (e : SlotEffect) : Prop :=
  e.taken ≤ m.stack.length ∧ m'.stack.length = m.stack.length - e.taken + e.pushed

namespace Machine

variable {m m' : Machine} {i : Nat}

theorem slots_ofJava {t : JavaType} (h : t ≠ .void) : (VType.ofJava t).slots.length = t.slots := by
  cases t with
  | void => exact absurd rfl h
  | _ => rfl

theorem height_pushSlots (m : Machine) (vs : List VType) :
    (m.pushSlots vs).stack.length = m.stack.length + vs.length := by
  simp only [pushSlots, List.length_append]
  omega

theorem height_push (m : Machine) (v : VType) :
    (m.push v).stack.length = m.stack.length + v.slots.length := by
  rw [push, height_pushSlots, List.length_reverse]

theorem height_pushJava (m : Machine) (t : JavaType) :
    (m.pushJava t).stack.length = m.stack.length + t.slots := by
  unfold pushJava
  split
  · rename_i h
    rw [h]
    rfl
  · rename_i h
    rw [height_push, slots_ofJava h]

theorem height_pushOption (m : Machine) (v : Option VType) :
    (m.pushOption v).stack.length = m.stack.length + (v.elim 0 (·.slots.length)) := by
  cases v with
  | none => rfl
  | some v => exact m.height_push v

theorem height_popSlots {n : Nat} {vs : List VType} (h : m.popSlots i n = .ok (vs, m')) :
    n ≤ m.stack.length ∧ m'.stack.length = m.stack.length - n ∧ vs.length = n := by
  unfold popSlots at h
  split at h
  · cases h
  · cases h
    refine ⟨by omega, List.length_drop, ?_⟩
    rw [List.length_take]
    omega

theorem height_dropSlots {n : Nat} (h : m.dropSlots i n = .ok m') :
    n ≤ m.stack.length ∧ m'.stack.length = m.stack.length - n := by
  obtain ⟨⟨vs, m''⟩, hp, rfl⟩ := map_eq_ok.1 h
  exact ⟨(height_popSlots hp).1, (height_popSlots hp).2.1⟩

theorem height_pop {v : VType} (h : m.pop i = .ok (v, m')) :
    1 ≤ m.stack.length ∧ m'.stack.length = m.stack.length - 1 := by
  unfold pop at h
  split at h
  · rename_i hs
    cases h
    rw [hs]
    exact ⟨Nat.succ_pos _, rfl⟩
  · cases h

theorem height_popReference {v : VType} (h : m.popReference i = .ok (v, m')) :
    1 ≤ m.stack.length ∧ m'.stack.length = m.stack.length - 1 :=
  height_pop (popReference_eq_ok.1 h).1

theorem height_construct (m : Machine) (owner : String) (v : VType) :
    (m.construct owner v).stack.length = m.stack.length := by
  cases v <;> simp [construct, replaceAll]

theorem length_slots_of_reference {v : VType} (h : v.isReference = true) : v.slots.length = 1 := by
  cases v with
  | top | int | float | long | double => cases h
  | _ => rfl

theorem movedSlots_of_narrow {op : Opcode} (h1 : op ≠ Op.lload) (h2 : op ≠ Op.dload)
    (h3 : op ≠ Op.lstore) (h4 : op ≠ Op.dstore) : Op.movedSlots op = 1 := by
  simp only [Op.movedSlots, h1, h2, h3, h4, decide_false, Bool.or_self, Bool.false_eq_true, if_false]

theorem height_load {op : Opcode} {slot : Nat} (hop : op ≤ Op.aload)
    (h : m.load i op slot = .ok m') : m'.stack.length = m.stack.length + Op.movedSlots op := by
  unfold load at h
  split at h
  · cases h
  · have pushed : ∀ v : VType, v.slots.length = Op.movedSlots op →
        (Except.ok (m.push v) : Except CodeError Machine) = .ok m' →
        m'.stack.length = m.stack.length + Op.movedSlots op := by
      intro v hv e
      cases e
      rw [height_push, hv]
    by_cases h1 : op = Op.iload
    · rw [if_pos h1] at h
      exact pushed .int (by rw [h1]; rfl) h
    rw [if_neg h1] at h
    by_cases h2 : op = Op.lload
    · rw [if_pos h2] at h
      exact pushed .long (by rw [h2]; rfl) h
    rw [if_neg h2] at h
    by_cases h3 : op = Op.fload
    · rw [if_pos h3] at h
      exact pushed .float (by rw [h3]; rfl) h
    rw [if_neg h3] at h
    by_cases h4 : op = Op.dload
    · rw [if_pos h4] at h
      exact pushed .double (by rw [h4]; rfl) h
    rw [if_neg h4] at h
    split at h
    · rename_i hv
      refine pushed _ ?_ h
      rw [length_slots_of_reference hv, movedSlots_of_narrow h2 h4]
      · rintro rfl
        exact absurd hop (by decide)
      · rintro rfl
        exact absurd hop (by decide)
    · cases h

theorem shifts_store {op : Opcode} {slot : Nat} (hop : ¬ op ≤ Op.aload)
    (h : m.store i op slot = .ok m') : m.Shifts m' ⟨Op.movedSlots op, 0⟩ := by
  rw [store_eq] at h
  obtain ⟨⟨v, n⟩, hp, rfl⟩ := map_eq_ok.1 h
  unfold popStored at hp
  by_cases hwide : (op = Op.lstore || op = Op.dstore) = true
  · rw [if_pos hwide] at hp
    obtain ⟨⟨vs, n'⟩, hp, e⟩ := map_eq_ok.1 hp
    cases e
    have hmoved : Op.movedSlots op = 2 := by
      simp only [Bool.or_eq_true, decide_eq_true_eq] at hwide
      rcases hwide with rfl | rfl <;> rfl
    rw [hmoved]
    exact ⟨(height_popSlots hp).1, (height_popSlots hp).2.1⟩
  · rw [if_neg hwide] at hp
    have hmoved : Op.movedSlots op = 1 := by
      simp only [Bool.or_eq_true, decide_eq_true_eq, not_or] at hwide
      refine movedSlots_of_narrow ?_ ?_ hwide.1 hwide.2
      · rintro rfl
        exact hop (by decide)
      · rintro rfl
        exact hop (by decide)
    rw [hmoved]
    suffices popped : 1 ≤ m.stack.length ∧ n.stack.length = m.stack.length - 1 from popped
    split at hp
    · exact height_popReference hp
    · exact height_pop hp

end Machine

def SimpleEffect.height : SimpleEffect → SlotEffect
  | .slots taken pushed => ⟨taken, pushed.elim 0 (·.slots.length)⟩
  | .reference pushed => ⟨1, pushed.elim 0 (·.slots.length)⟩
  | .element type => ⟨2, (type.getD .null).slots.length⟩
  | .copy copied below => ⟨copied + below, copied + below + copied⟩
  | .swap => ⟨2, 2⟩

theorem Op.effect_eq (op : Opcode) : Op.effect op = (simpleEffect op).map SimpleEffect.height := by
  have all : ∀ n : Fin 256, Op.effect (UInt8.ofNat n) =
      (simpleEffect (UInt8.ofNat n)).map SimpleEffect.height := by decide +kernel
  simpa using all ⟨op.toNat, op.toNat_lt⟩

namespace Machine

variable {m m' : Machine} {i : Nat}

theorem elementType_reference (v : VType) : (elementType v).isReference = true := by
  unfold elementType
  split
  · split <;> rfl
  · rfl
  · rfl

theorem shifts_simple {op : Opcode} (h : m.simple i op = .ok m') :
    ∃ e, Op.effect op = some e ∧ m.Shifts m' e := by
  unfold simple at h
  rw [Op.effect_eq]
  cases he : simpleEffect op with
  | none =>
    rw [he] at h
    cases h
  | some e =>
    rw [he] at h
    refine ⟨e.height, rfl, ?_⟩
    cases e with
    | slots taken pushed =>
      obtain ⟨n, hd, h⟩ := bind_eq_ok.1 h
      cases h
      obtain ⟨hle, hn⟩ := height_dropSlots hd
      exact ⟨hle, by rw [height_pushOption, hn]; rfl⟩
    | reference pushed =>
      obtain ⟨⟨v, n⟩, hp, h⟩ := bind_eq_ok.1 h
      cases h
      obtain ⟨hle, hn⟩ := height_popReference hp
      exact ⟨hle, by rw [height_pushOption, hn]; rfl⟩
    | element type =>
      obtain ⟨⟨v, n⟩, hp, h⟩ := bind_eq_ok.1 h
      obtain ⟨⟨array, n'⟩, hp', h⟩ := bind_eq_ok.1 h
      cases h
      obtain ⟨hle, hn⟩ := height_pop hp
      obtain ⟨hle', hn'⟩ := height_popReference hp'
      have hslots : (type.getD (elementType array)).slots.length = (type.getD .null).slots.length := by
        cases type with
        | none => exact length_slots_of_reference (elementType_reference array)
        | some v => rfl
      refine ⟨show 2 ≤ _ by omega, ?_⟩
      rw [height_push, hslots]
      change n'.stack.length + _ = m.stack.length - 2 + (type.getD .null).slots.length
      omega
    | copy copied below =>
      obtain ⟨⟨vs, n⟩, hp, h⟩ := bind_eq_ok.1 h
      cases h
      obtain ⟨hle, hn, hvs⟩ := height_popSlots hp
      refine ⟨hle, ?_⟩
      rw [height_pushSlots, List.length_append, List.length_take, hn, hvs]
      change _ = m.stack.length - (copied + below) + (copied + below + copied)
      omega
    | swap =>
      obtain ⟨⟨vs, n⟩, hp, h⟩ := bind_eq_ok.1 h
      cases h
      obtain ⟨hle, hn, hvs⟩ := height_popSlots hp
      exact ⟨hle, by rw [height_pushSlots, List.length_reverse, hn, hvs]; rfl⟩

end Machine

theorem bind_toOption {ε α β : Type} {x : Except ε α} {a : α} (h : x = .ok a) (f : α → Option β) :
    (x.toOption >>= f) = f a := by
  rw [h]
  rfl

theorem loadedSlots_of_constantType {pool : Pool} {i : Nat} {index : UInt16} {v : VType}
    (h : constantType pool i index = .ok v) : pool.loadedSlots index = some v.slots.length := by
  obtain ⟨c, hc, h⟩ := bind_eq_ok.1 h
  unfold Pool.loadedSlots
  rw [mapError_eq_ok.1 hc]
  cases c with
  | dynamic bootstrap nat =>
    obtain ⟨⟨name, descriptor⟩, hn, h⟩ := bind_eq_ok.1 h
    obtain ⟨t, ht, h⟩ := bind_eq_ok.1 h
    cases h
    simp only [bind_toOption (mapError_eq_ok.1 hn), bind_toOption (mapError_eq_ok.1 ht),
      VType.length_slots_ofJava]
    rfl
  | integer _ | float _ | long _ | double _ | stringRef _ | classRef _ | methodType _
  | methodHandle _ _ =>
    cases h
    rfl
  | _ => cases h

section Execute

variable {pool : Pool} {owner : String} {i : Nat} {m m' : Machine}

/-- Parameters come off the stack, and a result goes there. -/
theorem shifts_call {d : MethodDescriptor} {n : Machine}
    (h : m.dropSlots i d.parameterSlots = .ok n) : m.Shifts (n.pushJava d.returnType) d.effect := by
  obtain ⟨hle, hn⟩ := Machine.height_dropSlots h
  exact ⟨hle, by rw [Machine.height_pushJava, hn]; rfl⟩

theorem shifts_type {op : Opcode} {index : UInt16}
    (h : execute pool owner i (.type op index) m = .ok m') :
    m.Shifts m' (if op = Op.newObject then ⟨0, 1⟩ else ⟨1, 1⟩) := by
  obtain ⟨name, -, h⟩ := bind_eq_ok.1 h
  split at h
  · rename_i hop
    cases h
    rw [if_pos hop]
    exact ⟨Nat.zero_le _, Machine.height_push _ _⟩
  rename_i hop
  rw [if_neg hop]
  split at h
  · obtain ⟨⟨v, n⟩, hp, h⟩ := bind_eq_ok.1 h
    cases h
    obtain ⟨hle, hn⟩ := Machine.height_pop hp
    exact ⟨hle, by rw [Machine.height_push, hn]; rfl⟩
  · obtain ⟨⟨v, n⟩, hp, h⟩ := bind_eq_ok.1 h
    cases h
    obtain ⟨hle, hn⟩ := Machine.height_popReference hp
    refine ⟨hle, ?_⟩
    rw [Machine.height_push, hn]
    split <;> rfl

theorem shifts_field {op : Opcode} {index : UInt16}
    (h : execute pool owner i (.field op index) m = .ok m') :
    ∃ e, (Insn.field op index).effect pool = some e ∧ m.Shifts m' e := by
  obtain ⟨ref, hr, h⟩ := bind_eq_ok.1 h
  obtain ⟨type, ht, h⟩ := bind_eq_ok.1 h
  simp only [Insn.effect, bind_toOption (mapError_eq_ok.1 hr), bind_toOption (mapError_eq_ok.1 ht)]
  refine ⟨_, rfl, ?_⟩
  split at h
  · rename_i hop
    cases h
    rw [if_pos hop]
    exact ⟨Nat.zero_le _, Machine.height_pushJava _ _⟩
  rename_i hop
  rw [if_neg hop]
  split at h
  · rename_i hop
    rw [if_pos hop]
    exact Machine.height_dropSlots h
  rename_i hop
  rw [if_neg hop]
  split at h
  · rename_i hop
    obtain ⟨⟨v, n⟩, hp, h⟩ := bind_eq_ok.1 h
    cases h
    rw [if_pos hop]
    obtain ⟨hle, hn⟩ := Machine.height_popReference hp
    exact ⟨hle, by rw [Machine.height_pushJava, hn]⟩
  · rename_i hop
    obtain ⟨n, hd, h⟩ := bind_eq_ok.1 h
    obtain ⟨⟨v, n'⟩, hp, h⟩ := bind_eq_ok.1 h
    cases h
    rw [if_neg hop]
    obtain ⟨hle, hn⟩ := Machine.height_dropSlots hd
    obtain ⟨hle', hn'⟩ := Machine.height_popReference hp
    refine ⟨show type.slots + 1 ≤ _ by omega, ?_⟩
    simp only
    omega

theorem shifts_method {op : Opcode} {index : UInt16}
    (h : execute pool owner i (.method op index) m = .ok m') :
    ∃ e, (Insn.method op index).effect pool = some e ∧ m.Shifts m' e := by
  obtain ⟨ref, hr, h⟩ := bind_eq_ok.1 h
  obtain ⟨d, hd, h⟩ := bind_eq_ok.1 h
  obtain ⟨n, hn, h⟩ := bind_eq_ok.1 h
  simp only [Insn.effect, bind_toOption (mapError_eq_ok.1 hr), bind_toOption (mapError_eq_ok.1 hd)]
  refine ⟨_, rfl, ?_⟩
  split at h
  · rename_i hop
    cases h
    rw [if_pos hop]
    exact shifts_call hn
  · rename_i hop
    obtain ⟨⟨receiver, n'⟩, hp, h⟩ := bind_eq_ok.1 h
    cases h
    rw [if_neg hop]
    obtain ⟨hle, hn⟩ := Machine.height_dropSlots hn
    obtain ⟨hle', hn'⟩ := Machine.height_popReference hp
    have constructed : ∀ c : Bool,
        (if c = true then n'.construct owner receiver else n').stack.length = n'.stack.length := by
      intro c
      cases c
      · rfl
      · exact Machine.height_construct _ _ _
    refine ⟨show d.parameterSlots + 1 ≤ _ by omega, ?_⟩
    rw [Machine.height_pushJava, constructed]
    change _ = m.stack.length - (d.parameterSlots + 1) + d.returnType.slots
    omega

theorem shifts_dynamic {index : UInt16}
    (h : execute pool owner i (.dynamic index) m = .ok m') :
    ∃ e, (Insn.dynamic index).effect pool = some e ∧ m.Shifts m' e := by
  obtain ⟨d, hd, h⟩ := bind_eq_ok.1 h
  obtain ⟨n, hn, h⟩ := bind_eq_ok.1 h
  cases h
  refine ⟨d.effect, ?_, shifts_call hn⟩
  obtain ⟨c, hc, hd⟩ := bind_eq_ok.1 hd
  simp only [Insn.effect, mapError_eq_ok.1 hc]
  cases c with
  | invokeDynamic bootstrap nat =>
    obtain ⟨⟨name, descriptor⟩, hn, hd⟩ := bind_eq_ok.1 hd
    simp only [bind_toOption (mapError_eq_ok.1 hn), bind_toOption (mapError_eq_ok.1 hd)]
    rfl
  | _ => cases hd

/-- Executing an instruction changes the height of the stack by its effect. -/
theorem execute_height {insn : Insn} (h : execute pool owner i insn m = .ok m') :
    ∃ e, insn.effect pool = some e ∧ m.Shifts m' e := by
  cases insn with
  | label _ | line _ =>
    cases h
    exact ⟨_, rfl, Nat.zero_le _, rfl⟩
  | simple op => exact Machine.shifts_simple h
  | int op value =>
    refine ⟨_, rfl, ?_⟩
    simp only [execute] at h
    split at h
    · rename_i hop
      obtain ⟨⟨v, n⟩, hp, h⟩ := bind_eq_ok.1 h
      rw [if_pos hop]
      obtain ⟨hle, hn⟩ := Machine.height_pop hp
      split at h
      · cases h
        exact ⟨hle, by rw [Machine.height_push, hn]; rfl⟩
      · cases h
    · rename_i hop
      cases h
      rw [if_neg hop]
      exact ⟨Nat.zero_le _, Machine.height_push _ _⟩
  | var op slot =>
    refine ⟨_, rfl, ?_⟩
    simp only [execute] at h
    split at h
    · rename_i hop
      rw [if_pos hop]
      exact ⟨Nat.zero_le _, Machine.height_load hop h⟩
    · rename_i hop
      rw [if_neg hop]
      exact Machine.shifts_store hop h
  | iinc slot delta =>
    simp only [execute] at h
    split at h
    · cases h
      exact ⟨_, rfl, Nat.zero_le _, rfl⟩
    · cases h
  | type op index => exact ⟨_, rfl, shifts_type h⟩
  | field op index => exact shifts_field h
  | method op index => exact shifts_method h
  | dynamic index => exact shifts_dynamic h
  | ldc index =>
    obtain ⟨v, hv, h⟩ := bind_eq_ok.1 h
    cases h
    refine ⟨⟨0, v.slots.length⟩, ?_, Nat.zero_le _, Machine.height_push _ _⟩
    simp only [Insn.effect, loadedSlots_of_constantType hv, Option.map_some]
  | jump op l =>
    refine ⟨_, rfl, ?_⟩
    simp only [execute] at h
    split at h
    · rename_i hop
      cases h
      rw [if_pos hop]
      exact ⟨Nat.zero_le _, rfl⟩
    rename_i hop
    rw [if_neg hop]
    split at h
    · rename_i hop
      rw [if_pos hop]
      exact Machine.height_dropSlots h
    · rename_i hop
      rw [if_neg hop]
      exact Machine.height_dropSlots h
  | tableSwitch _ _ _ | lookupSwitch _ _ => exact ⟨_, rfl, Machine.height_dropSlots h⟩
  | multiNewArray index dims =>
    obtain ⟨n, hd, h⟩ := bind_eq_ok.1 h
    obtain ⟨name, -, h⟩ := bind_eq_ok.1 h
    cases h
    obtain ⟨hle, hn⟩ := Machine.height_dropSlots hd
    exact ⟨_, rfl, hle, by rw [Machine.height_push, hn]; rfl⟩

end Execute

/-! ## Heights along paths -/

theorem height_refine (f hint : Frame) : (f.refine hint).stack.length = f.stack.length := by
  unfold Frame.refine
  simp only
  split
  · exact Frame.length_refineSlots _ _
  · rfl

theorem height_merge {h : Hierarchy} {i : Nat} {f g k : Frame} (hm : f.merge h i g = .ok k) :
    k.stack.length = f.stack.length ∧ k.stack.length = g.stack.length := by
  obtain ⟨hs, -⟩ := Frame.merge_eq_ok.1 hm
  obtain ⟨h1, h2, -⟩ := Frame.mergeStack_eq_some hs
  omega

namespace Analysis

theorem height_arrive {m : Method} {t : Nat} {e : Option Frame} {g k : Frame}
    (h : m.arrive t e g = .ok k) :
    k.stack.length = g.stack.length ∧ ∀ f, e = some f → k.stack.length = f.stack.length := by
  obtain ⟨merged, hnone, hsome, hk⟩ := Method.arrive_cases h
  have hrefined : k.stack.length = merged.stack.length := by
    rcases hk with rfl | ⟨hint, rfl⟩
    · rfl
    · exact height_refine merged hint
  rw [hrefined]
  cases e with
  | none =>
    refine ⟨by rw [hnone rfl], fun f he => ?_⟩
    cases he
  | some f =>
    obtain ⟨hf, hg⟩ := height_merge (hsome f rfl)
    refine ⟨hg, fun f' he => ?_⟩
    cases he
    exact hf

/-- Heights never change where paths meet, with or without declared frames. -/
theorem Method.ascends_height (m : Method) :
    m.Ascends (fun f g => f.stack.length = g.stack.length) where
  refl _ := rfl
  trans := Eq.trans
  first h := (height_arrive h).1
  further h := ⟨(height_arrive h).2 _ rfl, (height_arrive h).1⟩

section Counted

variable {b : Body} {context : MethodContext} {pool : Pool} {h : Hierarchy} {a : Analysis}
  (ha : analyze b context pool h = .ok a)
include ha

/-- What stands where a path has come: an instruction that finds what it takes, and whose successors
are all places in the code. -/
theorem path_counted {i height : Nat} (hi : ControlPath pool b i height) :
    ∃ insn f e, b.insns[i]? = some insn ∧ a.frame i = some f ∧ f.stack.length = height ∧
      insn.effect pool = some e ∧ e.taken ≤ height ∧
      (∀ l ∈ insn.targets, ∃ j, LastPlace b.insns l j) ∧
      (insn.isTerminal = false → i + 1 < b.insns.length) := by
  obtain ⟨m, -, hm, -⟩ := analyze_eq_ok ha
  have hof := of_ofBody hm
  obtain ⟨hd, h0⟩ := analyze_delivered hm ha m.ascends_height
  have stands : ∀ i f, a.frame i = some f → ∃ insn, b.insns[i]? = some insn := by
    intro i f hf
    have hlt : i < b.insns.length := by
      rw [← analyze_size ha]
      unfold Analysis.frame at hf
      by_contra hge
      rw [Array.getElem?_eq_none (by omega)] at hf
      cases hf
    exact ⟨_, List.getElem?_eq_getElem hlt⟩
  -- what an instruction with a frame delivers
  have delivers : ∀ i f insn, a.frame i = some f → b.insns[i]? = some insn →
      ∃ ds after e, m.deliveries i insn f = .ok (ds, after) ∧ insn.effect pool = some e ∧
        e.taken ≤ f.stack.length ∧ after.stack.length = f.stack.length - e.taken + e.pushed ∧
        ∀ t ∈ ds, ∃ f', a.frame t.1 = some f' ∧ f'.stack.length = t.2.stack.length := by
    intro i f insn hf hinsn
    obtain ⟨ds, after, hds, hall⟩ := hd i f insn hf (by rw [hof.insn, hinsn])
    obtain ⟨he, -⟩ := Method.deliveries_eq_ok.1 hds
    rw [hof.pool] at he
    obtain ⟨e, heff, hle, hafter⟩ := execute_height he
    exact ⟨ds, after, e, hds, heff, hle, hafter, hall⟩
  have framed : ∃ f, a.frame i = some f ∧ f.stack.length = height := by
    induction hi with
    | start =>
      obtain ⟨f, hf, hheight⟩ := h0
      exact ⟨f, hf, hheight⟩
    | next _ hinsn heff hterm ih =>
      obtain ⟨f, hf, rfl⟩ := ih
      obtain ⟨ds, after, e, hds, heff', -, hafter, hall⟩ := delivers _ f _ hf hinsn
      rw [heff] at heff'
      cases heff'
      obtain ⟨-, jumps, next, -, hnext, rfl⟩ := Method.deliveries_eq_ok.1 hds
      rcases hnext with ⟨ht, -⟩ | ⟨-, -, rfl⟩
      · rw [hterm] at ht
        cases ht
      · obtain ⟨f', hf', hheight⟩ := hall _ (List.mem_append_right _ (List.mem_singleton_self _))
        exact ⟨f', hf', hheight.trans hafter⟩
    | jump _ hinsn heff hl hj ih =>
      obtain ⟨f, hf, rfl⟩ := ih
      obtain ⟨ds, after, e, hds, heff', -, hafter, hall⟩ := delivers _ f _ hf hinsn
      rw [heff] at heff'
      cases heff'
      obtain ⟨-, jumps, next, hjumps, -, rfl⟩ := Method.deliveries_eq_ok.1 hds
      obtain ⟨t, ht, hplace, htf⟩ := (mem_forall₂ hjumps).1 _ hl
      obtain ⟨f', hf', hheight⟩ :=
        hall t (List.mem_append_left _ (List.mem_append_right _ ht))
      rw [htf] at hheight
      rw [((hof.positions _ _).1 hplace).unique hj] at hf'
      exact ⟨f', hf', hheight.trans hafter⟩
    | @thrown i _ _ _ _ _ _ _ hinsn hreal ht hstart hstop hfrom hto hj ih =>
      obtain ⟨f, hf, rfl⟩ := ih
      obtain ⟨ds, after, e, hds, -, -, -, hall⟩ := delivers _ f _ hf hinsn
      obtain ⟨-, jumps, next, -, -, rfl⟩ := Method.deliveries_eq_ok.1 hds
      obtain ⟨g, hg, hgs, hge, hgh, -⟩ := (mem_forall₂ hof.guards).1 _ ht
      have hcovers := (Guard.covers_eq_true hgs hge).2 ⟨_, _, hstart, hstop, hfrom, hto⟩
      obtain ⟨f', hf', hheight⟩ := hall _ (List.mem_append_left _ (List.mem_append_left _
        (Method.mem_toHandlers.2 ⟨hreal, g, hg, hcovers, rfl⟩)))
      rw [hgh.unique hj] at hf'
      exact ⟨f', hf', hheight⟩
  obtain ⟨f, hf, rfl⟩ := framed
  obtain ⟨insn, hinsn⟩ := stands i f hf
  obtain ⟨ds, after, e, hds, heff, hle, -, -⟩ := delivers i f insn hf hinsn
  obtain ⟨-, jumps, next, hjumps, hnext, -⟩ := Method.deliveries_eq_ok.1 hds
  refine ⟨insn, f, e, hinsn, hf, rfl, heff, hle, fun l hl => ?_, fun hterm => ?_⟩
  · obtain ⟨t, -, hplace, -⟩ := (mem_forall₂ hjumps).1 l hl
    exact ⟨t.1, (hof.positions _ _).1 hplace⟩
  · rcases hnext with ⟨ht, -⟩ | ⟨-, hlt, -⟩
    · rw [hterm] at ht
      cases ht
    · rw [← hof.size]
      exact hlt

/-- Wherever control can lead, some path leads. -/
theorem path_of_reached {m : Method} (hm : Method.ofBody b context pool h = .ok m) {i : Nat}
    (hi : Reached m i) : ∃ height, ControlPath pool b i height := by
  have hof := of_ofBody hm
  induction hi with
  | entry => exact ⟨0, .start⟩
  | step _ hl ih =>
    obtain ⟨height, hpath⟩ := ih
    obtain ⟨insn, -, e, hinsn, -, -, heff, -⟩ := path_counted ha hpath
    obtain ⟨insn', hinsn', hl⟩ := hl.insn
    rw [hof.insn, hinsn] at hinsn'
    cases hinsn'
    rcases hl with ⟨hreal, g, hg, hcovers, rfl⟩ | ⟨l, hl, hplace⟩ | ⟨hterm, rfl⟩
    · obtain ⟨t, ht, hgs, hge, hgh, -⟩ := (mem_forall₂ hof.guards).2 g hg
      obtain ⟨_, _, hstart, hstop, hfrom, hto⟩ := (Guard.covers_eq_true hgs hge).1 hcovers
      exact ⟨1, .thrown hpath hinsn hreal ht hstart hstop hfrom hto hgh⟩
    · exact ⟨_, .jump hpath hinsn heff hl ((hof.positions _ _).1 hplace)⟩
    · exact ⟨_, .next hpath hinsn heff hterm⟩

/-- Counting along the paths of control finds the heights of the frames, every instruction finds
what it takes and control never leaves the code; and what paths reach is what has a frame. -/
theorem analyze_counts :
    (∀ i height, ControlPath pool b i height → ∃ insn f e, b.insns[i]? = some insn ∧
      a.frame i = some f ∧ f.stack.length = height ∧ insn.effect pool = some e ∧ e.taken ≤ height ∧
      (∀ l ∈ insn.targets, ∃ j, LastPlace b.insns l j) ∧
      (insn.isTerminal = false → i + 1 < b.insns.length)) ∧
    ∀ i, (a.frame i).isSome ↔ ∃ height, ControlPath pool b i height := by
  refine ⟨fun i height hi => path_counted ha hi, fun i => ?_⟩
  rw [Option.isSome_iff_exists]
  constructor
  · obtain ⟨m, -, hm, -⟩ := analyze_eq_ok ha
    exact fun hf => path_of_reached ha hm ((analyze_reached hm ha).1 hf)
  · rintro ⟨height, hpath⟩
    obtain ⟨-, f, -, -, hf, -⟩ := path_counted ha hpath
    exact ⟨f, hf⟩

end Counted

/-- A loop around a conversion, in a range with a handler. -/
def guardedLoop : Body :=
  { Body.ofInsns [.label 0, .simple Op.lconst1, .simple Op.l2i, .jump Op.ifne 0, .label 1,
      .simple Op.returnVoid, .label 2, .simple Op.pop, .simple Op.returnVoid] with
    tryCatch := [⟨0, 1, 2, 0⟩] }

theorem analyze_counts_guardedLoop :
    ∃ a, analyze guardedLoop ⟨"A", Access.staticFlag, "f", ⟨[], .void⟩⟩ .empty .flat = .ok a ∧
      (∀ i height, ControlPath .empty guardedLoop i height → ∃ insn f e,
        guardedLoop.insns[i]? = some insn ∧ a.frame i = some f ∧ f.stack.length = height ∧
        insn.effect .empty = some e ∧ e.taken ≤ height ∧
        (∀ l ∈ insn.targets, ∃ j, LastPlace guardedLoop.insns l j) ∧
        (insn.isTerminal = false → i + 1 < guardedLoop.insns.length)) ∧
      (a.frame 7).isSome = true ∧ ControlPath .empty guardedLoop 7 1 := by
  have hok : (analyze guardedLoop ⟨"A", Access.staticFlag, "f", ⟨[], .void⟩⟩ .empty
      .flat).toOption.any (fun _ => true) := by decide +kernel
  obtain ⟨a, ha, -⟩ := any_toOption.1 hok
  obtain ⟨hpaths, hframes⟩ := analyze_counts ha
  have first : ControlPath .empty guardedLoop 1 0 :=
    .next (e := ⟨0, 0⟩) .start rfl rfl rfl
  have placed : ∀ l i, (labelPositions guardedLoop.insns)[l]? = some i →
      LastPlace guardedLoop.insns l i := fun l i hl => labelPositions_eq_some.1 hl
  have caught : ControlPath .empty guardedLoop 6 1 :=
    .thrown first rfl rfl (List.mem_singleton_self _) (placed 0 0 (by decide +kernel))
      (placed 1 4 (by decide +kernel)) (by decide) (by decide) (placed 2 6 (by decide +kernel))
  have popped : ControlPath .empty guardedLoop 7 1 :=
    .next (e := ⟨0, 0⟩) caught rfl rfl rfl
  exact ⟨a, ha, hpaths, (hframes 7).2 ⟨1, popped⟩, popped⟩

end Analysis

end Interpose
