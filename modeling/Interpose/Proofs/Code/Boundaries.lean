import Interpose.Proofs.Code.RoundTrip
/-!
# Instruction boundaries

How code splits into instructions, said of the bytes alone: how many bytes the instruction at an offset
takes (`Bytes.extent`), the offsets it names (`Bytes.targets`) and the offsets at which instructions start
(`Bytes.Start`). Reading code follows exactly this (`readItems_isOk`, `readItems_run`): it succeeds if the
code splits into whole instructions and none of them names an offset in front of the code.
-/

namespace Interpose

/-- The number of bytes behind an opcode, where the opcode alone decides it. -/
def Op.operands (op : Opcode) : Option Nat :=
  if op = bipush || op = ldc || between iload aload op || between istore astore op || op = ret
    || op = newarray then some 1
  else if op = sipush || op = ldcW || op = ldc2W || op = iinc || between ifeq jsr op
    || between getstatic invokestatic op || op = newObject || op = anewarray || op = checkcast
    || op = instanceOf || op = ifnull || op = ifnonnull then some 2
  else if op = multianewarray then some 3
  else if op = invokeinterface || op = invokedynamic || op = gotoW || op = jsrW then some 4
  else if op = tableswitch || op = lookupswitch || op = wide || jsrW < op then none
  else some 0

namespace Bytes

variable (code : Bytes)

/-- The byte at an offset; behind the end there are zeros. -/
def byteAt (o : Nat) : UInt8 :=
  code[o]?.getD 0

def shortAt (o : Nat) : Int :=
  (((code.byteAt o).toNat * 256 + (code.byteAt (o + 1)).toNat : Nat) : Int).bmod 65536

def wordAt (o : Nat) : Int :=
  (((((code.byteAt o).toNat * 256 + (code.byteAt (o + 1)).toNat) * 256 +
    (code.byteAt (o + 2)).toNat) * 256 + (code.byteAt (o + 3)).toNat : Nat) : Int).bmod 4294967296

/-- The next offset divisible by 4, at which the operands of a switch start. -/
def aligned (o : Nat) : Nat :=
  o + (4 - o % 4) % 4

def tableSize (pc : Nat) : Int :=
  code.wordAt (aligned (pc + 1) + 8) - code.wordAt (aligned (pc + 1) + 4) + 1

/-- How many keys a jump table for single keys has. -/
def pairCount (pc : Nat) : Int :=
  code.wordAt (aligned (pc + 1) + 4)

/-- How many bytes the instruction at an offset takes. An undefined opcode is no instruction, and neither
is a switch with a negative number of keys or a `wide` in front of anything but a load, a store, an
increment or a return from a subroutine. -/
def extent (pc : Nat) : Option Nat :=
  if code.byteAt pc = Op.tableswitch then
    if 0 < code.tableSize pc then
      some (aligned (pc + 1) - pc + 12 + (code.tableSize pc).toNat * 4) else none
  else if code.byteAt pc = Op.lookupswitch then
    if 0 ≤ code.pairCount pc then
      some (aligned (pc + 1) - pc + 8 + (code.pairCount pc).toNat * 8) else none
  else if code.byteAt pc = Op.wide then
    if code.byteAt (pc + 1) = Op.iinc then some 6
    else if Op.between Op.iload Op.aload (code.byteAt (pc + 1))
        || Op.between Op.istore Op.astore (code.byteAt (pc + 1)) || code.byteAt (pc + 1) = Op.ret then
      some 4
    else none
  else (Op.operands (code.byteAt pc)).map (· + 1)

/-- The offsets that the instruction at an offset names; the fallback of a switch comes first. -/
def targets (pc : Nat) : List Int :=
  if code.byteAt pc = Op.tableswitch then
    (pc + code.wordAt (aligned (pc + 1))) :: (List.range (code.tableSize pc).toNat).map fun j =>
      pc + code.wordAt (aligned (pc + 1) + 12 + j * 4)
  else if code.byteAt pc = Op.lookupswitch then
    (pc + code.wordAt (aligned (pc + 1))) :: (List.range (code.pairCount pc).toNat).map fun j =>
      pc + code.wordAt (aligned (pc + 1) + 8 + j * 8 + 4)
  else if code.byteAt pc = Op.gotoW || code.byteAt pc = Op.jsrW then [pc + code.wordAt (pc + 1)]
  else if Op.between Op.ifeq Op.jsr (code.byteAt pc) || code.byteAt pc = Op.ifnull
      || code.byteAt pc = Op.ifnonnull then [pc + code.shortAt (pc + 1)]
  else []

/-- Whether the instruction at an offset calls a subroutine or returns from one. -/
def isSubroutine (pc : Nat) : Bool :=
  code.byteAt pc = Op.jsr || code.byteAt pc = Op.jsrW || code.byteAt pc = Op.ret
    || (code.byteAt pc = Op.wide && code.byteAt (pc + 1) = Op.ret)

/-- An instruction starts at the offset, or the code ends there, if it is cut from its first byte on. -/
inductive Start : Nat → Prop
  | first : Start 0
  | next {pc n : Nat} : Start pc → pc < code.length → code.extent pc = some n → Start (pc + n)

/-- The code splits from its first byte on into whole instructions. -/
def Splits : Prop :=
  ∀ pc, code.Start pc → pc < code.length → ∃ n, code.extent pc = some n ∧ pc + n ≤ code.length

/-- One behind the other, whole instructions from an offset up to the end; none names an offset in front
of the code. -/
inductive Run : Nat → List (Nat × Item) → Prop
  | done : Run code.length []
  | item {pc n : Nat} {x : Item} {items : List (Nat × Item)} : pc < code.length →
    code.extent pc = some n → pc + n ≤ code.length → x.mentions.map Int.ofNat = code.targets pc →
    x.isSubroutine = code.isSubroutine pc → Run (pc + n) items → Run pc ((pc, x) :: items)

end Bytes

/-! ## Readers on code -/

namespace Cursor

open Bytes

variable {α β : Type} {code : Bytes} {s k k' k'' : Nat}

def on (code : Bytes) (s k : Nat) : Cursor :=
  ⟨s, k, code.drop k⟩

/-- At an offset the reader answers exactly on a condition, ends at another offset, and something holds of
its answer. -/
structure AnswersIf (code : Bytes) (s : Nat) (x : CodeReader α) (k k' : Nat) (p : Prop) (φ : α → Prop) :
    Prop where
  answers : p → ∃ a, x (on code s k) = .ok (a, on code s k')
  condition : ∀ {a c}, x (on code s k) = .ok (a, c) → p ∧ c = on code s k' ∧ φ a

theorem answersIf_pure {φ : α → Prop} {a : α} (h : φ a) :
    AnswersIf code s (pure a) k k True φ where
  answers _ := ⟨a, rfl⟩
  condition h' := by
    cases h'
    exact ⟨trivial, rfl, h⟩

theorem answersIf_bind {x : CodeReader α} {f : α → CodeReader β} {p q : Prop} {φ : α → Prop}
    {ψ : β → Prop} (hx : AnswersIf code s x k k' p φ)
    (hf : ∀ a, φ a → AnswersIf code s (f a) k' k'' q ψ) :
    AnswersIf code s (x >>= f) k k'' (p ∧ q) ψ where
  answers h := by
    obtain ⟨a, ha⟩ := hx.answers h.1
    obtain ⟨b, hb⟩ := (hf a (hx.condition ha).2.2).answers h.2
    exact ⟨b, bind_eq_ok.2 ⟨_, ha, hb⟩⟩
  condition h := by
    obtain ⟨⟨a, c⟩, ha, hb⟩ := bind_eq_ok.1 h
    obtain ⟨hp, rfl, hφ⟩ := hx.condition ha
    obtain ⟨hq, hc, hψ⟩ := (hf a hφ).condition hb
    exact ⟨⟨hp, hq⟩, hc, hψ⟩

theorem AnswersIf.imp {x : CodeReader α} {p q : Prop} {φ ψ : α → Prop}
    (hx : AnswersIf code s x k k' p φ) (hpq : p ↔ q) (h : ∀ a, p → φ a → ψ a) :
    AnswersIf code s x k k' q ψ where
  answers hq := hx.answers (hpq.2 hq)
  condition h' := by
    obtain ⟨hp, hc, hφ⟩ := hx.condition h'
    exact ⟨hpq.1 hp, hc, h _ hp hφ⟩

/-- The last part of a reader, which only puts the answer into another form. -/
theorem answersIf_map {x : CodeReader α} {f : α → β} {p : Prop} {φ : α → Prop} {ψ : β → Prop}
    (hx : AnswersIf code s x k k' p φ) (h : ∀ a, φ a → ψ (f a)) :
    AnswersIf code s (do return f (← x)) k k' p ψ :=
  (answersIf_bind hx fun a ha => answersIf_pure (h a ha)).imp ⟨fun h => h.1, fun h => ⟨h, trivial⟩⟩ fun _ _ h => h

theorem drop_eq_cons {o : Nat} (h : o < code.length) :
    code.drop o = code.byteAt o :: code.drop (o + 1) := by
  rw [List.drop_eq_getElem_cons h, byteAt, List.getElem?_eq_getElem h]
  rfl

theorem answersIf_u1 : AnswersIf code s u1 k (k + 1) (k + 1 ≤ code.length) (· = code.byteAt k) := by
  by_cases h : k < code.length
  · have hread : u1 (on code s k) = .ok (code.byteAt k, on code s (k + 1)) := by
      simp only [u1, on, drop_eq_cons h]
    refine ⟨fun _ => ⟨_, hread⟩, fun h' => ?_⟩
    rw [hread] at h'
    cases h'
    exact ⟨h, rfl, rfl⟩
  · refine ⟨fun h' => absurd h' h, fun h' => ?_⟩
    simp only [u1, on, List.drop_eq_nil_of_le (Nat.le_of_not_lt h)] at h'
    cases h'

theorem toInt_u2OfBytes (a b : UInt8) :
    (u2OfBytes a b).toInt16.toInt = ((a.toNat * 256 + b.toNat : Nat) : Int).bmod 65536 := by
  change (u2OfBytes a b).toBitVec.toInt = _
  have hnat : (u2OfBytes a b).toBitVec.toNat = a.toNat * 256 + b.toNat := by
    have ha := a.toNat_lt
    have hb := b.toNat_lt
    change (UInt16.ofNat (a.toNat * 0x100 + b.toNat)).toNat = _
    rw [UInt16.toNat_ofNat']
    omega
  rw [BitVec.toInt_eq_toNat_bmod, hnat]

theorem toInt_u4OfBytes (a b c d : UInt8) : (u4OfBytes a b c d).toInt32.toInt =
    ((((a.toNat * 256 + b.toNat) * 256 + c.toNat) * 256 + d.toNat : Nat) : Int).bmod 4294967296 := by
  change (u4OfBytes a b c d).toBitVec.toInt = _
  have hnat : (u4OfBytes a b c d).toBitVec.toNat =
      ((a.toNat * 256 + b.toNat) * 256 + c.toNat) * 256 + d.toNat := by
    have ha := a.toNat_lt
    have hb := b.toNat_lt
    have hc := c.toNat_lt
    have hd := d.toNat_lt
    change (UInt32.ofNat _).toNat = _
    rw [UInt32.toNat_ofNat']
    omega
  rw [BitVec.toInt_eq_toNat_bmod, hnat]

theorem answersIf_u2 : AnswersIf code s u2 k (k + 2) (k + 2 ≤ code.length)
    (fun v => v.toInt16.toInt = code.shortAt k) := by
  by_cases h : k + 1 < code.length
  · have hread : u2 (on code s k) =
        .ok (u2OfBytes (code.byteAt k) (code.byteAt (k + 1)), on code s (k + 2)) := by
      simp only [u2, on, drop_eq_cons (Nat.lt_of_succ_lt h), drop_eq_cons h]
    refine ⟨fun _ => ⟨_, hread⟩, fun h' => ?_⟩
    rw [hread] at h'
    cases h'
    exact ⟨h, rfl, toInt_u2OfBytes _ _⟩
  · refine ⟨fun h' => absurd h' h, fun {a c} h' => ?_⟩
    have hshort : (code.drop k).length ≤ 1 := by
      rw [List.length_drop]
      omega
    simp only [u2, on] at h'
    split at h'
    · rename_i hrest
      rw [hrest] at hshort
      simp only [List.length_cons] at hshort
      omega
    · cases h'

theorem answersIf_i4 : AnswersIf code s i4 k (k + 4) (k + 4 ≤ code.length)
    (fun v => v.toInt = code.wordAt k) := by
  by_cases h : k + 3 < code.length
  · have hread : i4 (on code s k) = .ok ((u4OfBytes (code.byteAt k) (code.byteAt (k + 1))
        (code.byteAt (k + 2)) (code.byteAt (k + 3))).toInt32, on code s (k + 4)) := by
      simp only [i4, on, drop_eq_cons (show k < code.length by omega),
        drop_eq_cons (show k + 1 < code.length by omega),
        drop_eq_cons (show k + 2 < code.length by omega), drop_eq_cons h]
    refine ⟨fun _ => ⟨_, hread⟩, fun h' => ?_⟩
    rw [hread] at h'
    cases h'
    exact ⟨h, rfl, toInt_u4OfBytes _ _ _ _⟩
  · refine ⟨fun h' => absurd h' h, fun {a c} h' => ?_⟩
    have hshort : (code.drop k).length ≤ 3 := by
      rw [List.length_drop]
      omega
    simp only [i4, on] at h'
    split at h'
    · rename_i hrest
      rw [hrest] at hshort
      simp only [List.length_cons] at hshort
      omega
    · cases h'

theorem answersIf_align : AnswersIf code s align k (aligned k) True (fun _ => True) := by
  have hread : align (on code s k) = .ok ((), on code s (aligned k)) := by
    simp only [align, on, List.drop_drop, aligned]
  refine ⟨fun _ => ⟨_, hread⟩, fun h' => ?_⟩
  rw [hread] at h'
  cases h'
  exact ⟨trivial, rfl, trivial⟩

theorem answersIf_offsetBy (d : Int) :
    AnswersIf code s (offsetBy d) k k (0 ≤ s + d) (fun o => (o : Int) = s + d) := by
  by_cases h : (s : Int) + d < 0
  · have hread : offsetBy d (on code s k) = .error (.badBranchTarget (s + d)) := by
      simp only [offsetBy, on, h, if_true]
    refine ⟨fun h' => absurd h (Int.not_lt.2 h'), fun h' => ?_⟩
    rw [hread] at h'
    cases h'
  · have hread : offsetBy d (on code s k) = .ok ((s + d).toNat, on code s k) := by
      simp only [offsetBy, on, h, if_false]
    refine ⟨fun _ => ⟨_, hread⟩, fun h' => ?_⟩
    rw [hread] at h'
    cases h'
    exact ⟨Int.not_lt.1 h, rfl, Int.toNat_of_nonneg (Int.not_lt.1 h)⟩

theorem answersIf_target2 : AnswersIf code s target2 k (k + 2)
    (k + 2 ≤ code.length ∧ 0 ≤ s + code.shortAt k) (fun o => (o : Int) = s + code.shortAt k) :=
  answersIf_bind answersIf_u2 fun v hv => hv ▸ answersIf_offsetBy v.toInt16.toInt

theorem answersIf_target4 : AnswersIf code s target4 k (k + 4)
    (k + 4 ≤ code.length ∧ 0 ≤ s + code.wordAt k) (fun o => (o : Int) = s + code.wordAt k) :=
  answersIf_bind answersIf_i4 fun v hv => hv ▸ answersIf_offsetBy v.toInt

/-- Operands of one width, one after the other. -/
theorem answersIf_many {item : CodeReader α} {width : Nat} {p : Nat → Prop} {φ : Nat → α → Prop}
    (hitem : ∀ j, AnswersIf code s item (k + j * width) (k + j * width + width) (p j) (φ j)) (n : Nat) :
    AnswersIf code s (many n item) k (k + n * width) (∀ j < n, p j)
      (fun as => List.Forall₂ φ (List.range n) as) := by
  suffices onto : ∀ m i done, AnswersIf code s (manyOnto item m done) (k + i * width)
      (k + (i + m) * width) (∀ j, i ≤ j → j < i + m → p j)
      (fun as => ∃ new, as = done.reverse ++ new ∧ List.Forall₂ φ (List.range' i m) new) by
    have h := onto n 0 []
    rw [Nat.zero_mul, Nat.zero_add] at h
    refine h.imp ⟨fun h j hj => h j (Nat.zero_le j) hj, fun h j _ hj => h j hj⟩ ?_
    rintro as - ⟨new, rfl, hnew⟩
    rw [List.range_eq_range']
    exact hnew
  intro m
  induction m with
  | zero =>
    intro i done
    refine ⟨fun _ => ⟨_, rfl⟩, fun h => ?_⟩
    cases h
    exact ⟨fun j hj hj' => absurd hj' (Nat.not_lt.2 hj), rfl, [], (List.append_nil _).symm, .nil⟩
  | succ m ih =>
    intro i done
    have hplace : k + i * width + width = k + (i + 1) * width := by
      rw [Nat.add_mul, Nat.one_mul, Nat.add_assoc]
    have hend : k + (i + 1 + m) * width = k + (i + (m + 1)) * width := by
      rw [Nat.add_assoc i 1 m, Nat.add_comm 1 m]
    have hi := hitem i
    rw [hplace] at hi
    refine ⟨fun hp => ?_, fun {as c} h => ?_⟩
    · obtain ⟨a, ha⟩ := hi.answers (hp i (Nat.le_refl i) (by omega))
      obtain ⟨as, has⟩ := (ih (i + 1) (a :: done)).answers fun j hj hj' => hp j (by omega) (by omega)
      rw [hend] at has
      refine ⟨as, ?_⟩
      unfold manyOnto
      rw [ha]
      exact has
    · unfold manyOnto at h
      split at h
      · cases h
      · rename_i a c' ha
        obtain ⟨hpi, rfl, hφ⟩ := hi.condition ha
        obtain ⟨hp, rfl, new, rfl, hnew⟩ := (ih (i + 1) (a :: done)).condition h
        refine ⟨fun j hj hj' => ?_, by rw [hend], a :: new, ?_, ?_⟩
        · rcases Nat.eq_or_lt_of_le hj with rfl | hj
          · exact hpi
          · exact hp j hj (by omega)
        · rw [List.reverse_cons, List.append_assoc, List.singleton_append]
        · rw [List.range'_succ]
          exact .cons hφ hnew

/-! ## Single instructions -/

/-- How many bytes the operands of a format take, where the format alone decides it. -/
def Format.operands : Format → Option Nat
  | alone | load0 | store0 => some 0
  | ret | byte | arrayType | constant | var => some 1
  | call | short | farConstant | iinc | branch | field | method | type => some 2
  | multi => some 3
  | farCall | farBranch | interface | dynamic => some 4
  | table | lookup | wide | none => Option.none

/-- The formats of the opcodes that matter for where code splits. -/
structure Format.Sorts (op : Opcode) (f : Format) : Prop where
  operands : Op.operands op = f.operands
  table : op = Op.tableswitch ↔ f = .table
  lookup : op = Op.lookupswitch ↔ f = .lookup
  wide : op = Op.wide ↔ f = .wide
  far : (op = Op.gotoW || op = Op.jsrW) = (f = .farBranch || f = .farCall)
  near : (Op.between Op.ifeq Op.jsr op || op = Op.ifnull || op = Op.ifnonnull)
    = (f = .branch || f = .call)
  subroutine : (op = Op.jsr || op = Op.jsrW || op = Op.ret) = (f = .call || f = .farCall || f = .ret)

theorem format_sorts (op : Opcode) : (Format.of op).Sorts op := by
  have all : Op.operands op = (Format.of op).operands ∧
      (op = Op.tableswitch ↔ Format.of op = .table) ∧ (op = Op.lookupswitch ↔ Format.of op = .lookup) ∧
      (op = Op.wide ↔ Format.of op = .wide) ∧
      (op = Op.gotoW || op = Op.jsrW) = (Format.of op = .farBranch || Format.of op = .farCall) ∧
      (Op.between Op.ifeq Op.jsr op || op = Op.ifnull || op = Op.ifnonnull)
        = (Format.of op = .branch || Format.of op = .call) ∧
      (op = Op.jsr || op = Op.jsrW || op = Op.ret)
        = (Format.of op = .call || Format.of op = .farCall || Format.of op = .ret) := by
    revert op
    refine Op.all ?_
    decide +kernel
  obtain ⟨h1, h2, h3, h4, h5, h6, h7⟩ := all
  exact ⟨h1, h2, h3, h4, h5, h6, h7⟩

variable {pc n : Nat} {f : Format}

theorem Format.Sorts.extent_eq (hs : f.Sorts (code.byteAt pc)) : code.extent pc =
    match f with
    | .table => if 0 < code.tableSize pc then
        some (aligned (pc + 1) - pc + 12 + (code.tableSize pc).toNat * 4) else Option.none
    | .lookup => if 0 ≤ code.pairCount pc then
        some (aligned (pc + 1) - pc + 8 + (code.pairCount pc).toNat * 8) else Option.none
    | .wide =>
      if code.byteAt (pc + 1) = Op.iinc then some 6
      else if Op.between Op.iload Op.aload (code.byteAt (pc + 1))
          || Op.between Op.istore Op.astore (code.byteAt (pc + 1)) || code.byteAt (pc + 1) = Op.ret then
        some 4
      else Option.none
    | f => f.operands.map (· + 1) := by
  simp only [extent, hs.table, hs.lookup, hs.wide, hs.operands]
  cases f <;> simp only [reduceCtorEq, if_true, if_false]

theorem Format.Sorts.targets_eq (hs : f.Sorts (code.byteAt pc)) : code.targets pc =
    match f with
    | .table => (pc + code.wordAt (aligned (pc + 1))) ::
        (List.range (code.tableSize pc).toNat).map fun j =>
          pc + code.wordAt (aligned (pc + 1) + 12 + j * 4)
    | .lookup => (pc + code.wordAt (aligned (pc + 1))) ::
        (List.range (code.pairCount pc).toNat).map fun j =>
          pc + code.wordAt (aligned (pc + 1) + 8 + j * 8 + 4)
    | .farCall | .farBranch => [pc + code.wordAt (pc + 1)]
    | .call | .branch => [pc + code.shortAt (pc + 1)]
    | _ => [] := by
  simp only [targets, hs.table, hs.lookup, hs.far, hs.near]
  cases f <;> simp

theorem Format.Sorts.isSubroutine_eq (hs : f.Sorts (code.byteAt pc)) : code.isSubroutine pc =
    match f with
    | .call | .farCall | .ret => true
    | .wide => code.byteAt (pc + 1) = Op.ret
    | _ => false := by
  simp only [isSubroutine, hs.wide, hs.subroutine]
  cases f <;> simp

/-- The item names the offsets of the instruction, and it is about subroutines if the instruction is. -/
def Agrees (code : Bytes) (pc : Nat) (x : Item) : Prop :=
  x.mentions.map Int.ofNat = code.targets pc ∧ x.isSubroutine = code.isSubroutine pc

/-- An instruction that names no offset. -/
theorem answersIf_plain {x : CodeReader Item} {m : Nat} {b : Bool}
    (hx : AnswersIf code pc x (pc + 1) (pc + 1 + m) (pc + 1 + m ≤ code.length)
      (fun i => i.mentions = [] ∧ i.isSubroutine = b)) (hn : n = m + 1)
    (htargets : code.targets pc = []) (hsub : code.isSubroutine pc = b) :
    AnswersIf code pc x (pc + 1) (pc + n) (pc + n ≤ code.length ∧ ∀ d ∈ code.targets pc, 0 ≤ d)
      (Agrees code pc) := by
  subst hn
  rw [show pc + (m + 1) = pc + 1 + m by omega]
  refine hx.imp ⟨fun h => ⟨h, ?_⟩, fun h => h.1⟩ fun i _ hi => ?_
  · rw [htargets]
    exact fun d hd => absurd hd List.not_mem_nil
  · exact ⟨by rw [hi.1, htargets]; rfl, by rw [hi.2, hsub]⟩

/-- An instruction that names one offset. -/
theorem answersIf_branch {x : CodeReader Nat} {m : Nat} {b : Bool} {d : Int} {g : Nat → Item}
    (hx : AnswersIf code pc x (pc + 1) (pc + 1 + m) (pc + 1 + m ≤ code.length ∧ 0 ≤ pc + d)
      (fun o => (o : Int) = pc + d))
    (hg : ∀ o, (g o).mentions = [o] ∧ (g o).isSubroutine = b) (hn : n = m + 1)
    (htargets : code.targets pc = [pc + d]) (hsub : code.isSubroutine pc = b) :
    AnswersIf code pc (do return g (← x)) (pc + 1) (pc + n)
      (pc + n ≤ code.length ∧ ∀ d ∈ code.targets pc, 0 ≤ d) (Agrees code pc) := by
  subst hn
  rw [show pc + (m + 1) = pc + 1 + m by omega, htargets]
  refine (answersIf_map hx fun o ho => ?_).imp ?_ fun i _ hi => hi
  · obtain ⟨hm, hb⟩ := hg o
    refine ⟨?_, by rw [hb, hsub]⟩
    rw [hm, htargets, List.map_singleton]
    exact congrArg (fun z => [z]) ho
  · rw [List.forall_mem_singleton]

/-- Answers that belong to numbers, one by one. -/
theorem map_eq_of_forall₂ {γ δ : Type} {h : γ → δ} {g : Nat → δ} {js : List Nat} {as : List γ}
    (has : List.Forall₂ (fun j a => h a = g j) js as) : as.map h = js.map g := by
  induction has with
  | nil => rfl
  | cons ha _ ih => rw [List.map_cons, List.map_cons, ha, ih]

section Switch

variable {base : Nat} (hbase : aligned (pc + 1) = base)
include hbase

theorem tableSwitch_answersIf (hs : Format.table.Sorts (code.byteAt pc))
    (hsize : 0 < code.tableSize pc) :
    AnswersIf code pc tableSwitch (pc + 1) (base + 12 + (code.tableSize pc).toNat * 4)
      (base + 12 + (code.tableSize pc).toNat * 4 ≤ code.length ∧ ∀ d ∈ code.targets pc, 0 ≤ d)
      (Agrees code pc) := by
  have htable : code.tableSize pc = code.wordAt (base + 8) - code.wordAt (base + 4) + 1 := by
    rw [tableSize, hbase]
  have htargets := hs.targets_eq
  simp only [hbase] at htargets
  generalize hm : (code.tableSize pc).toNat = m at htargets
  have answer : ∀ {fallback : Nat} {low high : Int32},
      (fallback : Int) = pc + code.wordAt base → low.toInt = code.wordAt (base + 4) →
      high.toInt = code.wordAt (base + 8) →
      AnswersIf code pc (if high.toInt < low.toInt then truncated else do
        let targets ← many (high.toInt - low.toInt + 1).toNat target4
        return .insn (.tableSwitch fallback low targets)) (base + 12) (base + 12 + m * 4)
        (∀ j < m, base + 12 + j * 4 + 4 ≤ code.length ∧ 0 ≤ pc + code.wordAt (base + 12 + j * 4))
        (Agrees code pc) := by
    intro fallback low high hfallback hlow hhigh
    rw [if_neg (by omega), show (high.toInt - low.toInt + 1).toNat = m by omega]
    refine answersIf_map (answersIf_many (fun j => answersIf_target4) m) fun as has => ?_
    refine ⟨?_, by rw [hs.isSubroutine_eq]; rfl⟩
    rw [htargets, ← map_eq_of_forall₂ has]
    exact congrArg (· :: _) hfallback
  unfold tableSwitch
  refine (answersIf_bind (hbase ▸ answersIf_align) fun _ _ =>
    answersIf_bind answersIf_target4 fun _ hfallback => answersIf_bind answersIf_i4 fun _ hlow =>
    answersIf_bind answersIf_i4 fun _ hhigh => answer hfallback hlow hhigh).imp ?_ fun _ _ h => h
  rw [htargets, List.forall_mem_cons, List.forall_mem_map]
  simp only [List.mem_range]
  constructor
  · rintro ⟨-, ⟨-, hfallback⟩, -, -, h⟩
    have hlast := (h (m - 1) (by omega)).1
    exact ⟨by omega, hfallback, fun j hj => (h j hj).2⟩
  · rintro ⟨hend, hfallback, h⟩
    exact ⟨trivial, ⟨by omega, hfallback⟩, by omega, by omega, fun j hj => ⟨by omega, h j hj⟩⟩

theorem lookupSwitch_answersIf (hs : Format.lookup.Sorts (code.byteAt pc))
    (hcount : 0 ≤ code.pairCount pc) :
    AnswersIf code pc lookupSwitch (pc + 1) (base + 8 + (code.pairCount pc).toNat * 8)
      (base + 8 + (code.pairCount pc).toNat * 8 ≤ code.length ∧ ∀ d ∈ code.targets pc, 0 ≤ d)
      (Agrees code pc) := by
  have hpairs : code.pairCount pc = code.wordAt (base + 4) := by
    rw [pairCount, hbase]
  have htargets := hs.targets_eq
  simp only [hbase] at htargets
  generalize hm : (code.pairCount pc).toNat = m at htargets
  have pair (j : Nat) : AnswersIf code pc (do return (← i4, ← target4)) (base + 8 + j * 8)
      (base + 8 + j * 8 + 8)
      (base + 8 + j * 8 + 4 ≤ code.length ∧
        base + 8 + j * 8 + 4 + 4 ≤ code.length ∧ 0 ≤ pc + code.wordAt (base + 8 + j * 8 + 4))
      (fun (a : Int32 × Nat) => (a.2 : Int) = pc + code.wordAt (base + 8 + j * 8 + 4)) :=
    answersIf_bind answersIf_i4 fun key _ => answersIf_map answersIf_target4 fun o ho => ho
  have answer : ∀ {fallback : Nat} {count : Int32},
      (fallback : Int) = pc + code.wordAt base → count.toInt = code.wordAt (base + 4) →
      AnswersIf code pc (if count.toInt < 0 then truncated else do
        let pairs ← many count.toInt.toNat (do return (← i4, ← target4))
        return .insn (.lookupSwitch fallback pairs)) (base + 8) (base + 8 + m * 8)
        (∀ j < m, base + 8 + j * 8 + 4 ≤ code.length ∧
          base + 8 + j * 8 + 4 + 4 ≤ code.length ∧ 0 ≤ pc + code.wordAt (base + 8 + j * 8 + 4))
        (Agrees code pc) := by
    intro fallback count hfallback hcount'
    rw [if_neg (by omega), show count.toInt.toNat = m by omega]
    refine answersIf_map (answersIf_many pair m) fun as has => ?_
    refine ⟨?_, by rw [hs.isSubroutine_eq]; rfl⟩
    have hmap := map_eq_of_forall₂ (h := fun a : Int32 × Nat => (a.2 : Int)) has
    rw [htargets, ← hmap]
    change Int.ofNat fallback :: (as.map (·.2)).map Int.ofNat = _
    rw [List.map_map]
    exact congrArg (· :: _) hfallback
  unfold lookupSwitch
  refine (answersIf_bind (hbase ▸ answersIf_align) fun _ _ =>
    answersIf_bind answersIf_target4 fun _ hfallback => answersIf_bind answersIf_i4 fun _ hcount' =>
    answer hfallback hcount').imp ?_ fun _ _ h => h
  rw [htargets, List.forall_mem_cons, List.forall_mem_map]
  simp only [List.mem_range]
  constructor
  · rintro ⟨-, ⟨-, hfallback⟩, hfit, h⟩
    refine ⟨?_, hfallback, fun j hj => (h j hj).2.2⟩
    rcases Nat.eq_zero_or_pos m with rfl | hpos
    · omega
    · have hlast := (h (m - 1) (by omega)).2.1
      omega
  · rintro ⟨hend, hfallback, h⟩
    exact ⟨trivial, ⟨by omega, hfallback⟩, by omega,
      fun j hj => ⟨by omega, by omega, h j hj⟩⟩

end Switch

theorem wideItem_answersIf (hs : Format.wide.Sorts (code.byteAt pc)) (hn : code.extent pc = some n) :
    AnswersIf code pc wideItem (pc + 1) (pc + n)
      (pc + n ≤ code.length ∧ ∀ d ∈ code.targets pc, 0 ≤ d) (Agrees code pc) := by
  have htargets : code.targets pc = [] := hs.targets_eq
  have hsub : code.isSubroutine pc = decide (code.byteAt (pc + 1) = Op.ret) := hs.isSubroutine_eq
  rw [hs.extent_eq] at hn
  simp only at hn
  have hlong : 2 ≤ n := by
    split_ifs at hn <;> cases hn <;> omega
  have quiet {x : Item} (hm : x.mentions = []) (hb : x.isSubroutine = code.isSubroutine pc) :
      Agrees code pc x := ⟨by rw [hm, htargets]; rfl, hb⟩
  have operands : AnswersIf code pc (do
      let op := code.byteAt (pc + 1)
      if op = Op.ret then return .ret (← u2)
      else if op = Op.iinc then return .insn (.iinc (← u2) (← u2).toInt16)
      else if Op.between Op.iload Op.aload op || Op.between Op.istore Op.astore op then
        return .insn (.var op (← u2))
      else invalid op 1) (pc + 2) (pc + n) (pc + n ≤ code.length) (Agrees code pc) := by
    generalize code.byteAt (pc + 1) = op at hn hsub
    simp only
    by_cases hret : op = Op.ret
    · subst hret
      cases hn
      rw [if_pos rfl]
      exact answersIf_map answersIf_u2 fun v _ => quiet rfl (by rw [hsub]; rfl)
    rw [if_neg hret]
    have hsub' : code.isSubroutine pc = false := by rw [hsub, decide_eq_false hret]
    by_cases hiinc : op = Op.iinc
    · subst hiinc
      cases hn
      rw [if_pos rfl]
      exact (answersIf_bind answersIf_u2 fun _ _ => answersIf_map answersIf_u2 fun _ _ =>
        quiet rfl (by rw [hsub']; rfl)).imp ⟨fun h => h.2, fun h => ⟨by omega, h⟩⟩ fun _ _ h => h
    rw [if_neg hiinc] at hn ⊢
    by_cases hvar : (Op.between Op.iload Op.aload op || Op.between Op.istore Op.astore op) = true
    · rw [hvar, Bool.true_or, if_pos rfl] at hn
      cases hn
      rw [if_pos hvar]
      exact answersIf_map answersIf_u2 fun _ _ => quiet rfl (by rw [hsub']; rfl)
    · rw [Bool.not_eq_true] at hvar
      rw [hvar, Bool.false_or, decide_eq_false hret, if_neg Bool.false_ne_true] at hn
      cases hn
  rw [htargets]
  exact (answersIf_bind answersIf_u1 fun op hop => hop ▸ operands).imp
    ⟨fun h => ⟨h.2, fun d hd => absurd hd List.not_mem_nil⟩, fun h => ⟨by omega, h.1⟩⟩ fun _ _ h => h

/-- The operands of an instruction are read if all its bytes are there and it names no offset in front of
the code. -/
theorem item_answersIf (hpc : pc < code.length) (hn : code.extent pc = some n) :
    AnswersIf code pc (item (code.byteAt pc)) (pc + 1) (pc + n)
      (pc + n ≤ code.length ∧ ∀ d ∈ code.targets pc, 0 ≤ d) (Agrees code pc) := by
  have hs := format_sorts (code.byteAt pc)
  rw [item_eq]
  generalize Format.of (code.byteAt pc) = f at hs
  have hextent := hs.extent_eq.symm.trans hn
  have htargets := hs.targets_eq
  have hsub := hs.isSubroutine_eq
  cases f with
  | table =>
    simp only [Option.ite_none_right_eq_some, Option.some.injEq] at hextent
    obtain ⟨hsize, rfl⟩ := hextent
    have hle : pc + 1 ≤ aligned (pc + 1) := Nat.le_add_right _ _
    have h := tableSwitch_answersIf rfl hs hsize
    rwa [show aligned (pc + 1) + 12 + (code.tableSize pc).toNat * 4 = pc +
      (aligned (pc + 1) - pc + 12 + (code.tableSize pc).toNat * 4) by omega] at h
  | lookup =>
    simp only [Option.ite_none_right_eq_some, Option.some.injEq] at hextent
    obtain ⟨hcount, rfl⟩ := hextent
    have hle : pc + 1 ≤ aligned (pc + 1) := Nat.le_add_right _ _
    have h := lookupSwitch_answersIf rfl hs hcount
    rwa [show aligned (pc + 1) + 8 + (code.pairCount pc).toNat * 8 = pc +
      (aligned (pc + 1) - pc + 8 + (code.pairCount pc).toNat * 8) by omega] at h
  | wide => exact wideItem_answersIf hs hn
  | none => cases hextent
  | call | farCall | branch | farBranch =>
    cases hextent
    first
      | exact answersIf_branch answersIf_target2 (fun _ => ⟨rfl, rfl⟩) rfl htargets hsub
      | exact answersIf_branch answersIf_target4 (fun _ => ⟨rfl, rfl⟩) rfl htargets hsub
  | alone | load0 | store0 =>
    cases hextent
    exact answersIf_plain ((answersIf_pure ⟨rfl, rfl⟩).imp ⟨fun _ => hpc, fun _ => trivial⟩
      fun _ _ h => h) rfl htargets hsub
  | ret | byte | arrayType | constant | var =>
    cases hextent
    exact answersIf_plain (answersIf_map answersIf_u1 fun _ _ => ⟨rfl, rfl⟩) rfl htargets hsub
  | short | farConstant | field | method | type =>
    cases hextent
    exact answersIf_plain (answersIf_map answersIf_u2 fun _ _ => ⟨rfl, rfl⟩) rfl htargets hsub
  | iinc =>
    cases hextent
    exact answersIf_plain ((answersIf_bind answersIf_u1 fun _ _ => answersIf_map answersIf_u1 fun _ _ =>
      ⟨rfl, rfl⟩).imp ⟨fun h => h.2, fun h => ⟨by omega, h⟩⟩ fun _ _ h => h) rfl htargets hsub
  | interface | dynamic =>
    cases hextent
    exact answersIf_plain ((answersIf_bind answersIf_u2 fun _ _ => answersIf_bind answersIf_u2 fun _ _ =>
      answersIf_pure ⟨rfl, rfl⟩).imp ⟨fun h => h.2.1, fun h => ⟨by omega, h, trivial⟩⟩ fun _ _ h => h)
      rfl htargets hsub
  | multi =>
    cases hextent
    exact answersIf_plain ((answersIf_bind answersIf_u2 fun _ _ => answersIf_map answersIf_u1 fun _ _ =>
      ⟨rfl, rfl⟩).imp ⟨fun h => h.2, fun h => ⟨by omega, h⟩⟩ fun _ _ h => h) rfl htargets hsub

/-- Nothing is read where no instruction is. -/
theorem item_fails (hn : code.extent pc = none) {x : Item} {c : Cursor} :
    item (code.byteAt pc) (on code pc (pc + 1)) ≠ .ok (x, c) := by
  have hs := format_sorts (code.byteAt pc)
  rw [item_eq]
  generalize Format.of (code.byteAt pc) = f at hs
  have hextent := hs.extent_eq.symm.trans hn
  have refused {k : Nat} {p : Prop} [Decidable p] (hp : p) {y : CodeReader Item} :
      AnswersIf code pc (if p then truncated else y) k k False (fun _ => True) := by
    rw [if_pos hp]
    exact ⟨False.elim, nofun⟩
  cases f with
  | table =>
    have hsize : ¬ 0 < code.tableSize pc := by simpa using hextent
    unfold tableSize at hsize
    have inverted {low high : Int32} (hlow : low.toInt = code.wordAt (aligned (pc + 1) + 4))
        (hhigh : high.toInt = code.wordAt (aligned (pc + 1) + 8)) : high.toInt < low.toInt := by omega
    exact fun h => (answersIf_bind answersIf_align fun _ _ => answersIf_bind answersIf_target4
      fun _ _ => answersIf_bind answersIf_i4 fun _ hlow => answersIf_bind answersIf_i4
      fun _ hhigh => refused (inverted hlow hhigh)).condition h |>.1.2.2.2.2
  | lookup =>
    have hcount : ¬ 0 ≤ code.pairCount pc := by simpa using hextent
    unfold pairCount at hcount
    exact fun h => (answersIf_bind answersIf_align fun _ _ => answersIf_bind answersIf_target4
      fun _ _ => answersIf_bind answersIf_i4 fun count hcount' => refused (by omega)).condition h
      |>.1.2.2.2
  | wide =>
    intro h
    obtain ⟨⟨op, c'⟩, hop, h⟩ := bind_eq_ok.1 h
    obtain ⟨-, -, rfl⟩ := answersIf_u1.condition hop
    simp only at hextent h
    split at hextent
    · cases hextent
    split at hextent
    · cases hextent
    rename_i hiinc hvar
    simp only [Bool.or_eq_true, decide_eq_true_eq, not_or] at hvar
    rw [if_neg hvar.2, if_neg hiinc, if_neg (by simpa using hvar.1)] at h
    cases h
  | none => nofun
  | _ => cases hextent

end Cursor

/-! ## Whole code -/

open Bytes

theorem Bytes.extent_pos {code : Bytes} {pc n : Nat} (h : code.extent pc = some n) : 0 < n := by
  have hs := Cursor.format_sorts (code.byteAt pc)
  rw [hs.extent_eq] at h
  split at h
  · simp only [Option.ite_none_right_eq_some, Option.some.injEq] at h
    omega
  · simp only [Option.ite_none_right_eq_some, Option.some.injEq] at h
    omega
  · split_ifs at h <;> cases h <;> omega
  · obtain ⟨m, -, rfl⟩ := Option.map_eq_some_iff.1 h
    exact Nat.succ_pos m

variable {code : Bytes} {items : List (Nat × Item)}

/-- Reading on from an offset answers whole instructions up to the end. -/
theorem readItemsOnto_run {limit pc : Nat} {done : List (Nat × Item)}
    (hlimit : code.length ≤ pc + limit) (hpc : pc ≤ code.length)
    (h : readItemsOnto limit pc (code.drop pc) done = .ok items) :
    ∃ new, items = done.reverse ++ new ∧ code.Run pc new := by
  induction limit generalizing pc done with
  | zero =>
    cases h
    obtain rfl : pc = code.length := by omega
    exact ⟨[], (List.append_nil _).symm, .done⟩
  | succ limit ih =>
    rcases Nat.eq_or_lt_of_le hpc with rfl | hlt
    · rw [List.drop_length] at h
      cases h
      exact ⟨[], (List.append_nil _).symm, .done⟩
    · rw [Cursor.drop_eq_cons hlt, readItemsOnto_cons] at h
      split at h
      · cases h
      · rename_i x c hx
        cases hn : code.extent pc with
        | none => exact absurd hx (Cursor.item_fails hn)
        | some n =>
          obtain ⟨⟨hend, -⟩, rfl, htargets, hsub⟩ := (Cursor.item_answersIf hlt hn).condition hx
          have hpos := extent_pos hn
          obtain ⟨new, rfl, hnew⟩ := ih (by omega) hend h
          exact ⟨(pc, x) :: new, by simp, .item hlt hn hend htargets hsub hnew⟩

theorem readItems_run (h : readItems code = .ok items) : code.Run 0 items := by
  have hall : readItemsOnto code.length 0 (code.drop 0) [] = .ok items := h
  obtain ⟨new, rfl, hnew⟩ := readItemsOnto_run (by omega) (Nat.zero_le _) hall
  exact hnew

/-- Reading goes on from every instruction boundary to the end, if the code splits and no instruction
names an offset in front of it. -/
theorem readItemsOnto_isOk (hsplits : code.Splits)
    (htargets : ∀ pc, code.Start pc → pc < code.length → ∀ d ∈ code.targets pc, 0 ≤ d)
    {limit pc : Nat} (hpc : code.Start pc) {done : List (Nat × Item)} :
    ∃ items, readItemsOnto limit pc (code.drop pc) done = .ok items := by
  induction limit generalizing pc done with
  | zero => exact ⟨_, rfl⟩
  | succ limit ih =>
    by_cases hlt : pc < code.length
    · obtain ⟨n, hn, hend⟩ := hsplits pc hpc hlt
      obtain ⟨x, hx⟩ := (Cursor.item_answersIf hlt hn).answers ⟨hend, htargets pc hpc hlt⟩
      unfold Cursor.on at hx
      rw [Cursor.drop_eq_cons hlt, readItemsOnto_cons, hx]
      exact ih (.next hpc hlt hn)
    · rw [List.drop_eq_nil_of_le (Nat.le_of_not_lt hlt)]
      exact ⟨_, rfl⟩

namespace Bytes

/-- Every offset of a run is a boundary of it and lies within the code. -/
theorem Run.start {pc : Nat} (h : code.Run pc items) (hpc : code.Start pc) :
    ∀ x ∈ items, code.Start x.1 ∧ x.1 < code.length := by
  induction h with
  | done => exact fun x hx => absurd hx List.not_mem_nil
  | item hlt hn _ _ _ _ ih =>
    intro x hx
    rcases List.mem_cons.1 hx with rfl | hx
    · exact ⟨hpc, hlt⟩
    · exact ih (.next hpc hlt hn) x hx

/-- A run starts with an instruction where it starts, if the code does not end there. -/
theorem Run.head {pc : Nat} (h : code.Run pc items) : pc = code.length ∨ ∃ x, (pc, x) ∈ items := by
  cases h with
  | done => exact .inl rfl
  | item => exact .inr ⟨_, List.mem_cons_self ..⟩

theorem Run.ge {pc : Nat} (h : code.Run pc items) : ∀ x ∈ items, pc ≤ x.1 := by
  induction h with
  | done => exact fun x hx => absurd hx List.not_mem_nil
  | item hlt hn _ _ _ _ ih =>
    intro x hx
    rcases List.mem_cons.1 hx with rfl | hx
    · exact Nat.le_refl _
    · exact Nat.le_trans (Nat.le_add_right _ _) (ih x hx)

theorem Run.ascending {pc : Nat} (h : code.Run pc items) : (items.map (·.1)).Pairwise (· < ·) := by
  induction h with
  | done => exact .nil
  | item hlt hn _ _ _ hrun ih =>
    refine .cons (fun o ho => ?_) ih
    obtain ⟨x, hx, rfl⟩ := List.mem_map.1 ho
    exact Nat.lt_of_lt_of_le (Nat.lt_add_of_pos_right (extent_pos hn)) (hrun.ge x hx)

/-- What a run says of each of its instructions. -/
theorem Run.of_mem {pc : Nat} (h : code.Run pc items) {o : Nat} {x : Item} (hx : (o, x) ∈ items) :
    ∃ n, code.extent o = some n ∧ o + n ≤ code.length ∧ x.mentions.map Int.ofNat = code.targets o ∧
      x.isSubroutine = code.isSubroutine o ∧ (o + n = code.length ∨ ∃ y, (o + n, y) ∈ items) := by
  induction h with
  | done => exact absurd hx List.not_mem_nil
  | @item pc n y items hlt hn hend htargets hsub hrun ih =>
    rcases List.mem_cons.1 hx with he | hx
    · cases he
      exact ⟨n, hn, hend, htargets, hsub,
        hrun.head.imp_right fun ⟨z, hz⟩ => ⟨z, List.mem_cons_of_mem _ hz⟩⟩
    · obtain ⟨m, hm, hend, htargets, hsub, hnext⟩ := ih hx
      exact ⟨m, hm, hend, htargets, hsub, hnext.imp_right fun ⟨z, hz⟩ => ⟨z, List.mem_cons_of_mem _ hz⟩⟩

/-- A run from the first byte on meets every boundary. -/
theorem Run.mem_of_start (h : code.Run 0 items) {o : Nat} (ho : code.Start o) :
    o = code.length ∨ ∃ x, (o, x) ∈ items := by
  induction ho with
  | first => exact h.head
  | @next pc n _ hlt hn ih =>
    rcases ih with rfl | ⟨x, hx⟩
    · exact absurd hlt (Nat.lt_irrefl _)
    · obtain ⟨m, hm, -, -, -, hnext⟩ := h.of_mem hx
      rw [hn] at hm
      cases hm
      exact hnext

end Bytes

/-- Reading succeeds if the code splits into whole instructions of which none names an offset in front of
the code, and not otherwise. -/
theorem readItems_isOk : (∃ items, readItems code = .ok items) ↔
    code.Splits ∧ ∀ pc, code.Start pc → pc < code.length → ∀ d ∈ code.targets pc, 0 ≤ d := by
  constructor
  · rintro ⟨items, h⟩
    have hrun := readItems_run h
    have each : ∀ pc, code.Start pc → pc < code.length → ∃ n, code.extent pc = some n ∧
        pc + n ≤ code.length ∧ ∀ d ∈ code.targets pc, 0 ≤ d := by
      intro pc hpc hlt
      obtain ⟨x, hx⟩ := (hrun.mem_of_start hpc).resolve_left (Nat.ne_of_lt hlt)
      obtain ⟨n, hn, hend, htargets, -⟩ := hrun.of_mem hx
      refine ⟨n, hn, hend, fun d hd => ?_⟩
      rw [← htargets] at hd
      obtain ⟨o, -, rfl⟩ := List.mem_map.1 hd
      exact Int.natCast_nonneg o
    exact ⟨fun pc hpc hlt => (each pc hpc hlt).imp fun n h => ⟨h.1, h.2.1⟩,
      fun pc hpc hlt => (each pc hpc hlt).elim fun n h => h.2.2⟩
  · exact fun h => readItemsOnto_isOk h.1 h.2 .first

end Interpose
