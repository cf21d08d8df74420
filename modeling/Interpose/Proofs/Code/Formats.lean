import Interpose.Code.Encode
import Interpose.Proofs.Code.Decode
/-!
# Formats of instructions

The operands of an instruction have one of a few formats, which its opcode decides (`Cursor.item_eq`).
What a reader takes off the bytes is put together from its parts (`Takes`), and what it answers is an
instruction of a known kind (`Cursor.item_usual`).
-/

namespace Interpose

/-- What holds of every byte holds of every opcode. -/
theorem Op.all {P : Opcode → Prop} (h : ∀ n : Fin 256, P (UInt8.ofNat n)) (op : Opcode) : P op := by
  have hop := h ⟨op.toNat, op.toNat_lt⟩
  simp only [UInt8.ofNat_toNat] at hop
  exact hop

namespace Cursor

variable {α β : Type} {n k : Nat}

/-! ## Readers and what they take -/

/-- The reader takes the given bytes, whatever follows them, and answers a value. -/
def Takes (x : CodeReader α) (n k : Nat) (bytes : Bytes) (a : α) : Prop :=
  ∀ rest, x ⟨n, k, bytes ++ rest⟩ = .ok (a, ⟨n, k + bytes.length, rest⟩)

theorem takes_pure (a : α) : Takes (pure a) n k [] a := fun _ => rfl

theorem takes_bind {x : CodeReader α} {f : α → CodeReader β} {bytes bytes' : Bytes} {a : α} {b : β}
    (hx : Takes x n k bytes a) (hf : Takes (f a) n (k + bytes.length) bytes' b) :
    Takes (x >>= f) n k (bytes ++ bytes') b := by
  intro rest
  have h := hf rest
  rw [Nat.add_assoc, ← List.length_append] at h
  rw [List.append_assoc]
  exact bind_eq_ok.2 ⟨_, hx _, h⟩

theorem takes_map {x : CodeReader α} {f : α → β} {bytes : Bytes} {a : α}
    (hx : Takes x n k bytes a) : Takes (do return f (← x)) n k bytes (f a) := by
  have h := takes_bind (f := fun a => pure (f a)) hx (takes_pure (f a))
  rwa [List.append_nil] at h

theorem takes_u1 (b : UInt8) : Takes u1 n k [b] b := fun _ => rfl

theorem takes_u2 (v : UInt16) : Takes u2 n k (bytesOfU2 v) v := by
  intro rest
  change Except.ok (u2OfBytes _ _, _) = _
  rw [Reader.u2OfBytes_toNat]
  rfl

theorem takes_i4 (v : Int32) : Takes i4 n k (bytesOfU4 v.toUInt32) v := by
  intro rest
  change Except.ok ((u4OfBytes _ _ _ _).toInt32, _) = _
  rw [Reader.u4OfBytes_toNat]
  rfl

theorem takes_offsetBy {there : Nat} : Takes (offsetBy (there - n : Int)) n k [] there := by
  intro rest
  unfold offsetBy
  have h : (n : Int) + (there - n) = there := by omega
  simp only [h]
  rw [if_neg (by omega), Int.toNat_natCast]
  rfl

theorem takes_target2 {there : Nat} (h : Layout.fitsShort (there - n : Int) = true) :
    Takes target2 n k (Encode.bytesOfI2 (there - n)) there := by
  unfold Layout.fitsShort at h
  simp only [Bool.and_eq_true, decide_eq_true_eq] at h
  have hn : (Int16.ofInt (there - n : Int)).toUInt16.toInt16.toInt = there - n := by
    change (Int16.ofInt (there - n : Int)).toInt = _
    exact Int16.toInt_ofInt_of_le (by omega) (by omega)
  have htakes := takes_bind (f := fun v => offsetBy v.toInt16.toInt) (takes_u2 (n := n)
    (k := k) (Int16.ofInt (there - n : Int)).toUInt16) (by rw [hn]; exact takes_offsetBy)
  rwa [List.append_nil] at htakes

/-- Distances within code fit four bytes. -/
theorem takes_target4 {there : Nat} (h : -2147483648 ≤ (there - n : Int))
    (h' : (there - n : Int) < 2147483648) :
    Takes target4 n k (Encode.bytesOfI4 (there - n)) there := by
  have hn : (Int32.ofInt (there - n : Int)).toInt = there - n :=
    Int32.toInt_ofInt_of_le (by omega) (by omega)
  have htakes := takes_bind (f := fun v => offsetBy v.toInt) (takes_i4 (n := n)
    (k := k) (Int32.ofInt (there - n : Int))) (by rw [hn]; exact takes_offsetBy)
  rwa [List.append_nil] at htakes

theorem takes_align : Takes align n k (List.replicate ((4 - k % 4) % 4) 0) () := by
  intro rest
  unfold align
  simp only [List.length_replicate, List.drop_left']

theorem takes_many {item : CodeReader α} {parts : List Bytes} {values : List α}
    (h : List.Forall₂ (fun bytes a => ∀ k, Takes item n k bytes a) parts values) :
    Takes (many parts.length item) n k parts.flatten values := by
  suffices onto : ∀ k done rest, manyOnto item parts.length done ⟨n, k, parts.flatten ++ rest⟩ =
      .ok (done.reverse ++ values, ⟨n, k + parts.flatten.length, rest⟩) from
    fun rest => onto k [] rest
  induction h with
  | nil =>
    intro k done rest
    simp [manyOnto]
  | cons hitem _ ih =>
    intro k done rest
    rw [List.flatten_cons, List.append_assoc, List.length_cons, manyOnto, hitem]
    simp only
    rw [ih, List.reverse_cons, List.append_assoc, List.length_append, Nat.add_assoc]
    rfl

/-! ## Formats -/

inductive Format where
  | alone | call | farCall | ret | byte | short | arrayType | constant | farConstant | var | load0
  | store0 | iinc | branch | farBranch | table | lookup | field | method | interface | dynamic | type
  | wide | multi | none
deriving DecidableEq

def Format.of (op : Opcode) : Format :=
  if standsAlone op then .alone
  else if op = Op.jsr then .call
  else if op = Op.jsrW then .farCall
  else if op = Op.ret then .ret
  else if op = Op.bipush then .byte
  else if op = Op.sipush then .short
  else if op = Op.newarray then .arrayType
  else if op = Op.ldc then .constant
  else if op = Op.ldcW || op = Op.ldc2W then .farConstant
  else if Op.between Op.iload Op.aload op || Op.between Op.istore Op.astore op then .var
  else if Op.between Op.iload0 Op.aload3 op then .load0
  else if Op.between Op.istore0 Op.astore3 op then .store0
  else if op = Op.iinc then .iinc
  else if Op.between Op.ifeq Op.goto op || op = Op.ifnull || op = Op.ifnonnull then .branch
  else if op = Op.gotoW then .farBranch
  else if op = Op.tableswitch then .table
  else if op = Op.lookupswitch then .lookup
  else if Op.between Op.getstatic Op.putfield op then .field
  else if Op.between Op.invokevirtual Op.invokestatic op then .method
  else if op = Op.invokeinterface then .interface
  else if op = Op.invokedynamic then .dynamic
  else if op = Op.newObject || op = Op.anewarray || op = Op.checkcast || op = Op.instanceOf then .type
  else if op = Op.wide then .wide
  else if op = Op.multianewarray then .multi
  else .none

def Format.item (op : Opcode) : Format → CodeReader Item
  | alone => return .insn (.simple op)
  | call => do return .jsr (← target2)
  | farCall => do return .jsr (← target4)
  | ret => do return .ret (← u1).toUInt16
  | byte => do return .insn (.int op (← u1).toInt8.toInt32)
  | short => do return .insn (.int op (← u2).toInt16.toInt32)
  | arrayType => do return .insn (.int op (← u1).toUInt32.toInt32)
  | constant => do return .insn (.ldc (← u1).toUInt16)
  | farConstant => do return .insn (.ldc (← u2))
  | var => do return .insn (.var op (← u1).toUInt16)
  | load0 => return .insn (.var (Op.iload + (op - Op.iload0) / 4) ((op - Op.iload0) % 4).toUInt16)
  | store0 => return .insn (.var (Op.istore + (op - Op.istore0) / 4) ((op - Op.istore0) % 4).toUInt16)
  | iinc => do return .insn (.iinc (← u1).toUInt16 (← u1).toInt8.toInt16)
  | branch => do return .insn (.jump op (← target2))
  | farBranch => do return .insn (.jump Op.goto (← target4))
  | table => tableSwitch
  | lookup => lookupSwitch
  | field => do return .insn (.field op (← u2))
  | method => do return .insn (.method op (← u2))
  | interface => do
    let index ← u2
    let _ ← u2
    return .insn (.method op index)
  | dynamic => do
    let index ← u2
    let _ ← u2
    return .insn (.dynamic index)
  | type => do return .insn (.type op (← u2))
  | wide => wideItem
  | multi => do return .insn (.multiNewArray (← u2) (← u1))
  | none => invalid op 0

theorem item_eq (op : Opcode) : item op = (Format.of op).item op := by
  unfold Format.of
  simp only [apply_ite (Format.item op)]
  rfl

end Cursor

/-! ## Instructions -/

def Insn.Standard : Insn → Prop
  | .label _ | .line _ | .iinc _ _ | .dynamic _ | .ldc _ | .multiNewArray _ _ => True
  | .simple op => Cursor.Format.of op = .alone
  | .int op v => (Cursor.Format.of op = .byte ∧ -128 ≤ v.toInt ∧ v.toInt ≤ 127) ∨
      (Cursor.Format.of op = .short ∧ -32768 ≤ v.toInt ∧ v.toInt ≤ 32767) ∨
      (Cursor.Format.of op = .arrayType ∧ 0 ≤ v.toInt ∧ v.toInt ≤ 255)
  | .var op _ => Cursor.Format.of op = .var
  | .type op _ => Cursor.Format.of op = .type
  | .field op _ => Cursor.Format.of op = .field
  | .method op _ => Cursor.Format.of op = .method ∨ Cursor.Format.of op = .interface
  | .jump op _ => Cursor.Format.of op = .branch
  | .tableSwitch _ low targets => 0 < targets.length ∧ low.toInt + targets.length ≤ 2147483648
  | .lookupSwitch _ pairs => pairs.length < 2147483648

instance : (insn : Insn) → Decidable insn.Standard
  | .label _ | .line _ | .iinc _ _ | .dynamic _ | .ldc _ | .multiNewArray _ _ => .isTrue trivial
  | .simple op | .var op _ | .type op _ | .field op _ | .jump op _ =>
    inferInstanceAs (Decidable (Cursor.Format.of op = _))
  | .int _ _ => inferInstanceAs (Decidable (_ ∨ _ ∨ _))
  | .method _ _ => inferInstanceAs (Decidable (_ ∨ _))
  | .tableSwitch _ _ _ => inferInstanceAs (Decidable (_ ∧ _))
  | .lookupSwitch _ _ => inferInstanceAs (Decidable (_ < _))

theorem Insn.standard_retarget (f : Label → Label) {insn : Insn} (h : insn.Standard) :
    (insn.retarget f).Standard := by
  cases insn with
  | tableSwitch fallback low targets =>
    change 0 < (targets.map f).length ∧ low.toInt + (targets.map f).length ≤ 2147483648
    rwa [List.length_map]
  | lookupSwitch fallback pairs =>
    change (pairs.map _).length < 2147483648
    rwa [List.length_map]
  | _ => exact h

namespace Cursor

def Usual (x : Item) : Prop := ∀ i, x = .insn i → i.Standard

theorem usual_insn {i : Insn} (h : i.Standard) : Usual (.insn i) := by
  rintro _ ⟨⟩
  exact h

theorem manyOnto_length {α : Type} {item : CodeReader α} {n : Nat} {done : List α} {c c' : Cursor}
    {as : List α} (h : manyOnto item n done c = .ok (as, c')) : as.length = done.length + n := by
  induction n generalizing done c with
  | zero =>
    cases h
    exact List.length_reverse
  | succ n ih =>
    unfold manyOnto at h
    split at h
    · cases h
    · have := ih h
      rw [List.length_cons] at this
      omega

theorem many_length {α : Type} {item : CodeReader α} {n : Nat} :
    Gives (many n item) fun as => as.length = n := by
  intro c as c' h
  simpa using manyOnto_length h

theorem gives_map {α β : Type} {x : CodeReader α} {f : α → β} {φ : β → Prop}
    (h : Gives x fun a => φ (f a)) : Gives (do return f (← x)) φ := by
  intro c b c' hb
  obtain ⟨⟨a, c1⟩, ha, hb⟩ := bind_eq_ok.1 hb
  cases hb
  exact h c a c' ha

/-- Opcodes that are computed from others have the formats they need. -/
theorem computed_format (op : Opcode) :
    (Format.of op = .load0 → Format.of (Op.iload + (op - Op.iload0) / 4) = .var) ∧
    (Format.of op = .store0 → Format.of (Op.istore + (op - Op.istore0) / 4) = .var) ∧
    ((Op.between Op.iload Op.aload op || Op.between Op.istore Op.astore op) = true →
      Format.of op = .var) := by
  revert op
  refine Op.all ?_
  decide +kernel

theorem tableSwitch_usual : Gives tableSwitch Usual := by
  unfold tableSwitch
  refine gives_bind fun _ => gives_bind fun fallback => gives_bind fun low => gives_bind fun high => ?_
  refine gives_ite (fun _ => nofun) fun hle => gives_map fun c targets c' h => usual_insn ?_
  have hlength := many_length c targets c' h
  have hhigh := high.toInt_lt
  change 0 < targets.length ∧ low.toInt + targets.length ≤ 2147483648
  omega

theorem lookupSwitch_usual : Gives lookupSwitch Usual := by
  unfold lookupSwitch
  refine gives_bind fun _ => gives_bind fun fallback => gives_bind fun count => ?_
  refine gives_ite (fun _ => nofun) fun hle => gives_map fun c pairs c' h => usual_insn ?_
  have hlength := many_length c pairs c' h
  have hcount := count.toInt_lt
  change pairs.length < 2147483648
  omega

theorem wideItem_usual : Gives wideItem Usual := by
  unfold wideItem
  refine gives_bind fun op => ?_
  refine gives_ite (fun _ => gives_bind fun _ => gives_pure nofun) fun _ => ?_
  refine gives_ite (fun _ => gives_bind fun _ => gives_bind fun _ => gives_pure (usual_insn trivial))
    fun _ => ?_
  exact gives_ite (fun hop => gives_bind fun _ => gives_pure (usual_insn ((computed_format op).2.2 hop)))
    fun _ => nofun

/-- What is read is standard. -/
theorem item_usual (op : Opcode) : Gives (item op) Usual := by
  rw [item_eq]
  generalize hop : Format.of op = f
  cases f with
  | alone => exact gives_pure (usual_insn hop)
  | call => exact gives_bind fun _ => gives_pure nofun
  | farCall => exact gives_bind fun _ => gives_pure nofun
  | ret => exact gives_bind fun _ => gives_pure nofun
  | byte =>
    refine gives_bind fun b => gives_pure (usual_insn (.inl ⟨hop, ?_⟩))
    rw [Int8.toInt_toInt32]
    exact ⟨b.toInt8.le_toInt, Int.le_of_lt_add_one b.toInt8.toInt_lt⟩
  | short =>
    refine gives_bind fun b => gives_pure (usual_insn (.inr (.inl ⟨hop, ?_⟩)))
    rw [Int16.toInt_toInt32]
    exact ⟨b.toInt16.le_toInt, Int.le_of_lt_add_one b.toInt16.toInt_lt⟩
  | arrayType =>
    refine gives_bind fun b => gives_pure (usual_insn (.inr (.inr ⟨hop, ?_⟩)))
    have hb := b.toNat_lt
    have hnat : b.toUInt32.toInt32.toInt = b.toNat := by
      change b.toUInt32.toBitVec.toInt = b.toNat
      have hwide : b.toUInt32.toBitVec.toNat = b.toNat := b.toNat_toUInt32
      rw [BitVec.toInt_eq_toNat_of_lt (by omega), hwide]
    omega
  | constant => exact gives_bind fun _ => gives_pure (usual_insn trivial)
  | farConstant => exact gives_bind fun _ => gives_pure (usual_insn trivial)
  | var => exact gives_bind fun _ => gives_pure (usual_insn hop)
  | load0 => exact gives_pure (usual_insn ((computed_format op).1 hop))
  | store0 => exact gives_pure (usual_insn ((computed_format op).2.1 hop))
  | iinc => exact gives_bind fun _ => gives_bind fun _ => gives_pure (usual_insn trivial)
  | branch => exact gives_bind fun _ => gives_pure (usual_insn hop)
  | farBranch =>
    have hgoto : Format.of Op.goto = .branch := by decide
    exact gives_bind fun _ => gives_pure (usual_insn hgoto)
  | table => exact tableSwitch_usual
  | lookup => exact lookupSwitch_usual
  | field => exact gives_bind fun _ => gives_pure (usual_insn hop)
  | method => exact gives_bind fun _ => gives_pure (usual_insn (.inl hop))
  | interface => exact gives_bind fun _ => gives_bind fun _ => gives_pure (usual_insn (.inr hop))
  | dynamic => exact gives_bind fun _ => gives_bind fun _ => gives_pure (usual_insn trivial)
  | type => exact gives_bind fun _ => gives_pure (usual_insn hop)
  | wide => exact wideItem_usual
  | multi => exact gives_bind fun _ => gives_bind fun _ => gives_pure (usual_insn trivial)
  | none => nofun

end Cursor

end Interpose
