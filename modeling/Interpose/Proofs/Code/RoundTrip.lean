import Interpose.Proofs.Code.Formats
import Interpose.Proofs.Code.Layout
import Interpose.Proofs.Pieces
/-!
# Reading back what was written

The bytes of an instruction are read back as that instruction, whatever follows them (`reads_insn`). So
the code of a body is read as its instructions, one behind the other, with the offsets of labels in place
of labels (`readItems_encode`).
-/

namespace Interpose

/-! ## Runs of items -/

theorem readItemsOnto_cons (limit pc : Nat) (op : Opcode) (rest : Bytes) (done : List (Nat × Item)) :
    readItemsOnto (limit + 1) pc (op :: rest) done =
      match Cursor.item op ⟨pc, pc + 1, rest⟩ with
      | .error e => .error e
      | .ok (item, c) => readItemsOnto limit c.pos c.rest ((pc, item) :: done) := rfl

/-- Reading takes the given bytes and answers items for them, wherever the code goes on. -/
def Reads (pc : Nat) (bytes : Bytes) (items : List (Nat × Item)) : Prop :=
  ∀ limit rest done, readItemsOnto (limit + items.length) pc (bytes ++ rest) done =
    readItemsOnto limit (pc + bytes.length) rest (items.reverse ++ done)

theorem Reads.nil (pc : Nat) : Reads pc [] [] := fun _ _ _ => rfl

theorem Reads.append {pc : Nat} {bytes bytes' : Bytes} {items items' : List (Nat × Item)}
    (h : Reads pc bytes items) (h' : Reads (pc + bytes.length) bytes' items') :
    Reads pc (bytes ++ bytes') (items ++ items') := by
  intro limit rest done
  have hlimit : limit + (items ++ items').length = limit + items'.length + items.length := by
    rw [List.length_append]
    omega
  rw [hlimit, List.append_assoc, h, h', List.length_append, List.reverse_append, List.append_assoc,
    Nat.add_assoc]

theorem Reads.one {pc : Nat} {op : Opcode} {bytes : Bytes} {x : Item}
    (h : Cursor.Takes (Cursor.item op) pc (pc + 1) bytes x) : Reads pc (op :: bytes) [(pc, x)] := by
  intro limit rest done
  change readItemsOnto (limit + 1) pc (op :: (bytes ++ rest)) done = _
  rw [readItemsOnto_cons, h]
  simp only [List.length_cons, List.reverse_singleton, List.singleton_append]
  congr 1
  omega

/-- An item of a known format. -/
theorem Reads.of_format {pc : Nat} {op : Opcode} {f : Cursor.Format} {bytes : Bytes} {x : Item}
    (hop : Cursor.Format.of op = f) (h : Cursor.Takes (f.item op) pc (pc + 1) bytes x) :
    Reads pc (op :: bytes) [(pc, x)] := by
  refine .one ?_
  rw [Cursor.item_eq, hop]
  exact h

/-! ## Numbers -/

theorem UInt16.toUInt16_toUInt8 {v : UInt16} (h : v.toNat ≤ 255) : v.toUInt8.toUInt16 = v := by
  apply UInt16.toNat_inj.1
  simp only [UInt8.toNat_toUInt16, UInt16.toNat_toUInt8]
  omega

theorem Int16.toInt16_toInt8 {v : Int16} (h : Layout.fitsByte v.toInt = true) :
    v.toInt8.toUInt8.toInt8.toInt16 = v := by
  unfold Layout.fitsByte at h
  simp only [Bool.and_eq_true, decide_eq_true_eq] at h
  change v.toInt8.toInt16 = v
  apply Int16.toInt_inj.1
  simp only [Int8.toInt_toInt16, Int16.toInt_toInt8]
  exact Int.bmod_eq_of_le (by omega) (by omega)

theorem Int32.toInt32_toInt8 {v : Int32} (h : -128 ≤ v.toInt) (h' : v.toInt ≤ 127) :
    v.toInt8.toUInt8.toInt8.toInt32 = v := by
  change v.toInt8.toInt32 = v
  apply Int32.toInt_inj.1
  simp only [Int8.toInt_toInt32, Int32.toInt_toInt8]
  exact Int.bmod_eq_of_le (by omega) (by omega)

theorem Int32.toInt32_toUInt8 {v : Int32} (h : 0 ≤ v.toInt) (h' : v.toInt ≤ 255) :
    v.toInt8.toUInt8.toUInt32.toInt32 = v := by
  obtain ⟨⟨b⟩⟩ := v
  change 0 ≤ b.toInt at h
  change b.toInt ≤ 255 at h'
  rw [BitVec.toInt_eq_toNat_cond] at h h'
  have hlt : b.toNat ≤ 255 := by
    split at h' <;> split at h <;> omega
  have hb : (b.signExtend 8).setWidth 32 = b := by
    apply BitVec.eq_of_toNat_eq
    rw [BitVec.toNat_setWidth, BitVec.signExtend_eq_setWidth_of_le _ (by decide), BitVec.toNat_setWidth]
    omega
  exact congrArg (fun b => Int32.ofUInt32 ⟨b⟩) hb

theorem Int32.toInt32_toInt16 {v : Int32} (h : -32768 ≤ v.toInt) (h' : v.toInt ≤ 32767) :
    (Int16.ofInt v.toInt).toUInt16.toInt16.toInt32 = v := by
  change (Int16.ofInt v.toInt).toInt32 = v
  apply Int32.toInt_inj.1
  rw [Int16.toInt_toInt32]
  exact Int16.toInt_ofInt_of_le (by omega) (by omega)

/-! ## Written instructions -/

def Layout.place (l : Layout) (label : Label) : Nat :=
  (l.labels[label]?).getD 0

theorem Layout.offsetOf_eq_ok {l : Layout} {label : Label} {o : Nat} :
    l.offsetOf label = .ok o ↔ l.labels[label]? = some o := by
  unfold offsetOf
  cases l.labels[label]? <;> simp

theorem Layout.place_eq {l : Layout} {label : Label} {o : Nat} (h : l.offsetOf label = .ok o) :
    l.place label = o := by
  rw [offsetOf_eq_ok] at h
  rw [place, h]
  rfl

/-- The instructions that are read for one that was written at an offset. Branches name offsets; a
conditional branch that was split is read as two. -/
def Insn.written (l : Layout) (pc : Nat) (wide : Bool) : Insn → List (Nat × Insn)
  | .label _ | .line _ => []
  | .jump op target =>
    if Encode.splits (.jump op target) wide then
      (Op.invertBranch op).toList.flatMap fun opposite =>
        [(pc, .jump opposite (pc + 8)), (pc + 3, .jump Op.goto (l.place target))]
    else [(pc, .jump op (l.place target))]
  | .lookupSwitch fallback pairs =>
    [(pc, (Insn.lookupSwitch fallback (Encode.sortedPairs pairs)).retarget l.place)]
  | i => [(pc, i.retarget l.place)]

def asItems (insns : List (Nat × Insn)) : List (Nat × Item) :=
  insns.map fun x => (x.1, .insn x.2)

section Written

open Cursor Encode

variable {pool : Pool} {l : Layout} {pc : Nat} {wide : Bool} {bytes : Bytes}

/-- The opcodes of the formats in which the opcode matters. -/
theorem format_opcodes (op : Opcode) :
    (Format.of op = .var → op ∈ [Op.iload, Op.lload, Op.fload, Op.dload, Op.aload, Op.istore, Op.lstore,
      Op.fstore, Op.dstore, Op.astore]) ∧
    (Format.of op = .short → op = Op.sipush) ∧
    (Format.of op = .interface ↔ op = Op.invokeinterface) ∧
    (Format.of op = .branch → op ≠ Op.goto → ∃ opposite ∈ Op.invertBranch op,
      Format.of opposite = .branch ∧ opposite ≠ Op.goto) := by
  revert op
  refine Op.all ?_
  decide +kernel

/-- A load or store of one of the first slots has an opcode of its own. -/
theorem reads_firstSlots {op : Opcode} {slot : UInt16} (hop : Format.of op = .var)
    (h : slot.toNat ≤ 3) : Reads pc [(if Op.istore ≤ op then Op.istore0 + (op - Op.istore) * 4
      else Op.iload0 + (op - Op.iload) * 4) + slot.toUInt8] [(pc, .insn (.var op slot))] := by
  have table : ∀ op ∈ [Op.iload, Op.lload, Op.fload, Op.dload, Op.aload, Op.istore, Op.lstore,
      Op.fstore, Op.dstore, Op.astore], ∀ k ∈ [(0 : UInt16), 1, 2, 3],
      let b := (if Op.istore ≤ op then Op.istore0 + (op - Op.istore) * 4
        else Op.iload0 + (op - Op.iload) * 4) + k.toUInt8
      (Format.of b = .load0 ∧ Op.iload + (b - Op.iload0) / 4 = op ∧
        ((b - Op.iload0) % 4).toUInt16 = k) ∨
      (Format.of b = .store0 ∧ Op.istore + (b - Op.istore0) / 4 = op ∧
        ((b - Op.istore0) % 4).toUInt16 = k) := by
    simp only [List.forall_mem_cons, List.not_mem_nil, false_implies, implies_true, and_true]
    refine ⟨?_, ?_, ?_, ?_, ?_, ?_, ?_, ?_, ?_, ?_⟩ <;> decide
  have hslot : slot ∈ [(0 : UInt16), 1, 2, 3] := by
    simp only [List.mem_cons, List.not_mem_nil, or_false, ← UInt16.toNat_inj]
    simp only [UInt16.reduceToNat]
    omega
  rcases table op ((format_opcodes op).1 hop) slot hslot with ⟨hb, hopcode, hindex⟩ |
    ⟨hb, hopcode, hindex⟩
  · refine .of_format hb ?_
    simp only [Format.item, hopcode, hindex]
    exact takes_pure _
  · refine .of_format hb ?_
    simp only [Format.item, hopcode, hindex]
    exact takes_pure _

theorem reads_var {op : Opcode} {slot : UInt16} (hop : Format.of op = .var) :
    Reads pc (bytesOfVar op slot) [(pc, .insn (.var op slot))] := by
  unfold bytesOfVar
  simp only
  by_cases h3 : slot.toNat ≤ 3
  · rw [if_pos h3]
    exact reads_firstSlots hop h3
  · rw [if_neg h3]
    by_cases h255 : slot.toNat ≤ 255
    · rw [if_pos h255]
      refine .of_format hop ?_
      have htakes := takes_map (f := fun b => Item.insn (.var op b.toUInt16))
        (takes_u1 (n := pc) (k := pc + 1) slot.toUInt8)
      rwa [UInt16.toUInt16_toUInt8 h255] at htakes
    · rw [if_neg h255]
      refine .of_format (f := .wide) (by decide) ?_
      have hreader : ∀ op ∈ [Op.iload, Op.lload, Op.fload, Op.dload, Op.aload, Op.istore, Op.lstore,
          Op.fstore, Op.dstore, Op.astore], op ≠ Op.ret ∧ op ≠ Op.iinc ∧
          (Op.between Op.iload Op.aload op || Op.between Op.istore Op.astore op) = true := by
        decide +kernel
      obtain ⟨hret, hiinc, hrange⟩ := hreader op ((format_opcodes op).1 hop)
      refine takes_bind (takes_u1 op) ?_
      simp only [hret, hiinc, hrange, if_false, if_true]
      exact takes_map (takes_u2 slot)

theorem reads_iinc {slot : UInt16} {delta : Int16} :
    Reads pc (bytesOfIinc slot delta) [(pc, .insn (.iinc slot delta))] := by
  unfold bytesOfIinc
  by_cases h : (decide (slot.toNat ≤ 255) && Layout.fitsByte delta.toInt) = true
  · rw [if_pos h]
    rw [Bool.and_eq_true, decide_eq_true_eq] at h
    refine .of_format (f := .iinc) (by decide) ?_
    have htakes := takes_bind
      (f := fun a => do return Item.insn (.iinc a.toUInt16 (← u1).toInt8.toInt16))
      (takes_u1 (n := pc) (k := pc + 1) slot.toUInt8) (takes_map (takes_u1 delta.toInt8.toUInt8))
    rwa [UInt16.toUInt16_toUInt8 h.1, Int16.toInt16_toInt8 h.2] at htakes
  · rw [if_neg h]
    change Reads pc (Op.wide :: ([Op.iinc] ++ (bytesOfU2 slot ++ bytesOfU2 delta.toUInt16))) _
    refine .of_format (f := .wide) (by decide) ?_
    refine takes_bind (takes_u1 Op.iinc) ?_
    have hret : Op.iinc ≠ Op.ret := by decide
    simp only [hret, if_false, if_true]
    exact takes_bind (takes_u2 slot) (takes_map (f := fun v => Item.insn (.iinc slot v.toInt16))
      (takes_u2 delta.toUInt16))

theorem reads_ldc {index : UInt16} :
    Reads pc (bytesOfLdc pool index) [(pc, .insn (.ldc index))] := by
  unfold bytesOfLdc
  split
  · exact .of_format (f := .farConstant) (by decide) (takes_map (takes_u2 index))
  · split
    · rename_i h255
      refine .of_format (f := .constant) (by decide) ?_
      have htakes := takes_map (f := fun b => Item.insn (.ldc b.toUInt16))
        (takes_u1 (n := pc) (k := pc + 1) index.toUInt8)
      rwa [UInt16.toUInt16_toUInt8 h255] at htakes
    · exact .of_format (f := .farConstant) (by decide) (takes_map (takes_u2 index))

theorem reads_int {op : Opcode} {v : Int32} (hstd : (Insn.int op v).Standard)
    (h : bytesOfInsn pool l pc wide (.int op v) = .ok bytes) :
    Reads pc bytes [(pc, .insn (.int op v))] := by
  have other : ∀ {f}, Format.of op = f → f ≠ .short → op ≠ Op.sipush := by
    rintro f rfl hf rfl
    exact hf (by decide)
  simp only [bytesOfInsn] at h
  rcases hstd with ⟨hop, hlo, hhi⟩ | ⟨hop, hlo, hhi⟩ | ⟨hop, hlo, hhi⟩
  · rw [if_neg (other hop nofun)] at h
    cases h
    refine .of_format hop ?_
    have htakes := takes_map (f := fun b => Item.insn (.int op b.toInt8.toInt32))
      (takes_u1 (n := pc) (k := pc + 1) v.toInt8.toUInt8)
    rwa [Int32.toInt32_toInt8 hlo hhi] at htakes
  · rw [if_pos ((format_opcodes op).2.1 hop)] at h
    cases h
    refine .of_format hop ?_
    have htakes := takes_map (f := fun b => Item.insn (.int op b.toInt16.toInt32))
      (takes_u2 (n := pc) (k := pc + 1) (Int16.ofInt v.toInt).toUInt16)
    rwa [Int32.toInt32_toInt16 hlo hhi] at htakes
  · rw [if_neg (other hop nofun)] at h
    cases h
    refine .of_format hop ?_
    have htakes := takes_map (f := fun b => Item.insn (.int op b.toUInt32.toInt32))
      (takes_u1 (n := pc) (k := pc + 1) v.toInt8.toUInt8)
    rwa [Int32.toInt32_toUInt8 hlo hhi] at htakes

theorem reads_method {op : Opcode} {index : UInt16} (hstd : (Insn.method op index).Standard)
    (h : bytesOfMethod pool op index = .ok bytes) :
    Reads pc bytes [(pc, .insn (.method op index))] := by
  unfold bytesOfMethod at h
  have hinterface := (format_opcodes op).2.2.1
  by_cases hop : op = Op.invokeinterface
  · rw [if_pos hop] at h
    obtain ⟨ref, -, h⟩ := bind_eq_ok.1 h
    obtain ⟨d, -, h⟩ := bind_eq_ok.1 h
    cases h
    refine .of_format (hinterface.2 hop) ?_
    have count : Takes u2 pc (pc + 1 + 2) [UInt8.ofNat (d.parameterSlots + 1), 0]
        (u2OfBytes (UInt8.ofNat (d.parameterSlots + 1)) 0) := fun _ => rfl
    exact takes_bind (takes_u2 index) (takes_map (f := fun _ => Item.insn (.method op index)) count)
  · rw [if_neg hop] at h
    cases h
    rcases hstd with hstd | hstd
    · exact .of_format hstd (takes_map (takes_u2 index))
    · exact absurd (hinterface.1 hstd) hop

theorem fits_four {l : Layout} {pc : Nat} (hpc : pc ≤ maxCodeLength)
    (hl : ∀ (label : Label) (o : Nat), l.labels[label]? = some o → o ≤ maxCodeLength) (t : Label) :
    -2147483648 ≤ (l.place t - pc : Int) ∧ (l.place t - pc : Int) < 2147483648 := by
  have h : l.place t ≤ maxCodeLength := by
    unfold Layout.place
    cases hp : l.labels[t]? with
    | none => exact Nat.zero_le _
    | some o => exact hl t o hp
  unfold maxCodeLength at hpc h
  omega

/-- The padding of a switch ends where its operands start. -/
theorem takes_padding : Takes align pc (pc + 1) (padding pc) () := takes_align

section Branches

variable (hpc : pc ≤ maxCodeLength)
  (hl : ∀ (label : Label) (o : Nat), l.labels[label]? = some o → o ≤ maxCodeLength)
include hpc hl

theorem reads_jump {op : Opcode} {target : Label} (hop : Format.of op = .branch)
    (hshort : wide = false → Layout.fitsShort (l.place target - pc : Int) = true)
    (h : bytesOfInsn pool l pc wide (.jump op target) = .ok bytes) :
    Reads pc bytes (asItems ((Insn.jump op target).written l pc wide)) := by
  obtain ⟨there, hthere, h⟩ := bind_eq_ok.1 h
  rw [← Layout.place_eq hthere] at h
  obtain ⟨hlo, hhi⟩ := fits_four hpc hl target
  unfold bytesOfJump at h
  unfold Insn.written splits
  cases wide with
  | false =>
    cases h
    exact .of_format hop (takes_map (takes_target2 (hshort rfl)))
  | true =>
    by_cases hgoto : op = Op.goto
    · subst hgoto
      cases h
      exact .of_format (f := .farBranch) (by decide) (takes_map (takes_target4 hlo hhi))
    · obtain ⟨opposite, hopp, hformat, -⟩ := (format_opcodes op).2.2.2 hop hgoto
      rw [Option.mem_def] at hopp
      simp only [Bool.not_true, Bool.false_eq_true, hgoto, if_false, hopp] at h
      cases h
      have hsplit : (true && op != Op.goto) = true := by simpa using hgoto
      simp only [hsplit, if_true, hopp, Option.toList_some, List.flatMap_singleton]
      -- the opposite branch leads over the far jump
      have height : Encode.bytesOfI2 8 = Encode.bytesOfI2 ((pc + 8 : Nat) - pc : Int) := by
        congr 1
        omega
      have hfar : (l.place target - pc : Int) - 3 = l.place target - (pc + 3 : Nat) := by omega
      have hfirst : Reads pc (opposite :: Encode.bytesOfI2 8)
          [(pc, .insn (.jump opposite (pc + 8)))] := by
        rw [height]
        refine .of_format hformat (takes_map (takes_target2 ?_))
        unfold Layout.fitsShort
        simp only [Bool.and_eq_true, decide_eq_true_eq]
        omega
      have hsecond : Reads (pc + 3) (Op.gotoW :: Encode.bytesOfI4 (l.place target - pc - 3))
          [(pc + 3, .insn (.jump Op.goto (l.place target)))] := by
        rw [hfar]
        unfold maxCodeLength at hpc
        exact .of_format (f := .farBranch) (by decide)
          (takes_map (takes_target4 (by omega) (by omega)))
      exact hfirst.append hsecond

/-- The distances of a switch. -/
theorem takes_targets {targets : List Label} {others : List Bytes}
    (h : targets.mapM (bytesOfTarget l pc) = .ok others) :
    List.Forall₂ (fun bytes a => ∀ pos, Takes target4 pc pos bytes a) others (targets.map l.place) := by
  rw [mapM_eq_ok] at h
  induction h with
  | nil => exact .nil
  | cons htarget _ ih =>
    obtain ⟨there, hthere, h⟩ := bind_eq_ok.1 htarget
    cases h
    rw [← Layout.place_eq hthere]
    obtain ⟨hlo, hhi⟩ := fits_four hpc hl _
    exact .cons (fun pos => takes_target4 hlo hhi) ih

theorem takes_pairs {pairs : List (Int32 × Label)} {others : List Bytes}
    (h : (pairs.mapM fun x => do return bytesOfI4 x.1.toInt ++ (← bytesOfTarget l pc x.2)) =
      .ok others) :
    List.Forall₂ (fun bytes a => ∀ pos, Takes (do return (← i4, ← target4)) pc pos bytes a) others
      (pairs.map fun x => (x.1, l.place x.2)) := by
  rw [mapM_eq_ok] at h
  induction h with
  | nil => exact .nil
  | @cons pair bytes _ _ hpair _ ih =>
    obtain ⟨_, htarget, h⟩ := bind_eq_ok.1 hpair
    cases h
    obtain ⟨there, hthere, h⟩ := bind_eq_ok.1 htarget
    cases h
    rw [← Layout.place_eq hthere]
    obtain ⟨hlo, hhi⟩ := fits_four hpc hl pair.2
    have hkey : ∀ pos, Takes i4 pc pos (bytesOfI4 pair.1.toInt) pair.1 := by
      intro pos
      unfold bytesOfI4
      rw [Int32.ofInt_toInt]
      exact takes_i4 pair.1
    refine .cons (fun pos => ?_) ih
    exact takes_bind (f := fun key => do return (key, ← target4)) (hkey pos)
      (takes_map (takes_target4 hlo hhi))

theorem reads_tableSwitch {fallback : Label} {low : Int32} {targets : List Label}
    (hstd : (Insn.tableSwitch fallback low targets).Standard)
    (h : bytesOfInsn pool l pc wide (.tableSwitch fallback low targets) = .ok bytes) :
    Reads pc bytes
      [(pc, .insn (.tableSwitch (l.place fallback) low (targets.map l.place)))] := by
  obtain ⟨first, hfirst, h⟩ := bind_eq_ok.1 h
  obtain ⟨others, hothers, h⟩ := bind_eq_ok.1 h
  cases h
  obtain ⟨hpos, hhigh⟩ := hstd
  obtain ⟨there, hthere, hfirst⟩ := bind_eq_ok.1 hfirst
  cases hfirst
  rw [← Layout.place_eq hthere]
  obtain ⟨hlo, hhi⟩ := fits_four hpc hl fallback
  have hlength : others.length = targets.length := (mapM_eq_ok.1 hothers).length_eq.symm
  have hlow := low.le_toInt
  have htop : (Int32.ofInt (low.toInt + targets.length - 1)).toInt = low.toInt + targets.length - 1 :=
    Int32.toInt_ofInt_of_le (by omega) (by omega)
  refine .of_format (f := .table) (by decide) ?_
  change Takes Cursor.tableSwitch pc (pc + 1) (padding pc ++ bytesOfI4 (l.place fallback - pc) ++
    bytesOfI4 low.toInt ++ bytesOfI4 (low.toInt + targets.length - 1) ++ others.flatten) _
  simp only [List.append_assoc]
  unfold Cursor.tableSwitch
  refine takes_bind takes_padding (takes_bind (takes_target4 hlo hhi) ?_)
  have hlowTakes : ∀ pos, Takes i4 pc pos (bytesOfI4 low.toInt) low := by
    intro pos
    unfold bytesOfI4
    rw [Int32.ofInt_toInt]
    exact takes_i4 low
  refine takes_bind (hlowTakes _) (takes_bind (takes_i4 _) ?_)
  rw [htop, if_neg (by omega)]
  have hcount : (low.toInt + targets.length - 1 - low.toInt + 1).toNat = others.length := by omega
  rw [hcount]
  exact takes_map (f := fun ts => Item.insn (.tableSwitch (l.place fallback) low ts))
    (takes_many (takes_targets hpc hl hothers))

theorem reads_lookupSwitch {fallback : Label} {pairs : List (Int32 × Label)}
    (hstd : (Insn.lookupSwitch fallback pairs).Standard)
    (h : bytesOfInsn pool l pc wide (.lookupSwitch fallback pairs) = .ok bytes) :
    Reads pc bytes (asItems ((Insn.lookupSwitch fallback pairs).written l pc wide)) := by
  obtain ⟨first, hfirst, h⟩ := bind_eq_ok.1 h
  obtain ⟨others, hothers, h⟩ := bind_eq_ok.1 h
  cases h
  obtain ⟨there, hthere, hfirst⟩ := bind_eq_ok.1 hfirst
  cases hfirst
  rw [← Layout.place_eq hthere]
  obtain ⟨hlo, hhi⟩ := fits_four hpc hl fallback
  have hsorted : (sortedPairs pairs).length = pairs.length := (List.mergeSort_perm _ _).length_eq
  have hlength : others.length = pairs.length := by
    rw [← hsorted]
    exact (mapM_eq_ok.1 hothers).length_eq.symm
  have hstd : pairs.length < 2147483648 := hstd
  have hcount : (Int32.ofInt pairs.length).toInt = pairs.length :=
    Int32.toInt_ofInt_of_le (by omega) (by omega)
  refine .of_format (f := .lookup) (by decide) ?_
  change Takes Cursor.lookupSwitch pc (pc + 1) (padding pc ++ bytesOfI4 (l.place fallback - pc) ++
    bytesOfI4 pairs.length ++ others.flatten) _
  simp only [List.append_assoc]
  unfold Cursor.lookupSwitch
  refine takes_bind takes_padding (takes_bind (takes_target4 hlo hhi) ?_)
  refine takes_bind (takes_i4 _) ?_
  rw [hcount, if_neg (by omega)]
  simp only [Int.toNat_natCast]
  rw [← hlength]
  exact takes_map (f := fun ts => Item.insn (.lookupSwitch (l.place fallback) ts))
    (takes_many (takes_pairs hpc hl hothers))

/-- What was written is read back. -/
theorem reads_insn {insn : Insn} (hstd : insn.Standard)
    (hshort : ∀ op target, insn = .jump op target → wide = false →
      Layout.fitsShort (l.place target - pc : Int) = true)
    (h : bytesOfInsn pool l pc wide insn = .ok bytes) :
    Reads pc bytes (asItems (insn.written l pc wide)) := by
  cases insn with
  | label _ | line _ =>
    cases h
    exact .nil pc
  | simple op =>
    cases h
    exact .of_format hstd (takes_pure _)
  | int op v => exact reads_int hstd h
  | var op slot =>
    cases h
    exact reads_var hstd
  | iinc slot delta =>
    cases h
    exact reads_iinc
  | type op index =>
    cases h
    exact .of_format hstd (takes_map (takes_u2 index))
  | field op index =>
    cases h
    exact .of_format hstd (takes_map (takes_u2 index))
  | method op index => exact reads_method hstd h
  | dynamic index =>
    cases h
    refine .of_format (f := .dynamic) (by decide) ?_
    have rest : Takes u2 pc (pc + 1 + 2) [0, 0] 0 := fun _ => rfl
    exact takes_bind (takes_u2 index) (takes_map (f := fun _ => Item.insn (.dynamic index)) rest)
  | ldc index =>
    cases h
    exact reads_ldc
  | jump op target => exact reads_jump hpc hl hstd (hshort op target rfl) h
  | tableSwitch fallback low targets => exact reads_tableSwitch hpc hl hstd h
  | lookupSwitch fallback pairs => exact reads_lookupSwitch hpc hl hstd h
  | multiNewArray index dims =>
    cases h
    refine .of_format (f := .multi) (by decide) ?_
    exact takes_bind (f := fun i => do return Item.insn (.multiNewArray i (← u1))) (takes_u2 index)
      (takes_map (takes_u1 dims))

end Branches

end Written

/-! ## Whole bodies -/

namespace Encode

variable {pool : Pool} {l : Layout} {pc : Nat} {wide : Bool} {bytes : Bytes}

theorem bytesOfI4_length (n : Int) : (bytesOfI4 n).length = 4 := rfl

theorem bytesOfTarget_length {target : Label} (h : bytesOfTarget l pc target = .ok bytes) :
    bytes.length = 4 := by
  obtain ⟨there, -, h⟩ := bind_eq_ok.1 h
  cases h
  rfl

theorem length_flatten_of_forall₂ {α : Type} {R : α → Bytes → Prop} {n : Nat}
    (hR : ∀ x bytes, R x bytes → bytes.length = n) {xs : List α} {parts : List Bytes}
    (h : List.Forall₂ R xs parts) : parts.flatten.length = n * xs.length := by
  induction h with
  | nil => rfl
  | cons hx _ ih =>
    rw [List.flatten_cons, List.length_append, hR _ _ hx, ih, List.length_cons, Nat.mul_succ, Nat.add_comm]

/-- An instruction takes as many bytes as the layout says. -/
theorem bytesOfInsn_length {insn : Insn} (h : bytesOfInsn pool l pc wide insn = .ok bytes) :
    bytes.length = Layout.size pool pc wide insn := by
  cases insn with
  | label _ | line _ | simple _ | type _ _ | field _ _ | dynamic _ | multiNewArray _ _ =>
    cases h
    rfl
  | int op v =>
    simp only [bytesOfInsn] at h
    simp only [Layout.size]
    by_cases hop : op = Op.sipush
    · rw [if_pos hop] at h ⊢
      cases h
      rfl
    · rw [if_neg hop] at h ⊢
      cases h
      rfl
  | var op slot =>
    cases h
    simp only [bytesOfVar, Layout.size]
    split
    · rfl
    · split <;> rfl
  | iinc slot delta =>
    cases h
    simp only [bytesOfIinc, Layout.size]
    split <;> rfl
  | ldc index =>
    cases h
    simp only [bytesOfLdc, Layout.size]
    cases pool.isWideAt index with
    | true => rfl
    | false =>
      by_cases hindex : index.toNat ≤ 255
      · simp [hindex]
      · simp [hindex, bytesOfU2]
  | method op index =>
    simp only [bytesOfInsn, bytesOfMethod] at h
    simp only [Layout.size]
    by_cases hop : op = Op.invokeinterface
    · rw [if_pos hop] at h ⊢
      obtain ⟨ref, -, h⟩ := bind_eq_ok.1 h
      obtain ⟨d, -, h⟩ := bind_eq_ok.1 h
      cases h
      rfl
    · rw [if_neg hop] at h ⊢
      cases h
      rfl
  | jump op target =>
    obtain ⟨there, -, h⟩ := bind_eq_ok.1 h
    simp only [bytesOfJump] at h
    simp only [Layout.size]
    cases wide with
    | false =>
      cases h
      rfl
    | true =>
      simp only [Bool.not_true, Bool.false_eq_true, if_false] at h ⊢
      by_cases hop : op = Op.goto
      · rw [if_pos hop] at h ⊢
        cases h
        rfl
      · rw [if_neg hop] at h ⊢
        split at h
        · cases h
          rfl
        · cases h
  | tableSwitch fallback low targets =>
    obtain ⟨first, hfirst, h⟩ := bind_eq_ok.1 h
    obtain ⟨others, hothers, h⟩ := bind_eq_ok.1 h
    cases h
    have hlength := length_flatten_of_forall₂ (R := fun x bytes => bytesOfTarget l pc x = .ok bytes)
      (fun _ _ => bytesOfTarget_length) (mapM_eq_ok.1 hothers)
    simp only [List.length_append, List.length_cons, hlength, bytesOfTarget_length hfirst,
      bytesOfI4_length, padding, List.length_replicate, Layout.size]
    omega
  | lookupSwitch fallback pairs =>
    obtain ⟨first, hfirst, h⟩ := bind_eq_ok.1 h
    obtain ⟨others, hothers, h⟩ := bind_eq_ok.1 h
    cases h
    have hsorted : (sortedPairs pairs).length = pairs.length := (List.mergeSort_perm _ _).length_eq
    have hlength := length_flatten_of_forall₂ (n := 8) (fun _ _ hpair => by
      obtain ⟨target, htarget, hpair⟩ := bind_eq_ok.1 hpair
      cases hpair
      rw [List.length_append, bytesOfI4_length, bytesOfTarget_length htarget])
      (mapM_eq_ok.1 hothers)
    simp only [List.length_append, List.length_cons, hlength, hsorted, bytesOfTarget_length hfirst,
      bytesOfI4_length, padding, List.length_replicate, Layout.size]
    omega

end Encode

namespace Layout

/-- The instructions of a body, each with its offset and whether it is a wide branch. -/
def rows (l : Layout) (insns : List Insn) : List ((Insn × Nat) × Bool) :=
  (insns.zip l.offsets).zip l.widths

def reread (l : Layout) (insns : List Insn) : List (Nat × Insn) :=
  (l.rows insns).flatMap fun x => x.1.1.written l x.1.2 x.2

/-- The layout is the one of its own widths, and has no branch that still has to be widened. -/
structure Settled (pool : Pool) (l : Layout) (insns : List Insn) : Prop where
  widths : l.widths.length = insns.length
  eq : l = ofWidths pool insns l.widths
  short : ∀ op target pc, ((Insn.jump op target, pc), false) ∈ l.rows insns →
    fitsShort (l.place target - pc : Int) = true

theorem Settled.offsets_eq {pool : Pool} {l : Layout} {insns : List Insn} (hs : l.Settled pool insns) :
    l.offsets = (offsetsOnto pool [] 0 insns l.widths).1 :=
  congrArg Layout.offsets hs.eq

theorem Settled.length_eq {pool : Pool} {l : Layout} {insns : List Insn} (hs : l.Settled pool insns) :
    l.length = (offsetsOnto pool [] 0 insns l.widths).2 :=
  congrArg Layout.length hs.eq

theorem short_of_widen {l : Layout} {insns : List Insn} (h : l.widen insns = .ok l.widths) {op : Opcode} {target : Label} {pc : Nat}
    (hx : ((Insn.jump op target, pc), false) ∈ l.rows insns) :
    fitsShort (l.place target - pc : Int) = true := by
  have hall := mapM_eq_ok.1 h
  obtain ⟨i, hi⟩ := List.mem_iff_getElem?.1 hx
  obtain ⟨y, hy, hwidened⟩ := forall₂_getElem? hall hi
  have hwidth := (List.getElem?_zip_eq_some.1 hi).2
  rw [hwidth] at hy
  cases hy
  simp only [widened, Bool.false_eq_true, if_false] at hwidened
  obtain ⟨there, hthere, hfits⟩ := bind_eq_ok.1 hwidened
  rw [place_eq hthere]
  simpa using Except.ok.inj hfits

theorem settle_settled {pool : Pool} {insns : List Insn} {passes : Nat} {widths : Widths} {l : Layout}
    (h : widths.length = insns.length) (hs : settle pool insns passes widths = .ok l) :
    l.Settled pool insns := by
  induction passes generalizing widths with
  | zero => cases hs
  | succ passes ih =>
    obtain ⟨wider, hw, hs⟩ := bind_eq_ok.1 hs
    have hfits := ofWidths_fits pool h
    split at hs
    · rename_i hsame
      cases hs
      rw [hsame] at hw
      exact ⟨h, rfl, fun op target pc => short_of_widen hw⟩
    · refine ih ?_ hs
      rw [← (mapM_eq_ok.1 hw).length_eq]
      have hwidths : (ofWidths pool insns widths).widths = widths := rfl
      rw [List.length_zip, List.length_zip, hfits.offsets, hwidths]
      omega

theorem ofInsns_settled {pool : Pool} {insns : List Insn} {l : Layout}
    (h : ofInsns pool insns = .ok l) : l.Settled pool insns :=
  settle_settled (by simp) h

end Layout

/-- Instructions that are laid out one behind the other take the bytes up to their end. -/
theorem length_rows {pool : Pool} {l : Layout} {insns : List Insn} {widths : Layout.Widths} {pc : Nat}
    {parts : List Bytes} (hwidths : widths.length = insns.length)
    (hparts : List.Forall₂ (fun x bytes => Encode.bytesOfInsn pool l x.1.2 x.2 x.1.1 = .ok bytes)
      ((insns.zip (Layout.offsetsOnto pool [] pc insns widths).1).zip widths) parts) :
    pc + parts.flatten.length = (Layout.offsetsOnto pool [] pc insns widths).2 := by
  induction insns generalizing pc widths parts with
  | nil =>
    cases hparts
    rfl
  | cons insn insns ih =>
    cases widths with
    | nil => cases hwidths
    | cons wide widths =>
      rw [Layout.offsetsOnto_cons] at hparts ⊢
      simp only [List.zip_cons_cons] at hparts ⊢
      cases hparts with
      | @cons _ bytes _ parts hbytes hrest =>
        rw [List.flatten_cons, List.length_append, Encode.bytesOfInsn_length hbytes, ← Nat.add_assoc]
        exact ih (by simpa using hwidths) hrest

/-- The bytes of instructions that are laid out one behind the other. -/
theorem reads_rows {pool : Pool} {l : Layout}
    (hl : ∀ (label : Label) (o : Nat), l.labels[label]? = some o → o ≤ maxCodeLength)
    {insns : List Insn} {widths : Layout.Widths} {pc : Nat} {parts : List Bytes}
    (hwidths : widths.length = insns.length)
    (hend : (Layout.offsetsOnto pool [] pc insns widths).2 ≤ maxCodeLength)
    (hparts : List.Forall₂ (fun x bytes => Encode.bytesOfInsn pool l x.1.2 x.2 x.1.1 = .ok bytes)
      ((insns.zip (Layout.offsetsOnto pool [] pc insns widths).1).zip widths) parts)
    (hshort : ∀ op target pc', ((Insn.jump op target, pc'), false) ∈
      (insns.zip (Layout.offsetsOnto pool [] pc insns widths).1).zip widths →
        Layout.fitsShort (l.place target - pc' : Int) = true)
    (hstd : ∀ insn ∈ insns, insn.Standard) :
    Reads pc parts.flatten (asItems
      (((insns.zip (Layout.offsetsOnto pool [] pc insns widths).1).zip widths).flatMap fun x =>
        x.1.1.written l x.1.2 x.2)) := by
  induction insns generalizing pc widths parts with
  | nil =>
    cases hparts
    exact .nil pc
  | cons insn insns ih =>
    cases widths with
    | nil => cases hwidths
    | cons wide widths =>
      rw [Layout.offsetsOnto_cons] at hparts hend hshort ⊢
      simp only [List.zip_cons_cons] at hparts hshort ⊢
      cases hparts with
      | @cons _ bytes _ parts hbytes hrest =>
        have hreads := ih (by simpa using hwidths) hend hrest
          (fun op target pc' h => hshort op target pc' (List.mem_cons_of_mem _ h))
          fun i hi => hstd i (List.mem_cons_of_mem _ hi)
        have hpc : pc ≤ maxCodeLength :=
          Nat.le_trans (Nat.le_trans (Nat.le_add_right _ _)
            (Layout.offsetsOnto_bound widths (pc + Layout.size pool pc wide insn)).1) hend
        have hfirst : Reads pc bytes (asItems (insn.written l pc wide)) := by
          refine reads_insn hpc hl (hstd insn (List.mem_cons_self ..)) (fun op target he hw => ?_) hbytes
          subst he hw
          exact hshort op target pc (List.mem_cons_self ..)
        rw [List.flatMap_cons, asItems, List.map_append, List.flatten_cons]
        refine hfirst.append ?_
        rw [Encode.bytesOfInsn_length hbytes]
        exact hreads

/-- What is read for an instruction takes at least a byte each. -/
theorem Insn.written_length_le (pool : Pool) (l : Layout) (pc : Nat) (wide : Bool) (insn : Insn) :
    (insn.written l pc wide).length ≤ Layout.size pool pc wide insn := by
  cases insn with
  | label _ | line _ => exact Nat.le_refl _
  | jump op target =>
    unfold Insn.written Layout.size
    cases wide with
    | false => exact Nat.le_of_ble_eq_true rfl
    | true =>
      by_cases hop : op = Op.goto
      · subst hop
        exact Nat.le_of_ble_eq_true rfl
      · simp only [Encode.splits, Bool.true_and, bne_iff_ne, ne_eq, hop, not_false_eq_true, if_true,
          Bool.not_true, Bool.false_eq_true, if_false]
        cases Op.invertBranch op with
        | none => exact Nat.zero_le _
        | some opposite => exact Nat.le_of_ble_eq_true rfl
  | int _ _ | var _ _ | iinc _ _ | method _ _ | ldc _ =>
    change 1 ≤ _
    simp only [Layout.size]
    split_ifs <;> omega
  | tableSwitch _ _ _ | lookupSwitch _ _ =>
    change 1 ≤ _
    simp only [Layout.size]
    omega
  | _ => exact Nat.le_of_ble_eq_true rfl

theorem length_flatMap_le {α β : Type} {R : α → Bytes → Prop} {f : α → List β}
    (hR : ∀ x bytes, R x bytes → (f x).length ≤ bytes.length) {xs : List α} {parts : List Bytes}
    (h : List.Forall₂ R xs parts) : (xs.flatMap f).length ≤ parts.flatten.length := by
  induction h with
  | nil => exact Nat.le_refl _
  | cons hx _ ih =>
    rw [List.flatMap_cons, List.flatten_cons, List.length_append, List.length_append]
    exact Nat.add_le_add (hR _ _ hx) ih

theorem readItems_of_reads {code : Bytes} {items : List (Nat × Item)} (h : Reads 0 code items)
    (hlength : items.length ≤ code.length) : readItems code = .ok items := by
  obtain ⟨limit, hlimit⟩ := Nat.exists_eq_add_of_le hlength
  have hall := h limit [] []
  rw [List.append_nil] at hall
  unfold readItems
  rw [hlimit, Nat.add_comm, hall]
  cases limit with
  | zero => simp [readItemsOnto]
  | succ limit => simp [readItemsOnto]

structure Encoded.Of (e : Encoded) (b : Body) (l : Layout) : Prop where
  offsets : e.offsets = l.offsets.toArray
  labels : e.labels = l.labels
  lines : e.lines = Encode.lines l b.insns
  exceptions : List.Forall₂ (fun t x => Encode.exceptionEntry l t = .ok x) b.tryCatch e.exceptions
  length : e.code.length = l.length
  widened : e.widened = Encode.widenedFallthroughs l b.insns

/-- Encoded code has a layout: its bytes are those of its instructions one behind the other. -/
theorem encode_of {b : Body} {pool : Pool} {e : Encoded} (he : encode b pool = .ok e) :
    ∃ (l : Layout) (parts : List Bytes), Layout.ofInsns pool b.insns = .ok l ∧
      l.Settled pool b.insns ∧ l.Fits b.insns ∧ l.length ≤ maxCodeLength ∧ e.Of b l ∧
      e.code = parts.flatten ∧
      List.Forall₂ (fun x bytes => Encode.bytesOfInsn pool l x.1.2 x.2 x.1.1 = .ok bytes)
        (l.rows b.insns) parts := by
  unfold encode at he
  obtain ⟨l, hl, he⟩ := bind_eq_ok.1 he
  by_cases hsize : l.length > maxCodeLength
  · simp only [hsize, if_true] at he
    cases he
  simp only [hsize, if_false] at he
  obtain ⟨parts, hparts, he⟩ := bind_eq_ok.1 he
  obtain ⟨exceptions, hexceptions, he⟩ := bind_eq_ok.1 he
  cases he
  have hsettled := Layout.ofInsns_settled hl
  have hparts := mapM_eq_ok.1 hparts
  have hlength : parts.flatten.length = l.length := by
    have hrows := hparts
    rw [hsettled.offsets_eq] at hrows
    have hend := length_rows hsettled.widths hrows
    rw [Nat.zero_add] at hend
    exact hend.trans hsettled.length_eq.symm
  exact ⟨l, parts, hl, hsettled, Layout.ofInsns_fits hl, Nat.le_of_not_lt hsize,
    ⟨rfl, rfl, rfl, mapM_eq_ok.1 hexceptions, hlength, rfl⟩, rfl, hparts⟩

/-- The code of a body is read as what was written for its instructions. -/
theorem readItems_encode {b : Body} {pool : Pool} {e : Encoded} (he : encode b pool = .ok e)
    (hstd : ∀ insn ∈ b.insns, insn.Standard) :
    ∃ l : Layout, l.Settled pool b.insns ∧ l.Fits b.insns ∧ l.length ≤ maxCodeLength ∧ e.Of b l ∧
      readItems e.code = .ok (asItems (l.reread b.insns)) := by
  obtain ⟨l, parts, -, hsettled, hfits, hsize, hof, hcode, hparts⟩ := encode_of he
  have hlabels : ∀ (label : Label) (o : Nat), l.labels[label]? = some o → o ≤ maxCodeLength := by
    intro label o ho
    obtain ⟨i, -, hi⟩ := (hfits.labels label o).1 ho
    exact Nat.le_trans (hfits.bound i o hi) hsize
  have hshort := hsettled.short
  unfold Layout.rows at hshort hparts
  rw [hsettled.offsets_eq] at hparts hshort
  have hreads := reads_rows hlabels hsettled.widths (hsettled.length_eq ▸ hsize) hparts hshort hstd
  refine ⟨l, hsettled, hfits, hsize, hof, ?_⟩
  rw [hcode]
  unfold Layout.reread Layout.rows
  rw [hsettled.offsets_eq]
  refine readItems_of_reads hreads ?_
  rw [asItems, List.length_map]
  refine length_flatMap_le (fun x bytes hx => ?_) hparts
  rw [Encode.bytesOfInsn_length hx]
  exact Insn.written_length_le pool l _ _ _

end Interpose
