import Interpose.Proofs.Code.Boundaries
import Interpose.Proofs.Code.Reread
/-!
# Layout and bytes

Sizes of instructions are computed in one place and their bytes in another. Both agree: the bytes of each
instruction stand where the layout says and are as many as it says (`Encoded.LaidOut.insn`), so distances
between offsets are distances between bytes. What is written for a branch is read off the bytes themselves
(`Bytes.Branch`), with the numbers in two and four bytes read as signed numbers.

Widening is a loop whose body changes what its condition looks at: one wide branch moves everything behind
it, and the padding of switches grows or shrinks. It ends since no branch becomes short again: a pass that is
not the last widens a branch (`Layout.shortJumps_widen`).

Results:
* `Layout.ofInsns_passes`: the passes end, after at most one more than there are branches.
* `Encoded.laidOut_of_encode`: the bytes of encoded code lie as its layout says.
* `encode_laid_out`: both together.
-/

namespace Interpose

/-! ## Passes -/

namespace Layout

/-- Passes over the code as they are made, without a bound on their number. The last one finds a label that
is not placed, or nothing to widen. -/
inductive Passes (pool : Pool) (insns : List Insn) : Nat → Widths → Except CodeError Layout → Prop
  | refused {widths : Widths} {e : CodeError} : (ofWidths pool insns widths).widen insns = .error e →
    Passes pool insns 1 widths (.error e)
  | settled {widths : Widths} : (ofWidths pool insns widths).widen insns = .ok widths →
    Passes pool insns 1 widths (.ok (ofWidths pool insns widths))
  | again {n : Nat} {widths wider : Widths} {r : Except CodeError Layout} :
    (ofWidths pool insns widths).widen insns = .ok wider → wider ≠ widths → Passes pool insns n wider r →
    Passes pool insns (n + 1) widths r

def shortJump : Insn × Bool → Bool
  | (.jump _ _, false) => true
  | _ => false

def shortJumps (insns : List Insn) (widths : Widths) : Nat :=
  (insns.zip widths).countP shortJump

theorem shortJumps_start (insns : List Insn) : shortJumps insns (insns.map fun _ => false) = jumps insns := by
  unfold shortJumps jumps
  induction insns with
  | nil => rfl
  | cons insn insns ih =>
    rw [List.map_cons, List.zip_cons_cons, List.countP_cons, List.countP_cons, ih]
    cases insn <;> rfl

/-- Only a short branch can change, and becomes wide. -/
theorem widened_cases {l : Layout} {insn : Insn} {pc : Nat} {wide wider : Bool}
    (h : l.widened insn pc wide = .ok wider) :
    wider = wide ∨ (shortJump (insn, wide) = true ∧ wider = true) := by
  cases insn with
  | jump op target =>
    cases wide with
    | true =>
      cases h
      exact .inl rfl
    | false =>
      cases wider with
      | true => exact .inr ⟨rfl, rfl⟩
      | false => exact .inl rfl
  | _ =>
    cases h
    exact .inl rfl

/-- What is to be widened in the rows of a layout leaves fewer short branches, if it is anything. -/
theorem countP_widened {l : Layout} {rows : List ((Insn × Nat) × Bool)} {wider : Widths}
    (h : List.Forall₂ (fun x y => l.widened x.1.1 x.1.2 x.2 = .ok y) rows wider) :
    ((rows.map (·.1.1)).zip wider).countP shortJump ≤ (rows.map fun x => (x.1.1, x.2)).countP shortJump ∧
      (wider = rows.map (·.2) ∨ ((rows.map (·.1.1)).zip wider).countP shortJump <
        (rows.map fun x => (x.1.1, x.2)).countP shortJump) := by
  induction h with
  | nil => exact ⟨Nat.le_refl _, .inl rfl⟩
  | @cons x y rows wider hxy _ ih =>
    obtain ⟨hle, hlt⟩ := ih
    simp only [List.map_cons, List.zip_cons_cons, List.countP_cons]
    rcases widened_cases hxy with rfl | ⟨hshort, rfl⟩
    · refine ⟨by omega, hlt.imp (congrArg (x.2 :: ·)) fun hlt => by omega⟩
    · have hwide : shortJump (x.1.1, true) = false := by cases x.1.1 <;> rfl
      rw [if_pos hshort, hwide, if_neg Bool.false_ne_true]
      exact ⟨by omega, .inr (by omega)⟩

/-- The rows of a layout without the offsets. -/
theorem map_rows {l : Layout} {insns : List Insn} (hoffsets : l.offsets.length = insns.length) :
    ((l.rows insns).map fun x => (x.1.1, x.2)) = insns.zip l.widths := by
  calc ((l.rows insns).map fun x => (x.1.1, x.2))
      = ((insns.zip l.offsets).map Prod.fst).zip l.widths := List.zip_map_left.symm
    _ = insns.zip l.widths := by rw [List.map_fst_zip (by omega)]

/-- A pass that is not the last leaves fewer short branches. -/
theorem shortJumps_widen {pool : Pool} {insns : List Insn} {widths wider : Widths}
    (hwidths : widths.length = insns.length) (h : (ofWidths pool insns widths).widen insns = .ok wider) :
    wider.length = insns.length ∧
      (wider = widths ∨ shortJumps insns wider < shortJumps insns widths) := by
  have hpairs : (((ofWidths pool insns widths).rows insns).map fun x => (x.1.1, x.2)) = insns.zip widths :=
    map_rows (ofWidths_fits pool hwidths).offsets
  have hinsns : ((ofWidths pool insns widths).rows insns).map (·.1.1) = insns := by
    have hfst := congrArg (List.map Prod.fst) hpairs
    rwa [List.map_map, List.map_fst_zip (Nat.le_of_eq hwidths.symm)] at hfst
  have hsnd : ((ofWidths pool insns widths).rows insns).map (·.2) = widths := by
    have hsnd := congrArg (List.map Prod.snd) hpairs
    rwa [List.map_map, List.map_snd_zip (Nat.le_of_eq hwidths)] at hsnd
  have hrows := mapM_eq_ok.1 h
  have hlength : ((ofWidths pool insns widths).rows insns).length = wider.length := hrows.length_eq
  have hcount := (countP_widened hrows).2
  rw [← List.length_map (·.1.1), hinsns] at hlength
  refine ⟨hlength.symm, ?_⟩
  change wider = ((ofWidths pool insns widths).rows insns).map (·.2) ∨
    ((((ofWidths pool insns widths).rows insns).map (·.1.1)).zip wider).countP shortJump <
      (((ofWidths pool insns widths).rows insns).map fun x => (x.1.1, x.2)).countP shortJump at hcount
  rwa [hinsns, hsnd, hpairs] at hcount

theorem settle_passes {pool : Pool} {insns : List Insn} {limit : Nat} {widths : Widths}
    (hwidths : widths.length = insns.length) (hlimit : shortJumps insns widths < limit) :
    ∃ n ≤ shortJumps insns widths + 1, Passes pool insns n widths (settle pool insns limit widths) := by
  -- a pass that is not the last uses up one of the limit and at least one short branch
  induction limit generalizing widths with
  | zero => exact absurd hlimit (Nat.not_lt_zero _)
  | succ limit ih =>
    cases hwiden : (ofWidths pool insns widths).widen insns with
    | error e =>
      refine ⟨1, Nat.le_add_left .., ?_⟩
      have hsettle : settle pool insns (limit + 1) widths = .error e := by rw [settle, hwiden]; rfl
      rw [hsettle]
      exact .refused hwiden
    | ok wider =>
      have hsettle : settle pool insns (limit + 1) widths =
          if wider = widths then .ok (ofWidths pool insns widths) else settle pool insns limit wider := by
        rw [settle, hwiden]
        rfl
      obtain ⟨hlength, hcases⟩ := shortJumps_widen hwidths hwiden
      by_cases hsame : wider = widths
      · subst hsame
        rw [hsettle, if_pos rfl]
        exact ⟨1, Nat.le_add_left .., .settled hwiden⟩
      · have hfewer := hcases.resolve_left hsame
        obtain ⟨n, hn, hpasses⟩ := ih hlength (by omega)
        rw [hsettle, if_neg hsame]
        exact ⟨n + 1, by omega, .again hwiden hsame hpasses⟩

/-- The passes over a body end, after at most one more than the body has branches. -/
theorem ofInsns_passes (pool : Pool) (insns : List Insn) : ∃ n ≤ jumps insns + 1,
    Passes pool insns n (insns.map fun _ => false) (ofInsns pool insns) := by
  have hstart := shortJumps_start insns
  have hlimit : shortJumps insns (insns.map fun _ => false) < jumps insns + 1 := by omega
  obtain ⟨n, hn, hpasses⟩ := settle_passes (List.length_map _) hlimit
  exact ⟨n, by omega, hpasses⟩

end Layout

/-! ## Bytes at an offset -/

namespace Bytes

variable {code a b bytes : Bytes} {pc : Nat} {n : Int}

def Has (code : Bytes) (pc : Nat) (bytes : Bytes) : Prop :=
  bytes <+: code.drop pc

theorem Has.left (h : code.Has pc (a ++ b)) : code.Has pc a :=
  (List.prefix_append a b).trans h

theorem Has.right (h : code.Has pc (a ++ b)) : code.Has (pc + a.length) b := by
  obtain ⟨behind, hbehind⟩ := h
  refine ⟨behind, ?_⟩
  rw [← List.drop_drop, ← hbehind, List.append_assoc, List.drop_left]

theorem Has.byteAt (h : code.Has pc bytes) {k : Nat} (hk : k < bytes.length) :
    code.byteAt (pc + k) = bytes[k] := by
  have hprefix := h.getElem hk
  have hlt : pc + k < code.length := by
    have hle := h.length_le
    rw [List.length_drop] at hle
    omega
  rw [Bytes.byteAt, List.getElem?_eq_getElem hlt, Option.getD_some, hprefix, List.getElem_drop]

/-- The pieces of code stand one behind the other. -/
theorem has_flatten {parts : List Bytes} {i : Nat} (h : parts[i]? = some bytes) :
    Has parts.flatten (parts.take i).flatten.length bytes := by
  obtain ⟨hi, rfl⟩ := List.getElem?_eq_some_iff.1 h
  refine ⟨(parts.drop (i + 1)).flatten, ?_⟩
  have hsplit : parts.flatten =
      (parts.take i).flatten ++ (parts[i] ++ (parts.drop (i + 1)).flatten) := by
    rw [← List.flatten_cons, ← List.flatten_append, List.getElem_cons_drop, List.take_append_drop]
  conv_rhs => rw [hsplit]
  rw [List.drop_left]

theorem Has.cons {first : UInt8} (h : code.Has pc (first :: bytes)) :
    code.byteAt pc = first ∧ code.Has (pc + 1) bytes :=
  ⟨h.byteAt (k := 0) (Nat.succ_pos _), Has.right (a := [first]) h⟩

/-- A number within the range of two bytes is read as it was written. -/
theorem Has.shortAt (h : code.Has pc (Encode.bytesOfI2 n)) (hn : Layout.fitsShort n = true) :
    code.shortAt pc = n := by
  simp only [Layout.fitsShort, Bool.and_eq_true, decide_eq_true_eq] at hn
  obtain ⟨hlow, h⟩ := h.cons
  obtain ⟨hhigh, -⟩ := h.cons
  calc code.shortAt pc
      = (u2OfBytes (code.byteAt pc) (code.byteAt (pc + 1))).toInt16.toInt :=
        (Cursor.toInt_u2OfBytes _ _).symm
    _ = (Int16.ofInt n).toInt := by rw [hlow, hhigh, Reader.u2OfBytes_toNat]; rfl
    _ = n := Int16.toInt_ofInt_of_le (by omega) (by omega)

/-- A number within the range of four bytes is read as it was written. -/
theorem Has.wordAt (h : code.Has pc (Encode.bytesOfI4 n)) (hlo : -2147483648 ≤ n) (hhi : n < 2147483648) :
    code.wordAt pc = n := by
  obtain ⟨hfirst, h⟩ := h.cons
  obtain ⟨hsecond, h⟩ := h.cons
  obtain ⟨hthird, h⟩ := h.cons
  obtain ⟨hfourth, -⟩ := h.cons
  calc code.wordAt pc
      = (u4OfBytes (code.byteAt pc) (code.byteAt (pc + 1)) (code.byteAt (pc + 2))
          (code.byteAt (pc + 3))).toInt32.toInt := (Cursor.toInt_u4OfBytes _ _ _ _).symm
    _ = (Int32.ofInt n).toInt := by rw [hfirst, hsecond, hthird, hfourth, Reader.u4OfBytes_toNat]; rfl
    _ = n := Int32.toInt_ofInt_of_le (by omega) (by omega)

/-- What stands at an offset for a branch to another offset, with the next instruction behind it. A wide
`goto` has four bytes for its distance; any other wide branch is its opposite over a wide `goto`. -/
inductive Branch (code : Bytes) (pc behind there : Nat) (op : Opcode) : Bool → Prop
  | short : code.byteAt pc = op → code.shortAt (pc + 1) = there - pc → behind = pc + 3 →
    Branch code pc behind there op false
  | far : op = Op.goto → code.byteAt pc = Op.gotoW → code.wordAt (pc + 1) = there - pc → behind = pc + 5 →
    Branch code pc behind there op true
  | split {opposite : Opcode} : op ≠ Op.goto → Op.invertBranch op = some opposite →
    code.byteAt pc = opposite → pc + code.shortAt (pc + 1) = behind →
    code.byteAt (pc + 3) = Op.gotoW → (pc + 3 : Nat) + code.wordAt (pc + 3 + 1) = there →
    behind = pc + 3 + 5 → Branch code pc behind there op true

/-- What stands at an offset for a switch with its operands from a second offset on: zeros in between, and
the distance to the fallback first. -/
structure SwitchAt (code : Bytes) (op : Opcode) (pc start there : Nat) : Prop where
  opcode : code.byteAt pc = op
  behind : pc < start
  aligned : start % 4 = 0
  near : start ≤ pc + 4
  padding : ∀ o, pc < o → o < start → code.byteAt o = 0
  fallback : code.wordAt start = there - pc

theorem Has.switchAt {op : Opcode} {there : Nat}
    (h : code.Has pc (op :: (Encode.padding pc ++ (Encode.bytesOfI4 (there - pc) ++ bytes))))
    (hlo : -2147483648 ≤ (there - pc : Int)) (hhi : (there - pc : Int) < 2147483648) :
    code.SwitchAt op pc (pc + 1 + Layout.switchPadding pc) there := by
  obtain ⟨hop, h⟩ := h.cons
  have hlength : (Encode.padding pc).length = Layout.switchPadding pc := List.length_replicate
  have hfallback := h.right.left
  rw [hlength] at hfallback
  refine ⟨hop, by omega, ?_, ?_, fun o ho ho' => ?_, hfallback.wordAt hlo hhi⟩
  · unfold Layout.switchPadding
    omega
  · unfold Layout.switchPadding
    omega
  · obtain ⟨k, rfl⟩ := Nat.exists_eq_add_of_le (Nat.succ_le_of_lt ho)
    have hk : k < (Encode.padding pc).length := by omega
    rw [h.left.byteAt hk]
    exact List.getElem_replicate _

end Bytes

/-! ## Code under its layout -/

/-- The offset of the instruction with a number, or the end of the code. -/
def Encoded.offsetAt (e : Encoded) (i : Nat) : Nat :=
  (e.offsets[i]?).getD e.code.length

structure Encoded.LaidOut (e : Encoded) (pool : Pool) (b : Body) (l : Layout) : Prop where
  fits : e.Fits b.insns
  length : e.code.length = l.length
  first : e.offsetAt 0 = 0
  /-- The bytes of an instruction are as many as was predicted, and stand at its offset. -/
  insn : ∀ (i : Nat) (insn : Insn), b.insns[i]? = some insn → ∃ wide bytes, l.widths[i]? = some wide ∧
    Encode.bytesOfInsn pool l (e.offsetAt i) wide insn = .ok bytes ∧
    bytes.length = Layout.size pool (e.offsetAt i) wide insn ∧ e.code.Has (e.offsetAt i) bytes ∧
    e.offsetAt (i + 1) = e.offsetAt i + bytes.length
  branch : ∀ (i : Nat) (op : Opcode) (target : Label), b.insns[i]? = some (.jump op target) →
    ∃ wide there, l.widths[i]? = some wide ∧ e.labels[target]? = some there ∧
      e.code.Branch (e.offsetAt i) (e.offsetAt (i + 1)) there op wide
  tableSwitch : ∀ (i : Nat) (fallback : Label) (low : Int32) (targets : List Label),
    b.insns[i]? = some (.tableSwitch fallback low targets) → ∃ start there,
      e.labels[fallback]? = some there ∧ e.code.SwitchAt Op.tableswitch (e.offsetAt i) start there
  lookupSwitch : ∀ (i : Nat) (fallback : Label) (pairs : List (Int32 × Label)),
    b.insns[i]? = some (.lookupSwitch fallback pairs) → ∃ start there,
      e.labels[fallback]? = some there ∧ e.code.SwitchAt Op.lookupswitch (e.offsetAt i) start there

namespace Layout

theorem Settled.offsetAt_zero {pool : Pool} {l : Layout} {insns : List Insn} (hs : l.Settled pool insns) :
    l.offsetAt 0 = 0 := by
  have hwidths := hs.widths
  rw [offsetAt, hs.offsets_eq, hs.length_eq]
  generalize l.widths = widths at hwidths
  cases insns with
  | nil => rfl
  | cons insn insns =>
    cases widths with
    | nil => cases hwidths
    | cons wide widths =>
      rw [offsetsOnto_cons]
      rfl

/-- The bytes in front of an instruction are as many as its offset says. -/
theorem Settled.length_take {pool : Pool} {l : Layout} {insns : List Insn} {parts : List Bytes}
    (hs : l.Settled pool insns)
    (hparts : List.Forall₂ (fun x bytes => Encode.bytesOfInsn pool l x.1.2 x.2 x.1.1 = .ok bytes)
      (l.rows insns) parts) {i : Nat} (hi : i ≤ insns.length) :
    (parts.take i).flatten.length = l.offsetAt i := by
  induction i with
  | zero => exact hs.offsetAt_zero.symm
  | succ i ih =>
    obtain ⟨wide, hrow⟩ := hs.row_of_insn (List.getElem?_eq_getElem hi)
    obtain ⟨bytes, hbytes, hinsn⟩ := forall₂_getElem? hparts hrow
    rw [List.take_add_one, hbytes, Option.toList_some, List.flatten_append, List.length_append,
      List.flatten_singleton, ih (Nat.le_of_succ_le hi), Encode.bytesOfInsn_length hinsn,
      hs.offsetAt_succ hrow]

end Layout

namespace Encode

open Bytes

variable {pool : Pool} {l : Layout} {code bytes : Bytes} {pc : Nat} {wide : Bool}

theorem branch_of_bytesOfInsn {op : Opcode} {target : Label} (hpc : pc ≤ maxCodeLength)
    (hl : ∀ (label : Label) (o : Nat), l.labels[label]? = some o → o ≤ maxCodeLength)
    (hshort : wide = false → Layout.fitsShort (l.place target - pc : Int) = true)
    (h : bytesOfInsn pool l pc wide (.jump op target) = .ok bytes) (hcode : code.Has pc bytes) :
    ∃ there, l.labels[target]? = some there ∧ code.Branch pc (pc + bytes.length) there op wide := by
  obtain ⟨there, hthere, h⟩ := bind_eq_ok.1 h
  have hplace := Layout.place_eq hthere
  obtain ⟨hlo, hhi⟩ := fits_four hpc hl target
  rw [hplace] at hshort hlo hhi
  refine ⟨there, Layout.offsetOf_eq_ok.1 hthere, ?_⟩
  unfold bytesOfJump at h
  cases wide with
  | false =>
    cases h
    obtain ⟨hop, hdistance⟩ := hcode.cons
    exact .short hop (hdistance.shortAt (hshort rfl)) rfl
  | true =>
    by_cases hgoto : op = Op.goto
    · simp only [Bool.not_true, Bool.false_eq_true, hgoto, if_true, if_false] at h
      cases h
      obtain ⟨hop, hdistance⟩ := hcode.cons
      exact .far hgoto hop (hdistance.wordAt hlo hhi) rfl
    · simp only [Bool.not_true, Bool.false_eq_true, hgoto, if_false] at h
      split at h
      · rename_i opposite hopposite
        cases h
        obtain ⟨hop, hrest⟩ := hcode.cons
        obtain ⟨hjump, hdistance⟩ := hrest.right.cons
        have hover := hrest.left.shortAt (by decide)
        -- what is written for the far jump is the distance from there, three bytes behind the branch
        have hfar := hdistance.wordAt (by unfold maxCodeLength at hpc; omega) (by omega)
        refine .split hgoto hopposite hop ?_ hjump ?_ rfl
        · rw [hover]
          rfl
        · change code.wordAt (pc + 3 + 1) = _ at hfar
          rw [hfar]
          omega
      · cases h

theorem switchAt_of_bytesOfTarget {op : Opcode} {fallback : Label} {first rest : Bytes}
    (hpc : pc ≤ maxCodeLength)
    (hl : ∀ (label : Label) (o : Nat), l.labels[label]? = some o → o ≤ maxCodeLength)
    (h : bytesOfTarget l pc fallback = .ok first)
    (hcode : code.Has pc (op :: (padding pc ++ (first ++ rest)))) :
    ∃ start there, l.labels[fallback]? = some there ∧ code.SwitchAt op pc start there := by
  obtain ⟨there, hthere, h⟩ := bind_eq_ok.1 h
  cases h
  obtain ⟨hlo, hhi⟩ := fits_four hpc hl fallback
  rw [Layout.place_eq hthere] at hlo hhi
  exact ⟨_, there, Layout.offsetOf_eq_ok.1 hthere, hcode.switchAt hlo hhi⟩

end Encode

/-- The bytes of encoded code lie as its layout says. -/
theorem Encoded.laidOut_of_encode {b : Body} {pool : Pool} {e : Encoded} (he : encode b pool = .ok e) :
    ∃ l, Layout.ofInsns pool b.insns = .ok l ∧ e.LaidOut pool b l := by
  obtain ⟨l, parts, hl, hsettled, hfits, hshort, hof, hcode, hparts⟩ := encode_of he
  have hoffset : ∀ i, e.offsetAt i = l.offsetAt i := by
    intro i
    rw [Encoded.offsetAt, Layout.offsetAt, hof.offsets, hof.length, List.getElem?_toArray]
  have hlabels : ∀ (label : Label) (o : Nat), l.labels[label]? = some o → o ≤ maxCodeLength := by
    intro label o ho
    obtain ⟨i, -, hi⟩ := (hfits.labels label o).1 ho
    exact Nat.le_trans (hfits.bound i o hi) hshort
  have hinsn : ∀ (i : Nat) (insn : Insn), b.insns[i]? = some insn → ∃ wide bytes,
      l.widths[i]? = some wide ∧ ((insn, e.offsetAt i), wide) ∈ l.rows b.insns ∧
      e.offsetAt i ≤ maxCodeLength ∧
      Encode.bytesOfInsn pool l (e.offsetAt i) wide insn = .ok bytes ∧ e.code.Has (e.offsetAt i) bytes ∧
      e.offsetAt (i + 1) = e.offsetAt i + bytes.length := by
    intro i insn hi
    have hlt := (List.getElem?_eq_some_iff.1 hi).1
    obtain ⟨wide, hrow⟩ := hsettled.row_of_insn hi
    obtain ⟨bytes, hbytes, hpart⟩ := forall₂_getElem? hparts hrow
    rw [hoffset, hoffset, hsettled.offsetAt_succ hrow, ← Encode.bytesOfInsn_length hpart]
    refine ⟨wide, bytes, (Layout.insn_of_row hrow).2.2, List.mem_of_getElem? hrow,
      Nat.le_trans (hfits.bound i _ (hsettled.offset_eq hlt)) hshort, hpart, ?_, rfl⟩
    rw [hcode, ← hsettled.length_take hparts (Nat.le_of_lt hlt)]
    exact Bytes.has_flatten hbytes
  refine ⟨l, hl, encode_fits he, hof.length, (hoffset 0).trans hsettled.offsetAt_zero, ?_, ?_, ?_, ?_⟩
  · intro i insn hi
    obtain ⟨wide, bytes, hwide, -, -, hpart, hhas, hnext⟩ := hinsn i insn hi
    exact ⟨wide, bytes, hwide, hpart, Encode.bytesOfInsn_length hpart, hhas, hnext⟩
  · intro i op target hi
    obtain ⟨wide, bytes, hwide, hrow, hpc, hpart, hhas, hnext⟩ := hinsn i _ hi
    obtain ⟨there, hthere, hbranch⟩ := Encode.branch_of_bytesOfInsn hpc hlabels
      (fun hnarrow => hsettled.short op target _ (hnarrow ▸ hrow)) hpart hhas
    rw [hnext]
    exact ⟨wide, there, hwide, hof.labels ▸ hthere, hbranch⟩
  · intro i fallback low targets hi
    obtain ⟨wide, bytes, -, -, hpc, hpart, hhas, -⟩ := hinsn i _ hi
    obtain ⟨first, hfirst, hpart⟩ := bind_eq_ok.1 hpart
    obtain ⟨others, -, hpart⟩ := bind_eq_ok.1 hpart
    cases hpart
    simp only [List.cons_append, List.append_assoc] at hhas
    rw [hof.labels]
    exact Encode.switchAt_of_bytesOfTarget hpc hlabels hfirst hhas
  · intro i fallback pairs hi
    obtain ⟨wide, bytes, -, -, hpc, hpart, hhas, -⟩ := hinsn i _ hi
    obtain ⟨first, hfirst, hpart⟩ := bind_eq_ok.1 hpart
    obtain ⟨others, -, hpart⟩ := bind_eq_ok.1 hpart
    cases hpart
    simp only [List.cons_append, List.append_assoc] at hhas
    rw [hof.labels]
    exact Encode.switchAt_of_bytesOfTarget hpc hlabels hfirst hhas

/-- The passes over a body end, after at most one more than it has branches, and if the body is written its
bytes lie as the last layout says. -/
theorem encode_laid_out (b : Body) (pool : Pool) :
    (∃ n ≤ Layout.jumps b.insns + 1,
      Layout.Passes pool b.insns n (b.insns.map fun _ => false) (Layout.ofInsns pool b.insns)) ∧
    ∀ e, encode b pool = .ok e → ∃ l, Layout.ofInsns pool b.insns = .ok l ∧ e.LaidOut pool b l :=
  ⟨Layout.ofInsns_passes pool b.insns, fun _ he => Encoded.laidOut_of_encode he⟩

/-- A switch of more than 32768 bytes, with a far branch on each side and a near one in front. -/
def farBranches : Body :=
  .ofInsns [.label 0, .jump Op.ifeq 1, .jump Op.ifne 0, .tableSwitch 1 0 (List.replicate 8200 0),
    .jump Op.goto 0, .label 1, .simple Op.returnVoid]

theorem encode_laid_out_farBranches : ∃ e l, encode farBranches .empty = .ok e ∧
    Layout.ofInsns .empty farBranches.insns = .ok l ∧
    l.widths = [false, true, false, false, true, false, false] ∧ e.LaidOut .empty farBranches l := by
  have hencodes : (encode farBranches .empty).toOption.any (fun _ => true) = true := by decide +kernel
  have hlayout : ((Layout.ofInsns .empty farBranches.insns).toOption.any fun l =>
      l.widths == [false, true, false, false, true, false, false]) = true := by decide +kernel
  obtain ⟨e, he, -⟩ := any_toOption.1 hencodes
  obtain ⟨l, hl, hwidths⟩ := any_toOption.1 hlayout
  obtain ⟨l', hl', hlaid⟩ := (encode_laid_out farBranches .empty).2 e he
  obtain rfl : l' = l := Except.ok.inj (hl'.symm.trans hl)
  exact ⟨e, l', he, hl, eq_of_beq hwidths, hlaid⟩

end Interpose
