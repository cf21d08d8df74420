import Interpose.Proofs.Code.Rows
import Interpose.Proofs.Code.StackMap
/-!
# Reading a body again

A body that was written and read again has a row for each of its instructions, or two for a branch that
was split (`Layout.index`). The rows keep the order of the instructions (`reread_ordered`), and where a
label stood its offset is that of the row (`Carries.at_offset`).
-/

namespace Interpose

namespace Layout

/-! ## Offsets -/

/-- The offset of the instruction with a number, or the one behind all of them. -/
def offsetAt (l : Layout) (i : Nat) : Nat :=
  (l.offsets[i]?).getD l.length

theorem offsetsOnto_succ {pool : Pool} {insns : List Insn} {widths : Widths} {pc i o : Nat} {insn : Insn}
    {wide : Bool} (hi : insns[i]? = some insn) (hw : widths[i]? = some wide)
    (ho : (offsetsOnto pool [] pc insns widths).1[i]? = some o) :
    ((offsetsOnto pool [] pc insns widths).1[i + 1]?).getD (offsetsOnto pool [] pc insns widths).2 =
      o + size pool o wide insn := by
  induction insns generalizing pc widths i with
  | nil => cases hi
  | cons insn' insns ih =>
    cases widths with
    | nil => cases hw
    | cons wide' widths =>
      rw [offsetsOnto_cons] at ho ⊢
      cases i with
      | zero =>
        cases hi
        cases hw
        cases ho
        simp only [List.getElem?_cons_succ]
        cases insns with
        | nil => rfl
        | cons insn' insns =>
          cases widths with
          | nil => rfl
          | cons wide' widths =>
            rw [offsetsOnto_cons]
            rfl
      | succ i => exact ih hi hw ho

section Settled

variable {pool : Pool} {l : Layout} {insns : List Insn} (hs : l.Settled pool insns)
include hs

theorem Settled.fits : l.Fits insns := by
  rw [hs.eq]
  exact ofWidths_fits pool hs.widths

theorem Settled.offset_eq {i : Nat} (hi : i < insns.length) : l.offsets[i]? = some (l.offsetAt i) := by
  have hlt : i < l.offsets.length := by rwa [hs.fits.offsets]
  rw [offsetAt, List.getElem?_eq_getElem hlt]
  rfl

/-- The row of an instruction. -/
theorem Settled.row_of_insn {i : Nat} {insn : Insn} (hi : insns[i]? = some insn) :
    ∃ wide, (l.rows insns)[i]? = some ((insn, l.offsetAt i), wide) := by
  have hlt := (List.getElem?_eq_some_iff.1 hi).1
  have hw : i < l.widths.length := by rwa [hs.widths]
  exact ⟨_, List.getElem?_zip_eq_some.2 ⟨List.getElem?_zip_eq_some.2 ⟨hi, hs.offset_eq hlt⟩,
    List.getElem?_eq_getElem hw⟩⟩

omit hs in
theorem insn_of_row {i : Nat} {insn : Insn} {pc : Nat} {wide : Bool}
    (hi : (l.rows insns)[i]? = some ((insn, pc), wide)) :
    insns[i]? = some insn ∧ pc = l.offsetAt i ∧ l.widths[i]? = some wide := by
  obtain ⟨hx, hw⟩ := List.getElem?_zip_eq_some.1 hi
  obtain ⟨hinsn, ho⟩ := List.getElem?_zip_eq_some.1 hx
  refine ⟨hinsn, ?_, hw⟩
  rw [offsetAt, ho]
  rfl

theorem Settled.offsetAt_succ {i : Nat} {insn : Insn} {pc : Nat} {wide : Bool}
    (hi : (l.rows insns)[i]? = some ((insn, pc), wide)) :
    l.offsetAt (i + 1) = l.offsetAt i + size pool (l.offsetAt i) wide insn := by
  obtain ⟨hinsn, -, hw⟩ := insn_of_row hi
  have hlt := (List.getElem?_eq_some_iff.1 hinsn).1
  have ho := hs.offset_eq hlt
  rw [hs.offsets_eq] at ho
  have hsucc := offsetsOnto_succ hinsn hw ho
  rw [← hs.offsets_eq, ← hs.length_eq] at hsucc
  exact hsucc

theorem Settled.offsetAt_length : l.offsetAt insns.length = l.length := by
  rw [offsetAt, List.getElem?_eq_none (Nat.le_of_eq hs.fits.offsets)]
  rfl

theorem Settled.offsetAt_mono {i j : Nat} (hij : i ≤ j) (hj : j ≤ insns.length) :
    l.offsetAt i ≤ l.offsetAt j := by
  induction j with
  | zero =>
    obtain rfl := Nat.le_zero.1 hij
    exact Nat.le_refl _
  | succ j ih =>
    rcases Nat.eq_or_lt_of_le hij with rfl | hlt
    · exact Nat.le_refl _
    · obtain ⟨wide, hrow⟩ := hs.row_of_insn (List.getElem?_eq_getElem hj)
      rw [hs.offsetAt_succ hrow]
      exact Nat.le_trans (ih (by omega) (by omega)) (Nat.le_add_right _ _)

theorem Settled.place_eq {label : Label} {i : Nat} (h : LastPlace insns label i) :
    l.place label = l.offsetAt i := by
  rw [place, (hs.fits.labels label _).2 ⟨i, h, hs.offset_eq h.lt⟩]
  rfl

end Settled

/-! ## Rows of instructions -/

/-- The number of the row of an instruction in what is read again. A mark has the row behind it. -/
def index (l : Layout) (insns : List Insn) (i : Nat) : Nat :=
  pieceStart (fun x => x.1.1.written l x.1.2 x.2) (l.rows insns) i

/-- The rows of an instruction start where its number says. -/
theorem index_succ {l : Layout} {insns : List Insn} {i : Nat} {insn : Insn} {pc : Nat} {wide : Bool}
    (hi : (l.rows insns)[i]? = some ((insn, pc), wide)) :
    l.index insns (i + 1) = l.index insns i + (insn.written l pc wide).length :=
  pieceStart_succ hi

theorem item_of_written {l : Layout} {insns : List Insn} {i j : Nat} {insn : Insn} {pc : Nat} {wide : Bool} {x : Nat × Insn}
    (hi : (l.rows insns)[i]? = some ((insn, pc), wide)) (hj : (insn.written l pc wide)[j]? = some x) :
    (l.reread insns)[l.index insns i + j]? = some x := by
  have hlt := (List.getElem?_eq_some_iff.1 hj).1
  rw [← hj]
  exact getElem?_piece hi hlt

end Layout

namespace Insn

variable {pool : Pool} {l : Layout} {pc : Nat} {wide : Bool} {insn : Insn}

/-- What is read for an instruction lies in its bytes. -/
theorem written_between {x : Nat × Insn} (hx : x ∈ insn.written l pc wide) :
    pc ≤ x.1 ∧ x.1 < pc + Layout.size pool pc wide insn ∧ x.2.isPseudo = false := by
  have one : ∀ {i : Insn}, i.isPseudo = false → insn.written l pc wide = [(pc, i)] →
      pc ≤ x.1 ∧ x.1 < pc + Layout.size pool pc wide insn ∧ x.2.isPseudo = false := by
    intro i hi hw
    have hlength := insn.written_length_le pool l pc wide
    rw [hw] at hx hlength
    rw [List.mem_singleton.1 hx]
    exact ⟨Nat.le_refl _, Nat.lt_add_of_pos_right hlength, hi⟩
  cases insn with
  | label _ | line _ => cases hx
  | jump op target =>
    by_cases hsplit : Encode.splits (.jump op target) wide = true
    · simp only [written, hsplit, if_true] at hx
      obtain ⟨opposite, -, hx⟩ := List.mem_flatMap.1 hx
      have hsize : Layout.size pool pc wide (.jump op target) = 8 := by
        simp only [Encode.splits, Bool.and_eq_true, bne_iff_ne, ne_eq] at hsplit
        simp only [Layout.size, hsplit.1, hsplit.2, Bool.not_true, Bool.false_eq_true, if_false]
      rw [hsize]
      simp only [List.mem_cons, List.not_mem_nil, or_false] at hx
      rcases hx with rfl | rfl
      · exact ⟨Nat.le_refl _, by omega, rfl⟩
      · exact ⟨by omega, by omega, rfl⟩
    · exact one (i := .jump op (l.place target)) rfl (by simp only [written, hsplit]; rfl)
  | lookupSwitch fallback pairs => exact one (i := .lookupSwitch _ _) rfl rfl
  | _ => exact one rfl rfl

theorem written_ascending : ((insn.written l pc wide).map (·.1)).Pairwise (· < ·) := by
  cases insn with
  | label _ | line _ => exact .nil
  | jump op target =>
    simp only [written]
    split
    · cases Op.invertBranch op with
      | none => exact .nil
      | some opposite =>
        simp only [Option.toList_some, List.flatMap_singleton, List.map_cons, List.map_nil]
        exact .cons (fun x hx => by rw [List.mem_singleton.1 hx]; omega) (.cons nofun .nil)
    · exact .cons nofun .nil
  | lookupSwitch _ _ => exact .cons nofun .nil
  | _ => exact .cons nofun .nil

end Insn

/-- The code attribute holds the bytes and the tables that were written for a body. -/
structure Carries (pool : Pool) (p : Body) (l : Layout) (c : CodeAttribute) : Prop where
  settled : l.Settled pool p.insns
  short : l.length ≤ maxCodeLength
  length : c.code.length = l.length
  read : readItems c.code = .ok (asItems (l.reread p.insns))
  exceptions : List.Forall₂ (fun t x => Encode.exceptionEntry l t = .ok x) p.tryCatch c.exceptions
  lines : c.lineEntries = (Encode.lines l p.insns).map fun x => ⟨UInt16.ofNat x.1, x.2⟩
  placed : ∀ insn ∈ p.insns, ∀ t ∈ insn.mentions, ∃ i, LastPlace p.insns t i
  inverted : ∀ op target pc, ((Insn.jump op target, pc), true) ∈ l.rows p.insns → op ≠ Op.goto →
    ∃ opposite, Op.invertBranch op = some opposite

namespace Carries

variable {pool : Pool} {p : Body} {l : Layout} {c : CodeAttribute} (h : Carries pool p l c)
include h

theorem ordered : Decoded.Ordered c (l.reread p.insns) := by
  have within : ∀ {i : Nat} {x : (Insn × Nat) × Bool} {y : Nat × Insn}, (l.rows p.insns)[i]? = some x →
      y ∈ x.1.1.written l x.1.2 x.2 → l.offsetAt i ≤ y.1 ∧ y.1 < l.offsetAt (i + 1) ∧
        y.2.isPseudo = false := by
    intro i x y hi hy
    obtain ⟨⟨insn, pc⟩, wide⟩ := x
    obtain ⟨-, rfl, -⟩ := Layout.insn_of_row hi
    rw [h.settled.offsetAt_succ hi]
    exact Insn.written_between hy
  have row : ∀ {x : Nat × Insn}, x ∈ l.reread p.insns → ∃ i y, (l.rows p.insns)[i]? = some y ∧
      i < p.insns.length ∧ x ∈ y.1.1.written l y.1.2 y.2 := by
    intro x hx
    obtain ⟨y, hy, hx⟩ := List.mem_flatMap.1 hx
    obtain ⟨i, hi⟩ := List.mem_iff_getElem?.1 hy
    obtain ⟨⟨insn, pc⟩, wide⟩ := y
    have hinsn := (Layout.insn_of_row hi).1
    exact ⟨i, _, hi, (List.getElem?_eq_some_iff.1 hinsn).1, hx⟩
  refine ⟨fun x hx => ?_, ?_, fun x hx => ?_⟩
  · obtain ⟨i, y, hy, -, hx⟩ := row hx
    exact (within hy hx).2.2
  · unfold Layout.reread
    rw [List.map_flatMap, List.pairwise_flatMap]
    refine ⟨fun x _ => Insn.written_ascending, List.pairwise_iff_getElem.2 ?_⟩
    intro i j hi hj hij a ha d hd
    obtain ⟨x, hx, rfl⟩ := List.mem_map.1 ha
    obtain ⟨y, hy, rfl⟩ := List.mem_map.1 hd
    have hfirst := within (List.getElem?_eq_getElem hi) hx
    have hsecond := within (List.getElem?_eq_getElem hj) hy
    have hle : j ≤ p.insns.length := by
      unfold Layout.rows at hj
      rw [List.length_zip, List.length_zip] at hj
      omega
    have : l.offsetAt (i + 1) ≤ l.offsetAt j := h.settled.offsetAt_mono hij hle
    omega
  · obtain ⟨i, y, hy, hi, hx⟩ := row hx
    have hlt := (within hy hx).2.1
    have hle : l.offsetAt (i + 1) ≤ l.offsetAt p.insns.length :=
      h.settled.offsetAt_mono hi (Nat.le_refl _)
    rw [h.settled.offsetAt_length] at hle
    rw [h.length]
    omega

omit h in
/-- Only marks are not read again. -/
theorem written_ne_nil {insn : Insn} {pc : Nat} {wide : Bool} (hreal : insn.isPseudo = false)
    (hinverted : ∀ op target, insn = .jump op target → wide = true → op ≠ Op.goto →
      ∃ opposite, Op.invertBranch op = some opposite) :
    ∃ i, (insn.written l pc wide)[0]? = some (pc, i) := by
  cases insn with
  | label _ | line _ => cases hreal
  | jump op target =>
    simp only [Insn.written]
    split
    · rename_i hsplit
      simp only [Encode.splits, Bool.and_eq_true, bne_iff_ne, ne_eq] at hsplit
      obtain ⟨opposite, hopposite⟩ := hinverted op target rfl hsplit.1 hsplit.2
      rw [hopposite]
      exact ⟨_, rfl⟩
    · exact ⟨_, rfl⟩
  | lookupSwitch _ _ => exact ⟨_, rfl⟩
  | _ => exact ⟨_, rfl⟩

/-- The row of an instruction is at its offset. -/
theorem at_offset {i : Nat} (hi : i ≤ p.insns.length) :
    Decoded.At c (l.reread p.insns) (l.offsetAt i) (l.index p.insns i) := by
  obtain ⟨n, hn⟩ : ∃ n, p.insns.length = i + n := Nat.exists_eq_add_of_le hi
  induction n generalizing i with
  | zero =>
    have hi : i = p.insns.length := hn.symm
    subst hi
    refine .inr ⟨?_, ?_⟩
    · have hlength : (l.rows p.insns).length = p.insns.length := by
        unfold Layout.rows
        rw [List.length_zip, List.length_zip, h.settled.fits.offsets, h.settled.widths, Nat.min_self,
          Nat.min_self]
      unfold Layout.index
      rw [← hlength, pieceStart_length]
      rfl
    · rw [h.settled.offsetAt_length, h.length]
  | succ n ih =>
    have hlt : i < p.insns.length := by omega
    obtain ⟨insn, hinsn⟩ : ∃ insn, p.insns[i]? = some insn := ⟨_, List.getElem?_eq_getElem hlt⟩
    obtain ⟨wide, hrow⟩ := h.settled.row_of_insn hinsn
    cases hp : insn.isPseudo with
    | true =>
      have hnext := ih (i := i + 1) (by omega) (by omega)
      have hsize : Layout.size pool (l.offsetAt i) wide insn = 0 := by
        cases insn <;> first | rfl | cases hp
      have hwritten : insn.written l (l.offsetAt i) wide = [] := by
        cases insn <;> first | rfl | cases hp
      rw [h.settled.offsetAt_succ hrow, hsize, Nat.add_zero, Layout.index_succ hrow, hwritten] at hnext
      exact hnext
    | false =>
      have hinverted : ∀ op target, insn = .jump op target → wide = true → op ≠ Op.goto →
          ∃ opposite, Op.invertBranch op = some opposite := by
        intro op target he hw
        refine h.inverted op target (l.offsetAt i) ?_
        rw [← he, ← hw]
        exact List.mem_of_getElem? hrow
      obtain ⟨x, hx⟩ : ∃ x, (insn.written l (l.offsetAt i) wide)[0]? = some (l.offsetAt i, x) :=
        written_ne_nil hp hinverted
      exact .inl ⟨x, Layout.item_of_written hrow hx⟩

theorem straight : c.Straight := by
  intro items hread x hx
  rw [h.read] at hread
  cases hread
  obtain ⟨y, -, rfl⟩ := List.mem_map.1 hx
  rfl

/-- What is decoded is made of the rows that were written. -/
theorem decoded {b : Body} (hb : decode c = .ok b) : Decoded c (l.reread p.insns) b := by
  obtain ⟨items, hdecoded⟩ := decode_rows h.straight hb
  have hread := hdecoded.read
  rw [h.read] at hread
  have hinj : Function.Injective fun x : Nat × Insn => (x.1, Item.insn x.2) := by
    rintro ⟨o, i⟩ ⟨o', i'⟩ heq
    cases heq
    rfl
  rwa [List.map_injective_iff.2 hinj (Except.ok.inj hread)]

end Carries

/-! ## Labels -/

/-- An offset that an instruction names has a label. -/
theorem label_of_mention {c : CodeAttribute} {items : List (Nat × Insn)} {x : Nat × Insn}
    (hx : x ∈ items) {o : Nat} (ho : o ∈ x.2.mentions) :
    (c.labels items)[o]? = some ((c.labels items).of o) := by
  have hmem : o ∈ c.mentionedOffsets (asItems items) := by
    unfold CodeAttribute.mentionedOffsets
    rw [List.append_assoc, List.mem_append, asItems, List.flatMap_map]
    exact .inl (List.mem_flatMap.2 ⟨x, hx, ho⟩)
  obtain ⟨l, hl⟩ := numberOffsets_isSome hmem
  unfold CodeAttribute.labels OffsetLabels.of
  rw [Std.TreeMap.getD_eq_getD_getElem?, hl]
  rfl

/-- The offsets of a protected range have labels. -/
theorem label_of_exception {c : CodeAttribute} (items : List (Nat × Insn)) {e : ExceptionEntry}
    (he : e ∈ c.exceptions) {o : Nat} (ho : o = e.startPc.toNat ∨ o = e.endPc.toNat ∨
      o = e.handlerPc.toNat) : (c.labels items)[o]? = some ((c.labels items).of o) := by
  have hmem : o ∈ c.mentionedOffsets (asItems items) := by
    unfold CodeAttribute.mentionedOffsets
    rw [List.append_assoc, List.mem_append, List.mem_append]
    refine .inr (.inl (List.mem_flatMap.2 ⟨e, he, ?_⟩))
    simpa using ho
  obtain ⟨l, hl⟩ := numberOffsets_isSome hmem
  unfold CodeAttribute.labels OffsetLabels.of
  rw [Std.TreeMap.getD_eq_getD_getElem?, hl]
  rfl

/-! ## Encoded code -/

/-- The labels that written bytes lead to are placed. -/
theorem Encode.placed_of_bytesOfInsn {pool : Pool} {l : Layout} {pc : Nat} {wide : Bool} {insn : Insn}
    {bytes : Bytes} (h : bytesOfInsn pool l pc wide insn = .ok bytes) :
    ∀ t ∈ insn.mentions, ∃ o, l.labels[t]? = some o := by
  have target {t : Label} {part : Bytes} (ht : bytesOfTarget l pc t = .ok part) :
      ∃ o, l.labels[t]? = some o := by
    obtain ⟨o, ho, -⟩ := bind_eq_ok.1 ht
    exact ⟨o, Layout.offsetOf_eq_ok.1 ho⟩
  intro t ht
  cases insn with
  | jump op there =>
    obtain ⟨o, ho, -⟩ := bind_eq_ok.1 h
    rw [List.mem_singleton.1 ht]
    exact ⟨o, Layout.offsetOf_eq_ok.1 ho⟩
  | tableSwitch fallback low targets =>
    obtain ⟨first, hfirst, h⟩ := bind_eq_ok.1 h
    obtain ⟨others, hothers, -⟩ := bind_eq_ok.1 h
    rcases List.mem_cons.1 ht with rfl | ht
    · exact target hfirst
    · obtain ⟨part, -, hpart⟩ := (mem_forall₂ (mapM_eq_ok.1 hothers)).1 t ht
      exact target hpart
  | lookupSwitch fallback pairs =>
    obtain ⟨first, hfirst, h⟩ := bind_eq_ok.1 h
    obtain ⟨others, hothers, -⟩ := bind_eq_ok.1 h
    rcases List.mem_cons.1 ht with rfl | ht
    · exact target hfirst
    · obtain ⟨pair, hpair, rfl⟩ := List.mem_map.1 ht
      obtain ⟨part, -, hpart⟩ := (mem_forall₂ (mapM_eq_ok.1 hothers)).1 pair
        ((List.mergeSort_perm _ _).mem_iff.2 hpair)
      obtain ⟨there, hthere, -⟩ := bind_eq_ok.1 hpart
      exact target hthere
  | _ => cases ht

theorem placed_of_encode {pool : Pool} {p : Body} {e : Encoded} (he : encode p pool = .ok e)
    {insn : Insn} (hinsn : insn ∈ p.insns) {t : Label} (ht : t ∈ insn.mentions) :
    ∃ i, LastPlace p.insns t i := by
  obtain ⟨l, parts, hl, -, hparts, -⟩ := encode_eq_ok he
  have hfits := Layout.ofInsns_fits hl
  obtain ⟨i, hi⟩ := List.mem_iff_getElem?.1 hinsn
  obtain ⟨wide, hrow⟩ := (Layout.ofInsns_settled hl).row_of_insn hi
  obtain ⟨bytes, -, hbytes⟩ := (mem_forall₂ hparts).1 _ (List.mem_of_getElem? hrow)
  obtain ⟨o, ho⟩ := Encode.placed_of_bytesOfInsn hbytes t ht
  obtain ⟨j, hj, -⟩ := (hfits.labels t o).1 ho
  exact ⟨j, hj⟩

/-- An attribute with the bytes, the protected ranges and the lines of encoded code. -/
theorem carries_of_encode {pool : Pool} {p : Body} {e : Encoded} {c : CodeAttribute}
    (he : encode p pool = .ok e) (hstd : ∀ insn ∈ p.insns, insn.Standard) (hcode : c.code = e.code)
    (hexceptions : c.exceptions = e.exceptions)
    (hlines : c.lineEntries = e.lines.map fun x => ⟨UInt16.ofNat x.1, x.2⟩) :
    ∃ l, e.Of p l ∧ Carries pool p l c := by
  obtain ⟨l, hsettled, -, hsize, hof, hread⟩ := readItems_encode he hstd
  refine ⟨l, hof, hsettled, hsize, by rw [hcode, hof.length], by rw [hcode, hread], ?_, ?_, ?_, ?_⟩
  · rw [hexceptions]
    exact hof.exceptions
  · rw [hlines, hof.lines]
  · exact fun insn hinsn t ht => placed_of_encode he hinsn ht
  · intro op target pc hmem hop
    obtain ⟨i, hi⟩ := List.mem_iff_getElem?.1 hmem
    have hstandard := hstd _ (List.mem_of_getElem? (Layout.insn_of_row hi).1)
    obtain ⟨opposite, hopposite, -⟩ := (format_opcodes op).2.2.2 hstandard hop
    exact ⟨opposite, hopposite⟩

end Interpose
