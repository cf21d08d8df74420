import Interpose.Proofs.Code.Listing
/-!
# Decoding undoes encoding

Encoded code, put into a code attribute with its protected ranges and its lines, can be decoded, and the
decoded body has the listing of the one that was encoded: the same instructions in the same order, with
every label in front of the same instruction and every line marked at the same instruction. What may differ
is what the bytes cannot tell: lookup switches have their keys in order, and a conditional branch that had
to be wide is the opposite branch over a jump.

Results:
* `Carries.decodes`: the attribute can be decoded.
* `Carries.steps_eq`, `Carries.ranges_eq`: the steps and the ranges of the decoded body.
* `decode_encode_listing`: both together.
-/

namespace Interpose

/-- A code attribute with encoded code, its protected ranges and its lines. -/
def Encoded.attribute (e : Encoded) (maxStack maxLocals : UInt16) : CodeAttribute where
  maxStack := maxStack
  maxLocals := maxLocals
  code := e.code
  exceptions := e.exceptions
  attributes := [.lineNumberTable (e.lines.map fun x => ⟨UInt16.ofNat x.1, x.2⟩)]

/-- Whether the instruction with a number was split into two branches. -/
def Encoded.splits (e : Encoded) (i : Nat) : Bool :=
  e.widened.contains (i + 1)

/-! ## Source lines -/

theorem linesByOffset_getD (entries : List LineEntry) (o : Nat) :
    (linesByOffset entries).getD o [] =
      entries.filterMap fun e => if e.startPc.toNat = o then some e.line else none := by
  induction entries with
  | nil => rfl
  | cons e entries ih =>
    change ((linesByOffset entries).insert e.startPc.toNat
      (e.line :: (linesByOffset entries).getD e.startPc.toNat [])).getD o [] = _
    rw [Std.TreeMap.getD_insert, List.filterMap_cons]
    by_cases ho : e.startPc.toNat = o
    · subst ho
      simp [ih]
    · simp [ho, ih]

namespace Layout

def lineAt (o : Nat) (x : Insn × Nat) : Option UInt16 :=
  match x.1 with
  | .line n => if x.2 = o then some n else none
  | _ => none

/-- The lines marked at an offset by the first instructions of a body. -/
def linesBefore (l : Layout) (insns : List Insn) (i o : Nat) : List UInt16 :=
  ((insns.zip l.offsets).take i).filterMap (lineAt o)

def linesAt (l : Layout) (insns : List Insn) (o : Nat) : List UInt16 :=
  (insns.zip l.offsets).filterMap (lineAt o)

section Settled

variable {pool : Pool} {l : Layout} {insns : List Insn} (hs : l.Settled pool insns)
include hs

theorem Settled.zip_eq {i : Nat} {insn : Insn} (hi : insns[i]? = some insn) :
    (insns.zip l.offsets)[i]? = some (insn, l.offsetAt i) :=
  List.getElem?_zip_eq_some.2 ⟨hi, hs.offset_eq (List.getElem?_eq_some_iff.1 hi).1⟩

theorem Settled.of_zip {i : Nat} {x : Insn × Nat} (hi : (insns.zip l.offsets)[i]? = some x) :
    insns[i]? = some x.1 ∧ x.2 = l.offsetAt i ∧ x.2 ≤ l.length := by
  obtain ⟨hinsn, ho⟩ := List.getElem?_zip_eq_some.1 hi
  rw [hs.offset_eq (List.getElem?_eq_some_iff.1 hinsn).1] at ho
  refine ⟨hinsn, (Option.some.inj ho).symm, ?_⟩
  rw [← Option.some.inj ho, ← hs.offsetAt_length]
  exact hs.offsetAt_mono (Nat.le_of_lt (List.getElem?_eq_some_iff.1 hinsn).1) (Nat.le_refl _)

theorem Settled.linesBefore_succ {i o : Nat} {insn : Insn} (hi : insns[i]? = some insn) :
    l.linesBefore insns (i + 1) o
      = l.linesBefore insns i o ++ (lineAt o (insn, l.offsetAt i)).toList := by
  rw [linesBefore, List.take_add_one, List.filterMap_append, hs.zip_eq hi, linesBefore]
  rfl

/-- No line is marked where none of the instructions lies. -/
theorem Settled.linesBefore_eq_nil {i o : Nat} (h : ∀ j < i, l.offsetAt j ≠ o) :
    l.linesBefore insns i o = [] := by
  rw [linesBefore, List.filterMap_eq_nil_iff]
  intro x hx
  obtain ⟨j, hj⟩ := List.mem_iff_getElem?.1 hx
  rw [List.getElem?_take] at hj
  split at hj
  case isFalse => cases hj
  case isTrue hlt =>
    obtain ⟨-, ho, -⟩ := hs.of_zip hj
    unfold lineAt
    split
    · rw [if_neg (ho ▸ h j hlt)]
    · rfl

/-- The lines marked at an offset are marked by the first instructions, if no later mark lies there. -/
theorem Settled.linesAt_eq {i o : Nat} (h : ∀ j insn, i ≤ j → insns[j]? = some insn →
    insn.isPseudo = true → l.offsetAt j ≠ o) : l.linesAt insns o = l.linesBefore insns i o := by
  rw [linesAt, ← List.take_append_drop i (insns.zip l.offsets), List.filterMap_append, linesBefore,
    List.append_right_eq_self, List.filterMap_eq_nil_iff]
  intro x hx
  obtain ⟨j, hj⟩ := List.mem_iff_getElem?.1 hx
  rw [List.getElem?_drop] at hj
  obtain ⟨hinsn, ho, -⟩ := hs.of_zip hj
  unfold lineAt
  split
  case h_1 n hn =>
    rw [hn] at hinsn
    rw [if_neg (ho ▸ h _ _ (Nat.le_add_right ..) hinsn rfl)]
  case h_2 => rfl

omit hs in
theorem size_pos {pool : Pool} {pc : Nat} {wide : Bool} {insn : Insn} (hreal : insn.isPseudo = false) :
    0 < size pool pc wide insn := by
  cases insn with
  | label _ | line _ => cases hreal
  | int _ _ | var _ _ | iinc _ _ | method _ _ | ldc _ | jump _ _ =>
    simp only [size]
    split_ifs <;> omega
  | tableSwitch _ _ _ | lookupSwitch _ _ =>
    simp only [size]
    omega
  | _ => exact Nat.lt_of_sub_eq_succ rfl

/-- Behind an instruction that takes bytes the offsets are higher. -/
theorem Settled.offsetAt_lt {i j : Nat} {insn : Insn} (hi : insns[i]? = some insn)
    (hreal : insn.isPseudo = false) (hij : i < j) (hj : j ≤ insns.length) :
    l.offsetAt i < l.offsetAt j := by
  obtain ⟨wide, hrow⟩ := hs.row_of_insn hi
  have hsucc := hs.offsetAt_succ hrow
  have hpos : 0 < size pool (l.offsetAt i) wide insn := size_pos hreal
  have hmono := hs.offsetAt_mono (Nat.succ_le_of_lt hij) hj
  rw [Nat.succ_eq_add_one] at hmono
  omega

/-- A range is written with the offsets of its labels. -/
theorem Settled.range_of_entry (hshort : l.length ≤ maxCodeLength) {t : TryCatch} {x : ExceptionEntry} (hx : Encode.exceptionEntry l t = .ok x) :
    ∃ i j k, LastPlace insns t.start i ∧ LastPlace insns t.stop j ∧ LastPlace insns t.handler k ∧
      x.startPc.toNat = l.offsetAt i ∧ x.endPc.toNat = l.offsetAt j ∧
      x.handlerPc.toNat = l.offsetAt k ∧ x.catchType = t.catchType := by
  have place {label : Label} {o : Nat} (ho : l.offsetOf label = .ok o) :
      ∃ i, LastPlace insns label i ∧ (UInt16.ofNat o).toNat = l.offsetAt i := by
    obtain ⟨i, hi, hio⟩ := (hs.fits.labels label o).1 (Layout.offsetOf_eq_ok.1 ho)
    rw [hs.offset_eq hi.lt, Option.some.injEq] at hio
    have hle := hs.offsetAt_mono (Nat.le_of_lt hi.lt) (Nat.le_refl _)
    rw [hs.offsetAt_length] at hle
    unfold maxCodeLength at hshort
    refine ⟨i, hi, ?_⟩
    rw [hio, UInt16.toNat_ofNat']
    omega
  obtain ⟨start, hstart, hx⟩ := bind_eq_ok.1 hx
  obtain ⟨stop, hstop, hx⟩ := bind_eq_ok.1 hx
  split at hx
  · cases hx
  · obtain ⟨handler, hhandler, hx⟩ := bind_eq_ok.1 hx
    cases hx
    obtain ⟨i, hi, hio⟩ := place hstart
    obtain ⟨j, hj, hjo⟩ := place hstop
    obtain ⟨k, hk, hko⟩ := place hhandler
    exact ⟨i, j, k, hi, hj, hk, hio, hjo, hko, rfl⟩

end Settled

end Layout

/-! ## Instructions -/

theorem Encode.mem_widenedFallthroughs {l : Layout} {insns : List Insn} {i : Nat} :
    i + 1 ∈ widenedFallthroughs l insns ↔
      ∃ insn wide, insns[i]? = some insn ∧ l.widths[i]? = some wide ∧ splits insn wide = true := by
  rw [widenedFallthroughs, List.mem_filterMap]
  constructor
  · rintro ⟨⟨⟨insn, wide⟩, j⟩, hmem, hsplit⟩
    rw [List.mem_zipIdx_iff_getElem?] at hmem
    simp only [Option.ite_none_right_eq_some, Option.some.injEq, Nat.add_right_cancel_iff] at hsplit
    obtain ⟨hsplit, rfl⟩ := hsplit
    obtain ⟨hinsn, hwide⟩ := List.getElem?_zip_eq_some.1 hmem
    exact ⟨insn, wide, hinsn, hwide, hsplit⟩
  · rintro ⟨insn, wide, hinsn, hwide, hsplit⟩
    refine ⟨((insn, wide), i), List.mem_zipIdx_iff_getElem?.2 ?_, by simp [hsplit]⟩
    exact List.getElem?_zip_eq_some.2 ⟨hinsn, hwide⟩

theorem Encoded.Of.splits_eq {e : Encoded} {b : Body} {l : Layout} (h : e.Of b l) {i : Nat}
    {insn : Insn} {pc : Nat} {wide : Bool} (hrow : (l.rows b.insns)[i]? = some ((insn, pc), wide)) :
    e.splits i = Encode.splits insn wide := by
  obtain ⟨hinsn, -, hwide⟩ := Layout.insn_of_row hrow
  rw [Encoded.splits, h.widened, Bool.eq_iff_iff, List.contains_iff_mem, Encode.mem_widenedFallthroughs]
  constructor
  · rintro ⟨insn', wide', hinsn', hwide', hsplit⟩
    rw [hinsn] at hinsn'
    rw [hwide] at hwide'
    cases hinsn'
    cases hwide'
    exact hsplit
  · exact fun hsplit => ⟨insn, wide, hinsn, hwide, hsplit⟩

namespace Insn

theorem isPseudo_sorted (insn : Insn) : insn.sorted.isPseudo = insn.isPseudo := by
  cases insn <;> rfl

theorem weight_sorted (split : Bool) (insn : Insn) : insn.sorted.weight split = insn.weight split := by
  rw [weight, weight, isPseudo_sorted]

theorem mentions_sorted {insn : Insn} {t : Label} : t ∈ insn.sorted.mentions ↔ t ∈ insn.mentions := by
  cases insn with
  | lookupSwitch fallback pairs =>
    have hperm : (Encode.sortedPairs pairs).Perm pairs := List.mergeSort_perm pairs _
    rw [sorted, mentions, mentions, List.mem_cons, List.mem_cons, (hperm.map (·.2)).mem_iff]
  | _ => rfl

end Insn

/-! ## Steps -/

namespace Carries

variable {pool : Pool} {p : Body} {l : Layout} {c : CodeAttribute} (h : Carries pool p l c)
include h

/-- A branch that is split is read as two. -/
theorem written_split {i : Nat} {op : Opcode} {target : Label} {pc : Nat} {wide : Bool}
    (hrow : (l.rows p.insns)[i]? = some ((.jump op target, pc), wide))
    (hsplit : Encode.splits (.jump op target) wide = true) :
    ∃ opposite, Op.invertBranch op = some opposite ∧
      (Insn.jump op target).written l pc wide =
        [(pc, .jump opposite (pc + 8)), (pc + 3, .jump Op.goto (l.place target))] ∧
      Layout.size pool pc wide (.jump op target) = 8 := by
  have hwide : wide = true ∧ op ≠ Op.goto := by
    simpa only [Encode.splits, Bool.and_eq_true, bne_iff_ne, ne_eq] using hsplit
  obtain ⟨rfl, hop⟩ := hwide
  obtain ⟨opposite, hopposite⟩ := h.inverted op target pc (List.mem_of_getElem? hrow) hop
  refine ⟨opposite, hopposite, ?_, ?_⟩
  · rw [Insn.written, if_pos hsplit, hopposite]
    rfl
  · simp only [Layout.size, Bool.not_true, Bool.false_eq_true, if_false, if_neg hop]

/-- What is read for an instruction counts as much as the instruction. -/
theorem written_length {i : Nat} {insn : Insn} {pc : Nat} {wide : Bool}
    (hrow : (l.rows p.insns)[i]? = some ((insn, pc), wide)) :
    (insn.written l pc wide).length = insn.weight (Encode.splits insn wide) := by
  cases insn with
  | jump op target =>
    cases hsplit : Encode.splits (.jump op target) wide with
    | false =>
      rw [Insn.written, hsplit]
      rfl
    | true =>
      obtain ⟨opposite, -, hw, -⟩ := h.written_split hrow hsplit
      rw [hw]
      rfl
  | _ => rfl

/-- What is read names the offsets of instructions, or the one behind them all. -/
theorem offset_of_mention {x : Nat × Insn} (hx : x ∈ l.reread p.insns) {o : Nat}
    (ho : o ∈ x.2.mentions) : ∃ i ≤ p.insns.length, o = l.offsetAt i := by
  obtain ⟨⟨⟨insn, pc⟩, wide⟩, hrow, hx⟩ := List.mem_flatMap.1 hx
  obtain ⟨i, hi⟩ := List.mem_iff_getElem?.1 hrow
  obtain ⟨hinsn, rfl, -⟩ := Layout.insn_of_row hi
  have place {t : Label} (ht : t ∈ insn.mentions) : ∃ i ≤ p.insns.length, l.place t = l.offsetAt i := by
    obtain ⟨j, hj⟩ := h.placed insn (List.mem_of_getElem? hinsn) t ht
    exact ⟨j, Nat.le_of_lt hj.lt, h.settled.place_eq hj⟩
  have retargeted (read : Insn) (hread : ∀ t ∈ read.mentions, t ∈ insn.mentions)
      (hw : insn.written l (l.offsetAt i) wide = [(l.offsetAt i, read.retarget l.place)]) :
      ∃ i ≤ p.insns.length, o = l.offsetAt i := by
    rw [hw, List.mem_singleton] at hx
    rw [hx, Insn.mentions_retarget] at ho
    obtain ⟨t, ht, rfl⟩ := List.mem_map.1 ho
    exact place (hread t ht)
  cases insn with
  | label _ | line _ => cases hx
  | jump op target =>
    cases hsplit : Encode.splits (.jump op target) wide with
    | false =>
      refine retargeted (.jump op target) (fun _ => id) ?_
      rw [Insn.written, hsplit]
      rfl
    | true =>
      obtain ⟨opposite, -, hw, hsize⟩ := h.written_split hi hsplit
      rw [hw, List.mem_cons, List.mem_singleton] at hx
      rcases hx with rfl | rfl
      · refine ⟨i + 1, (List.getElem?_eq_some_iff.1 hinsn).1, ?_⟩
        rw [h.settled.offsetAt_succ hi, hsize]
        exact List.mem_singleton.1 ho
      · rw [List.mem_singleton.1 ho]
        exact place (List.mem_singleton_self _)
  | lookupSwitch fallback pairs =>
    exact retargeted (Insn.sorted (.lookupSwitch fallback pairs))
      (fun t => Insn.mentions_sorted.1) rfl
  | _ => exact retargeted _ (fun _ => id) rfl

/-- Every offset that the attribute names is that of an instruction, or the one behind them all. -/
theorem offset_of_mentioned (htables : ∀ o ∈ c.attributes.flatMap CodeAttribute.tableOffsets,
    ∃ i ≤ p.insns.length, o = l.offsetAt i) {o : Nat}
    (ho : o ∈ c.mentionedOffsets (asItems (l.reread p.insns))) :
    ∃ i ≤ p.insns.length, o = l.offsetAt i := by
  unfold CodeAttribute.mentionedOffsets at ho
  rw [List.mem_append, List.mem_append, asItems, List.flatMap_map] at ho
  rcases ho with (ho | ho) | ho
  · obtain ⟨x, hx, ho⟩ := List.mem_flatMap.1 ho
    exact h.offset_of_mention hx ho
  · obtain ⟨x, hx, ho⟩ := List.mem_flatMap.1 ho
    obtain ⟨t, -, ht⟩ := (mem_forall₂ h.exceptions).2 x hx
    obtain ⟨i, j, k, hi, hj, hk, hio, hjo, hko, -⟩ := h.settled.range_of_entry h.short ht
    simp only [List.mem_cons, List.not_mem_nil, or_false] at ho
    rcases ho with rfl | rfl | rfl
    · exact ⟨i, Nat.le_of_lt hi.lt, hio⟩
    · exact ⟨j, Nat.le_of_lt hj.lt, hjo⟩
    · exact ⟨k, Nat.le_of_lt hk.lt, hko⟩
  · exact htables o ho

/-- The attribute can be decoded if its tables name offsets of instructions or the one behind them all. -/
theorem decodes (htables : ∀ o ∈ c.attributes.flatMap CodeAttribute.tableOffsets,
    ∃ i ≤ p.insns.length, o = l.offsetAt i) : ∃ b, decode c = .ok b := by
  refine decode_of_read h.read fun o ho => ?_
  obtain ⟨i, hi, rfl⟩ := h.offset_of_mentioned htables ho
  rcases h.at_offset hi with ⟨insn, hinsn⟩ | ⟨-, hend⟩
  · exact .inl ⟨insn, List.mem_of_getElem? hinsn⟩
  · exact .inr hend

/-- The lines in the table of the attribute. -/
theorem lines_at (o : Nat) :
    (linesByOffset c.lineEntries).getD o [] = l.linesAt p.insns o := by
  rw [linesByOffset_getD, h.lines, Encode.lines, List.filterMap_map, List.filterMap_filterMap,
    Layout.linesAt]
  refine List.filterMap_congr fun x hx => ?_
  obtain ⟨j, hj⟩ := List.mem_iff_getElem?.1 hx
  obtain ⟨-, -, hle⟩ := h.settled.of_zip hj
  have hshort := h.short
  unfold maxCodeLength at hshort
  have hx2 : (UInt16.ofNat x.2).toNat = x.2 := by
    rw [UInt16.toNat_ofNat']
    omega
  obtain ⟨insn, pc⟩ := x
  cases insn with
  | line n =>
    change (if (UInt16.ofNat pc).toNat = o then some n else none) = if pc = o then some n else none
    rw [hx2]
  | _ => rfl

omit h in
theorem drop_of_getElem? {α : Type} {xs : List α} {i : Nat} {x : α} (h : xs[i]? = some x) :
    xs.drop i = x :: xs.drop (i + 1) := by
  obtain ⟨hi, rfl⟩ := List.getElem?_eq_some_iff.1 h
  exact List.drop_eq_getElem_cons hi

section Listing

variable {split : Nat → Bool} (hsplit : ∀ {i : Nat} {insn : Insn} {pc : Nat} {wide : Bool},
  (l.rows p.insns)[i]? = some ((insn, pc), wide) → split i = Encode.splits insn wide)
include hsplit

/-- Instructions count for the rows that are read for them. -/
theorem numberAt_eq {i : Nat} (hi : i ≤ p.insns.length) :
    numberAt split p.sorted.insns i = l.index p.insns i := by
  induction i with
  | zero => rfl
  | succ i ih =>
    have hinsn : p.insns[i]? = some p.insns[i] := List.getElem?_eq_getElem hi
    have hsorted : p.sorted.insns[i]? = some p.insns[i].sorted := by
      rw [Body.sorted, List.getElem?_map, hinsn]
      rfl
    obtain ⟨wide, hrow⟩ := h.settled.row_of_insn hinsn
    rw [numberAt_succ hsorted, ih (Nat.le_of_succ_le hi), Insn.weight_sorted, hsplit hrow,
      Layout.index_succ hrow, h.written_length hrow]

theorem numberOf_place {t : Label} {i : Nat} (ht : LastPlace p.insns t i) :
    numberOf split p.sorted.insns t = l.index p.insns i := by
  have hsorted : LastPlace p.sorted.insns t i := by
    have hlabel (j : Nat) : p.sorted.insns[j]? = some (.label t) ↔ p.insns[j]? = some (.label t) := by
      rw [Body.sorted, List.getElem?_map]
      cases p.insns[j]? with
      | none => simp
      | some insn => cases insn <;> simp [Insn.sorted]
    exact ⟨(hlabel i).2 ht.1, fun j hj hj' => ht.2 j hj ((hlabel j).1 hj')⟩
  rw [numberOf_eq hsorted, h.numberAt_eq hsplit (Nat.le_of_lt ht.lt)]

variable {ord : Nat → Nat} (hord : ∀ x ∈ l.reread p.insns, ∀ o ∈ x.2.mentions,
  ∀ i ≤ p.insns.length, o = l.offsetAt i → ord o = l.index p.insns i)
include hord

/-- An instruction is listed as what is read for it. -/
theorem listed_eq {i : Nat} {insn : Insn} {pc : Nat} {wide : Bool}
    (hrow : (l.rows p.insns)[i]? = some ((insn, pc), wide)) (hreal : insn.isPseudo = false) :
    marked (l.linesAt p.insns pc)
        (insn.sorted.listed (split i) (numberOf split p.sorted.insns) (l.index p.insns i + 2)) =
      (insn.written l pc wide).map fun x => ⟨l.linesAt p.insns x.1, x.2.retarget ord⟩ := by
  have hread {x : Nat × Insn} (hx : x ∈ insn.written l pc wide) : x ∈ l.reread p.insns :=
    List.mem_flatMap.2 ⟨_, List.mem_of_getElem? hrow, hx⟩
  obtain ⟨hinsn, hpc, -⟩ := Layout.insn_of_row hrow
  have target {t : Label} {x : Nat × Insn} (ht : t ∈ insn.mentions) (hx : x ∈ insn.written l pc wide)
      (hmention : l.place t ∈ x.2.mentions) : numberOf split p.sorted.insns t = ord (l.place t) := by
    obtain ⟨j, hj⟩ := h.placed insn (List.mem_of_getElem? hinsn) t ht
    rw [h.numberOf_place hsplit hj]
    exact (hord x (hread hx) _ hmention j (Nat.le_of_lt hj.lt) (h.settled.place_eq hj)).symm
  have whole (hw : insn.written l pc wide = [(pc, insn.sorted.retarget l.place)])
      (hlisted : ∀ number next, insn.sorted.listed (split i) number next = [insn.sorted.retarget number]) :
      marked (l.linesAt p.insns pc)
          (insn.sorted.listed (split i) (numberOf split p.sorted.insns) (l.index p.insns i + 2)) =
        (insn.written l pc wide).map fun x => ⟨l.linesAt p.insns x.1, x.2.retarget ord⟩ := by
    rw [hlisted, hw, List.map_singleton, Insn.retarget_retarget]
    refine congrArg (fun insn => [Step.mk _ insn]) (Insn.retarget_congr fun t ht => ?_)
    refine target (Insn.mentions_sorted.1 ht) (hw ▸ List.mem_singleton_self _) ?_
    rw [Insn.mentions_retarget]
    exact List.mem_map_of_mem ht
  cases insn with
  | label _ | line _ => cases hreal
  | jump op there =>
    cases hs : Encode.splits (.jump op there) wide with
    | false =>
      refine whole (by rw [Insn.written, hs]; rfl) fun number next => ?_
      rw [hsplit hrow, hs]
      rfl
    | true =>
      obtain ⟨opposite, hopposite, hw, hsize⟩ := h.written_split hrow hs
      have hlen := h.written_length hrow
      have hnext : ord (pc + 8) = l.index p.insns i + 2 := by
        have hindex := Layout.index_succ hrow
        rw [hw] at hindex
        rw [hord (pc, .jump opposite (pc + 8)) (hread (by rw [hw]; exact List.mem_cons_self ..)) _
          (List.mem_singleton_self _) (i + 1) (List.getElem?_eq_some_iff.1 hinsn).1
          (by rw [h.settled.offsetAt_succ hrow, ← hpc, hsize]), hindex]
        rfl
      -- The jump of a split branch is inside the bytes of the branch, where no instruction starts.
      have hnone : l.linesAt p.insns (pc + 3) = [] := by
        have hlt := (List.getElem?_eq_some_iff.1 hinsn).1
        have hsucc := h.settled.offsetAt_succ hrow
        rw [← hpc, hsize] at hsucc
        rw [h.settled.linesAt_eq (i := i + 1), h.settled.linesBefore_eq_nil]
        · intro j hj heq
          have hmono := h.settled.offsetAt_mono (Nat.le_of_lt_succ hj) (Nat.le_of_lt hlt)
          omega
        · intro j insn hj hinsn' _ heq
          have hle := Nat.le_of_lt (List.getElem?_eq_some_iff.1 hinsn').1
          have hmono := h.settled.offsetAt_mono hj hle
          omega
      have hthere := target (x := (pc + 3, .jump Op.goto (l.place there))) (List.mem_singleton_self _)
        (by rw [hw]; simp) (List.mem_singleton_self _)
      rw [hw, hsplit hrow, hs]
      simp only [Insn.sorted, Insn.listed, if_true, hopposite, Option.toList_some,
        List.flatMap_singleton, marked, List.map_cons, List.map_nil, Insn.retarget, hnext, hnone, hthere]
  | lookupSwitch _ _ => exact whole rfl fun _ _ => rfl
  | _ => exact whole rfl fun _ _ => rfl

/-- The steps of a body from an instruction on are the rows that are read from there on. -/
theorem steps_from {n i : Nat} (hi : i + n = p.insns.length) :
    stepsFrom split (numberOf split p.sorted.insns) i (l.index p.insns i)
        (l.linesBefore p.insns i (l.offsetAt i)) (p.sorted.insns.drop i) =
      ((l.rows p.insns).drop i).flatMap fun row =>
        (row.1.1.written l row.1.2 row.2).map fun x => ⟨l.linesAt p.insns x.1, x.2.retarget ord⟩ := by
  induction n generalizing i with
  | zero =>
    have hrows : (l.rows p.insns).length ≤ i := by
      rw [Layout.rows, List.length_zip, List.length_zip]
      omega
    rw [Body.sorted, List.drop_eq_nil_of_le (by rw [List.length_map]; omega),
      List.drop_eq_nil_of_le hrows]
    rfl
  | succ n ih =>
    have hlt : i < p.insns.length := by omega
    have hinsn : p.insns[i]? = some p.insns[i] := List.getElem?_eq_getElem hlt
    generalize p.insns[i] = insn at hinsn
    have hsorted : p.sorted.insns[i]? = some insn.sorted := by
      rw [Body.sorted, List.getElem?_map, hinsn]
      rfl
    obtain ⟨wide, hrow⟩ := h.settled.row_of_insn hinsn
    have hnext := ih (i := i + 1) (by omega)
    rw [Layout.index_succ hrow, h.settled.offsetAt_succ hrow, h.settled.linesBefore_succ hinsn] at hnext
    rw [drop_of_getElem? hsorted, drop_of_getElem? hrow, List.flatMap_cons, ← hnext]
    cases hreal : insn.isPseudo with
    | true =>
      -- A mark has no bytes: a label passes the lines on, and a line joins them.
      cases insn with
      | label t => simp [Insn.sorted, stepsFrom, Insn.written, Layout.size, Layout.lineAt]
      | line n => simp [Insn.sorted, stepsFrom, Insn.written, Layout.size, Layout.lineAt]
      | _ => cases hreal
    | false =>
      have hbehind (j : Nat) (hj : i + 1 ≤ j) (hle : j ≤ p.insns.length) :
          l.offsetAt i < l.offsetAt j :=
        h.settled.offsetAt_lt hinsn hreal hj hle
      have hlines : l.linesBefore p.insns i (l.offsetAt i) = l.linesAt p.insns (l.offsetAt i) := by
        refine (h.settled.linesAt_eq fun j later hj hlater hpseudo heq => ?_).symm
        rcases Nat.eq_or_lt_of_le hj with rfl | hj
        · rw [hinsn, Option.some.injEq] at hlater
          rw [← hlater, hreal] at hpseudo
          cases hpseudo
        · have := hbehind j hj (Nat.le_of_lt (List.getElem?_eq_some_iff.1 hlater).1)
          omega
      have hnone : l.linesBefore p.insns (i + 1) (l.offsetAt (i + 1)) = [] :=
        h.settled.linesBefore_eq_nil fun j hj heq => by
          have hmono := h.settled.offsetAt_mono (Nat.le_of_lt_succ hj) (Nat.le_of_lt hlt)
          have := hbehind (i + 1) (Nat.le_refl _) hlt
          omega
      rw [h.settled.offsetAt_succ hrow, h.settled.linesBefore_succ hinsn] at hnone
      rw [stepsFrom_real (by rw [Insn.isPseudo_sorted, hreal]), hlines,
        h.listed_eq hsplit hord hrow hreal, Insn.weight_sorted, hsplit hrow, ← h.written_length hrow,
        hnone]

end Listing

section Decoded

variable {b : Body} (hb : Decoded c (l.reread p.insns) b)
include hb

/-- A label that is decoded counts the rows in front of its offset. -/
theorem numberOf_decoded {o i : Nat} (hi : i ≤ p.insns.length) (ho : o = l.offsetAt i) {t : Label}
    (ht : (c.labels (l.reread p.insns))[o]? = some t) :
    numberOf whole b.insns t = l.index p.insns i :=
  hb.numberOf_label h.ordered ht (ho ▸ h.at_offset hi)

/-- The labels of a decoded body are placed. -/
theorem placed_of_label {o : Nat} {t : Label} (ht : (c.labels (l.reread p.insns))[o]? = some t) :
    ∃ i, LastPlace b.insns t i := by
  obtain ⟨k, -, hk⟩ := hb.at_of_label ht
  exact ⟨_, hb.lastPlace h.ordered ht hk⟩

theorem closed_decoded : b.Closed := by
  refine ⟨fun insn hinsn t ht => ?_, fun range hrange t ht => ?_⟩
  · rw [hb.insns] at hinsn
    rcases List.mem_append.1 hinsn with hinsn | hinsn
    · obtain ⟨x, hx, hinsn⟩ := List.mem_flatMap.1 hinsn
      simp only [row, List.mem_append, List.mem_map, List.mem_singleton] at hinsn
      rcases hinsn with ⟨_, -, rfl⟩ | ⟨_, -, rfl⟩ | rfl
      · cases ht
      · cases ht
      · rw [Insn.mentions_retarget] at ht
        obtain ⟨o, ho, rfl⟩ := List.mem_map.1 ht
        exact h.placed_of_label hb (label_of_mention hx ho)
    · obtain ⟨_, -, rfl⟩ := List.mem_map.1 hinsn
      cases ht
  · rw [hb.tryCatch] at hrange
    obtain ⟨x, hx, rfl⟩ := List.mem_map.1 hrange
    have offset {o : Nat} (ho : o = x.startPc.toNat ∨ o = x.endPc.toNat ∨ o = x.handlerPc.toNat) :=
      h.placed_of_label hb (label_of_exception (l.reread p.insns) hx ho)
    simp only [List.mem_cons, List.not_mem_nil, or_false] at ht
    rcases ht with rfl | rfl | rfl
    · exact offset (.inl rfl)
    · exact offset (.inr (.inl rfl))
    · exact offset (.inr (.inr rfl))

theorem steps_eq {split : Nat → Bool} (hsplit : ∀ {i : Nat} {insn : Insn} {pc : Nat} {wide : Bool},
    (l.rows p.insns)[i]? = some ((insn, pc), wide) → split i = Encode.splits insn wide) :
    (b.listing whole).steps = (p.sorted.listing split).steps := by
  have hord : ∀ x ∈ l.reread p.insns, ∀ o ∈ x.2.mentions, ∀ i ≤ p.insns.length, o = l.offsetAt i →
      (numberOf whole b.insns ∘ (c.labels (l.reread p.insns)).of) o = l.index p.insns i :=
    fun x hx o ho i hi heq => h.numberOf_decoded hb hi heq (label_of_mention hx ho)
  have hread := (congrArg (stepsFrom whole (numberOf whole b.insns) 0 0 []) hb.insns).trans
    (stepsFrom_rows h.ordered.real _ 0 0)
  have hwritten := h.steps_from hsplit hord (Nat.zero_add p.insns.length)
  rw [List.drop_zero, List.drop_zero, ← List.map_flatMap] at hwritten
  simp only [h.lines_at] at hread
  exact hread.trans hwritten.symm

theorem ranges_eq {split : Nat → Bool} (hsplit : ∀ {i : Nat} {insn : Insn} {pc : Nat} {wide : Bool},
    (l.rows p.insns)[i]? = some ((insn, pc), wide) → split i = Encode.splits insn wide) :
    (b.listing whole).ranges = (p.sorted.listing split).ranges := by
  have hranges : List.Forall₂ (fun x t => x ∈ c.exceptions ∧ Encode.exceptionEntry l t = .ok x)
      c.exceptions p.tryCatch :=
    (List.forall₂_and_left _ _).2 ⟨fun _ => id, h.exceptions.flip⟩
  change b.tryCatch.map _ = p.tryCatch.map _
  rw [hb.tryCatch, List.map_map, ← List.forall₂_eq_eq_eq, List.forall₂_map_left_iff,
    List.forall₂_map_right_iff]
  refine hranges.imp fun x t ⟨hx, ht⟩ => ?_
  obtain ⟨i, j, k, hi, hj, hk, hio, hjo, hko, hcatch⟩ := h.settled.range_of_entry h.short ht
  have number {o i : Nat} {label : Label} (hi : LastPlace p.insns label i) (hio : o = l.offsetAt i)
      (ho : o = x.startPc.toNat ∨ o = x.endPc.toNat ∨ o = x.handlerPc.toNat) :
      numberOf whole b.insns ((c.labels (l.reread p.insns)).of o)
        = numberOf split p.sorted.insns label := by
    rw [h.numberOf_decoded hb (Nat.le_of_lt hi.lt) hio (label_of_exception _ hx ho),
      h.numberOf_place hsplit hi]
  simp only [Function.comp_apply, number hi hio (.inl rfl), number hj hjo (.inr (.inl rfl)),
    number hk hko (.inr (.inr rfl)), hcatch]

end Decoded

/-- Every label that an encoded body uses is placed. -/
theorem closed : p.Closed := by
  refine ⟨h.placed, fun t ht label hlabel => ?_⟩
  obtain ⟨x, -, hx⟩ := (mem_forall₂ h.exceptions).1 t ht
  obtain ⟨i, j, k, hi, hj, hk, -⟩ := h.settled.range_of_entry h.short hx
  simp only [List.mem_cons, List.not_mem_nil, or_false] at hlabel
  rcases hlabel with rfl | rfl | rfl
  · exact ⟨i, hi⟩
  · exact ⟨j, hj⟩
  · exact ⟨k, hk⟩

end Carries

/-! ## Decoding undoes encoding -/

/-- Only conditional branches are split, and they have an opposite. -/
theorem Encoded.Of.jump_of_splits {pool : Pool} {p : Body} {l : Layout} {c : CodeAttribute} {e : Encoded}
    (hof : e.Of p l) (h : Carries pool p l c) {i : Nat} (hi : e.splits i = true) :
    ∃ op target, p.insns[i]? = some (.jump op target) ∧ op ≠ Op.goto ∧
      ∃ opposite, Op.invertBranch op = some opposite := by
  have hmem : i + 1 ∈ e.widened := List.contains_iff_mem.1 hi
  rw [hof.widened, Encode.mem_widenedFallthroughs] at hmem
  obtain ⟨insn, wide, hinsn, hwide, hsplit⟩ := hmem
  have hrow : ((insn, l.offsetAt i), wide) ∈ l.rows p.insns := by
    obtain ⟨wide', hrow⟩ := h.settled.row_of_insn hinsn
    obtain rfl : wide' = wide := Option.some.inj ((Layout.insn_of_row hrow).2.2.symm.trans hwide)
    exact List.mem_of_getElem? hrow
  cases insn with
  | jump op target =>
    have hgoto : wide = true ∧ op ≠ Op.goto := by
      simpa only [Encode.splits, Bool.and_eq_true, bne_iff_ne, ne_eq] using hsplit
    obtain ⟨rfl, hop⟩ := hgoto
    exact ⟨op, target, hinsn, hop, h.inverted op target _ hrow hop⟩
  | _ => cases hsplit

/-- Encoded code is decoded to the body that was encoded, up to the names of the labels, the order of
switch keys and the conditional branches that were split. -/
theorem decode_encode_listing {b : Body} {pool : Pool} {e : Encoded} (he : encode b pool = .ok e)
    (hstd : ∀ insn ∈ b.insns, insn.Standard) (maxStack maxLocals : UInt16) :
    b.Closed ∧
      (∀ i, e.splits i = true → ∃ op target, b.insns[i]? = some (.jump op target) ∧ op ≠ Op.goto ∧
        ∃ opposite, Op.invertBranch op = some opposite) ∧
      ∃ b', decode (e.attribute maxStack maxLocals) = .ok b' ∧ b'.Closed ∧
        b'.listing whole = b.sorted.listing e.splits := by
  obtain ⟨l, hof, hcarries⟩ := carries_of_encode (c := e.attribute maxStack maxLocals) he hstd rfl rfl
    (List.append_nil _)
  obtain ⟨b', hb'⟩ := hcarries.decodes nofun
  have hdecoded := hcarries.decoded hb'
  refine ⟨hcarries.closed, fun i => hof.jump_of_splits hcarries, b', hb',
    hcarries.closed_decoded hdecoded, ?_⟩
  have hsteps := hcarries.steps_eq hdecoded hof.splits_eq
  have hranges := hcarries.ranges_eq hdecoded hof.splits_eq
  exact congrArg₂ Listing.mk hsteps hranges

/-- A loop that is left through a switch. -/
def leavingLoop : Body where
  insns := [.label 0, .line 7, .var Op.iload 0, .tableSwitch 1 5 [0, 1, 0], .label 1, .line 9,
    .simple Op.returnVoid]
  tryCatch := [⟨0, 1, 1, 0⟩]
  nextLabel := 2

theorem decode_encode_listing_leavingLoop : ∃ e, encode leavingLoop .empty = .ok e ∧
    (∀ insn ∈ leavingLoop.insns, insn.Standard) ∧
    ∃ b', decode (e.attribute 1 1) = .ok b' ∧ b'.Closed ∧
      b'.listing whole = leavingLoop.sorted.listing e.splits := by
  have hencodes : (encode leavingLoop .empty).toOption.any (fun _ => true) = true := by decide +kernel
  obtain ⟨e, he, -⟩ := any_toOption.1 hencodes
  have hstd : ∀ insn ∈ leavingLoop.insns, insn.Standard := by decide +kernel
  exact ⟨e, he, hstd, (decode_encode_listing he hstd 1 1).2.2⟩

end Interpose
