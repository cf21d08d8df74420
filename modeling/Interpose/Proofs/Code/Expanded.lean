import Mathlib
import Interpose.Proofs.Code.Expansion
/-!
# Expanded code

Code in which every subroutine is expanded is well formed (`expand_wellFormed`): no call is left, labels
are placed once and what is named is placed, and what an instruction is a copy of decides which protected
ranges cover it.
-/

namespace Interpose

/-- The range of a table entry covers the item with a number. -/
def TryCatch.CoversItem (items : List Item) (t : TryCatch) (i : Nat) : Prop :=
  ∃ a b, items[a]? = some (.insn (.label t.start)) ∧ items[b]? = some (.insn (.label t.stop)) ∧
    a ≤ i ∧ i < b

/-- Where labels are placed once, a label has its last place wherever it is placed. -/
theorem lastPlace_iff {insns : List Insn} (h : (insns.filterMap Insn.placed).Nodup) {l : Label} {a : Nat} :
    LastPlace insns l a ↔ insns[a]? = some (.label l) := by
  refine ⟨fun ha => ha.1, fun ha => ⟨ha, fun j hj hl => ?_⟩⟩
  have hplaced : (Insn.label l).placed = some l := rfl
  exact Nat.ne_of_lt hj (filterMap_index_unique h ha hplaced hl hplaced)

/-- Where labels are placed once, it is enough that the labels in use are placed. -/
theorem closed_of_once {b : Body} (h : (b.insns.filterMap Insn.placed).Nodup)
    (hnamed : ∀ insn ∈ b.insns, ∀ l ∈ insn.mentions, .label l ∈ b.insns)
    (hbounds : ∀ t ∈ b.tryCatch, ∀ l ∈ [t.start, t.stop, t.handler], .label l ∈ b.insns) : b.Closed := by
  have place {l : Label} (hl : .label l ∈ b.insns) : ∃ i, LastPlace b.insns l i := by
    obtain ⟨i, hi⟩ := List.mem_iff_getElem?.1 hl
    exact ⟨i, (lastPlace_iff h).2 hi⟩
  exact ⟨fun insn hinsn l hl => place (hnamed insn hinsn l hl), fun t ht l hl => place (hbounds t ht l hl)⟩

/-- An instruction that a reader can answer neither calls a subroutine nor returns from one. -/
theorem Insn.Standard.straight {insn : Insn} (h : insn.Standard) {op : Opcode} (hop : insn.opcode = some op) :
    op ≠ Op.jsr ∧ op ≠ Op.jsrW ∧ op ≠ Op.ret := by
  have hformat : ∀ f, Cursor.Format.of op = f → f ∈ [Cursor.Format.alone, .byte, .short, .arrayType, .var,
      .type, .field, .method, .interface, .branch] → op ≠ Op.jsr ∧ op ≠ Op.jsrW ∧ op ≠ Op.ret := by
    rintro f rfl hf
    refine ⟨?_, ?_, ?_⟩ <;> rintro rfl <;> revert hf <;> decide
  cases insn with
  | label _ | line _ => cases hop
  | iinc _ _ | dynamic _ | ldc _ | multiNewArray _ _ | tableSwitch _ _ _ | lookupSwitch _ _ =>
    cases hop
    decide
  | simple _ | var _ _ | type _ _ | field _ _ | jump _ _ =>
    cases hop
    exact hformat _ h (by decide)
  | int _ _ =>
    cases hop
    rcases h with h | h | h <;> exact hformat _ h.1 (by decide)
  | method _ _ =>
    cases hop
    rcases h with h | h <;> exact hformat _ h (by decide)

namespace Subroutine

/-- The instruction that an item is copied to is one that a reader can answer. -/
theorem CopyOf.standard {item : Item} {insn : Insn} (h : CopyOf item insn) (hitem : Cursor.Usual item) :
    insn.Standard := by
  cases h with
  | insn f _ => exact Insn.standard_retarget f (hitem _ rfl)
  | address _ =>
    change Cursor.Format.of Op.aconstNull = .alone
    decide
  | call _ _ | back _ _ =>
    change Cursor.Format.of Op.goto = .branch
    decide

theorem CopyOf.isPseudo {item : Item} {insn : Insn} (h : CopyOf item insn) : insn.isPseudo = false := by
  cases h with
  | @insn i f hi => cases i <;> first | rfl | cases hi
  | address _ | call _ _ | back _ _ => rfl

/-- Code that items were expanded to. `origins` gives the item that each instruction is a copy of, and
`groups` the ranges that are derived from each range of the items. -/
structure WellFormed (items : List Item) (tryCatch : List TryCatch) (e : Expanded)
    (origins : List (Option Nat)) (groups : List (List TryCatch)) : Prop where
  /-- No call and no return is left. -/
  straight : ∀ insn ∈ e.insns, ∀ op, insn.opcode = some op → op ≠ Op.jsr ∧ op ≠ Op.jsrW ∧ op ≠ Op.ret
  /-- No label is placed twice. -/
  once : (e.insns.filterMap Insn.placed).Nodup
  below : ∀ l, .label l ∈ e.insns → l < e.nextLabel
  /-- Every label that an instruction names is placed. -/
  named : ∀ insn ∈ e.insns, ∀ l ∈ insn.mentions, .label l ∈ e.insns
  /-- Every label that a range names is placed. -/
  bounds : ∀ t ∈ e.tryCatch, ∀ l ∈ [t.start, t.stop, t.handler], .label l ∈ e.insns
  /-- Every range holds an instruction that is not a mark. -/
  filled : ∀ t ∈ e.tryCatch, ∃ n insn, t.Covers e.insns n ∧ e.insns[n]? = some insn ∧ insn.isPseudo = false
  /-- Ranges derived from an earlier range come first. -/
  grouped : e.tryCatch = groups.flatten
  /-- Every instruction is a copy of its origin. Marks have none. -/
  stems : List.Forall₂ (fun insn o => Stems items (insn, o)) e.insns origins
  /-- The origins are those of the main code, and then those of each call. -/
  order : ∃ regions, tryCatch.mapM (region (itemPositions items)) = .ok regions ∧
    origins.reduceOption = (program items regions).origins
  /-- A copy is covered by a range derived from a range exactly if that range covers its origin. -/
  covered : List.Forall₂ (fun t group => (∀ t' ∈ group, t'.catchType = t.catchType) ∧
    ∀ n i, origins[n]? = some (some i) →
      ((∃ t' ∈ group, t'.Covers e.insns n) ↔ t.CoversItem items i)) tryCatch groups

section

variable {items : List Item} {tryCatch : List TryCatch} {next : Label} {regions : List Region}
  {p : Program} {T : Trace} {e : Expansion} {l : Label} {a n i : Nat} {o : Origin} {t : TryCatch}

theorem getElem?_trace (h : ∀ x ∈ T, Stems items (x.1, Trace.source x)) :
    (T.map (·.1))[a]? = some (.label l) ↔ T.Stands l a := by
  rw [List.getElem?_map, Option.map_eq_some_iff]
  constructor
  · rintro ⟨⟨insn, o⟩, ha, rfl⟩
    have hstems := h _ (List.mem_of_getElem? ha)
    cases o with
    | none => exact ha
    | some o =>
      obtain ⟨item, -, hcopy⟩ := hstems
      cases hcopy.isPseudo
  · exact fun ha => ⟨_, ha, rfl⟩

theorem mem_placed : l ∈ T.placed ↔ .label l ∈ T.map (·.1) := by
  unfold Trace.placed
  rw [List.mem_filterMap, List.mem_map]
  simp only [Interpose.placed_eq_some]

theorem stems_standard (h : Sound items tryCatch next) {x : Insn × Option Nat} (hx : Stems items x) :
    x.1.Standard := by
  obtain ⟨insn, o⟩ := x
  cases o with
  | none => cases insn <;> first | exact trivial | cases hx
  | some i =>
    obtain ⟨item, hitem, hcopy⟩ := hx
    exact hcopy.standard (h.usual item (List.mem_of_getElem? hitem))

/-- A copy is covered by a range if it stands between its labels. -/
theorem covers_iff (h : ∀ x ∈ T, Stems items (x.1, Trace.source x)) (hnodup : T.placed.Nodup)
    (hn : T.Real n o) :
    t.Covers (T.map (·.1)) n ↔ Spans T t n := by
  have hplaced : ((T.map (·.1)).filterMap Insn.placed).Nodup := by
    rw [List.filterMap_map]
    exact hnodup
  unfold TryCatch.Covers Spans
  simp only [lastPlace_iff hplaced, getElem?_trace h]
  refine exists_congr fun a => exists_congr fun b => and_congr_right fun ha => and_congr_right fun _ =>
    and_congr_left fun _ => ⟨fun han => Nat.lt_of_le_of_ne han ?_, Nat.le_of_lt⟩
  rintro rfl
  obtain ⟨insn, hn⟩ := hn
  cases ha.symm.trans hn

/-- The region of a range covers the items that the range covers. -/
theorem Sound.covers_iff (h : Sound items tryCatch next) {r : Region}
    (hr : region (itemPositions items) t = .ok r) : r.covers i = true ↔ t.CoversItem items i := by
  obtain ⟨hstart, hstop, -, -⟩ := region_eq_ok.1 hr
  rw [h.position_iff] at hstart hstop
  unfold Region.covers TryCatch.CoversItem
  rw [Bool.and_eq_true, decide_eq_true_eq, decide_eq_true_eq]
  constructor
  · exact fun hi => ⟨_, _, hstart, hstop, hi⟩
  · rintro ⟨a, b, ha, hb, hi⟩
    have place {l : Label} {i j : Nat} (hi : items[i]? = some (.insn (.label l)))
        (hj : items[j]? = some (.insn (.label l))) : i = j :=
      filterMap_index_unique h.nodup hi rfl hj rfl
    rwa [place ha hstart, place hb hstop] at hi

def group (ranges : List (Nat × TryCatch)) (k : Nat) : List TryCatch :=
  ranges.filterMap fun x => if x.1 = k then some x.2 else none

theorem mem_group {ranges : List (Nat × TryCatch)} {k : Nat} : t ∈ group ranges k ↔ (k, t) ∈ ranges := by
  unfold group
  rw [List.mem_filterMap]
  constructor
  · rintro ⟨⟨k', t'⟩, hmem, h⟩
    split at h
    · rename_i hk
      cases hk
      cases h
      exact hmem
    · cases h
  · exact fun hmem => ⟨_, hmem, if_pos rfl⟩

theorem groupRanges_eq (ranges : List (Nat × TryCatch)) :
    groupRanges regions ranges = (regions.zipIdx.map fun x => group ranges x.2).flatten := rfl

theorem mem_groupRanges {ranges : List (Nat × TryCatch)} (ht : t ∈ groupRanges regions ranges) :
    ∃ k r, regions[k]? = some r ∧ (k, t) ∈ ranges := by
  rw [groupRanges_eq] at ht
  obtain ⟨g, hg, ht⟩ := List.mem_flatten.1 ht
  obtain ⟨⟨r, k⟩, hr, rfl⟩ := List.mem_map.1 hg
  exact ⟨k, r, List.mem_zipIdx_iff_getElem?.1 hr, mem_group.1 ht⟩

/-- What a finished expansion is. -/
theorem Settled.wellFormed (h : Sound items tryCatch next)
    (hregions : tryCatch.mapM (region (itemPositions items)) = .ok regions)
    (hs : Settled (program items regions) T [] e) (hsources : T.sources = (program items regions).origins) :
    WellFormed items tryCatch ⟨e.code.toList, groupRanges regions e.ranges.toList, e.next⟩ (T.map Trace.source)
      (regions.zipIdx.map fun x => group e.ranges.toList x.2) := by
  have hstems : ∀ x ∈ T, Stems items (x.1, Trace.source x) := hs.written.stems
  have hissued : T.issued [] = T.placed := List.append_nil _
  have hplaced : T.placed.Nodup := hissued ▸ hs.written.nodup
  have hmem {l : Label} : l ∈ T.issued [] ↔ .label l ∈ T.map (·.1) := by
    rw [hissued, mem_placed]
  have hrange {k : Nat} {t : TryCatch} (ht : (k, t) ∈ e.ranges.toList) {r : Region}
      (hr : regions[k]? = some r) : Made T r t := (hs.closed [] k r hr).made t ht
  rw [hs.written.code]
  exact {
    straight := by
      rintro insn hinsn op hop
      obtain ⟨x, hx, rfl⟩ := List.mem_map.1 hinsn
      exact (stems_standard h (hstems x hx)).straight hop
    once := by
      rw [List.filterMap_map]
      exact hplaced
    below := fun l hl => hs.written.below l (hmem.2 hl)
    named := by
      rintro insn hinsn l hl
      obtain ⟨x, hx, rfl⟩ := List.mem_map.1 hinsn
      exact hmem.1 (hs.written.named x hx l hl)
    bounds := by
      rintro t ht l hl
      obtain ⟨k, -, -, ht⟩ := mem_groupRanges ht
      exact hmem.1 (hs.written.ranges (k, t) ht l hl)
    filled := by
      rintro t ht
      obtain ⟨k, r, hr, ht⟩ := mem_groupRanges ht
      obtain ⟨-, a, b, ha, hb, ⟨n, i, han, hnb, hn⟩, -⟩ := hrange ht hr
      refine ⟨n, ?_⟩
      have hcovers := (covers_iff hstems hplaced hn).2 ⟨a, b, ha, hb, han, hnb⟩
      obtain ⟨insn, hn⟩ := hn
      obtain ⟨item, -, hcopy⟩ := hstems _ (List.mem_of_getElem? hn)
      exact ⟨insn, hcovers, by rw [List.getElem?_map, hn, Option.map_some], hcopy.isPseudo⟩
    grouped := rfl
    stems := by
      rw [List.forall₂_map_left_iff, List.forall₂_map_right_iff, List.forall₂_same]
      exact hstems
    order := by
      refine ⟨regions, hregions, ?_⟩
      rw [← hsources, List.reduceOption, List.filterMap_map]
      rfl
    covered := by
      have hforall := mapM_eq_ok.1 hregions
      refine List.forall₂_iff_get.2 ⟨?_, fun k hk hk' => ?_⟩
      · rw [List.length_map, List.length_zipIdx, hforall.length_eq]
      obtain ⟨r, hr, hregion⟩ := forall₂_getElem? hforall (List.getElem?_eq_getElem hk)
      rw [List.get_eq_getElem, List.get_eq_getElem, List.getElem_map, List.getElem_zipIdx, Nat.zero_add]
      refine ⟨fun t' ht' => ?_, fun n i hn => ?_⟩
      · rw [(hrange (mem_group.1 ht') hr).1, (region_eq_ok.1 hregion).2.2.2]
      · obtain ⟨o, rfl, hreal⟩ : ∃ o : Origin, o.item = i ∧ T.Real n o := by
          rw [List.getElem?_map, Option.map_eq_some_iff] at hn
          obtain ⟨⟨insn, o⟩, hn, ho⟩ := hn
          obtain ⟨o, rfl, hi⟩ := Option.map_eq_some_iff.1 ho
          exact ⟨o, hi, insn, hn⟩
        rw [← h.covers_iff hregion]
        constructor
        · rintro ⟨t', ht', hcovers⟩
          obtain ⟨-, a, b, ha, hb, -, hall⟩ := hrange (mem_group.1 ht') hr
          obtain ⟨a', b', ha', hb', han, hnb⟩ := (covers_iff hstems hplaced hreal).1 hcovers
          have hsame {l : Label} {i j : Nat} (hi : T.Stands l i) (hj : T.Stands l j) : i = j :=
            filterMap_index_unique hplaced hi rfl hj rfl
          exact (hall n o (hsame ha ha' ▸ han) (hsame hb hb' ▸ hnb) hreal).1
        · intro hcovers
          rcases (hs.closed [] k r hr).complete n o hreal hcovers with ⟨t', ht', hspans⟩ | ⟨_, _, ho, -⟩
          · exact ⟨t', mem_group.2 ht', (covers_iff hstems hplaced hreal).2 hspans⟩
          · cases ho }

end

end Subroutine

/-- The code that decoding expands subroutines in is expanded to well-formed code, if it is expanded. -/
theorem expand_wellFormed {c : CodeAttribute} {items : List (Nat × Item)} {placed : List Item}
    (h : c.Symbolic items placed) {e : Subroutine.Expanded}
    (he : Subroutine.expand placed (c.ranges items) (c.offsetLabels items).size = .ok e) :
    ∃ origins groups, Subroutine.WellFormed placed (c.ranges items) e origins groups := by
  obtain ⟨regions, hregions, hexpands⟩ := h.sound.expands
  rw [he] at hexpands
  obtain ⟨T, e', hs, hsources, -, rfl⟩ := hexpands
  exact ⟨_, _, hs.wellFormed h.sound hregions hsources⟩

section Decoded

variable {c : CodeAttribute} {b : Body} (h : decode c = .ok b)
include h

/-- The labels in decoded code are below the next one, also where subroutines were expanded. -/
theorem decode_below : LabelsBelow b := by
  obtain ⟨items, placed, hsymbolic, ⟨-, rfl⟩ | ⟨-, e, he, rfl⟩⟩ := CodeAttribute.decode_eq_ok.1 h
  · intro l hl
    obtain ⟨x, hx, hinsn⟩ := List.mem_filterMap.1 hl
    refine hsymbolic.sound.below l (List.mem_filterMap.2 ⟨x, hx, ?_⟩)
    cases x with
    | insn _ =>
      cases hinsn
      rfl
    | jsr _ | ret _ => cases hinsn
  · obtain ⟨origins, groups, hformed⟩ := expand_wellFormed hsymbolic he
    exact hformed.below

/-- Decoded code can be encoded, also where subroutines were expanded. -/
theorem decode_standard : ∀ insn ∈ b.insns, insn.Standard := by
  obtain ⟨items, placed, hsymbolic, ⟨-, rfl⟩ | ⟨-, e, he, rfl⟩⟩ := CodeAttribute.decode_eq_ok.1 h
  · intro insn hinsn
    obtain ⟨x, hx, hinsn⟩ := List.mem_filterMap.1 hinsn
    cases x with
    | insn _ =>
      cases hinsn
      exact hsymbolic.sound.usual _ hx _ rfl
    | jsr _ | ret _ => cases hinsn
  · obtain ⟨origins, groups, hformed⟩ := expand_wellFormed hsymbolic he
    intro insn hinsn
    obtain ⟨o, -, hstems⟩ := (mem_forall₂ hformed.stems).1 insn hinsn
    exact Subroutine.stems_standard hsymbolic.sound hstems

/-- The labels that decoded code uses are placed, also where subroutines were expanded. -/
theorem decode_closed : b.Closed := by
  obtain ⟨items, placed, hsymbolic, ⟨-, rfl⟩ | ⟨-, e, he, rfl⟩⟩ := CodeAttribute.decode_eq_ok.1 h
  · have hsound := hsymbolic.sound
    have hplaced : (placed.filterMap Item.insn?).filterMap Insn.placed = placed.filterMap Item.placed := by
      rw [List.filterMap_filterMap]
      exact List.filterMap_congr fun x _ => by cases x <;> rfl
    have hmem {l : Label} (hl : l ∈ placed.filterMap Item.placed) : .label l ∈ placed.filterMap Item.insn? := by
      obtain ⟨insn, hinsn, hl⟩ := List.mem_filterMap.1 (hplaced ▸ hl)
      rwa [placed_eq_some.1 hl] at hinsn
    refine closed_of_once (hplaced.symm ▸ hsound.nodup) (fun insn hinsn l hl => hmem ?_)
      (fun t ht l hl => hmem (hsound.ranges t ht l hl))
    obtain ⟨x, hx, hinsn⟩ := List.mem_filterMap.1 hinsn
    cases x with
    | insn _ =>
      cases hinsn
      exact hsound.mentions _ hx l hl
    | jsr _ | ret _ => cases hinsn
  · obtain ⟨origins, groups, hformed⟩ := expand_wellFormed hsymbolic he
    exact closed_of_once hformed.once hformed.named hformed.bounds

end Decoded

/-- A method whose `finally` is called from the code it guards and from the handler of that code. -/
def sharedFinally : CodeAttribute where
  maxStack := 2
  maxLocals := 5
  code := [0x1a, 0x1b, 0x6c, 0x3d, Op.jsr, 0x00, 0x0b, 0x1c, Op.ireturn, 0x4e, Op.jsr, 0x00, 0x05, 0x2d,
    Op.athrow, Op.astore, 0x04, Op.ret, 0x04]
  exceptions := [⟨0, 4, 9, 0⟩]
  attributes := [.lineNumberTable [⟨0, 60⟩, ⟨15, 61⟩]]

/-- Its code is expanded. -/
theorem expand_wellFormed_sharedFinally : ∃ items placed e,
    (sharedFinally.Symbolic items placed ∧ placed.any Item.isSubroutine = true ∧
      Subroutine.expand placed (sharedFinally.ranges items) (sharedFinally.offsetLabels items).size = .ok e) ∧
    ∃ origins groups, Subroutine.WellFormed placed (sharedFinally.ranges items) e origins groups := by
  have hrun : Option.any (fun _ => true) (Except.toOption (do
      let items ← readItems sharedFinally.code
      let placed ← placeMarks (items.map fun x => (x.1, x.2.retarget (sharedFinally.offsetLabels items).of))
        sharedFinally.code.length (sharedFinally.offsetLabels items) (linesByOffset sharedFinally.lineEntries)
      if placed.any Item.isSubroutine then
        Subroutine.expand placed (sharedFinally.ranges items) (sharedFinally.offsetLabels items).size
      else throw (.subroutine 0))) = true := by
    cbv
  obtain ⟨e, hrun, -⟩ := any_toOption.1 hrun
  obtain ⟨items, hitems, hrun⟩ := bind_eq_ok.1 hrun
  obtain ⟨placed, hplaced, hrun⟩ := bind_eq_ok.1 hrun
  split at hrun
  · rename_i hany
    exact ⟨items, placed, e, ⟨⟨hitems, hplaced⟩, hany, hrun⟩, expand_wellFormed ⟨hitems, hplaced⟩ hrun⟩
  · cases hrun

end Interpose
