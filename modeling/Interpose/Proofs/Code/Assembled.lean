import Interpose.Proofs.Code.ListedPaths
import Interpose.Proofs.Execution.Pruned
/-!
# Assembled code

The tables of assembled code name offsets of instructions, or the one behind them all. So the code
can be decoded, and it is read again as what was written (`assemble_rereads`).
-/

namespace Interpose

/-! ## The tables -/

namespace Assemble

variable {b : Body} {e : Encoded} {l : Layout}

/-- The tables name offsets of instructions, or the one behind them all. -/
def NamesPlaces (l : Layout) (insns : List Insn) (attributes : List Attribute) : Prop :=
  ∀ o ∈ attributes.flatMap CodeAttribute.tableOffsets, ∃ i ≤ insns.length, o = l.offsetAt i

/-- The offset of an instruction in the table of the code. -/
theorem offsetAt_of_offsets (hof : e.Of b l) {i o : Nat} (h : e.offsets[i]? = some o) :
    i < l.offsets.length ∧ o = l.offsetAt i := by
  rw [hof.offsets, List.getElem?_toArray] at h
  exact ⟨(List.getElem?_eq_some_iff.1 h).1, by rw [Layout.offsetAt, h]; rfl⟩

theorem offset_le_of_label (hfits : e.Fits b.insns) {label : Label} {o : Nat}
    (h : e.labels[label]? = some o) : o ≤ maxCodeLength := by
  obtain ⟨i, -, hi⟩ := (hfits.labels label o).1 h
  exact hfits.bound i o hi

/-- A variable is in the table with the offsets of its labels: none of them is too long for it. -/
theorem labels_of_localEntry (hfits : e.Fits b.insns) {v : LocalVar} {x : LocalEntry}
    (h : localEntry e v = some x) :
    e.labels[v.start]? = some x.startPc.toNat ∧ e.labels[v.stop]? = some x.endPc := by
  obtain ⟨⟨start, length⟩, hrange, hx⟩ := Option.bind_eq_some_iff.1 h
  obtain ⟨s, hs, hrange⟩ := Option.bind_eq_some_iff.1 hrange
  obtain ⟨t, ht, hrange⟩ := Option.bind_eq_some_iff.1 hrange
  have hshort := offset_le_of_label hfits ht
  unfold maxCodeLength at hshort
  split at hrange
  · cases hrange
    cases hx
    have hstart : (UInt16.ofNat s).toNat = s := by
      rw [UInt16.toNat_ofNat']
      omega
    have hlength : (UInt16.ofNat (t - s)).toNat = t - s := by
      rw [UInt16.toNat_ofNat']
      omega
    rw [LocalEntry.endPc, hstart, hlength, Nat.add_sub_of_le ‹_›]
    exact ⟨hs, ht⟩
  · cases hrange

section Places

variable (hfits : e.Fits b.insns) (hof : e.Of b l)
include hfits hof

theorem place_of_offset {i o : Nat} (h : e.offsets[i]? = some o) :
    ∃ i ≤ b.insns.length, o = l.offsetAt i := by
  obtain ⟨hlt, ho⟩ := offsetAt_of_offsets hof h
  refine ⟨i, Nat.le_of_lt ?_, ho⟩
  have hsize := hfits.size
  rw [hof.offsets] at hsize
  rwa [← hsize]

theorem place_of_label {label : Label} {o : Nat} (h : e.labels[label]? = some o) :
    ∃ i ≤ b.insns.length, o = l.offsetAt i := by
  obtain ⟨i, -, hi⟩ := (hfits.labels label o).1 h
  exact place_of_offset hfits hof hi

theorem places_of_locals {vs : List LocalVar} {o : Nat}
    (ho : o ∈ (vs.filterMap (localEntry e)).flatMap fun x => [x.startPc.toNat, x.endPc]) :
    ∃ i ≤ b.insns.length, o = l.offsetAt i := by
  obtain ⟨x, hx, ho⟩ := List.mem_flatMap.1 ho
  obtain ⟨v, -, hv⟩ := List.mem_filterMap.1 hx
  obtain ⟨hstart, hend⟩ := labels_of_localEntry hfits hv
  simp only [List.mem_cons, List.not_mem_nil, or_false] at ho
  rcases ho with rfl | rfl
  · exact place_of_label hfits hof hstart
  · exact place_of_label hfits hof hend

theorem places_of_frames {a : Analysis} {q : Pool} {frames : List (Nat × StackMapFrame)}
    (h : StackMap.Stands q a e frames) {o : Nat} (ho : o ∈ frames.map (·.1)) :
    ∃ i ≤ b.insns.length, o = l.offsetAt i := by
  obtain ⟨x, hx, rfl⟩ := List.mem_map.1 ho
  obtain ⟨i, -, hi, -⟩ := h.of_mem hx
  exact place_of_offset hfits hof hi

end Places

end Assemble

section Assembles

variable {body : Body} {context : MethodContext} {h : Hierarchy} {major : UInt16} {pool q : Pool}
  {c : CodeAttribute} {b : Body} {a : Analysis} {e : Encoded} {frames : List StackMapFrame} {l : Layout}

theorem Assembles.namesPlaces (hc : Assembles body context h major pool q c b a e frames)
    (hof : e.Of b l) : Assemble.NamesPlaces l b.insns c.attributes := by
  have hfits := encode_fits hc.encoded
  intro o ho
  rw [hc.attributes] at ho
  obtain ⟨x, hx, ho⟩ := List.mem_flatMap.1 ho
  rcases Assemble.mem_tablesOf hx with rfl | rfl | rfl | rfl
  · cases ho
  · exact Assemble.places_of_locals hfits hof ho
  · exact Assemble.places_of_locals hfits hof ho
  · by_cases hmajor : stackMapVersion ≤ major
    · exact Assemble.places_of_frames hfits hof (hc.stands hmajor) ho
    · cases hc.framed with
      | mapped hnew => exact absurd hnew hmajor
      | none _ => cases ho

end Assembles

/-! ## Decoding assembled code -/

/-- What is left of a body without its dead code are instructions of it. -/
theorem Assemble.mem_of_live {body b : Body} {context : MethodContext} {pool : Pool} {h : Hierarchy}
    {a : Analysis} (hlive : live body context pool h = .ok (b, a)) {insn : Insn} (hinsn : insn ∈ b.insns) :
    insn ∈ body.insns := by
  obtain ⟨m, old, -, hpruned, -⟩ := Analysis.pruned_live hlive
  obtain ⟨k, hk⟩ := List.mem_iff_getElem?.1 hinsn
  rw [← hpruned.thinned.insn k (List.getElem?_eq_some_iff.1 hk).1] at hk
  exact List.mem_of_getElem? hk

/-- Assembled code is read again as what control reaches of the body. -/
theorem assemble_rereads {body : Body} {context : MethodContext} {h : Hierarchy} {major : UInt16}
    {pool q : Pool} (hp : pool.Sound) {c : CodeAttribute}
    (hc : (assemble body context h major).run.run pool = (.ok c, q))
    (hstd : ∀ insn ∈ body.insns, insn.Standard) :
    ∃ b a split b', Assemble.live body context pool h = .ok (b, a) ∧ c.Straight ∧ decode c = .ok b' ∧
      Rereads split b b' := by
  obtain ⟨b, a, e, frames, hc⟩ := assembles_of_assemble hp hc
  have hstd' : ∀ insn ∈ b.insns, insn.Standard := fun insn hinsn =>
    hstd insn (Assemble.mem_of_live hc.live hinsn)
  obtain ⟨l, hof, hcarries⟩ :=
    carries_of_encode hc.encoded hstd' hc.code hc.exceptions hc.lineEntries
  obtain ⟨b', hb'⟩ := hcarries.decodes (hc.namesPlaces hof)
  have hdecoded := hcarries.decoded hb'
  have hsteps := hcarries.steps_eq hdecoded hof.splits_eq
  have hranges := hcarries.ranges_eq hdecoded hof.splits_eq
  refine ⟨b, a, e.splits, b', hc.live, hcarries.straight, hb', hcarries.closed_decoded hdecoded, ?_,
    congrArg₂ Listing.mk hsteps hranges⟩
  intro j insn hj hs
  rw [Nat.zero_add] at hs
  obtain ⟨op, target, hjump, -, opposite, hopposite⟩ := hof.jump_of_splits hcarries hs
  rw [hj, Option.some.injEq] at hjump
  exact ⟨op, target, hjump, by rw [hopposite]; exact Option.some_ne_none _⟩

end Interpose
