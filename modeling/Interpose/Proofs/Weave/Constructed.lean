import Interpose.Proofs.Code.Expanded
import Interpose.Proofs.Weave.Entrance
/-!
# Reports in constructors

Where nothing holds the object under construction on some path to an instruction, nothing holds it on some
path to each place of the reports around the instruction: a report only works above the stack of the method,
and control comes to all of it. That is always so of the report of the start and of the handler of the
method, which control comes to from the call in front of the entry point.

Result:
* `method_reports_constructed`: in a woven constructor a frame of a report holds the object under
  construction only if every path of the method to the instruction that is reported holds it.
-/

namespace Interpose

def Frame.HoldsThis (f : Frame) : Prop :=
  .uninitializedThis ∈ f.locals ∨ .uninitializedThis ∈ f.stack

/-- What a frame holds is held on every path. -/
theorem Held.Free.not_holdsThis {w : Held} {f : Frame} (hw : w.Free) (h : w.Agrees f) : ¬ f.HoldsThis := by
  rintro (hmem | hmem)
  · obtain ⟨n, hn⟩ := List.mem_iff_getElem?.1 hmem
    rcases h.locals n _ hn with htop | hthis
    · cases htop
    · rw [hw.locals n] at hthis
      cases hthis
  · have hstack := hw.stack _ (h.stack ▸ List.mem_map_of_mem hmem)
    cases hstack

/-- On some path to the place nothing holds the object under construction. -/
def Body.Constructed (b : Body) (q : Pool) (context : MethodContext) (n : Nat) : Prop :=
  ∃ o, Comes q b (0, .initial context) (n, o) ∧ o.Free

namespace Body.Constructed

variable {b : Body} {p q : Pool} {context : MethodContext} {h : Hierarchy} {a : Analysis} {n : Nat}

theorem conveys (b : Body) (q : Pool) (context : MethodContext) : b.Conveys (b.Constructed q context) := by
  rintro i j ⟨o, hcomes, hfree⟩ hleads
  obtain ⟨o', hflows⟩ := hleads.flows q o
  exact ⟨o', hcomes.tail hflows, hfree.comes (.single hflows)⟩

theorem not_holdsThis (hn : b.Constructed q context n) (ha : analyze b context p h = .ok a) (hpq : p.Within q)
    {f : Frame} (hf : a.frame n = some f) : ¬ f.HoldsThis := by
  obtain ⟨o, hcomes, hfree⟩ := hn
  obtain ⟨m, -, hm, -⟩ := Analysis.analyze_eq_ok ha
  obtain ⟨f', hf', hagrees⟩ := comes_agrees hm ha hpq hcomes
  cases hf.symm.trans hf'
  exact hfree.not_holdsThis hagrees

end Body.Constructed

namespace Weave

open WeaveSite Template

namespace WovenFrom

variable {s : WeaveSite} {p q : Pool} {given woven : Body} {entry : Nat} {w : Parts} {context : MethodContext}
  {h : Hierarchy}

section Reports

variable (hw : WovenFrom s q given entry w woven) (hne : w.segments ≠ []) (hlabels : LabelsBelow given)
  (hstart : context.startsUninitialized = true) (hpq : p.Within q)
  (hentry : entryPoint given context p h = .ok entry)
include hw hne hlabels hstart hpq hentry

/-- On a path to the door of an instruction nothing holds the object if nothing does on one to the
instruction. -/
theorem constructed_door {i : Nat} (hi : given.Constructed q context i) :
    woven.Constructed q context (w.door i) := by
  obtain ⟨o, hcomes, hnone⟩ := hi
  have hpos : 0 < entry := by
    obtain ⟨i, rfl, -⟩ := entryPoint_constructs hstart hpq hentry
    exact Nat.succ_pos i
  obtain ⟨o', hthere, hsame⟩ := hw.comes_door hne hlabels hpos
    (fun _ _ _ => free_of_entryPoint hpq hentry hstart) hcomes
  exact ⟨o', hthere, hsame.free hnone⟩

/-- The object is constructed where the code up to the entry point ends. -/
theorem constructed_prologue : woven.Constructed q context w.prologue.length := by
  obtain ⟨i, hi, ⟨index, n, o, hinsn, -, hcomes, -⟩, -⟩ := entryPoint_constructs hstart hpq hentry
  have hfree := free_of_entryPoint hpq hentry hstart hi hinsn hcomes
  have hlength := hw.length_prologue hne
  obtain ⟨o', hthere, hsame⟩ := hw.comes_door hne hlabels (by omega)
    (fun _ _ _ => free_of_entryPoint hpq hentry hstart) hcomes
  refine ⟨_, hlength.trans hi ▸ ?_, (hsame.after q _).free hfree⟩
  have hbehind := hthere.trans (hw.lifts_next hne hlabels hinsn rfl o')
  rwa [Parts.edge_of_le (by omega)] at hbehind

theorem constructed_edge {i : Nat} (hi : given.Constructed q context i) :
    woven.Constructed q context (w.edge i) := by
  by_cases hfirst : i = w.prologue.length
  · rw [hfirst, Parts.edge_prologue]
    exact hw.constructed_prologue hne hlabels hstart hpq hentry
  · have hdoor := hw.constructed_door hne hlabels hstart hpq hentry hi
    rwa [Parts.door, if_neg hfirst] at hdoor

/-- What is constructed at an instruction is constructed in all of the reports around it. -/
theorem constructed_piece (hstandard : ∀ insn ∈ given.insns, insn.Standard) {i k : Nat}
    (hi : given.Constructed q context i) (hk : w.InPiece i k) : woven.Constructed q context k := by
  have hconveys := Body.Constructed.conveys woven q context
  obtain ⟨g, hg⟩ := hw.piece_of_lt (hw.pieces_length ▸ hk.lt)
  obtain ⟨hatFront, hatBack⟩ := hw.has_around hne hlabels hg
  have hedge := hw.constructed_edge hne hlabels hstart hpq hentry hi
  have hspot := (hw.watched hlabels).conveyed_through hconveys (hw.piece_surrounded hg).front hatFront hedge
  rw [← Parts.spot_eq hg] at hspot
  obtain ⟨hfront, hback⟩ := hw.piece_visits hne hlabels hconveys hg hspot
  have hspotEq := Parts.spot_eq hg
  have hnext := Parts.edge_next hg
  rcases Nat.lt_trichotomy k (w.spot i) with hbefore | rfl | hbehind
  · obtain ⟨n, rfl⟩ := Nat.exists_eq_add_of_le hk.1
    exact hfront hconveys _ hatFront hedge n (by omega)
  · exact hspot
  · have hon := hw.piece_onward hg hstandard (by
      intro hnil
      rw [hnil, List.length_nil, Nat.add_zero] at hnext
      exact absurd hk.2 (Nat.not_lt_of_le (hnext ▸ hbehind)))
    have hfirst : woven.Constructed q context (w.spot i + 1) :=
      hconveys _ _ hspot (.next (hw.insn_at_spot hne (hw.insn_of_piece hg)) hon rfl)
    obtain ⟨n, rfl⟩ := Nat.exists_eq_add_of_le (Nat.succ_le_of_lt hbehind)
    exact hback hconveys _ hatBack hfirst n (by have := hk.2; omega)

omit hw hne hlabels in
/-- On the path behind the call of another constructor the object is constructed at the entry point. -/
theorem constructed_entry : given.Constructed q context entry := by
  obtain ⟨i, hi, ⟨index, n, o, hinsn, -, hcomes, -⟩, -⟩ := entryPoint_constructs hstart hpq hentry
  exact ⟨_, hi ▸ hcomes.tail (.next hinsn rfl), free_of_entryPoint hpq hentry hstart hi hinsn hcomes⟩

/-- The report of the start stands where the object is constructed. -/
theorem constructed_entrance : woven.Constructed q context w.entrance :=
  (hw.watched hlabels).conveyed_through (Body.Constructed.conveys woven q context) hw.through_before
    (hw.has_rest hlabels).append_left (hw.constructed_prologue hne hlabels hstart hpq hentry)

/-- What is woven stands where the object is constructed, or around an instruction that no path comes to with
the object constructed. -/
theorem constructed_or (hstandard : ∀ insn ∈ given.insns, insn.Standard) {a : Analysis}
    (ha : analyze woven context q h = .ok a) {n : Nat} {insn : Insn} (hn : woven.insns[n]? = some insn)
    (hreal : insn.isPseudo = false) (hwoven : ∀ i, n ≠ w.spot i) : woven.Constructed q context n ∨
      ∃ i, entry < i ∧ w.InPiece i n ∧ ¬ given.Constructed q context i := by
  obtain ⟨t, ht, hsettles⟩ := hw.code_of_insn hn
  rcases Parts.place_cases hne ht with ⟨i, g, hg, hin, hwhere⟩ | ⟨hend, -⟩
  · by_cases hi : given.Constructed q context i
    · exact .inl (hw.constructed_piece hne hlabels hstart hpq hentry hstandard hi hin)
    refine .inr ⟨i, Nat.lt_of_le_of_ne ?_ ?_, hin, hi⟩
    · -- nothing is woven in front of the entry point
      obtain ⟨-, ⟨-, he⟩ | ⟨hle, -⟩⟩ := hw.piece_cases hg
      · rw [he] at hwhere
        rcases hwhere with ⟨-, hmem⟩ | ⟨hcopy, -⟩ | ⟨-, hmem⟩
        · cases hmem
        · exact absurd hcopy (hwoven i)
        · cases hmem
      · rwa [hw.length_prologue hne] at hle
    · rintro rfl
      exact hi (constructed_entry hstart hpq hentry)
  · refine .inl ?_
    obtain ⟨m, -, hm, -⟩ := Analysis.analyze_eq_ok ha
    rw [Parts.edge_pieces hne] at hend
    have hexit : n ≠ w.exit := by
      rintro rfl
      rw [((hw.own_places hlabels).2).1] at hn
      cases hn
      cases hreal
    obtain ⟨j, rfl⟩ := Nat.exists_eq_add_of_lt (Nat.lt_of_le_of_ne hend (Ne.symm hexit))
    rw [Nat.add_right_comm] at ht ⊢
    refine hw.conveyed_own hlabels (Body.Constructed.conveys woven q context) (Analysis.of_ofBody hm)
      (hw.constructed_entrance hne hlabels hstart hpq hentry) ?_
    have hlt := (List.getElem?_eq_some_iff.1 ht).1
    rw [Parts.length_code] at hlt
    omega

end Reports

end WovenFrom

/-! ## Woven constructors -/

/-- In a woven constructor, a frame of what is woven holds the object under construction only around an
instruction behind the entry point that no path of the constructor comes to with the object constructed. So
neither the report of the start nor the handler of the method ever holds it. -/
theorem method_reports_constructed {plan : WeavePlan} {context : MethodContext} {h : Hierarchy}
    {major : UInt16} {code c : CodeAttribute} {p q : Pool} (hp : p.Sound)
    (hstart : context.startsUninitialized = true)
    (hc : (method plan context h major code).run.run p = (.ok c, q)) :
    ∃ given entry woven w r a, decode code = .ok given ∧ entryPoint given context p h = .ok entry ∧
      WovenFrom ⟨plan, context⟩ r given entry w woven ∧
      (assemble woven context h major).run.run r = (.ok c, q) ∧ analyze woven context r h = .ok a ∧
      ∀ n insn f, woven.insns[n]? = some insn → insn.isPseudo = false → (∀ i, n ≠ w.spot i) →
        a.frame n = some f → f.HoldsThis →
        ∃ i, entry < i ∧ w.InPiece i n ∧ ¬ given.Constructed r context i := by
  obtain ⟨given, entry, woven, r, hgiven, hentry, hwoven, hassemble⟩ := method_steps hc
  obtain ⟨hgrows, w, hw⟩ := body_grows hp hwoven
  obtain ⟨b, a', e, hlive, -⟩ := assemble_eq_ok hgrows.sound hassemble
  obtain ⟨a, ha, -⟩ := bind_eq_ok.1 hlive
  obtain ⟨m, -, hm, -⟩ := Analysis.analyze_eq_ok ha
  have hlabels := decode_below hgiven
  have hne := hw.segments_ne hlabels hm ha (enters_of_entryPoint hentry)
  refine ⟨given, entry, woven, w, r, a, hgiven, hentry, hw, hassemble, ha,
    fun n insn f hn hreal hcopies hf hholds => ?_⟩
  refine (hw.constructed_or hne hlabels hstart hgrows.within hentry (decode_standard hgiven) ha hn hreal
    hcopies).resolve_left fun hconstructed => ?_
  exact hconstructed.not_holdsThis ha (.refl r) hf hholds

/-! ### A constructor with two calls -/

def objectPool : Pool :=
  .ofSlots [some (.utf8 "java/lang/Object"), some (.classRef 1), some (.utf8 "<init>"),
    some (.utf8 "()V"), some (.nameAndType 3 4), some (.methodRef 2 5)]

/-- A constructor that calls another one on each of two branches, the second one of them in a line of its
own. -/
def branchingConstructor : CodeAttribute where
  maxStack := 1
  maxLocals := 2
  code := [0x1b, 0x99, 0x00, 0x08, 0x2a, 0xb7, 0x00, 0x06, 0xb1, 0x2a, 0xb7, 0x00, 0x06, 0xb1]
  exceptions := []
  attributes := [.lineNumberTable [⟨9, 20⟩]]

def ofOneNumber : MethodContext :=
  ⟨"demo/Sample", 0, constructorName, ⟨[.int], .void⟩⟩

/-- The constructor is woven, though the line of its second branch is reported in front of the call there. -/
theorem method_reports_constructed_branching : ∃ c q, objectPool.Sound ∧
    ofOneNumber.startsUninitialized = true ∧
    (method lineReports ofOneNumber .flat 49 branchingConstructor).run.run objectPool = (.ok c, q) ∧
    ∃ given entry woven w r a, decode branchingConstructor = .ok given ∧
      entryPoint given ofOneNumber objectPool .flat = .ok entry ∧
      WovenFrom ⟨lineReports, ofOneNumber⟩ r given entry w woven ∧
      (assemble woven ofOneNumber .flat 49).run.run r = (.ok c, q) ∧
      analyze woven ofOneNumber r .flat = .ok a ∧
      ∀ n insn f, woven.insns[n]? = some insn → insn.isPseudo = false → (∀ i, n ≠ w.spot i) →
        a.frame n = some f → f.HoldsThis →
        ∃ i, entry < i ∧ w.InPiece i n ∧ ¬ given.Constructed r ofOneNumber i := by
  have hwoven : ((method lineReports ofOneNumber .flat 49 branchingConstructor).run.run
      objectPool).1.toOption.any (fun _ => true) = true := by decide +kernel
  obtain ⟨c, hc, -⟩ := any_toOption.1 hwoven
  generalize hrun : (method lineReports ofOneNumber .flat 49 branchingConstructor).run.run objectPool =
    result at hc
  obtain ⟨outcome, q⟩ := result
  obtain rfl : outcome = .ok c := hc
  have hsound : objectPool.Sound := Pool.ofSlots_sound (by decide)
  have hstart : ofOneNumber.startsUninitialized = true := by decide
  exact ⟨c, q, hsound, hstart, rfl, method_reports_constructed hsound hstart hrun⟩

end Weave

end Interpose
