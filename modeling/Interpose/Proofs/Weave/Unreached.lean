import Interpose.Proofs.Code.Unreached
import Interpose.Proofs.Weave.Lockstep
import Interpose.Proofs.Weave.Round
/-!
# Unreached instructions in woven methods

Control comes to the copy of an instruction in woven code only if it reaches the instruction in the method.
So where two methods differ in instructions that control does not reach, and nothing is woven around
these, the bodies that are woven from them differ only where control does not reach either
(`matchesLive_woven`), and the same code is left of both.

Result:
* `method_unreached`: the two methods are woven to the same code, or weaving fails for both.
-/

namespace Interpose

/-- Two bodies that differ only where control reaches neither differ only where it does not reach the other
one. -/
theorem Body.MatchesLive.symm {b b' : Body} {a a' : Analysis} {context : MethodContext} {p : Pool} {h : Hierarchy}
    (hb : b'.MatchesLive b a) (ha : analyze b context p h = .ok a) (hframes : a'.frames = a.frames) :
    b.MatchesLive b' a' := by
  refine ⟨by rw [hb.rest], hb.pseudo.symm, fun i insn' hi hlive => ?_, fun insn hinsn l hl =>
    Analysis.placed_of_analyze ha hinsn hl⟩
  obtain ⟨insn, hat, hpseudo, hsame⟩ := hb.insn_of hi
  rw [Analysis.frame, hframes, ← Analysis.frame] at hlive
  rw [hsame (hpseudo ▸ hlive)]
  exact hat

namespace Weave

open WeaveSite

/-! ## The entry point -/

/-- The search for the call of another constructor does not look at other instructions. -/
theorem constructorCall_swaps {s : WeaveSite} (hs : s.context.startsUninitialized = true) {pool : Pool}
    {frames : Array (Option Frame)} {xs xs' : List Insn} (h : List.Forall₂ (Insn.Swaps s) xs xs') (i : Nat) :
    constructorCall pool frames i xs = constructorCall pool frames i xs' := by
  have hother {x : Insn} (hx : ∀ index, x ≠ .method Op.invokespecial index) (rest : List Insn) (i : Nat) :
      constructorCall pool frames i (x :: rest) = constructorCall pool frames (i + 1) rest := by
    rw [constructorCall]
    exact hx
  have hbare {x : Insn} (hx : x.Bare s) (index : UInt16) : x ≠ .method Op.invokespecial index :=
    fun h => Bool.noConfusion (hs.symm.trans (hx.special index h))
  induction h generalizing i with
  | nil => rfl
  | @cons x x' xs xs' hx _ ih =>
    rcases hx with rfl | ⟨hx, hx'⟩
    · by_cases hcall : ∃ index, x = .method Op.invokespecial index
      · obtain ⟨index, rfl⟩ := hcall
        refine (constructorCall.eq_2 ..).trans (Eq.trans ?_ (constructorCall.eq_2 ..).symm)
        simp only [ih]
      · rw [hother (not_exists.1 hcall), hother (not_exists.1 hcall), ih]
    · rw [hother (hbare hx), hother (hbare hx'), ih]

/-- The entry point is the same. -/
theorem entryPoint_unreached {plan : WeavePlan} {given given' : Body} {context : MethodContext} {p : Pool}
    {h : Hierarchy} {a : Analysis} (ha : analyze given context p h = .ok a) (hlive : given'.MatchesLive given a)
    (hinsns : List.Forall₂ (Insn.Swaps ⟨plan, context⟩) given.insns given'.insns) :
    entryPoint given' context p h = entryPoint given context p h := by
  obtain ⟨a', ha', hframes, -, -⟩ := hlive.analyzed ha
  unfold entryPoint
  by_cases hs : context.startsUninitialized = true
  · rw [if_pos hs, if_pos hs, ha, ha']
    simp only [bind, Except.bind, hframes, constructorCall_swaps (s := ⟨plan, context⟩) hs hinsns]
  · rw [if_neg hs, if_neg hs]

/-! ## Woven bodies -/

section Woven

variable {s : WeaveSite} {given given' woven woven' : Body} {entry : Nat} {w w' : Parts} {a aw : Analysis}
  {context : MethodContext} {p r : Pool} {h : Hierarchy}

/-- Woven bodies differ only where control does not reach if that is so of the bodies that they are woven
from. -/
theorem matchesLive_woven (hw : WovenFrom s r given entry w woven) (hw' : WovenFrom s r given' entry w' woven')
    (hne : w.segments ≠ []) (hne' : w'.segments ≠ []) (htidy : given.Tidy) (htidy' : given'.Tidy)
    (henters : Enters given entry)
    (hbefore : ∀ i insn, entry = i + 1 → given.insns[i]? = some insn → insn.isPseudo = false)
    (ha : analyze given context p h = .ok a) (hlive : given'.MatchesLive given a)
    (haw : analyze woven context r h = .ok aw) (hrest : woven' = { woven with insns := woven'.insns })
    (hparallel : Parallel w (given.insns.take entry) (given.insns.drop entry) (given'.insns.take entry)
      (given'.insns.drop entry) woven.insns woven'.insns) : woven'.MatchesLive woven aw := by
  have hlength := hparallel.length_eq hlive.length
  have hcopies {k : Nat} {z z' : Insn} (hz : woven.insns[k]? = some z) (hz' : woven'.insns[k]? = some z') :
      z = z' ∨ ∃ i, w.InPiece i k ∧ given.insns[i]? = some z ∧ given'.insns[i]? = some z' :=
    hparallel.inPiece hlive.length hw.rebuilt.prologue hz hz'
  have hinsn (k : Nat) (z : Insn) (hz : woven.insns[k]? = some z)
      (hreached : z.isPseudo = true ∨ ∃ f, aw.frame k = some f) : woven'.insns[k]? = some z := by
    have hk := (List.getElem?_eq_some_iff.1 hz).1
    have hz' := List.getElem?_eq_getElem (hlength.symm ▸ hk)
    rcases hcopies hz hz' with rfl | ⟨i, hin, hi, hi'⟩
    · exact hz'
    · -- control comes to the copy only if it reaches the instruction
      rw [hz', ← hi']
      refine hlive.insn i z hi (hreached.imp_right fun hframe => ?_)
      have hthere := (Analysis.analyze_frame_iff haw).1 hframe
      exact (Analysis.analyze_frame_iff ha).2 (hw.reached_of_piece hne htidy henters hbefore hthere hin)
  have hpseudo {k : Nat} {z z' : Insn} (hz : woven.insns[k]? = some z) (hz' : woven'.insns[k]? = some z') :
      z'.isPseudo = z.isPseudo := by
    rcases hcopies hz hz' with rfl | ⟨i, -, hi, hi'⟩
    · rfl
    · obtain ⟨x, hx, hsame, -⟩ := hlive.insn_of hi'
      rwa [← Option.some.inj (hi.symm.trans hx)] at hsame
  have hplace {l : Label} {k : Nat} (hk : LastPlace woven.insns l k) : LastPlace woven'.insns l k := by
    refine ⟨hinsn k _ hk.1 (.inl rfl), fun j hj hlabel => hk.2 j hj ?_⟩
    have hlt := (List.getElem?_eq_some_iff.1 hlabel).1
    have hz := List.getElem?_eq_getElem (hlength ▸ hlt)
    have hthere := hinsn j _ hz (.inl (hpseudo hz hlabel).symm)
    rw [hz, ← hthere, hlabel]
  refine ⟨hrest, ?_, hinsn, fun z' hz' l hl => ?_⟩
  · refine List.ext_getElem (by rw [List.length_map, List.length_map, hlength]) fun k hk hk' => ?_
    rw [List.length_map] at hk hk'
    rw [List.getElem_map, List.getElem_map]
    exact hpseudo (List.getElem?_eq_getElem hk') (List.getElem?_eq_getElem hk)
  · obtain ⟨k, hk⟩ := List.mem_iff_getElem?.1 hz'
    have hlt := (List.getElem?_eq_some_iff.1 hk).1
    have hz := List.getElem?_eq_getElem (hlength ▸ hlt)
    rcases hcopies hz hk with rfl | ⟨i, -, -, hi'⟩
    · obtain ⟨j, hj⟩ := Analysis.placed_of_analyze haw (List.mem_of_getElem? hz) hl
      exact ⟨j, hplace hj⟩
    · obtain ⟨j, hj⟩ := htidy'.closed.1 z' (List.mem_of_getElem? hi') l ((Insn.mem_targets_iff _).1 hl)
      exact ⟨_, hw'.lastPlace_spot hne' htidy'.labels hj⟩

end Woven

/-! ## Methods -/

section Methods

variable {plan : WeavePlan} {context : MethodContext} {h : Hierarchy} {major : UInt16} {code code' : CodeAttribute}
  {given given' : Body} {a : Analysis} {p q : Pool} {c : CodeAttribute}

/-- A method that is woven is woven alike with other instructions where control does not reach, if nothing
is woven around them. -/
theorem method_of_unreached (hp : p.Sound) (hstraight : code.Straight) (hstraight' : code'.Straight)
    (hgiven : decode code = .ok given) (hgiven' : decode code' = .ok given')
    (ha : analyze given context p h = .ok a) (hlive : given'.MatchesLive given a)
    (hinsns : List.Forall₂ (Insn.Swaps ⟨plan, context⟩) given.insns given'.insns)
    (hc : (method plan context h major code).run.run p = (.ok c, q)) :
    (method plan context h major code').run.run p = (.ok c, q) := by
  obtain ⟨_, entry, woven, r, hdecode, hentry, hwoven, hassemble⟩ := method_steps hc
  cases hgiven.symm.trans hdecode
  obtain ⟨hgrows, w, hw⟩ := body_grows hp hwoven
  obtain ⟨woven', hwoven', hrest, hparallel⟩ := body_lockstep hlive.rest hinsns hw hwoven
  obtain ⟨-, w', hw'⟩ := body_grows hp hwoven'
  obtain ⟨kept, _, _, haws, -⟩ := assemble_eq_ok hgrows.sound hassemble
  obtain ⟨aw, haw, -⟩ := bind_eq_ok.1 haws
  obtain ⟨m, -, hm, -⟩ := Analysis.analyze_eq_ok haw
  have htidy := decode_tidy hstraight hgiven
  have htidy' := decode_tidy hstraight' hgiven'
  have henters := enters_of_entryPoint hentry
  have hne := hw.segments_ne htidy.labels hm haw henters
  have hlt : entry < given.insns.length := by
    have hlength := hw.rebuilt.segments.length_eq
    rw [List.length_drop] at hlength
    have := List.length_pos_iff.2 hne
    omega
  have hne' := hw'.segments_ne_of_lt (hlive.length ▸ hlt)
  have hbefore (i : Nat) (insn : Insn) (hi : entry = i + 1) (hinsn : given.insns[i]? = some insn) :
      insn.isPseudo = false := by
    obtain ⟨op, index, hcall⟩ := call_of_entryPoint hentry hi
    cases hcall.symm.trans hinsn
    rfl
  have hmatches := matchesLive_woven hw hw' hne hne' htidy htidy' henters hbefore ha hlive haw hrest hparallel
  have hassemble' : (assemble woven' context h major).run.run r = (.ok c, q) := by
    rw [← hassemble]
    unfold assemble
    rw [run_bind, run_bind]
    exact congrArg (fun x => (Assembly.ofExcept x >>= _).run.run r) (hmatches.live haw)
  have hentry' := entryPoint_unreached ha hlive hinsns
  unfold method
  refine run_bind_eq_ok.2 ⟨given', p, by rw [hgiven']; rfl, run_bind_eq_ok.2 ⟨p, p, rfl, ?_⟩⟩
  refine run_bind_eq_ok.2 ⟨entry, p, by rw [hentry', hentry]; rfl, run_bind_eq_ok.2 ⟨woven', r, ?_, hassemble'⟩⟩
  exact adapt_eq_ok.2 hwoven'

/-- Two methods that differ in instructions that control does not reach, and around which nothing is
woven, are woven to the same code, or weaving fails for both. -/
theorem method_unreached (hp : p.Sound) (hstraight : code.Straight) (hstraight' : code'.Straight)
    (hgiven : decode code = .ok given) (hgiven' : decode code' = .ok given')
    (ha : analyze given context p h = .ok a) (hlive : given'.MatchesLive given a)
    (hinsns : List.Forall₂ (Insn.Swaps ⟨plan, context⟩) given.insns given'.insns) :
    (method plan context h major code').run.run p = (.ok c, q) ↔
      (method plan context h major code).run.run p = (.ok c, q) := by
  obtain ⟨a', ha', hframes, -, -⟩ := hlive.analyzed ha
  have hinsns' : List.Forall₂ (Insn.Swaps ⟨plan, context⟩) given'.insns given.insns :=
    hinsns.flip.imp fun _ _ hx => Insn.Swaps.symm hx
  exact ⟨method_of_unreached hp hstraight' hstraight hgiven' hgiven ha' (hlive.symm ha hframes) hinsns',
    method_of_unreached hp hstraight hstraight' hgiven hgiven' ha hlive hinsns⟩

end Methods

end Weave

end Interpose
