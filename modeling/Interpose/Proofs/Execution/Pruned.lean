import Mathlib.Data.List.Find
import Interpose.Proofs.Code.DeadCode
import Interpose.Proofs.Execution.Platform
import Interpose.Proofs.Inference.Flow
/-!
# Running code without its dead code

A run keeps to the instructions that control can reach (`leads_of_step`), so it is the same run, with
other numbers, when the others are left out (`Pruned.run_eq`).
-/

namespace Interpose

namespace Platform

variable {P : Platform} {pool : Pool}

/-! ## Where instructions go -/

theorem mem_targets_of_jump {insn : Insn} {s t : P.Store} {l : Label}
    (h : P.act pool insn s = .jump l t) : l ∈ insn.targets := by
  have carried : P.carryOut pool insn s ≠ .jump l t := by
    intro h
    unfold carryOut at h
    split at h
    · cases h
    · split at h <;> cases h
  cases insn with
  | label _ | line _ => cases h
  | simple op =>
    exfalso
    unfold act simple at h
    simp only at h
    split at h
    · split at h <;> cases h
    split at h
    · split at h
      · split at h <;> cases h
      · split at h <;> cases h
    split at h
    · split at h <;> cases h
    split at h
    · cases h
    split at h
    · cases h
    exact carried h
  | int op n =>
    exfalso
    unfold act at h
    simp only at h
    split at h
    · exact carried h
    · cases h
  | var op slot =>
    unfold act at h
    simp only at h
    split at h
    · cases h
    · split at h <;> cases h
  | iinc slot delta =>
    unfold act at h
    simp only at h
    split at h <;> cases h
  | ldc index =>
    exfalso
    unfold act at h
    simp only at h
    split at h
    · cases h
    · exact carried h
  | jump op target =>
    unfold act at h
    simp only at h
    split at h
    · cases h
      exact List.mem_singleton_self _
    · cases h
    · cases h
  | tableSwitch fallback low targets =>
    unfold act at h
    simp only at h
    split at h
    · cases h
      unfold tableTarget Insn.targets
      simp only [List.mem_append, List.mem_singleton]
      split
      · rw [List.getD_eq_getElem?_getD]
        cases hx : targets[(Int32.toInt _ - low.toInt).toNat]? with
        | none => exact .inr rfl
        | some l => exact .inl (List.mem_of_getElem? hx)
      · exact .inr rfl
    · cases h
  | lookupSwitch fallback pairs =>
    unfold act at h
    simp only at h
    split at h
    · cases h
      unfold lookupTarget Insn.targets
      simp only [List.mem_append, List.mem_singleton]
      cases hx : pairs.find? _ with
      | none => exact .inr rfl
      | some x => exact .inl (List.mem_map_of_mem (List.mem_of_find?_eq_some hx))
    · cases h
  | _ => exact absurd h carried

/-- Marks throw nothing. -/
theorem real_of_throw {insn : Insn} {s : P.Store} {w : P.World} {o : P.Object}
    (h : P.act pool insn s = .throw w o) : insn.isPseudo = false := by
  cases insn with
  | label _ | line _ => cases h
  | _ => rfl

/-- What it takes for an exception to be handled. -/
theorem raise_running {b : Body} {i j : Nat} {s u : P.Store} {w : P.World} {o : P.Object}
    (h : P.raise pool b i s w o = .running j u) : ∃ t ∈ b.tryCatch,
      t.Covers b.insns i ∧ LastPlace b.insns t.handler j := by
  unfold raise at h
  simp only at h
  split at h
  · cases h
  · rename_i t hfind
    split at h
    · rename_i hj
      cases h
      have hcatches := List.find?_some hfind
      exact ⟨t, List.mem_of_find?_eq_some hfind, (catches_eq_true.1 hcatches).1,
        labelPositions_eq_some.1 hj⟩
    · cases h

/-- A run goes where control can go. -/
theorem leads_of_step {b : Body} {i j : Nat} {s t : P.Store} (hstep : P.step pool b i s = .running j t) :
    b.Leads i j := by
  unfold step at hstep
  cases hi : b.insns[i]? with
  | none =>
    rw [hi] at hstep
    cases hstep
  | some insn =>
    simp only [hi] at hstep
    cases hact : P.act pool insn s with
    | next u =>
      simp only [hact] at hstep
      split at hstep
      · cases hstep
      · rename_i hon
        cases hstep
        exact .next hi (Bool.not_eq_true _ ▸ hon) rfl
    | jump l u =>
      simp only [hact] at hstep
      split at hstep
      · rename_i hj
        cases hstep
        exact .jump hi (mem_targets_of_jump hact) (labelPositions_eq_some.1 hj)
      · cases hstep
    | throw w o =>
      simp only [hact] at hstep
      obtain ⟨t, ht, hcovers, hj⟩ := raise_running hstep
      exact .thrown hi (real_of_throw hact) ht hcovers hj
    | leave value w =>
      simp only [hact] at hstep
      cases hstep
    | stuck =>
      simp only [hact] at hstep
      cases hstep

/-- What control carries from place to place holds wherever a run comes. -/
theorem run_conveys {b : Body} {R : Nat → Prop} (hR : b.Conveys R) (n : Nat) {i : Nat} (s : P.Store)
    (hi : R i) : ∀ e ∈ (P.run pool b n (.running i s)).1, R e.1 := by
  induction n generalizing i s with
  | zero => exact fun _ he => nomatch he
  | succ n ih =>
    rw [run_running]
    refine List.forall_mem_cons.2 ⟨hi, ?_⟩
    cases hstep : P.step pool b i s with
    | running j t => exact ih t (hR _ _ hi (leads_of_step hstep))
    | returned value w =>
      rw [run_returned]
      exact fun _ he => nomatch he
    | thrown o w =>
      rw [run_thrown]
      exact fun _ he => nomatch he
    | stuck =>
      rw [run_stuck]
      exact fun _ he => nomatch he

def Status.renumber (f : Nat → Nat) : P.Status → P.Status
  | .running i s => .running (f i) s
  | .returned value w => .returned value w
  | .thrown o w => .thrown o w
  | .stuck => .stuck

def Status.Within (n : Nat) : P.Status → Prop
  | .running i _ => i < n
  | _ => True

end Platform

/-! ## Leaving out what is not reached -/

/-- A body is another one without instructions that control does not reach, and without protected
ranges that would hold nothing else. -/
structure Pruned (m : Analysis.Method) (all kept : Body) (old : Nat → Nat) : Prop where
  thinned : Thinned all.insns kept.insns old
  reached : ∀ i, Analysis.Reached m i → ∃ k, k < kept.insns.length ∧ old k = i
  tryCatch : ∃ stays : TryCatch → Bool, kept.tryCatch = all.tryCatch.filter stays ∧
    ∀ t ∈ all.tryCatch, ∀ k insn, kept.insns[k]? = some insn → insn.isPseudo = false →
      t.Covers kept.insns k → stays t = true

theorem Pruned.refl {m : Analysis.Method} {b : Body} (hreached : ∀ i, Analysis.Reached m i → i < b.insns.length) :
    Pruned m b b id where
  thinned := ⟨fun _ _ => rfl, fun _ _ hlt _ => hlt, fun i _ hi =>
    ⟨i, (List.getElem?_eq_some_iff.1 hi).1, rfl⟩⟩
  reached i hi := ⟨i, hreached i hi, rfl⟩
  tryCatch := ⟨fun _ => true, (List.filter_true _).symm, fun _ _ _ _ _ _ _ => rfl⟩

namespace Analysis

variable {b : Body} {context : MethodContext} {p : Pool} {h : Hierarchy}

theorem pruned_withoutDeadCode {m : Method} {a : Analysis}
    (hm : Method.ofBody b context p h = .ok m) (ha : analyze b context p h = .ok a) :
    ∃ old, Pruned m b (withoutDeadCode b a) old ∧ ∀ k insn, (withoutDeadCode b a).insns[k]? = some insn →
      insn.isPseudo = false → Reached m (old k) := by
  obtain ⟨old, hthinned, hreached, hreal⟩ := withoutDeadCode_thinned hm ha
  refine ⟨old, ⟨hthinned, hreached, _, rfl, fun t ht k insn hk hreal hcovers => ?_⟩, hreal⟩
  obtain ⟨s, e, hs, he, hsk, hke⟩ := hcovers
  refine holdsCode_eq_true.2 ⟨s, e, hs, he, Nat.lt_of_le_of_lt hsk hke, anyReal_eq_true.2 ?_⟩
  exact ⟨k, insn, hsk, hke, List.getElem?_toArray.trans hk, hreal⟩

/-- The code that is assembled is the body without dead code. -/
theorem pruned_live {kept : Body} {a : Analysis} (hlive : Assemble.live b context p h = .ok (kept, a)) :
    ∃ m old, m.Of b context p h ∧ Pruned m b kept old ∧
      ∀ k insn, kept.insns[k]? = some insn → insn.isPseudo = false → Reached m (old k) := by
  unfold Assemble.live at hlive
  obtain ⟨a0, ha, hlive⟩ := bind_eq_ok.1 hlive
  obtain ⟨m, -, hm, -⟩ := analyze_eq_ok ha
  by_cases hdead : (a0.deadCode b).isEmpty = true
  · rw [if_pos hdead] at hlive
    cases hlive
    refine ⟨m, id, of_ofBody hm, .refl fun _ hi => reached_lt hm ha hi, fun k insn hk hreal => ?_⟩
    exact (analyze_reached hm ha).1
      ((deadCode_eq_nil (analyze_size ha)).1 (List.isEmpty_iff.1 hdead) k insn hk hreal)
  · rw [if_neg hdead] at hlive
    obtain ⟨a1, -, hlive⟩ := bind_eq_ok.1 hlive
    cases hlive
    obtain ⟨old, hpruned, hreal⟩ := pruned_withoutDeadCode hm ha
    exact ⟨m, old, of_ofBody hm, hpruned, hreal⟩

end Analysis

namespace Pruned

open Platform

variable {P : Platform} {pool p : Pool} {all kept : Body} {old : Nat → Nat}
  {context : MethodContext} {h : Hierarchy} {m : Analysis.Method}
  (hm : m.Of all context p h) (hp : Pruned m all kept old)
include hm hp

omit hm in
/-- Where control goes it went before, or it goes on to the next instruction that is left. -/
theorem leads {i j : Nat} (hj : j < kept.insns.length) (hleads : kept.Leads i j) :
    j = i + 1 ∨ all.Leads (old i) (old j) := by
  have insn {x : Insn} (hi : kept.insns[i]? = some x) : all.insns[old i]? = some x := by
    rw [hp.thinned.insn i (List.getElem?_eq_some_iff.1 hi).1, hi]
  cases hleads with
  | next _ _ hj => exact .inl hj
  | jump hi hl hplace => exact .inr (.jump (insn hi) hl ((hp.thinned.lastPlace hj).2 hplace))
  | thrown hi hreal ht hcovers hplace =>
    obtain ⟨stays, htryCatch, -⟩ := hp.tryCatch
    rw [htryCatch] at ht
    have hlt := (List.getElem?_eq_some_iff.1 hi).1
    exact .inr (.thrown (insn hi) hreal (List.mem_of_mem_filter ht) ((hp.thinned.covers_iff hlt).2 hcovers)
      ((hp.thinned.lastPlace hj).2 hplace))

omit hm in
/-- Exceptions go to the same handlers. -/
theorem raise_eq {k : Nat} {insn : Insn} {s : P.Store} {w : P.World} {o : P.Object}
    (hk : kept.insns[k]? = some insn) (hreal : insn.isPseudo = false)
    (hstuck : P.raise pool all (old k) s w o ≠ .stuck) :
    P.raise pool all (old k) s w o = (P.raise pool kept k s w o).renumber old ∧
      (P.raise pool kept k s w o).Within kept.insns.length := by
  have hlt := (List.getElem?_eq_some_iff.1 hk).1
  obtain ⟨stays, htryCatch, hstays⟩ := hp.tryCatch
  have hfind : kept.tryCatch.find?
        (P.catches pool (fun l => (labelPositions kept.insns)[l]?) w o k) =
      all.tryCatch.find? (P.catches pool (fun l => (labelPositions all.insns)[l]?) w o (old k)) := by
    rw [htryCatch, List.find?_filter]
    refine List.find?_congr fun t ht => ?_
    rw [Bool.eq_iff_iff, decide_eq_true_eq, catches_eq_true, catches_eq_true, hp.thinned.covers_iff hlt]
    constructor
    · exact fun hc => hc.2
    · exact fun hc => ⟨hstays t ht k insn hk hreal hc.1, hc⟩
  unfold raise at hstuck ⊢
  simp only at hstuck ⊢
  rw [hfind]
  split
  · exact ⟨rfl, trivial⟩
  · rename_i t ht
    simp only [ht] at hstuck
    cases hplace : (labelPositions all.insns)[t.handler]? with
    | none => simp only [hplace, ne_eq, not_true_eq_false] at hstuck
    | some j =>
      obtain ⟨k', -, rfl, hk'⟩ := hp.thinned.lastPlace_old (labelPositions_eq_some.1 hplace)
      simp only [labelPositions_eq_some.2 hk']
      exact ⟨rfl, hk'.lt⟩

/-- An instruction that is reached does the same. -/
theorem step_eq {k : Nat} {s : P.Store} (hk : k < kept.insns.length)
    (hreached : Analysis.Reached m (old k)) (hstuck : P.step pool all (old k) s ≠ .stuck) :
    P.step pool all (old k) s = (P.step pool kept k s).renumber old ∧
      (P.step pool kept k s).Within kept.insns.length := by
  have hinsn : kept.insns[k]? = some kept.insns[k] := List.getElem?_eq_getElem hk
  have hold : all.insns[old k]? = some kept.insns[k] := by rw [hp.thinned.insn k hk, hinsn]
  cases hact : P.act pool kept.insns[k] s with
  | next u =>
    cases hon : kept.insns[k].isTerminal with
    | true =>
      exfalso
      apply hstuck
      simp only [step, hold, hact, hon, if_true]
    | false =>
      have hstep : P.step pool all (old k) s = .running (old k + 1) u := by
        simp only [step, hold, hact, hon, Bool.false_eq_true, if_false]
      have hstep' : P.step pool kept k s = .running (k + 1) u := by
        simp only [step, hinsn, hact, hon, Bool.false_eq_true, if_false]
      rw [hstep, hstep']
      -- what comes next is reached, and nothing lies between
      obtain ⟨k', hk', e⟩ := hp.reached _ (.step hreached (hm.leads_iff.2 (leads_of_step hstep)))
      cases hp.thinned.eq_succ hk hk' e
      rw [← e]
      exact ⟨rfl, hk'⟩
  | jump l u =>
    cases hplace : (labelPositions all.insns)[l]? with
    | none =>
      exfalso
      apply hstuck
      simp only [step, hold, hact, hplace]
    | some j =>
      obtain ⟨k', -, rfl, hk'⟩ := hp.thinned.lastPlace_old (labelPositions_eq_some.1 hplace)
      simp only [step, hold, hinsn, hact, hplace, labelPositions_eq_some.2 hk']
      exact ⟨rfl, hk'.lt⟩
  | throw w o =>
    rw [step_throw hold hact] at hstuck ⊢
    rw [step_throw hinsn hact]
    exact hp.raise_eq hinsn (real_of_throw hact) hstuck
  | leave value w =>
    simp only [step, hold, hinsn, hact]
    exact ⟨rfl, trivial⟩
  | stuck =>
    exfalso
    apply hstuck
    simp only [step, hold, hact]

/-- A run from an instruction that is reached is the same with other numbers. -/
theorem run_eq (n : Nat) {k : Nat} {s : P.Store} (hk : k < kept.insns.length)
    (hreached : Analysis.Reached m (old k)) (hstuck : (P.run pool all n (.running (old k) s)).2 ≠ .stuck) :
    P.run pool all n (.running (old k) s) =
        ((P.run pool kept n (.running k s)).1.map fun e => (old e.1, e.2),
          (P.run pool kept n (.running k s)).2.renumber old) ∧
      (∀ e ∈ (P.run pool kept n (.running k s)).1, e.1 < kept.insns.length) ∧
      (P.run pool kept n (.running k s)).2.Within kept.insns.length := by
  induction n generalizing k s with
  | zero => exact ⟨rfl, fun _ he => (List.not_mem_nil he).elim, hk⟩
  | succ n ih =>
    rw [run_running] at hstuck ⊢
    rw [run_running]
    have hstep : P.step pool all (old k) s ≠ .stuck := by
      intro hstep
      rw [hstep, run_stuck] at hstuck
      exact hstuck rfl
    obtain ⟨heq, hwithin⟩ := hp.step_eq hm hk hreached hstep
    have ended : ∀ es : List (Nat × P.Store), es = [] →
        ∀ e ∈ (k, s) :: es, e.1 < kept.insns.length := by
      rintro es rfl e he
      rw [List.mem_singleton.1 he]
      exact hk
    cases hnext : P.step pool kept k s with
    | running k' t =>
      rw [hnext] at heq hwithin
      have heq : P.step pool all (old k) s = .running (old k') t := heq
      rw [heq] at hstuck ⊢
      obtain ⟨hrun, hevents, hend⟩ := ih hwithin (.step hreached (hm.leads_iff.2 (leads_of_step heq))) hstuck
      rw [hrun]
      refine ⟨rfl, fun e he => ?_, hend⟩
      rcases List.mem_cons.1 he with rfl | he
      · exact hk
      · exact hevents e he
    | returned value w =>
      rw [heq, hnext]
      simp only [Status.renumber, run_returned]
      exact ⟨rfl, ended [] rfl, trivial⟩
    | thrown o w =>
      rw [heq, hnext]
      simp only [Status.renumber, run_thrown]
      exact ⟨rfl, ended [] rfl, trivial⟩
    | stuck =>
      rw [heq, hnext] at hstep
      exact absurd rfl hstep

end Pruned

end Interpose
