import Interpose.Proofs.Code.Expanded
import Interpose.Proofs.Execution.Passing
import Interpose.Proofs.Execution.Transparent
import Interpose.Proofs.Weave.Stretches
/-!
# Verdicts to throw

What a verdict to throw throws is thrown in the stretch of the dispatch that answered it, which the table
protects like an instruction of the method (`WovenFrom.raise_in_stretch`). So it comes to the handler that
the method has for that instruction. If the method has none, it goes out of the method, or to the handler of
the method as a whole, and control never comes back from there (`WovenFrom.leads_behind`).

Result:
* `method_leaves_by_verdict`: what is said above holds of every method that is woven and of every dispatch in
  it.
-/

namespace Interpose

namespace Platform

variable {P : Platform}

/-- What comes of a verdict to throw: the cast of its value throws, or its value is thrown, or what is no
object is to be thrown and the platform throws instead. -/
inductive Throws (P : Platform) (w : P.World) (v : Word P.Object) (rest : List (Word P.Object)) :
    P.World → P.Object → Prop
  | cast {w' o} : P.perform (.type Op.checkcast throwableClass) w (v :: rest) = .thrown w' o →
    Throws P w v rest w' o
  | value {w' o st} : P.perform (.type Op.checkcast throwableClass) w (v :: rest) = .done w' (.object o :: st) →
    P.isA w' o throwableClass = true → Throws P w v rest w' o
  | other {w' w'' o st} : P.perform (.type Op.checkcast throwableClass) w (v :: rest) = .done w' st →
    (∀ x st', st ≠ .object x :: st') → P.perform (.simple Op.athrow) w' st = .thrown w'' o →
    Throws P w v rest w'' o

/-- If the cast does not throw, the throw behind it does. -/
theorem Throws.acts {w w' : P.World} {v : Word P.Object} {rest : List (Word P.Object)} {o : P.Object}
    (h : P.Throws w v rest w' o) (q : Pool) (ν : Nat → Word P.Object) :
    P.perform (.type Op.checkcast throwableClass) w (v :: rest) = .thrown w' o ∨
      ∃ w1 st, P.perform (.type Op.checkcast throwableClass) w (v :: rest) = .done w1 st ∧
        P.act q (.simple Op.athrow) ⟨w1, st, ν⟩ = .throw w' o := by
  cases h with
  | cast hcast => exact .inl hcast
  | value hcast ho => exact .inr ⟨_, _, hcast, P.act_athrow q _ ν ho⟩
  | other hcast hst hthrown => exact .inr ⟨_, _, hcast, act_athrow_other ν hst hthrown⟩

/-- Stores with the same local variables are the same to handlers. -/
theorem raise_congr {q : Pool} {b : Body} {i : Nat} {s u : P.Store} {w : P.World} {o : P.Object}
    (h : s.locals = u.locals) : P.raise q b i s w o = P.raise q b i u w o := by
  unfold raise
  simp only [h]

/-- What holds of all that is executed on the way to a status and behind it holds of all of the run. -/
theorem forall_run {q : Pool} {b : Body} {R : Nat → Prop} {a : P.Status} {m : Nat}
    (hway : ∀ e ∈ (P.run q b m a).1, R e.1)
    (hbehind : ∀ n, ∀ e ∈ (P.run q b n (P.run q b m a).2).1, R e.1) (n : Nat) :
    ∀ e ∈ (P.run q b n a).1, R e.1 := by
  intro e he
  have hall : e ∈ (P.run q b (n + m) a).1 := by
    rw [run_add]
    exact List.mem_append_left _ he
  rw [Nat.add_comm, run_add] at hall
  rcases List.mem_append.1 hall with hall | hall
  · exact hway e hall
  · exact hbehind n e hall

end Platform

namespace Template.Stands

variable {P : Platform} {q : Pool} {b : Body} {k : Nat} {t : JavaType} {w w' : P.World} {r o : P.Object}
  {v : Word P.Object} {rest : List (Word P.Object)} {l l' : Nat}

/-- The check of a verdict to throw throws, from one of its instructions. -/
theorem throws (h : Stands q b k (Block.verdictCheck t l l')) (hv : P.IsVerdict w r Spy.stateThrow v)
    (hthrows : P.Throws w v rest w' o) (ν : Nat → Word P.Object) :
    ∃ j s insn, k ≤ j ∧ j < k + (Block.verdictCheck t l l').length ∧ b.insns[j]? = some insn ∧
      insn.isPseudo = false ∧ s.locals = ν ∧
      P.Leads q b k (k + (Block.verdictCheck t l l').length) (.running k ⟨w, .object r :: rest, ν⟩)
        (P.raise q b j s w' o) := by
  rw [Block.length_verdictCheck]
  rw [Block.verdictCheck_eq] at h
  have entry : Stands q b k (Block.verdictEntry l) := h.left
  have exits : Stands q b (k + 7 + t.unboxing.length) (Block.verdictExits t l l') := h.right.right
  generalize t.unboxing.length = n at exits ⊢
  have hvalue : P.Leads q b k (k + (7 + n + 9)) (.running k ⟨w, .object r :: rest, ν⟩)
      (.running (k + 7 + n + 5) ⟨w, v :: rest, ν⟩) :=
    (entry.entry_other hv (Nat.le_refl k) (by omega) (by decide) (exits.label 1 l rfl)).trans
      (exits.exits_value (by omega) (by omega) hv rfl)
  obtain ⟨cast, hcast, hsettles⟩ := exits.insn 5 _ rfl
  obtain ⟨hon, hop, hact⟩ := Platform.act_performs (.type rfl) hsettles (⟨w, v :: rest, ν⟩ : P.Store)
  unfold Platform.carryOut at hact
  rw [hop] at hact
  rcases hthrows.acts q ν with hthrown | ⟨w1, st, hdone, hthrow⟩
  · simp only [hthrown] at hact
    refine ⟨k + 7 + n + 5, _, cast, by omega, by omega, hcast, Platform.real_of_throw hact, rfl,
      hvalue.trans (.step (by omega) (by omega) (Platform.step_throw hcast hact))⟩
  · simp only [hdone] at hact
    obtain ⟨throw, hat, hsettles'⟩ := exits.insn 6 _ rfl
    cases hsettles'
    refine ⟨k + 7 + n + 6, ⟨w1, st, ν⟩, _, by omega, by omega, hat, rfl, rfl, hvalue.trans ?_⟩
    refine Platform.Leads.trans (.step (a := .running (k + 7 + n + 6) ⟨w1, st, ν⟩) (by omega) (by omega) ?_)
      (.step (by omega) (by omega) (Platform.step_throw hat hthrow))
    simp only [Platform.step, hcast, hact, hon, Bool.false_eq_true, if_false]

end Template.Stands

namespace Weave

open WeaveSite Template Platform

namespace WovenFrom

variable {s : WeaveSite} {q : Pool} {given woven : Body} {entry : Nat} {w : Parts} {P : Platform}

section Stretches

variable (hw : WovenFrom s q given entry w woven) (hne : w.segments ≠ []) (hlabels : LabelsBelow given)
include hw hne hlabels

/-- What is thrown in a stretch comes to the handler of the method for the instruction that the stretch is
protected like, and if there is none to the handler of the method as a whole or out of the method. -/
theorem raise_in_stretch (hclosed : given.Closed) {site : Option Nat} {lo hi n : Nat} {insn : Insn}
    (h : w.Stretch site lo hi) (hlo : lo ≤ n) (hhi : n < hi) (hn : woven.insns[n]? = some insn)
    (hreal : insn.isPseudo = false) (u : P.Store) (y : P.World) (o : P.Object) :
    (∃ i ∈ site, ∃ j, P.raise q given i u y o = .running j ⟨y, [.object o], u.locals⟩ ∧
      P.raise q woven n u y o = .running (w.spot j) ⟨y, [.object o], u.locals⟩) ∨
    (∀ i ∈ site, P.raise q given i u y o = .thrown o y) ∧
      (P.raise q woven n u y o = .thrown o y ∨ s.wants .throws = true ∧ w.entrance ≤ n ∧ n < w.exit ∧
        P.raise q woven n u y o = .running (w.exit + 1) ⟨y, [.object o], u.locals⟩) := by
  obtain ⟨calls, own, htable, hcalls, hown⟩ := hw.tryCatch
  let place (l : Label) : Option Nat := (labelPositions woven.insns)[l]?
  have hskip : calls.find? (P.catches q place y o n) = none := by
    refine List.find?_eq_none.2 fun t ht hcatches => ?_
    obtain ⟨r, hr, hrange⟩ := (mem_forall₂ hcalls).2 _ ht
    obtain ⟨i, g, l, op, index, hg, -, hl, hguarded, rfl⟩ := hw.range_of_mem hr
    have hcovers := (catches_eq_true.1 hcatches).1
    exact h.copyless hne hlo hhi (List.getElem?_eq_some_iff.1 hg).1
      ((hw.range_covers_iff hne hlabels hg hl hguarded hrange hn hreal).1 hcovers)
  have covers {t : TryCatch} (ht : t ∈ given.tryCatch) :
      t.Covers woven.insns n ↔ ∃ i ∈ site, t.Covers given.insns i := by
    obtain ⟨a, ha⟩ := hclosed.2 t ht t.start (List.mem_cons_self ..)
    obtain ⟨b, hb⟩ := hclosed.2 t ht t.stop (List.mem_cons_of_mem _ (List.mem_cons_self ..))
    exact hw.covers_stretch hne hlabels h hlo hhi ha hb
  have hsame {i : Nat} (hi : i ∈ site) : given.tryCatch.find? (P.catches q place y o n) =
      given.tryCatch.find? (P.catches q (fun l => (labelPositions given.insns)[l]?) y o i) := by
    refine List.find?_congr fun t ht => ?_
    rw [Bool.eq_iff_iff, catches_eq_true, catches_eq_true, covers ht]
    cases Option.mem_def.1 hi
    simp
  cases hfind : given.tryCatch.find? (P.catches q place y o n) with
  | some t =>
    have ht := List.mem_of_find?_eq_some hfind
    obtain ⟨i, hi, -⟩ := (covers ht).1 (catches_eq_true.1 (List.find?_some hfind)).1
    obtain ⟨j, hj⟩ := hclosed.2 t ht t.handler
      (List.mem_cons_of_mem _ (List.mem_cons_of_mem _ (List.mem_singleton_self _)))
    refine .inl ⟨i, hi, j, raise_handled (hsame hi ▸ hfind) hj, raise_handled ?_ (hw.lastPlace_spot hne hlabels hj)⟩
    rw [htable, List.find?_append, List.find?_append, hskip, hfind]
    rfl
  | none =>
    refine .inr ⟨fun i hi => ?_, ?_⟩
    · have hnone := (hsame hi).symm.trans hfind
      simp only [raise, hnone]
    · have hrest : woven.tryCatch.find? (P.catches q place y o n) = own.find? (P.catches q place y o n) := by
        rw [htable, List.find?_append, List.find?_append, hskip, hfind]
        rfl
      cases hfindOwn : own.find? (P.catches q place y o n) with
      | none =>
        rw [hfindOwn] at hrest
        refine .inl ?_
        simp only [raise]
        rw [hrest]
      | some t =>
        obtain ⟨hwants, hrange⟩ := range_of_own hown (List.mem_of_find?_eq_some hfindOwn)
        obtain ⟨hentrance, hexit⟩ := (hw.own_covers_iff hlabels hrange).1
          (catches_eq_true.1 (List.find?_some hfindOwn)).1
        have hhandler : LastPlace woven.insns t.handler (w.exit + 1) := by
          rw [hrange.handler]
          exact hw.handler_place hlabels hwants
        exact .inr ⟨hwants, hentrance, hexit, raise_handled (hrest.trans hfindOwn) hhandler⟩

/-- The check of the verdict of a dispatch throws what the verdict does, and all on the way is in the
stretch of the dispatch. -/
theorem check_throws {k : EventKind} {n : Nat} (hn : w.code[n]? = some (Block.invocation k)) :
    ∃ site lo hi, w.Stretch site lo hi ∧ lo ≤ n ∧ n < hi ∧
      ∀ (P : Platform) (y y' : P.World) (r o : P.Object) v rest ν, P.IsVerdict y r Spy.stateThrow v →
        P.Throws y v rest y' o → ∃ j u insn, lo ≤ j ∧ j < hi ∧ woven.insns[j]? = some insn ∧
          insn.isPseudo = false ∧ u.locals = ν ∧
          P.Leads q woven lo hi (.running (n + 1) ⟨y, .object r :: rest, ν⟩) (P.raise q woven j u y' o) := by
  obtain ⟨site, lo, hi, l, hstretch, hlo, hhi, hl, hat⟩ := hw.check_behind hne hlabels hn
  refine ⟨site, lo, hi, hstretch, hlo, by omega, fun P y y' r o v rest ν hv hthrows => ?_⟩
  have hstands : Stands q woven (n + 1) (Block.verdictCheck s.returnType l (l + 1)) := by
    refine ⟨fun j x hx => hw.insn_of_code (hat j x hx), fun j l' hl' => ?_⟩
    refine hw.lastPlace_fresh hlabels ?_ (hat j _ hl')
    have hmem := mem_freshLabels.2 ⟨Nat.zero_le _, List.mem_of_getElem? hl'⟩
    rw [freshLabels_verdictCheck (Nat.zero_le _)] at hmem
    simp only [List.mem_cons, List.not_mem_nil, or_false] at hmem
    rcases hmem with rfl | rfl
    · exact hl
    · exact Nat.le_succ_of_le hl
  obtain ⟨j, u, insn, hnj, hj, hinsn, hreal, hu, hleads⟩ := hstands.throws hv hthrows ν
  exact ⟨j, u, insn, by omega, by omega, hinsn, hreal, hu, hleads.mono (by omega) hhi⟩

end Stretches

end WovenFrom

namespace Output

variable {s : WeaveSite} {q : Pool} {given : Body} {entry : Nat} {c : CodeAttribute}

/-- An instruction that is written is the copy of one of the method. -/
def IsCopy (o : Output s q given entry c) (k : Nat) : Prop :=
  k < o.live.insns.length ∧ ∃ i < given.insns.length, o.old k = o.parts.spot i

/-- What becomes of a run when an exception is thrown on it where the table protects like an instruction of
the method, or like none. -/
inductive Throws (o : Output s q given entry c) (P : Platform) (site : Option Nat) (y : P.World)
    (x : P.Object) (k : Nat) (u : P.Store) : Prop
  /-- If the method has a handler for the instruction, the run comes to its copy. -/
  | caught {i j k' n : Nat} : i ∈ site →
    P.raise q given i u y x = .running j ⟨y, [.object x], u.locals⟩ →
    (∀ e ∈ (P.run q o.live n (.running k u)).1, ¬ o.IsCopy e.1) →
    k' < o.live.insns.length → o.old k' = o.parts.spot j →
    (P.run q o.live n (.running k u)).2 = .running k' ⟨y, [.object x], u.locals⟩ → Throws o P site y x k u
  /-- If not, the run executes no copy any more: it ends with the exception, or comes to the handler of the
  method as a whole. -/
  | left {n : Nat} : (∀ i ∈ site, P.raise q given i u y x = .thrown x y) →
    (∀ m, ∀ e ∈ (P.run q o.live m (.running k u)).1, ¬ o.IsCopy e.1) →
    ((P.run q o.live n (.running k u)).2 = .thrown x y ∨
      s.wants .throws = true ∧ ∃ k', o.old k' = o.parts.exit + 1 ∧
        (P.run q o.live n (.running k u)).2 = .running k' ⟨y, [.object x], u.locals⟩) →
    Throws o P site y x k u

section Written

variable {o : Output s q given entry c} {context : MethodContext} {p : Pool} {h : Hierarchy}
  {m : Analysis.Method} (hof : m.Of o.woven context p h) (hpruned : Pruned m o.woven o.live o.old)
  (hne : o.parts.segments ≠ []) (hlabels : LabelsBelow given) (hclosed : given.Closed)

include hpruned hne hlabels hclosed in
/-- Behind the range of the method control stays behind it, also in what is written. -/
theorem conveys_behind : o.live.Conveys fun k => k < o.live.insns.length → o.parts.exit < o.old k := by
  intro i j hi hleads hj
  have hlt : i < o.live.insns.length := by
    cases hleads <;> exact (List.getElem?_eq_some_iff.1 ‹o.live.insns[i]? = some _›).1
  rcases hpruned.leads hj hleads with rfl | hleads
  · exact Nat.lt_trans (hi hlt) (hpruned.thinned.mono i _ (Nat.lt_succ_self i) hj)
  · exact o.made.leads_behind hne hlabels hclosed (Nat.le_of_lt (hi hlt)) hleads

include hne in
theorem not_isCopy_behind {k : Nat} (hk : k < o.live.insns.length → o.parts.exit < o.old k) : ¬ o.IsCopy k := by
  rintro ⟨hlt, i, hi, hcopy⟩
  have hspot := (Parts.inPiece_spot (List.getElem?_eq_getElem (o.made.pieces_length ▸ hi))).lt_end
  rw [Parts.edge_pieces hne, ← hcopy] at hspot
  exact Nat.lt_asymm hspot (hk hlt)

include hof hpruned hne hlabels hclosed

/-- What is thrown by the check of a verdict. -/
theorem throws_of_leads {P : Platform} {site : Option Nat} {lo hi j k : Nat} {insn : Insn} {u v : P.Store}
    {y : P.World} {x : P.Object} (h : o.parts.Stretch site lo hi) (hlo : lo ≤ j) (hhi : j < hi)
    (hj : o.woven.insns[j]? = some insn) (hreal : insn.isPseudo = false) (huv : u.locals = v.locals)
    (hk : k < o.live.insns.length) (hreached : Analysis.Reached m (o.old k))
    (hleads : P.Leads q o.woven lo hi (.running (o.old k) v) (P.raise q o.woven j u y x)) :
    o.Throws P site y x k v := by
  obtain ⟨n, hend, hevents⟩ := hleads
  have hraise := o.made.raise_in_stretch hne hlabels hclosed h hlo hhi hj hreal u y x
  have hstuck : (P.run q o.woven n (.running (o.old k) v)).2 ≠ .stuck := by
    rw [hend]
    rcases hraise with ⟨_, -, _, -, hraise⟩ | ⟨-, hraise | ⟨-, -, -, hraise⟩⟩ <;> rw [hraise] <;> nofun
  obtain ⟨hrun, hwithin, hlast⟩ := hpruned.run_eq hof n hk hreached hstuck
  rw [hrun] at hend hevents
  -- no copy is executed on the way
  have hway : ∀ e ∈ (P.run q o.live n (.running k v)).1, ¬ o.IsCopy e.1 := by
    rintro e he ⟨-, i, hi, hcopy⟩
    obtain ⟨hlo, hhi⟩ := hevents _ (List.mem_map_of_mem he)
    exact h.copyless hne hlo hhi (o.made.pieces_length ▸ hi) hcopy
  have running {a : Nat} {t : P.Store} (ht : P.raise q o.woven j u y x = .running a t) :
      ∃ k', k' < o.live.insns.length ∧ o.old k' = a ∧
        (P.run q o.live n (.running k v)).2 = .running k' t := by
    rw [ht] at hend
    cases hstatus : (P.run q o.live n (.running k v)).2 with
    | running k' t' =>
      rw [hstatus] at hend hlast
      cases hend
      exact ⟨k', hlast, rfl, rfl⟩
    | _ =>
      rw [hstatus] at hend
      cases hend
  rw [huv] at hraise
  have hgiven (i : Nat) : P.raise q given i u y x = P.raise q given i v y x := raise_congr huv
  simp only [hgiven] at hraise
  rcases hraise with ⟨i, hi, i', hcaught, hraise⟩ | ⟨hnone, hraise⟩
  · obtain ⟨k', hk', hold, hstatus⟩ := running hraise
    exact .caught hi hcaught hway hk' hold hstatus
  · rcases hraise with hraise | ⟨hwants, -, -, hraise⟩
    · have hstatus : (P.run q o.live n (.running k v)).2 = .thrown x y := by
        rw [hraise] at hend
        cases hstatus : (P.run q o.live n (.running k v)).2 with
        | thrown x' y' =>
          rw [hstatus] at hend
          cases hend
          rfl
        | _ =>
          rw [hstatus] at hend
          cases hend
      refine .left hnone (forall_run (R := fun k => ¬ o.IsCopy k) hway fun n e he => ?_) (.inl hstatus)
      rw [hstatus, run_thrown] at he
      cases he
    · obtain ⟨k', hk', hold, hstatus⟩ := running hraise
      refine .left hnone (forall_run (R := fun k => ¬ o.IsCopy k) hway fun n e he => ?_) (.inr ⟨hwants, k', hold, hstatus⟩)
      rw [hstatus] at he
      refine not_isCopy_behind hne ?_
      exact run_conveys (conveys_behind hpruned hne hlabels hclosed) n _
        (fun _ => hold ▸ Nat.lt_succ_self _) e he

end Written

end Output

/-! ## Whole methods -/

/-- In a woven method, a verdict to throw of any dispatch leads to the handler that the method has for the
instruction that the dispatch is protected like. If the method has none for it, no instruction of the method
is executed any more: the run ends with what is thrown, or comes to the handler of the method as a whole. -/
theorem method_leaves_by_verdict {plan : WeavePlan} {context : MethodContext} {h : Hierarchy} {major : UInt16}
    {code c : CodeAttribute} {p q : Pool} (hp : p.Sound)
    (hc : (method plan context h major code).run.run p = (.ok c, q)) :
    ∃ given entry, decode code = .ok given ∧ entryPoint given context p h = .ok entry ∧
      ∃ o : Output ⟨plan, context⟩ q given entry c, ∀ k kind, k < o.live.insns.length →
        o.parts.code[o.old k]? = some (Block.invocation kind) →
        ∃ site lo hi, o.parts.Stretch site lo hi ∧ lo ≤ o.old k ∧ o.old k < hi ∧
          ∀ (P : Platform) (y y' : P.World) (r x : P.Object) v rest ν,
            P.IsVerdict y r Spy.stateThrow v → P.Throws y v rest y' x →
            o.Throws P site y' x (k + 1) ⟨y, .object r :: rest, ν⟩ := by
  obtain ⟨given, entry, hgiven, hentry, o, m, a, r, hof, hpruned, -, -, hreal, hne⟩ := method_output hp hc
  have hlabels := decode_below hgiven
  have hclosed := decode_closed hgiven
  replace hne := hne hlabels
  refine ⟨given, entry, hgiven, hentry, o, fun k kind hk hdispatch => ?_⟩
  obtain ⟨site, lo, hi, hstretch, hlo, hhi, hthrows⟩ := o.made.check_throws hne hlabels hdispatch
  refine ⟨site, lo, hi, hstretch, hlo, hhi, fun P y y' r x v rest ν hv hx => ?_⟩
  -- control goes from the dispatch to the check of its verdict
  have hnext : k + 1 < o.live.insns.length ∧ o.old (k + 1) = o.old k + 1 ∧
      Analysis.Reached m (o.old k + 1) := by
    obtain ⟨insn, hinsn, hsettles⟩ := o.made.insn_of_code hdispatch
    have hkept : o.live.insns[k]? = some insn := by rw [← hpruned.thinned.insn k hk, hinsn]
    have hinvokes : insn.isPseudo = false ∧ insn.isTerminal = false := by
      cases kind <;> cases hsettles <;> exact ⟨rfl, rfl⟩
    have hreached := Analysis.Reached.step (hreal k insn hkept hinvokes.1)
      (hof.leads_iff.2 (.next hinsn hinvokes.2 rfl))
    obtain ⟨k', hk', hold⟩ := hpruned.reached _ hreached
    cases hpruned.thinned.eq_succ hk hk' hold
    exact ⟨hk', hold, hreached⟩
  obtain ⟨j, u, insn, hlo', hhi', hinsn, hpseudo, hu, hleads⟩ := hthrows P y y' r x v rest ν hv hx
  rw [← hnext.2.1] at hleads
  exact Output.throws_of_leads hof hpruned hne hlabels hclosed hstretch hlo' hhi' hinsn hpseudo hu hnext.1
    (hnext.2.1 ▸ hnext.2.2) hleads

/-! ### A quotient by zero -/

/-- Source lines and exceptions are reported. -/
def linesAndExceptions : WeavePlan where
  space := "default"
  listener := 1
  loader := 1
  kinds := .ofList [.line, .callThrows, .throws]
  className := "demo.Sample"

/-- The quotient is woven with reports of its lines and of exceptions, so there are dispatches inside of its
range, in its handler and in that of the method as a whole. -/
theorem method_leaves_by_verdict_quotient : ∃ c q, absolutePool.Sound ∧
    (method linesAndExceptions ofTwoNumbers .flat 49 quotient).run.run absolutePool = (.ok c, q) ∧
    ∃ given entry, decode quotient = .ok given ∧
      entryPoint given ofTwoNumbers absolutePool .flat = .ok entry ∧
      ∃ o : Output ⟨linesAndExceptions, ofTwoNumbers⟩ q given entry c, ∀ k kind, k < o.live.insns.length →
        o.parts.code[o.old k]? = some (Block.invocation kind) →
        ∃ site lo hi, o.parts.Stretch site lo hi ∧ lo ≤ o.old k ∧ o.old k < hi ∧
          ∀ (P : Platform) (y y' : P.World) (r x : P.Object) v rest ν,
            P.IsVerdict y r Spy.stateThrow v → P.Throws y v rest y' x →
            o.Throws P site y' x (k + 1) ⟨y, .object r :: rest, ν⟩ := by
  have hwoven : ((method linesAndExceptions ofTwoNumbers .flat 49 quotient).run.run
      absolutePool).1.toOption.any (fun _ => true) = true := by decide +kernel
  obtain ⟨c, hc, -⟩ := any_toOption.1 hwoven
  generalize hrun : (method linesAndExceptions ofTwoNumbers .flat 49 quotient).run.run absolutePool =
    result at hc
  obtain ⟨outcome, q⟩ := result
  obtain rfl : outcome = .ok c := hc
  exact ⟨c, q, absolutePool_sound, rfl, method_leaves_by_verdict absolutePool_sound hrun⟩

end Weave

end Interpose
