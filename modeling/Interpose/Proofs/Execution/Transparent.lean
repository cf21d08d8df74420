import Interpose.Proofs.Code.Decode
import Interpose.Proofs.Code.StackMap
import Interpose.Proofs.Execution.Arguments
import Interpose.Proofs.Execution.Following
import Interpose.Proofs.Execution.Heap
import Interpose.Proofs.Execution.Pruned
/-!
# Runs of woven code

A run of woven code is a run of the method with reports in between (`WovenFrom.run_follows`).
-/

namespace Interpose

namespace Platform

variable {P : Platform}

/-- Without what reports execute, the first events are the second: the same instructions, with stores
that are like each other. -/
inductive Erases (copies : Nat → Nat → Prop) (like : P.Store → P.Store → Prop) :
    List (Nat × P.Store) → List (Nat × P.Store) → Prop
  | nil : Erases copies like [] []
  | report {k s es es'} : (∀ i, ¬ copies i k) → Erases copies like es es' →
    Erases copies like ((k, s) :: es) es'
  | copy {i k s s' es es'} : copies i k → like s s' → Erases copies like es es' →
    Erases copies like ((k, s') :: es) ((i, s) :: es')

theorem Erases.reports {copies : Nat → Nat → Prop} {like : P.Store → P.Store → Prop}
    {es es' reports : List (Nat × P.Store)} (hreports : ∀ e ∈ reports, ∀ i, ¬ copies i e.1)
    (h : Erases copies like es es') : Erases copies like (reports ++ es) es' := by
  induction reports with
  | nil => exact h
  | cons e reports ih =>
    have hrest := ih fun e he => hreports e (List.mem_cons_of_mem _ he)
    exact .report (hreports e (List.mem_cons_self ..)) hrest

/-- Stores with like values on the stack and in the local variables below a bound. -/
def Store.Like (bound : Nat) (ρ : P.Object → P.Object → Prop) (s s' : P.Store) : Prop :=
  List.Forall₂ (Word.Alike ρ) s.stack s'.stack ∧
    ∀ k < bound, Word.Alike ρ (s.locals k) (s'.locals k)

/-- Events with other numbers for the instructions. -/
theorem Erases.renumber {copies copies' : Nat → Nat → Prop} {like : P.Store → P.Store → Prop}
    {old : Nat → Nat} {es es' : List (Nat × P.Store)}
    (hes : ∀ e ∈ es, ∀ i, copies i (old e.1) ↔ copies' i e.1)
    (h : Erases copies like (es.map fun e => (old e.1, e.2)) es') : Erases copies' like es es' := by
  induction es generalizing es' with
  | nil =>
    cases h
    exact .nil
  | cons e es ih =>
    have hfirst := hes e (List.mem_cons_self ..)
    have hrest : ∀ e ∈ es, ∀ i, copies i (old e.1) ↔ copies' i e.1 := fun e he =>
      hes e (List.mem_cons_of_mem _ he)
    rw [List.map_cons] at h
    cases h with
    | report hk h => exact .report (fun i hi => hk i ((hfirst i).2 hi)) (ih hrest h)
    | copy hk hs h => exact .copy ((hfirst _).1 hk) hs (ih hrest h)

theorem Store.Like.mono {bound : Nat} {ρ ρ1 : P.Object → P.Object → Prop}
    (hρ : ∀ o o', ρ o o' → ρ1 o o') {s s' : P.Store} (h : s.Like bound ρ s') : s.Like bound ρ1 s' :=
  ⟨Word.alike_mono hρ h.1, fun k hk => (h.2 k hk).mono hρ⟩

end Platform

namespace Stage

variable {P : Platform} {σ : Stage}

/-- A run goes through reports first. -/
theorem Passes.run {i j : Nat} {s t : P.Store} (h : Passes P σ i s j t) : ∃ n es,
    (∀ e ∈ es, σ.skips e.1) ∧ ∀ m, P.run σ.pool σ.body (n + m) (.running i s) =
      (es ++ (P.run σ.pool σ.body m (.running j t)).1, (P.run σ.pool σ.body m (.running j t)).2) := by
  induction h with
  | refl => exact ⟨0, [], nofun, fun m => by rw [Nat.zero_add]; rfl⟩
  | @step i j k s t u hi hs _ ih =>
    obtain ⟨n, es, hes, hrun⟩ := ih
    refine ⟨n + 1, (i, s) :: es, fun e he => ?_, fun m => ?_⟩
    · rcases List.mem_cons.1 he with rfl | he
      · exact hi
      · exact hes e he
    · rw [Nat.add_right_comm, Platform.run_running, hs, hrun]
      rfl

theorem Comes.run {a c : P.Status} (h : Comes P σ a c) : ∃ n es,
    (∀ e ∈ es, σ.skips e.1) ∧ ∀ m, P.run σ.pool σ.body (n + m) a =
      (es ++ (P.run σ.pool σ.body m c).1, (P.run σ.pool σ.body m c).2) := by
  induction h with
  | refl => exact ⟨0, [], nofun, fun m => by rw [Nat.zero_add]; rfl⟩
  | @step i s a hi _ ih =>
    obtain ⟨n, es, hes, hrun⟩ := ih
    refine ⟨n + 1, (i, s) :: es, fun e he => ?_, fun m => ?_⟩
    · rcases List.mem_cons.1 he with rfl | he
      · exact hi
      · exact hes e he
    · rw [Nat.add_right_comm, Platform.run_running, hrun]
      rfl

end Stage

namespace Weave

open WeaveSite Platform Stage

/-- A run has come as far beside further objects as it has without them: it goes on at the place of the
same instruction, or it has ended in the same way. -/
inductive Reaches {P : Platform} {own : Operation → Prop} (N : P.Neutral own) (place : Nat → Nat → Prop)
    (bound : Nat) (ρ : P.Object → P.Object → Prop) : P.Status → P.Status → Prop
  | running {i k s s'} : place i k → N.Alike bound ρ s s' →
    Reaches N place bound ρ (.running i s) (.running k s')
  | returned {value value' x y} : N.Beside x y ρ [] → List.Forall₂ (Word.Alike ρ) value value' →
    Reaches N place bound ρ (.returned value x) (.returned value' y)
  | thrown {o o' x y} : N.Beside x y ρ [] → ρ o o' →
    Reaches N place bound ρ (.thrown o x) (.thrown o' y)

section Reaches

variable {P : Platform} {own : Operation → Prop} {N : P.Neutral own} {place : Nat → Nat → Prop}
  {bound : Nat} {ρ : P.Object → P.Object → Prop} {a c : P.Status}

theorem Reaches.renumber {old : Nat → Nat} (h : Reaches N place bound ρ a (c.renumber old)) :
    Reaches N (fun i k => place i (old k)) bound ρ a c := by
  cases c with
  | running k s =>
    cases h with
    | running hk hs => exact .running hk hs
  | returned value w =>
    cases h with
    | returned hb hv => exact .returned hb hv
  | thrown o w =>
    cases h with
    | thrown hb ho => exact .thrown hb ho
  | stuck => cases h

theorem Reaches.of_returned {value : List (Word P.Object)} {x : P.World}
    (h : Reaches N place bound ρ (.returned value x) c) :
    ∃ value' y, c = .returned value' y ∧ List.Forall₂ (Word.Alike ρ) value value' := by
  cases h with
  | returned _ hvalue => exact ⟨_, _, rfl, hvalue⟩

theorem Reaches.not_stuck (h : Reaches N place bound ρ a c) : c ≠ .stuck := by
  cases h <;> exact nofun

end Reaches

namespace WovenFrom

variable {P : Platform} {own : Operation → Prop} {N : P.Neutral own} {s : WeaveSite} {p q : Pool}
  {given woven : Body} {w : Parts} {context : MethodContext} {h : Hierarchy} {m : Analysis.Method}
  {ρ : P.Object → P.Object → Prop} {bound : Nat}

/-- The copy of an instruction in woven code. -/
def Copies (given : Body) (w : Parts) (i k : Nat) : Prop :=
  i < given.insns.length ∧ k = w.copy i

section Runs

variable (hw : WovenFrom s q given 0 w woven) (hlabels : LabelsBelow given)
  (hm : m.Of given context p h) (hpq : p.Within q) (hkeeps : WovenFrom.Keeps own p given s.returnType)
  (hbound : given.maxLocals.toNat ≤ bound)
include hw hlabels hm hpq hkeeps hbound

/-- A run of woven code from a segment on is a run of the method with reports in between. -/
theorem run_follows (n : Nat) {i : Nat} {u u' : P.Store} (hu : N.Alike bound ρ u u')
    (hstuck : (P.run p given n (.running i u)).2 ≠ .stuck) : ∃ m ρ1,
    (∀ o o', ρ o o' → ρ1 o o') ∧
      Erases (Copies given w) (Store.Like bound ρ1)
        (P.run q woven m (.running (w.offset i) u')).1 (P.run p given n (.running i u)).1 ∧
      Reaches N (fun i k => k = w.offset i) bound ρ1 (P.run p given n (.running i u)).2
        (P.run q woven m (.running (w.offset i) u')).2 := by
  induction n generalizing i u u' ρ with
  | zero => exact ⟨0, ρ, fun _ _ h => h, .nil, .running rfl hu⟩
  | succ n ih =>
    have skipped : ∀ e : Nat × P.Store, (hw.stage hlabels).skips e.1 →
        ∀ i, ¬ Copies given w i e.1 := fun e he i hi => he i hi.1 hi.2
    rw [run_running] at hstuck ⊢
    have hstep : P.step p given i u ≠ .stuck := by
      intro hstep
      rw [hstep, run_stuck] at hstuck
      exact hstuck rfl
    have hi : i < given.insns.length := by
      by_contra hge
      apply hstep
      simp only [step, List.getElem?_eq_none (Nat.le_of_not_lt hge)]
    obtain ⟨u1, hpasses, hu1, a, hcomes, hkeeping⟩ :=
      hw.segment_follows hlabels hm hpq hkeeps hbound hu hstep
    obtain ⟨n1, es1, hes1, hrun1⟩ := hpasses.run
    obtain ⟨n2, es2, hes2, hrun2⟩ := hcomes.run
    -- what follows the instruction
    obtain ⟨n3, ρ1, hρ, hevents, hreaches⟩ : ∃ n3 ρ1, (∀ o o', ρ o o' → ρ1 o o') ∧
        Erases (Copies given w) (Store.Like bound ρ1) (P.run q woven n3 a).1
          (P.run p given n (P.step p given i u)).1 ∧
        Reaches N (fun i k => k = w.offset i) bound ρ1 (P.run p given n (P.step p given i u)).2
          (P.run q woven n3 a).2 := by
      generalize P.step p given i u = c at hkeeping hstuck
      cases hkeeping with
      | running hρ ht =>
        obtain ⟨n3, ρ2, hρ2, hevents, hreaches⟩ := ih ht hstuck
        exact ⟨n3, ρ2, fun o o' ho => hρ2 o o' (hρ o o' ho), hevents, hreaches⟩
      | returned hρ hb hv =>
        refine ⟨0, _, hρ, ?_, ?_⟩
        · rw [run_returned, run_returned]
          exact .nil
        · rw [run_returned, run_returned]
          exact .returned hb hv
      | thrown hρ hb ho =>
        refine ⟨0, _, hρ, ?_, ?_⟩
        · rw [run_thrown, run_thrown]
          exact .nil
        · rw [run_thrown, run_thrown]
          exact .thrown hb ho
    have hrun : P.run q woven (n1 + (n2 + n3 + 1)) (.running (w.offset i) u') =
        (es1 ++ ((w.copy i, u1) :: (es2 ++ (P.run q woven n3 a).1)), (P.run q woven n3 a).2) := by
      have h1 := hrun1 (n2 + n3 + 1)
      have h2 := hrun2 n3
      change P.run q woven _ _ = (es1 ++ (P.run q woven _ _).1, (P.run q woven _ _).2) at h1
      change P.run q woven _ _ = (es2 ++ (P.run q woven _ _).1, (P.run q woven _ _).2) at h2
      rw [h1, run_running, h2]
    refine ⟨n1 + (n2 + n3 + 1), ρ1, hρ, ?_, ?_⟩
    · rw [hrun]
      refine Erases.reports (fun e he => skipped e (hes1 e he)) ?_
      refine .copy ⟨hi, rfl⟩ (Store.Like.mono hρ ⟨hu1.stack, hu1.locals⟩) ?_
      exact hevents.reports fun e he => skipped e (hes2 e he)
    · rw [hrun]
      exact hreaches

end Runs

/-! ## The start -/

section Start

variable (hw : WovenFrom s q given 0 w woven) (hlabels : LabelsBelow given)
include hw hlabels

/-- The report of the start leaves the arguments as they are. -/
theorem start_passes {u u' : P.Store} (hbound : bound = (firstFree s.context given).toNat)
    (hu : N.Alike bound ρ u u') (hcount : s.parameters.length < 65536)
    (hroom : ∀ t ∈ s.parameters, t.2.toNat + t.1.slots ≤ bound)
    (hconforms : ∀ t ∈ s.parameters, P.Conforms u.world t.1 (slotsOf t.1 u.locals t.2.toNat)) :
    ∃ u1, Passes P (hw.stage hlabels) 0 u' (w.offset 0) u1 ∧ N.Alike bound ρ u u1 := by
  have skips : ∀ k, k < w.offset 0 → (hw.stage hlabels).skips k := fun k hk =>
    hw.skips_outside hlabels (.inl hk)
  have hcode : (hw.stage hlabels).Has 0 (w.before ++ [Template.place w.start]) := by
    intro j t hj
    have hlt := (List.getElem?_eq_some_iff.1 hj).1
    change w.code[0 + j]? = some t
    rw [Nat.zero_add, Parts.code_eq hw.prologue, ← List.singleton_append, ← List.append_assoc,
      List.getElem?_append_left hlt, hj]
  have hoffset : w.offset 0 = w.before.length + 1 := rfl
  have opened : ∀ {u1 : P.Store}, Does P (hw.stage hlabels) w.before u' u1 →
      Passes P (hw.stage hlabels) 0 u' (w.offset 0) u1 := by
    intro u1 hbefore
    have := (hbefore.append (.one (goesOn_place w.start))) 0 hcode fun j hj => skips _ (by
      rw [List.length_append, List.length_singleton] at hj
      omega)
    rwa [List.length_append, List.length_singleton, Nat.zero_add] at this
  have hbefore := hw.rebuilt.before
  split at hbefore
  · have holding : ∀ t ∈ s.parameters, Holding u.world ρ u'.locals t := by
      intro t ht
      refine ⟨_, hconforms t ht, ?_⟩
      have hroom := hroom t ht
      have hslots := (hconforms t ht).1.slots_pos
      unfold slotsOf
      split
      · exact .cons (hu.locals _ (by omega)) (.cons (hu.locals _ (by omega)) .nil)
      · exact .cons (hu.locals _ (by omega)) .nil
    obtain ⟨y1, ν1, hdoes, hb1, hbelow⟩ := startReport_does N (σ := hw.stage hlabels)
      (τ := u'.stack) (ν := u'.locals) s (firstFree s.context given) hu.world hcount
      (fun t ht => ⟨hbound ▸ hroom t ht, holding t ht⟩) (l := given.nextLabel) (Nat.le_refl _)
    rw [← hbefore] at hdoes
    refine ⟨_, opened hdoes, hb1, hu.stack, fun k hk => ?_⟩
    change Word.Alike ρ (u.locals k) (ν1 k)
    rw [hbelow k (hbound ▸ hk)]
    exact hu.locals k hk
  · rw [hbefore] at opened
    exact ⟨u', opened .nil, hu⟩

end Start

end WovenFrom

/-! ## Whole methods -/

/-- The code attribute holds the instructions of woven code that control reaches; number `k` of them
had the number `old k`. -/
structure Written (s : WeaveSite) (q : Pool) (given : Body) (w : Parts) (b : Body) (old : Nat → Nat)
    (c : CodeAttribute) : Prop where
  woven : ∃ woven, WovenFrom s q given 0 w woven ∧ Thinned woven.insns b.insns old
  encoded : ∃ p e, p.Within q ∧ encode b p = .ok e ∧ c.code = e.code ∧ c.exceptions = e.exceptions

/-- What a method that is not a constructor of a new object is woven to. -/
theorem method_eq_ok {plan : WeavePlan} {context : MethodContext} {h : Hierarchy} {major : UInt16}
    {code c : CodeAttribute} {p q : Pool} (hp : p.Sound) (hinit : context.startsUninitialized = false)
    (hc : (method plan context h major code).run.run p = (.ok c, q)) :
    ∃ given woven w b a e r, decode code = .ok given ∧ p.Within r ∧ r.Within q ∧
      WovenFrom ⟨plan, context⟩ r given 0 w woven ∧ Assemble.live woven context r h = .ok (b, a) ∧
      encode b r = .ok e ∧ c.code = e.code ∧ c.exceptions = e.exceptions := by
  obtain ⟨given, entry, woven, w, b, a, e, r, hgiven, hentry, hrest⟩ := method_parts hp hc
  unfold entryPoint at hentry
  simp only [hinit, Bool.false_eq_true, if_false] at hentry
  cases hentry
  exact ⟨given, woven, w, b, a, e, r, hgiven, hrest⟩

/-- An instruction of the method and its copy in the code that is written. -/
def Copied (given : Body) (w : Parts) (b : Body) (old : Nat → Nat) (i k : Nat) : Prop :=
  ∃ insn, given.insns[i]? = some insn ∧ b.insns[k]? = some insn ∧ old k = w.copy i

section Transparent

variable {P : Platform} {own : Operation → Prop} (N : P.Neutral own) {plan : WeavePlan}
  {context : MethodContext} {h : Hierarchy} {major : UInt16} {code c : CodeAttribute} {given : Body}
  {a : Analysis} {p q : Pool}

/-- Weaving is transparent where every report is answered with the verdict to go on. A run of the code
that is written, without what the reports execute, is the run of the method: the same instructions with
like values on the stack and in the local variables, and the same end. -/
theorem method_transparent (hp : p.Sound) (hinit : context.startsUninitialized = false)
    (hstraight : code.Straight) (hgiven : decode code = .ok given)
    (ha : analyze given context p h = .ok a)
    (hkeeps : WovenFrom.Keeps own p given context.descriptor.returnType)
    (hc : (method plan context h major code).run.run p = (.ok c, q))
    {ρ : P.Object → P.Object → Prop} {u u' : P.Store}
    (hu : N.Alike (firstFree context given).toNat ρ u u')
    (harguments : ∀ t ∈ (WeaveSite.mk plan context).parameters,
      P.Conforms u.world t.1 (slotsOf t.1 u.locals t.2.toNat)) :
    ∃ w b old, Written ⟨plan, context⟩ q given w b old c ∧
      ∀ n, (P.run p given n (.running 0 u)).2 ≠ .stuck → ∃ m ρ1, (∀ o o', ρ o o' → ρ1 o o') ∧
        Erases (Copied given w b old) (Store.Like (firstFree context given).toNat ρ1)
          (P.run q b m (.running 0 u')).1 (P.run p given n (.running 0 u)).1 ∧
        Reaches N (fun i k => old k = w.offset i) (firstFree context given).toNat ρ1
          (P.run p given n (.running 0 u)).2 (P.run q b m (.running 0 u')).2 := by
  obtain ⟨given', woven, w, b, a', e, r, hgiven', hpr, hrq, hw, hlive, he, hcode, hexceptions⟩ :=
    method_eq_ok hp hinit hc
  rw [hgiven] at hgiven'
  cases hgiven'
  obtain ⟨m, old, hm, hpruned, -⟩ := Analysis.pruned_live hlive
  refine ⟨w, b, old, ⟨⟨woven, hw.within hrq, hpruned.thinned⟩, r, e, hrq, he, hcode, hexceptions⟩,
    fun n hstuck => ?_⟩
  replace hw := hw.within hrq
  have hlabels := decode_labelsBelow hstraight hgiven
  obtain ⟨m0, -, hm0, -⟩ := Analysis.analyze_eq_ok ha
  obtain ⟨u1, hpasses, hu1⟩ := hw.start_passes hlabels rfl hu (length_parameters ha plan)
    (fun t ht => parameters_below ha plan ht) harguments
  obtain ⟨n1, es, hes, hrun1⟩ := hpasses.run
  obtain ⟨n2, ρ1, hρ, hevents, hreaches⟩ := hw.run_follows hlabels (Analysis.of_ofBody hm0)
    (hpr.trans hrq) hkeeps (le_firstFree context given).1 n hu1 hstuck
  have hrun : P.run q woven (n1 + n2) (.running 0 u') =
      (es ++ (P.run q woven n2 (.running (w.offset 0) u1)).1,
        (P.run q woven n2 (.running (w.offset 0) u1)).2) := hrun1 n2
  -- the run starts at what control reaches first
  have hfirst : 0 < b.insns.length ∧ old 0 = 0 := by
    obtain ⟨k, hk, hold⟩ := hpruned.reached 0 .entry
    refine ⟨by omega, ?_⟩
    by_contra hne
    have := hpruned.thinned.mono 0 k (Nat.pos_of_ne_zero fun h0 => hne (h0 ▸ hold)) hk
    omega
  have hgoes : (P.run q woven (n1 + n2) (.running (old 0) u')).2 ≠ .stuck := by
    rw [hfirst.2, hrun]
    exact hreaches.not_stuck
  obtain ⟨hkept, hwithin, -⟩ := hpruned.run_eq hm (n1 + n2) hfirst.1 (by rw [hfirst.2]; exact .entry) hgoes
  rw [hfirst.2, hrun] at hkept
  have hlist := congrArg Prod.fst hkept
  have hend := congrArg Prod.snd hkept
  simp only at hlist hend
  have hevents' : Erases (WovenFrom.Copies given w) (Store.Like (firstFree context given).toNat ρ1)
      ((P.run q b (n1 + n2) (.running 0 u')).1.map fun e => (old e.1, e.2))
      (P.run p given n (.running 0 u)).1 := by
    rw [← hlist]
    exact Erases.reports (fun e he i hi => hes e he i hi.1 hi.2) hevents
  have hreaches' : Reaches N (fun i k => k = w.offset i) (firstFree context given).toNat ρ1
      (P.run p given n (.running 0 u)).2 ((P.run q b (n1 + n2) (.running 0 u')).2.renumber old) := by
    rw [← hend]
    exact hreaches
  refine ⟨n1 + n2, ρ1, hρ, hevents'.renumber fun e he i => ?_, hreaches'.renumber⟩
  constructor
  · rintro ⟨hi, hk⟩
    have hinsn := List.getElem?_eq_getElem hi
    refine ⟨_, hinsn, ?_, hk⟩
    rw [← hpruned.thinned.insn e.1 (hwithin e he), hk]
    exact hw.insn_at_copy hinsn
  · rintro ⟨insn, hinsn, -, hk⟩
    exact ⟨(List.getElem?_eq_some_iff.1 hinsn).1, hk⟩

end Transparent

/-! ### A quotient by zero -/

/-- A pool with the method that `quotient` calls. -/
def absolutePool : Pool :=
  .ofSlots [some (.utf8 "java/lang/Math"), some (.classRef 1), some (.utf8 "abs"),
    some (.utf8 "(I)I"), some (.nameAndType 3 4), some (.methodRef 2 5)]

/-- The absolute value of the quotient of two numbers, or zero where there is none. -/
def quotient : CodeAttribute where
  maxStack := 2
  maxLocals := 2
  code := [0x1a, 0x1b, 0x6c, 0xb8, 0x00, 0x06, 0xac, 0x57, 0x03, 0xac]
  exceptions := [⟨0, 7, 7, 0⟩]
  attributes := [.lineNumberTable [⟨0, 10⟩]]

def quotientBody : Body where
  insns := [.label 0, .line 10, .var Op.iload 0, .var Op.iload 1, .simple Op.idiv,
    .method Op.invokestatic 6, .simple Op.ireturn, .label 1, .simple Op.pop, .simple Op.iconst0,
    .simple Op.ireturn]
  tryCatch := [⟨0, 1, 1, 0⟩]
  maxStack := 2
  maxLocals := 2
  nextLabel := 2

/-- The method of two numbers that `quotient` is the code of. -/
def ofTwoNumbers : MethodContext :=
  ⟨"demo/Sample", Access.staticFlag, "quotient", ⟨[.int, .int], .int⟩⟩

def lineReports : WeavePlan where
  space := "default"
  listener := 1
  loader := 1
  kinds := .ofList [.line]
  className := "demo.Sample"

def sevenAndZero : Machine.platform.Store :=
  ⟨[], [], fun k => if k = 0 then .int 7 else .int 0⟩

theorem absolutePool_sound : absolutePool.Sound :=
  Pool.ofSlots_sound (by decide)

theorem decode_quotient : decode quotient = .ok quotientBody := rfl

theorem quotientBody_keeps :
    WovenFrom.Keeps (fun op => Machine.isOwn op = true) absolutePool quotientBody .int :=
  WovenFrom.keeps_of_all (by decide +kernel)

theorem sevenAndZero_alike :
    Machine.neutral.Alike 2 (fun _ _ => False) sevenAndZero sevenAndZero := by
  refine ⟨⟨nofun, nofun, .nil, nofun, nofun, nofun⟩, .nil, fun k _ => ?_⟩
  change Word.Alike _ (if k = 0 then .int 7 else .int 0) (if k = 0 then .int 7 else .int 0)
  split <;> exact .int _

theorem sevenAndZero_conforms : ∀ t ∈ (WeaveSite.mk lineReports ofTwoNumbers).parameters,
    Machine.platform.Conforms [] t.1 (slotsOf t.1 sevenAndZero.locals t.2.toNat) := by
  intro t ht
  have ht : t ∈ [(JavaType.int, (0 : UInt16)), (.int, 1)] := ht
  rcases List.mem_cons.1 ht with rfl | ht
  · exact ⟨.int 7, trivial⟩
  · rw [List.mem_singleton.1 ht]
    exact ⟨.int 0, trivial⟩

theorem sevenAndZero_returns : ∃ heap, (Machine.platform.run absolutePool quotientBody 9
    (.running 0 sevenAndZero)).2 = .returned [.int 0] heap := by
  have h : (match (Machine.platform.run absolutePool quotientBody 9 (.running 0 sevenAndZero)).2 with
      | .returned value _ => decide (value = [.int 0])
      | _ => false) = true := by decide +kernel
  split at h
  · rename_i value heap hvalue
    exact ⟨heap, by rw [hvalue, of_decide_eq_true h]⟩
  · cases h

/-- The quotient of seven by zero is caught and answered with zero, woven or not. -/
theorem method_transparent_quotient : ∃ c q w b old,
    (method lineReports ofTwoNumbers .flat 49 quotient).run.run absolutePool = (.ok c, q) ∧
    Written ⟨lineReports, ofTwoNumbers⟩ q quotientBody w b old c ∧
    ∃ m, ∃ ρ : Nat → Nat → Prop, ∃ heap,
      Erases (Copied quotientBody w b old) (Store.Like 2 ρ)
        (Machine.platform.run q b m (.running 0 sevenAndZero)).1
        (Machine.platform.run absolutePool quotientBody 9 (.running 0 sevenAndZero)).1 ∧
      (Machine.platform.run q b m (.running 0 sevenAndZero)).2 = .returned [.int 0] heap := by
  have hwoven : ((method lineReports ofTwoNumbers .flat 49 quotient).run.run
      absolutePool).1.toOption.any (fun _ => true) = true := by decide +kernel
  obtain ⟨c, hc, -⟩ := any_toOption.1 hwoven
  have hanalyzed : (analyze quotientBody ofTwoNumbers absolutePool .flat).toOption.any
      (fun _ => true) = true := by decide +kernel
  obtain ⟨a, ha, -⟩ := any_toOption.1 hanalyzed
  generalize hrun : (method lineReports ofTwoNumbers .flat 49 quotient).run.run absolutePool = result
    at hc
  obtain ⟨outcome, q⟩ := result
  obtain rfl : outcome = .ok c := hc
  obtain ⟨w, b, old, hwritten, hruns⟩ := method_transparent Machine.neutral
    absolutePool_sound rfl (by decide +kernel) decode_quotient ha quotientBody_keeps
    hrun sevenAndZero_alike sevenAndZero_conforms
  obtain ⟨heap, hgiven⟩ := sevenAndZero_returns
  obtain ⟨m, ρ, -, hevents, hend⟩ := hruns 9 (by rw [hgiven]; exact nofun)
  rw [hgiven] at hend
  obtain ⟨value, heap', hend, hvalue⟩ := hend.of_returned
  have hvalue : value = [.int 0] := by
    cases hvalue with
    | cons hword hnil =>
      cases hword
      cases hnil
      rfl
  have hfirst : (firstFree ofTwoNumbers quotientBody).toNat = 2 := by decide
  rw [hfirst] at hevents
  rw [hvalue] at hend
  exact ⟨c, q, w, b, old, rfl, hwritten, m, ρ, heap', hevents, hend⟩

end Weave

end Interpose
