import Interpose.Proofs.Execution.Transparent
import Interpose.Proofs.Weave.Round
import Interpose.Proofs.Weave.Layout
/-!
# Weaving a method again and again

Passes weave a method one after the other, each of them what the one before it has left (`Passed`).
What they leave has the layout of their plans (`Layered`): a pass that weaves the instructions of a
method puts its reports around them (`Round.layered_first`), and one that weaves a layout puts its
reports around the method's own instructions and nowhere else (`Round.layered_next`).

Result:
* `passed_reports_once`: after any passes every listener has one report of each kind that it wants
  for each site of the method, and no report is placed inside another one.
-/

namespace Interpose

/-- What is said of a body makes no marker if its instructions make none: a constant that a marker
starts with leads on to what stands behind it. -/
theorem Body.unmarked_spoken {b : Body} {i : Nat} {insns : List Insn} {half half' : Bool}
    (hat : ∀ n insn, insns[n]? = some insn → b.insns[i + n]? = some insn)
    (h : unmarked half insns = true) (hhalf : half' = true → half = true ∧ b.Reached i) :
    unmarked half' (b.spoken i insns) = true := by
  induction insns generalizing i half half' with
  | nil => rfl
  | cons insn insns ih =>
    have hinsn : b.insns[i]? = some insn := hat 0 insn rfl
    have hrest : ∀ n insn', insns[n]? = some insn' → b.insns[i + 1 + n]? = some insn' := fun n insn' hn => by
      rw [Nat.add_assoc, Nat.add_comm 1]
      exact hat (n + 1) insn' hn
    cases hreal : insn.isPseudo with
    | true =>
      rw [unmarked_pseudo hreal] at h
      have hbehind := ih hrest h fun he =>
        ⟨(hhalf he).1, (hhalf he).2.step (.next hinsn (Insn.isTerminal_pseudo hreal) rfl)⟩
      by_cases hlive : b.Live i
      · rw [Body.spoken_cons hlive]
        cases insn with
        | label l => exact hbehind
        | line n => exact hbehind
        | _ => cases hreal
      · rw [Body.spoken_cons_dead hlive]
        exact hbehind
    | false =>
      rw [unmarked_real hreal, Bool.and_eq_true, Bool.not_eq_true'] at h
      by_cases hlive : b.Live i
      · have hreached := (Body.live_iff_reached hinsn hreal).1 hlive
        obtain ⟨x, hx⟩ : ∃ x, insn.wording = some x := by
          cases insn <;> first | exact ⟨_, rfl⟩ | cases hreal
        obtain ⟨hpseudo, hishalf, hpop⟩ := Insn.marker_of_wording hx
        rw [Body.spoken_cons hlive, hx, Option.toList_some, List.singleton_append,
          unmarked_real (hpseudo.trans hreal), hpop, hishalf, Bool.and_eq_true]
        refine ⟨?_, ih hrest h.2 fun he => ⟨he, hreached.step (.next hinsn ?_ rfl)⟩⟩
        · cases half' with
          | false => rfl
          | true =>
            rw [(hhalf rfl).1] at h
            rw [h.1]
            rfl
        · simp only [Insn.isHalf, Bool.or_eq_true, beq_iff_eq] at he
          rcases he with rfl | rfl <;> rfl
      · rw [Body.spoken_cons_dead hlive]
        refine ih hrest h.2 fun he => absurd ((hhalf he).2) fun hreached => ?_
        exact hlive ((Body.live_iff_reached hinsn hreal).2 hreached)

open Element Template

open Classical in
/-- Segments of live instructions are what is said of these with what is woven around it. -/
theorem renders_live {b : Body} {q : Pool} {context : MethodContext} {plan : WeavePlan} {insns : List Insn}
    {gs : List Segment} {zss : List (List Insn)} {i : Nat}
    (hgs : List.Forall₂ (fun x g => Composes context (x.wording.toList.flatMap fun x => woven plan (.own x))
      (Segment.templates g)) insns gs)
    (hzss : List.Forall₂ (fun g z => SettleAll q (Segment.templates g) z) gs zss) :
    ∃ cs, ((zss.zipIdx i).flatMap fun x => if b.Live x.2 then wording x.1 else []) = cs.flatten ∧
      List.Forall₂ (Renders q context) ((b.spoken i insns).flatMap fun x => woven plan (.own x)) cs := by
  induction hgs generalizing zss i with
  | nil =>
    cases hzss
    exact ⟨[], rfl, .nil⟩
  | cons hg _ ih =>
    cases hzss with
    | cons hz hzss =>
      obtain ⟨cs, hcs, hrenders⟩ := ih (i := i + 1) hzss
      rw [List.zipIdx_cons, List.flatMap_cons]
      by_cases hlive : b.Live i
      · obtain ⟨ds, hds, hrenders'⟩ := hg.renders hz
        refine ⟨ds ++ cs, by rw [if_pos hlive, hds, hcs, List.flatten_append], ?_⟩
        rw [Body.spoken_cons hlive, List.flatMap_append]
        exact List.rel_append hrenders' hrenders
      · refine ⟨cs, by rw [if_neg hlive, hcs, List.nil_append], ?_⟩
        rw [Body.spoken_cons_dead hlive]
        exact hrenders

namespace Weave

open WeaveSite

namespace Round

variable {s : WeaveSite} {p q : Pool} {given again : Body} {entry entry' : Nat}
  (R : Round s q given entry again)

open Classical in
/-- What is said from the entry point on, once it is known of the segments. -/
theorem renders_around {es : List Element} (hmatches : R.Matches entry')
    (hsegments : ∀ zss, List.Forall₂ (fun g z => SettleAll q (Segment.templates g) z) R.parts.segments zss →
      ∃ cs, ((zss.zipIdx entry).flatMap fun x => if given.Live x.2 then wording x.1 else []) = cs.flatten ∧
        List.Forall₂ (Renders q s.context) es cs) :
    ∃ cs, wording (again.insns.drop entry') = cs.flatten ∧
      List.Forall₂ (Renders q s.context) (wanted s.plan .before ++ (es ++ Element.left s.plan)) cs := by
  obtain ⟨bs, zss, fs, hbs, hzss, hfs, -, hspreads⟩ := R.spreads hmatches
  obtain ⟨before, hbefore, hbefores⟩ := R.made.rebuilt.before_composes.renders hbs
  obtain ⟨middle, hmiddle, hmiddles⟩ := hsegments zss hzss
  obtain ⟨finish, hfinish, hfinishes⟩ := R.made.rebuilt.finish_composes.renders hfs
  rw [hbefore, hmiddle, hfinish, ← List.flatten_append, ← List.flatten_append] at hspreads
  exact renders_spreads (List.rel_append hbefores (List.rel_append hmiddles hfinishes)) hspreads

/-- The instructions of a method get the layout of one plan. -/
theorem layered_first (hmatches : R.Matches entry') (hmarks : unmarked false (given.insns.drop entry) = true) :
    ∃ cs, wording (again.insns.drop entry') = cs.flatten ∧ List.Forall₂ (Renders q s.context)
      (laid [s.plan] (given.spoken entry (given.insns.drop entry))) cs := by
  rw [← laid_one]
  refine R.renders_around hmatches fun zss hzss => ?_
  exact renders_live (R.made.rebuilt.segments.outside rfl hmarks) hzss

open Classical in
omit R in
/-- Where everything is live, all segments are said. -/
theorem spoken_all {gs : List Segment} {pos : Position} {l : Label} {insns : List Insn} {i : Nat}
    {zss : List (List Insn)} (hgs : s.Segments pos l insns gs)
    (hzss : List.Forall₂ (fun g z => SettleAll q (Segment.templates g) z) gs zss)
    (hlive : ∀ n insn, insns[n]? = some insn → (∀ l, insn ≠ .label l) → given.Live (i + n)) :
    ((zss.zipIdx i).flatMap fun x => if given.Live x.2 then wording x.1 else []) = wording zss.flatten := by
  induction hgs generalizing zss i with
  | nil =>
    cases hzss
    rfl
  | @cons p l insn rest gs m _ ih =>
    cases hzss with
    | @cons _ zs _ zss hz hzss =>
      have hrest := ih (i := i + 1) hzss fun n x hn hx => by
        rw [Nat.add_assoc, Nat.add_comm 1]
        exact hlive (n + 1) x hn hx
      have hfirst : (if given.Live i then wording zs else []) = wording zs := by
        by_cases hlabel : ∃ l, insn = .label l
        · obtain ⟨l', rfl⟩ := hlabel
          rw [segment_label] at hz
          cases hz with
          | cons hz hnil =>
            cases hz
            cases hnil
            exact ite_self _
        · exact if_pos (hlive 0 insn rfl fun l he => hlabel ⟨l, he⟩)
      rw [List.zipIdx_cons, List.flatMap_cons, hrest, hfirst, List.flatten_cons, wording_append]

omit R in
theorem settleAll_flatten {gs : List Segment} {zss : List (List Insn)}
    (h : List.Forall₂ (fun g z => SettleAll q (Segment.templates g) z) gs zss) :
    SettleAll q (gs.flatMap Segment.templates) zss.flatten := by
  induction h with
  | nil => exact .nil
  | cons hz _ ih =>
    rw [List.flatMap_cons, List.flatten_cons]
    exact List.rel_append hz ih

/-- A layout, all of which control reaches, gets one more plan. -/
theorem layered_next {plans : List WeavePlan} {insns : List Insn} {cs : List (List Insn)}
    (hmatches : R.Matches entry') (hpq : p.Within q)
    (hall : ∀ i insn, given.insns[i]? = some insn → insn.isPseudo = false → given.Reached i)
    (hwords : wording (given.insns.drop entry) = cs.flatten)
    (hcs : List.Forall₂ (Renders p s.context) (laid plans insns) cs) (hmarks : unmarked false insns = true) :
    ∃ ds, wording (again.insns.drop entry') = ds.flatten ∧ List.Forall₂ (Renders q s.context)
      (laid (plans ++ [s.plan]) insns) ds := by
  rw [← laid_snoc]
  refine R.renders_around hmatches fun zss hzss => ?_
  have hlive : ∀ n insn, (given.insns.drop entry)[n]? = some insn → (∀ l, insn ≠ .label l) →
      given.Live (entry + n) := fun n insn hn hlabel =>
    R.tidy.led.live_of_all hall (List.getElem?_drop.symm.trans hn) hlabel
  rw [spoken_all R.made.rebuilt.segments hzss hlive]
  exact R.made.rebuilt.segments.renders hpq hwords hcs rfl (unmarked_laid hmarks) (settleAll_flatten hzss)

end Round

/-! ## One pass after the other -/

/-- The code that passes for plans leave of a method. Each pass weaves the code that the one before
it has left; between passes the pool may grow. -/
inductive Passed (context : MethodContext) (code : CodeAttribute) (p : Pool) :
    List WeavePlan → CodeAttribute → Pool → Prop
  | start : Passed context code p [] code p
  | pass {plans : List WeavePlan} {plan : WeavePlan} {h : Hierarchy} {major : UInt16} {c c' : CodeAttribute}
    {q q' r : Pool} : Passed context code p plans c q → q.Within q' → q'.Sound →
    (method plan context h major c).run.run q' = (.ok c', r) → Passed context code p (plans ++ [plan]) c' r

/-- A body has the layout of plans that were woven into a method with the given entry point: its own
entry point is at the same invocation, up to there it says what the method says where that is live,
and from there on the same with the reports of the plans around it; and control reaches all of it.
-/
structure Layered (context : MethodContext) (given : Body) (entry : Nat) (plans : List WeavePlan) (q : Pool)
    (final : Body) (entry' : Nat) : Prop where
  enters : ∀ p h e, q.Within p → entryPoint final context p h = .ok e → e = entry'
  front : Spreads (given.spoken 0 (given.insns.take entry)) (wording (final.insns.take entry'))
  rest : ∃ cs, wording (final.insns.drop entry') = cs.flatten ∧ List.Forall₂ (Renders q context)
    (laid plans (given.spoken entry (given.insns.drop entry))) cs
  reached : ∀ i insn, final.insns[i]? = some insn → insn.isPseudo = false → final.Reached i

variable {context : MethodContext} {code c : CodeAttribute} {p q : Pool} {given : Body} {plans : List WeavePlan}

/-- What a round leaves has the layout of its plan. -/
theorem Round.layered {plan : WeavePlan} {h : Hierarchy} {r : Pool} {original again : Body}
    {first entry entry' : Nat}
    (R : Round ⟨plan, context⟩ r given entry again) (hp : p.Within q) (hq : r.Within q)
    (hentry : entryPoint given context p h = .ok entry) (hmatches : R.Matches entry')
    (hfront : Spreads (original.spoken 0 (original.insns.take first))
      (given.spoken 0 (given.insns.take entry)))
    (hrest : ∃ cs, wording (again.insns.drop entry') = cs.flatten ∧ List.Forall₂ (Renders r context)
      (laid plans (original.spoken first (original.insns.drop first))) cs) :
    Layered context original first plans q again entry' where
  enters p' h' e hqp hagain :=
    R.matches_unique (R.enters_again (hp.trans hqp) (hq.trans hqp) hentry hagain) hmatches
  front := by
    obtain ⟨-, -, -, -, -, -, hspreads, -⟩ := R.spreads hmatches
    exact hfront.trans hspreads
  rest := by
    obtain ⟨cs, hcs, hrenders⟩ := hrest
    exact ⟨cs, hcs, hrenders.imp fun _ _ h => h.within hq⟩
  reached _ _ hi hreal := R.reached_again hi hreal

/-- No passes leave the method as it is. -/
theorem Passed.of_none (h : Passed context code p [] c q) : c = code ∧ q = p := by
  generalize hplans : ([] : List WeavePlan) = plans at h
  cases h with
  | start => exact ⟨rfl, rfl⟩
  | pass => exact absurd hplans.symm (List.append_ne_nil_of_right_ne_nil _ (List.cons_ne_nil _ _))

/-- What passes leave can be read again, and it has the layout of their plans. -/
theorem Passed.layered (hp : p.Sound) (hstraight : code.Straight) (hgiven : decode code = .ok given)
    (hmarks : unmarked false given.insns = true) (hpassed : Passed context code p plans c q)
    (hplans : plans ≠ []) :
    c.Straight ∧ ∃ entry final entry', (∃ r h, p.Within r ∧ entryPoint given context r h = .ok entry) ∧
      decode c = .ok final ∧ Layered context given entry plans q final entry' := by
  have hbehind (entry : Nat) : unmarked false (given.insns.drop entry) = true := by
    rw [← List.take_append_drop entry given.insns, unmarked_append, Bool.and_eq_true] at hmarks
    exact unmarked_of_half hmarks.2
  induction hpassed with
  | start => exact absurd rfl hplans
  | @pass plans plan h' major c c' q q' r hpassed hqq hsound hrun ih =>
    cases plans with
    | nil =>
      obtain ⟨rfl, rfl⟩ := hpassed.of_none
      obtain ⟨entry, again, r', hentry, hqr, hrr, -, hstraight', hagain, ⟨R⟩⟩ :=
        round_of_method hsound hstraight hgiven hrun
      obtain ⟨entry', hmatches⟩ := R.exists_matches
      exact ⟨hstraight', entry, again, entry', ⟨q', h', hqq, hentry⟩, hagain,
        R.layered (hqr.trans hrr) hrr hentry hmatches (.refl _) (R.layered_first hmatches (hbehind entry))⟩
    | cons plan' plans =>
      obtain ⟨hstraight', entry, final, middle, hentry, hfinal, hlayered⟩ := ih (List.cons_ne_nil _ _)
      obtain ⟨entry', again, r', hentry', hqr, hrr, -, hstraight'', hagain, ⟨R⟩⟩ :=
        round_of_method hsound hstraight' hfinal hrun
      obtain rfl := hlayered.enters _ _ _ hqq hentry'
      obtain ⟨entry'', hmatches⟩ := R.exists_matches
      obtain ⟨cs, hwords, hcs⟩ := hlayered.rest
      refine ⟨hstraight'', entry, again, entry'', hentry, hagain,
        R.layered (hqr.trans hrr) hrr hentry' hmatches ?_ ?_⟩
      · refine hlayered.front.trans
          (.of_eq (Body.spoken_of_all R.tidy.led hlayered.reached fun n insn hn => ?_).symm)
        rw [List.getElem?_take] at hn
        split at hn
        · rwa [Nat.zero_add]
        · cases hn
      · refine R.layered_next hmatches (hqq.trans hqr) hlayered.reached hwords hcs
          (Body.unmarked_spoken ?_ (hbehind entry) nofun)
        exact fun n insn hn => List.getElem?_drop.symm.trans hn

/-- However often a method is woven, each time for another listener, every listener has one report
of each kind that it wants for each site of such events in what is live of the method: of the start
at the entry point, of a return in front of it, of a source line behind its mark, of an invocation
around it, and of an exception that leaves the method in a handler behind all code. Between these
reports stands what the method says, and in each report stands one invocation of the dispatch method
and none of any other. -/
theorem passed_reports_once (hp : p.Sound) (hstraight : code.Straight) (hgiven : decode code = .ok given)
    (hmarks : unmarked false given.insns = true) (hpassed : Passed context code p plans c q)
    (hplans : plans ≠ [])
    (hdistinct : (plans.map WeavePlan.listener).Nodup) :
    ∃ entry final entry', (∃ r h, p.Within r ∧ entryPoint given context r h = .ok entry) ∧
      decode c = .ok final ∧ Layered context given entry plans q final entry' ∧
      ∀ plan ∈ plans, ∀ k,
        (laid plans (given.spoken entry (given.insns.drop entry))).countP (reports plan.listener k) =
          if plan.kinds.has k = true then sites k (given.spoken entry (given.insns.drop entry)) else 0 := by
  obtain ⟨-, entry, final, entry', hentry, hfinal, hlayered⟩ :=
    hpassed.layered hp hstraight hgiven hmarks hplans
  exact ⟨entry, final, entry', hentry, hfinal, hlayered, fun plan hplan k => countP_laid hplan hdistinct⟩

/-! ### A return that two listeners observe -/

def idle : CodeAttribute where
  maxStack := 0
  maxLocals := 0
  code := [0xb1]
  exceptions := []
  attributes := []

def idleBody : Body where
  insns := [.simple Op.returnVoid]
  tryCatch := []
  maxStack := 0
  maxLocals := 0
  nextLabel := 0

def ofNothing : MethodContext :=
  ⟨"demo/Sample", Access.staticFlag, "rest", ⟨[], .void⟩⟩

def returnReports (listener : Int32) : WeavePlan where
  space := "default"
  listener
  loader := 1
  kinds := .ofList [.return]
  className := "demo.Sample"

/-- The second listener has one report of the return, though the report for the first one may return
early. -/
theorem passed_reports_once_idle : ∃ c q,
    Passed ofNothing idle absolutePool [returnReports 1, returnReports 2] c q ∧
    absolutePool.Sound ∧ idle.Straight ∧ decode idle = .ok idleBody ∧ unmarked false idleBody.insns = true ∧
    ([returnReports 1, returnReports 2].map WeavePlan.listener).Nodup ∧
    ∃ entry final entry', (∃ r h, absolutePool.Within r ∧ entryPoint idleBody ofNothing r h = .ok entry) ∧
      decode c = .ok final ∧
      Layered ofNothing idleBody entry [returnReports 1, returnReports 2] q final entry' ∧
      ∀ plan ∈ [returnReports 1, returnReports 2], ∀ k,
        (laid [returnReports 1, returnReports 2]
            (idleBody.spoken entry (idleBody.insns.drop entry))).countP (reports plan.listener k) =
          if plan.kinds.has k = true then
            sites k (idleBody.spoken entry (idleBody.insns.drop entry)) else 0 := by
  have hrun : ((method (returnReports 1) ofNothing .flat 49 idle >>=
      method (returnReports 2) ofNothing .flat 49).run.run absolutePool).1.toOption.any
      (fun _ => true) = true := by
    decide +kernel
  obtain ⟨c, hc, -⟩ := any_toOption.1 hrun
  generalize hruns : (method (returnReports 1) ofNothing .flat 49 idle >>=
      method (returnReports 2) ofNothing .flat 49).run.run absolutePool = result at hc
  obtain ⟨outcome, q⟩ := result
  obtain rfl : outcome = .ok c := hc
  obtain ⟨c₁, q₁, hfirst, hsecond⟩ := run_bind_eq_ok.1 hruns
  have hstraight : idle.Straight := by decide +kernel
  have hdecode : decode idle = .ok idleBody := rfl
  have hmarks : unmarked false idleBody.insns = true := by decide
  have hdistinct : ([returnReports 1, returnReports 2].map WeavePlan.listener).Nodup := by decide
  obtain ⟨-, -, -, -, -, -, hsound, -⟩ := round_of_method absolutePool_sound hstraight hdecode hfirst
  have hpassed : Passed ofNothing idle absolutePool [returnReports 1, returnReports 2] c q :=
    .pass (.pass .start (.refl _) absolutePool_sound hfirst) (.refl _) hsound hsecond
  exact ⟨c, q, hpassed, absolutePool_sound, hstraight, hdecode, hmarks, hdistinct,
    passed_reports_once absolutePool_sound hstraight hdecode hmarks hpassed (List.cons_ne_nil _ _) hdistinct⟩

end Weave

end Interpose
