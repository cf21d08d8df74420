import Interpose.Proofs.Weave.Elements
/-!
# The layout of code that several plans are woven into

Every plan puts its reports around the instructions of the method: the reports of later plans in
front of a return or behind a source line or an invocation stand closer to it, those of the start
further in front (`Element.site`, `Element.laid`). One more plan woven into a layout makes the
layout of one more plan (`Element.laid_snoc`). A layout has one report of each kind that a plan
wants for each site of such events (`Element.countP_laid`).
-/

namespace Interpose

/-- Whether events of a kind are reported at the instruction. -/
def Insn.isSite (k : EventKind) : Insn → Bool
  | line _ => k = .line
  | simple op => k = .return && Op.isReturn op
  | method _ _ => k = .callBefore || k = .callReturn || k = .callThrows
  | _ => false

/-- The sites of events of a kind: the method itself for its start and its end by an exception,
otherwise the instructions where such events are reported. -/
def sites (k : EventKind) (insns : List Insn) : Nat :=
  if k = .before ∨ k = .throws then 1 else insns.countP (Insn.isSite k)

namespace Element

/-- An instruction of the method with the reports of plans around it. -/
def site (plans : List WeavePlan) : Insn → List Element
  | .line n => own (.line n) :: plans.reverse.flatMap fun plan => wanted plan .line
  | .simple op =>
    (if Op.isReturn op then plans.flatMap fun plan => wanted plan .return else []) ++ [own (.simple op)]
  | .method op index => (plans.flatMap fun plan => wanted plan .callBefore) ++ own (.method op index) ::
      plans.reverse.flatMap fun plan => wanted plan .callReturn ++ caught plan
  | x => [own x]

/-- Instructions of a method from its entry point on, by what they say, with the reports of plans. -/
def laid (plans : List WeavePlan) (insns : List Insn) : List Element :=
  (plans.reverse.flatMap fun plan => wanted plan .before) ++ (insns.flatMap (site plans) ++ plans.flatMap left)

/-- Whether the element is the report of a kind of event for a listener. -/
def reports (listener : Int32) (k : EventKind) : Element → Bool
  | report plan k' => plan.listener = listener && k' = k
  | _ => false

variable {plan : WeavePlan} {plans : List WeavePlan} {es : List Element} {x : Insn} {insns : List Insn}

/-! ## One more plan -/

/-- Nothing is woven around what earlier passes have woven. -/
theorem woven_of_not_own (h : ∀ x, own x ∉ es) : es.flatMap (woven plan) = es := by
  induction es with
  | nil => rfl
  | cons e es ih =>
    rw [List.flatMap_cons, ih fun x hx => h x (List.mem_cons_of_mem _ hx)]
    cases e with
    | own x => exact absurd (List.mem_cons_self ..) (h x)
    | _ => rfl

theorem woven_flatMap {f : WeavePlan → List Element} (h : ∀ plan x, own x ∉ f plan) :
    (plans.flatMap f).flatMap (woven plan) = plans.flatMap f := by
  refine woven_of_not_own fun x hx => ?_
  obtain ⟨_, -, hx⟩ := List.mem_flatMap.1 hx
  exact h _ x hx

theorem not_own_behind (plan : WeavePlan) (x : Insn) :
    own x ∉ wanted plan .callReturn ++ caught plan := fun hx =>
  (List.mem_append.1 hx).elim (not_own_wanted plan _ x) (not_own_caught plan x)

theorem site_snoc : (site plans x).flatMap (woven plan) = site (plans ++ [plan]) x := by
  cases x with
  | line n =>
    rw [site, List.flatMap_cons, woven_flatMap fun plan => not_own_wanted plan _]
    simp [site, woven]
  | simple op =>
    rw [site, List.flatMap_append]
    split
    · rename_i hreturn
      rw [woven_flatMap fun plan => not_own_wanted plan _]
      simp [site, woven, hreturn]
    · rename_i hother
      simp [site, woven, hother]
  | method op index =>
    rw [site, List.flatMap_append, List.flatMap_cons, woven_flatMap fun plan => not_own_wanted plan _,
      woven_flatMap not_own_behind]
    simp [site, woven]
  | _ => rfl

/-- One more plan is woven into a layout. -/
theorem laid_snoc : wanted plan .before ++ ((laid plans insns).flatMap (woven plan) ++ left plan) =
    laid (plans ++ [plan]) insns := by
  rw [laid, List.flatMap_append, List.flatMap_append, woven_flatMap fun plan => not_own_wanted plan _,
    woven_flatMap not_own_left, List.flatMap_assoc]
  simp only [site_snoc]
  simp [laid]

theorem laid_nil : laid [] insns = insns.map own := by
  have hsite : ∀ x, site [] x = [own x] := fun x => by cases x <;> simp [site]
  rw [laid, List.reverse_nil, List.flatMap_nil, List.flatMap_nil, List.nil_append, List.append_nil,
    List.flatMap_congr fun x _ => hsite x, ← List.map_eq_flatMap]

theorem laid_one : wanted plan .before ++ ((insns.flatMap fun x => woven plan (own x)) ++ left plan) =
    laid [plan] insns := by
  rw [← List.nil_append [plan], ← laid_snoc, laid_nil, List.flatMap_map]

/-- A layout makes no markers of the method's own instructions. -/
theorem unmarked_laid (h : Interpose.unmarked false insns = true) :
    unmarked false (laid plans insns) = true := by
  induction plans using List.reverseRecOn with
  | nil =>
    rw [laid_nil, unmarked_map_own]
    exact h
  | append_singleton plans plan ih =>
    rw [← laid_snoc]
    exact unmarked_wanted (unmarked_behind (unmarked_woven ih) (not_own_left plan))

/-! ## Counting -/

section Counting

variable {k k' : EventKind} {listener : Int32}

theorem countP_wanted : (wanted plan k').countP (reports listener k) =
    if plan.listener = listener ∧ k' = k ∧ plan.kinds.has k' = true then 1 else 0 := by
  unfold wanted
  split <;> simp_all [reports]

theorem countP_caught : (caught plan).countP (reports listener k) =
    (wanted plan .callThrows).countP (reports listener k) := by
  unfold caught wanted
  split <;> simp [reports, List.countP_cons]

theorem countP_left : (left plan).countP (reports listener k) =
    (wanted plan .throws).countP (reports listener k) := by
  unfold left wanted
  split <;> simp [reports, List.countP_cons]

variable {f : WeavePlan → List Element}
  (hf : ∀ plan', plan'.listener ≠ plan.listener → (f plan').countP (reports plan.listener k) = 0)
  (hplan : plan ∈ plans) (hdistinct : (plans.map WeavePlan.listener).Nodup)
include hf hplan hdistinct

/-- Of plans with different listeners one alone reports to its listener. -/
theorem countP_plans : (plans.flatMap f).countP (reports plan.listener k) =
    (f plan).countP (reports plan.listener k) := by
  induction plans with
  | nil => cases hplan
  | cons plan' plans ih =>
    rw [List.map_cons, List.nodup_cons] at hdistinct
    rw [List.flatMap_cons, List.countP_append]
    rcases List.mem_cons.1 hplan with rfl | hmem
    · have hrest : (plans.flatMap f).countP (reports plan.listener k) = 0 := by
        refine List.countP_eq_zero.2 fun e he => ?_
        obtain ⟨plan', hplan', he⟩ := List.mem_flatMap.1 he
        exact List.countP_eq_zero.1 (hf plan' fun he => hdistinct.1 (he ▸ List.mem_map_of_mem hplan')) e he
      rw [hrest, Nat.add_zero]
    · rw [hf plan' fun he => hdistinct.1 (he ▸ List.mem_map_of_mem hmem), ih hmem hdistinct.2, Nat.zero_add]

theorem countP_plans_reverse : (plans.reverse.flatMap f).countP (reports plan.listener k) =
    (f plan).countP (reports plan.listener k) := by
  refine countP_plans hf (List.mem_reverse.2 hplan) ?_
  rw [List.map_reverse]
  exact (List.reverse_perm _).nodup_iff.2 hdistinct

end Counting

section Counting

variable {k : EventKind} (hplan : plan ∈ plans) (hdistinct : (plans.map WeavePlan.listener).Nodup)
include hplan hdistinct

/-- A plan has one report of each kind that it wants around an instruction where such events are
reported. -/
theorem countP_site : (site plans x).countP (reports plan.listener k) =
    if plan.kinds.has k = true ∧ x.isSite k = true then 1 else 0 := by
  have hwanted (k' : EventKind) : ∀ plan', plan'.listener ≠ plan.listener →
      (wanted plan' k').countP (reports plan.listener k) = 0 := fun plan' hne => by
    rw [countP_wanted, if_neg fun h => hne h.1]
  have hbehind : ∀ plan', plan'.listener ≠ plan.listener →
      (wanted plan' .callReturn ++ caught plan').countP (reports plan.listener k) = 0 := fun plan' hne => by
    rw [List.countP_append, hwanted _ plan' hne, countP_caught, hwanted _ plan' hne]
  cases x with
  | line n =>
    rw [site, List.countP_cons, countP_plans_reverse (hwanted .line) hplan hdistinct, countP_wanted]
    cases k <;> simp [reports, Insn.isSite]
  | simple op =>
    have hreturn : (if Op.isReturn op = true then plans.flatMap fun plan => wanted plan .return else []).countP
        (reports plan.listener k) =
          if k = .return ∧ plan.kinds.has k = true ∧ Op.isReturn op = true then 1 else 0 := by
      split
      · rename_i hop
        rw [countP_plans (hwanted .return) hplan hdistinct, countP_wanted]
        cases k <;> simp [hop]
      · rename_i hop
        rw [if_neg fun h => hop h.2.2]
        rfl
    rw [site, List.countP_append, hreturn]
    cases k <;> simp [reports, Insn.isSite]
  | method op index =>
    rw [site, List.countP_append, List.countP_cons, countP_plans (hwanted .callBefore) hplan hdistinct,
      countP_plans_reverse hbehind hplan hdistinct, List.countP_append, countP_caught, countP_wanted,
      countP_wanted, countP_wanted]
    cases k <;> simp [reports, Insn.isSite]
  | _ => simp [site, reports, Insn.isSite]

/-- In a layout a plan has one report of each kind that it wants for each site of such events. -/
theorem countP_laid : (laid plans insns).countP (reports plan.listener k) =
    if plan.kinds.has k = true then sites k insns else 0 := by
  have hwanted (k' : EventKind) : ∀ plan', plan'.listener ≠ plan.listener →
      (wanted plan' k').countP (reports plan.listener k) = 0 := fun plan' hne => by
    rw [countP_wanted, if_neg fun h => hne h.1]
  have hleft : ∀ plan', plan'.listener ≠ plan.listener → (left plan').countP (reports plan.listener k) = 0 :=
    fun plan' hne => by rw [countP_left, hwanted _ plan' hne]
  have hinsns : (insns.flatMap (site plans)).countP (reports plan.listener k) =
      if plan.kinds.has k = true then insns.countP (Insn.isSite k) else 0 := by
    induction insns with
    | nil => simp
    | cons x insns ih =>
      rw [List.flatMap_cons, List.countP_append, countP_site hplan hdistinct, ih, List.countP_cons]
      split <;> rename_i hx <;> split <;> simp_all [Nat.add_comm]
  have hnone : k = .before ∨ k = .throws → insns.countP (Insn.isSite k) = 0 := by
    rintro (rfl | rfl) <;> exact List.countP_eq_zero.2 fun x _ => by cases x <;> simp [Insn.isSite]
  rw [laid, List.countP_append, List.countP_append, countP_plans_reverse (hwanted .before) hplan hdistinct,
    countP_plans hleft hplan hdistinct, hinsns, countP_left, countP_wanted, countP_wanted, sites]
  by_cases hwhole : k = .before ∨ k = .throws
  · rw [if_pos hwhole, hnone hwhole]
    rcases hwhole with rfl | rfl <;> simp
  · rw [if_neg hwhole]
    rw [not_or] at hwhole
    simp [Ne.symm hwhole.1, Ne.symm hwhole.2]

end Counting

end Element

end Interpose
