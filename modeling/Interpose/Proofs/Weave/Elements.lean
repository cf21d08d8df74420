import Interpose.Proofs.Weave.Reported
/-!
# Elements of woven code

Woven code consists of the instructions of the method, of reports and of a few instructions around
handlers (`Element`). A plan puts the reports that it wants around the instructions of the method
and around nothing else (`Element.woven`). The segments of an instruction outside of reports are its
elements for the plan (`WeaveSite.Segments.outside`), those of the instructions in a report are the
instructions alone (`WeaveSite.Segments.renders`).
-/

namespace Interpose

/-- A part of woven code. -/
inductive Element where
  /-- An instruction of the method, by what it says. -/
  | own (insn : Insn)
  /-- The report of an event for a plan. -/
  | report (plan : WeavePlan) (k : EventKind)
  /-- Leads past a handler, or throws again what was caught. -/
  | link

namespace Element

def wanted (plan : WeavePlan) (k : EventKind) : List Element :=
  if plan.kinds.has k then [report plan k] else []

/-- The report of an invocation that has thrown, behind what leads past it. -/
def caught (plan : WeavePlan) : List Element :=
  if plan.kinds.has .callThrows then [link, report plan .callThrows, link] else []

def woven (plan : WeavePlan) : Element → List Element
  | own (.line n) => own (.line n) :: wanted plan .line
  | own (.simple op) => (if Op.isReturn op then wanted plan .return else []) ++ [own (.simple op)]
  | own (.method op index) => wanted plan .callBefore ++ own (.method op index) ::
      (wanted plan .callReturn ++ caught plan)
  | x => [x]

/-- Whether no own constant that a marker starts with is dropped at once. -/
def unmarked : (half : Bool) → List Element → Bool
  | _, [] => true
  | half, own x :: es =>
    if x.isPseudo then unmarked half es else !(half && x == .simple Op.pop) && unmarked x.isHalf es
  | _, _ :: es => unmarked false es

/-- The report of an exception that leaves the method, which is thrown again. -/
def left (plan : WeavePlan) : List Element :=
  if plan.kinds.has .throws then [report plan .throws, link, link] else []

theorem not_own_wanted (plan : WeavePlan) (k : EventKind) (x : Insn) : own x ∉ wanted plan k := by
  unfold wanted
  split <;> simp

theorem not_own_caught (plan : WeavePlan) (x : Insn) : own x ∉ caught plan := by
  unfold caught
  split <;> simp

theorem not_own_left (plan : WeavePlan) (x : Insn) : own x ∉ left plan := by
  unfold left
  split <;> simp

/-- Around an instruction of the method no other one is woven. -/
theorem own_of_woven {plan : WeavePlan} {x y : Insn} (h : own y ∈ woven plan (own x)) : y = x := by
  cases x with
  | line n => simpa [woven, not_own_wanted] using h
  | simple op =>
    rw [woven, List.mem_append] at h
    rcases h with h | h
    · split at h
      · exact absurd h (not_own_wanted plan _ y)
      · cases h
    · simpa using h
  | method op index => simpa [woven, not_own_wanted, not_own_caught] using h
  | _ => simpa [woven] using h

/-- Instructions that hand on what was caught, or control past a handler. -/
def Links (insns : List Insn) : Prop :=
  insns = [.jump Op.goto 0] ∨ insns = [.simple Op.athrow] ∨ ∃ slot, insns = [.var Op.aload slot]

/-- The instructions are the element, with constants in the pool; branches may be split. -/
def Renders (q : Pool) (context : MethodContext) : Element → List Insn → Prop
  | own x, insns => x.Spread insns
  | report plan k, insns => Reported q ⟨plan, context⟩ k insns
  | link, insns => Links insns

inductive Composes (context : MethodContext) : List Element → List Template → Prop
  | nil : Composes context [] []
  | place (l : Label) {es : List Element} {ts : List Template} : Composes context es ts →
    Composes context es (.place l :: ts)
  | own {i x : Insn} {es : List Element} {ts : List Template} : i.wording = some x →
    Composes context es ts → Composes context (.own x :: es) (.plain i :: ts)
  | report {plan : WeavePlan} {k : EventKind} {es : List Element} {us ts : List Template} :
    Template.Dispatches ⟨plan, context⟩ k us → Composes context es ts →
    Composes context (.report plan k :: es) (Marker.around us ++ ts)
  | link {i : Insn} {es : List Element} {ts : List Template} : Links (i.wording.toList) →
    Composes context es ts → Composes context (.link :: es) (.plain i :: ts)

variable {p q : Pool} {context : MethodContext} {plan : WeavePlan} {x : Element} {es es' : List Element}
  {ts ts' : List Template} {xs ys : List Insn} {cs : List (List Insn)}

theorem Composes.append (h : Composes context es ts) (h' : Composes context es' ts') :
    Composes context (es ++ es') (ts ++ ts') := by
  induction h with
  | nil => exact h'
  | place l _ ih => exact .place l ih
  | own hx _ ih => exact .own hx ih
  | report hus _ ih =>
    rw [List.append_assoc]
    exact .report hus ih
  | link hi _ ih => exact .link hi ih

/-- Templates that are elements settle to them. -/
theorem Composes.renders (h : Composes context es ts) (hxs : Template.SettleAll q ts xs) :
    ∃ cs, wording xs = cs.flatten ∧ List.Forall₂ (Renders q context) es cs := by
  induction h generalizing xs with
  | nil =>
    cases hxs
    exact ⟨[], rfl, .nil⟩
  | place l _ ih =>
    cases hxs with
    | cons hi hxs =>
      cases hi
      rw [wording_cons]
      exact ih hxs
  | @own i x _ _ hx _ ih =>
    cases hxs with
    | cons hi hxs =>
      cases hi
      obtain ⟨cs, hcs, hrenders⟩ := ih hxs
      exact ⟨[x] :: cs, by rw [wording_cons, hx, hcs]; rfl, .cons (.whole x) hrenders⟩
  | report hus _ ih =>
    obtain ⟨zs, zs', rfl, hzs, hzs'⟩ := forall₂_append_left hxs
    obtain ⟨cs, hcs, hrenders⟩ := ih hzs'
    exact ⟨wording zs :: cs, by rw [wording_append, hcs]; rfl, .cons (hus.reported hzs) hrenders⟩
  | @link i _ _ hlinks _ ih =>
    cases hxs with
    | cons hi hxs =>
      cases hi
      obtain ⟨cs, hcs, hrenders⟩ := ih hxs
      exact ⟨i.wording.toList :: cs, by rw [wording_cons, hcs]; rfl, .cons hlinks hrenders⟩

/-- Elements settle to instructions that a reader can answer, if the own ones are such. -/
theorem Composes.standard (h : Composes context es ts) (hown : ∀ x, Element.own x ∈ es → x.Standard)
    (hxs : Template.SettleAll q ts xs) : ∀ x ∈ xs, x.Standard := by
  induction h generalizing xs with
  | nil =>
    cases hxs
    exact fun _ hx => nomatch hx
  | place l _ ih =>
    cases hxs with
    | cons hi hxs =>
      cases hi
      exact List.forall_mem_cons.2 ⟨trivial, ih hown hxs⟩
  | own hx _ ih =>
    cases hxs with
    | cons hi hxs =>
      cases hi
      exact List.forall_mem_cons.2 ⟨(Insn.standard_wording hx).1 (hown _ (List.mem_cons_self ..)),
        ih (fun x hx => hown x (List.mem_cons_of_mem _ hx)) hxs⟩
  | report hus _ ih =>
    obtain ⟨zs, zs', rfl, hzs, hzs'⟩ := forall₂_append_left hxs
    exact List.forall_mem_append.2 ⟨WeaveSite.standard_of_dispatches _ hus hzs,
      ih (fun x hx => hown x (List.mem_cons_of_mem _ hx)) hzs'⟩
  | @link i _ _ hlinks _ ih =>
    cases hxs with
    | cons hi hxs =>
      cases hi
      refine List.forall_mem_cons.2 ⟨?_, ih (fun x hx => hown x (List.mem_cons_of_mem _ hx)) hxs⟩
      obtain ⟨x, hx, hstandard⟩ : ∃ x, i.wording = some x ∧ x.Standard := by
        rcases hlinks with h | h | ⟨slot, h⟩ <;>
          exact ⟨_, Option.toList_eq_singleton_iff.1 h, rfl⟩
      exact (Insn.standard_wording hx).1 hstandard

theorem Renders.within (hpq : p.Within q) (h : Renders p context x xs) : Renders q context x xs := by
  cases x with
  | report plan k => exact Reported.within hpq h
  | _ => exact h

/-- Branches may be split further. -/
theorem Renders.spreads (h : Renders q context x xs) (hs : Spreads xs ys) : Renders q context x ys := by
  cases x with
  | own x => exact Insn.Spread.trans h hs
  | report plan k => exact Reported.spreads h hs
  | link =>
    have hwhole : ys = xs := by
      rcases h with rfl | rfl | ⟨slot, rfl⟩
      · exact Spreads.of_jumps (n := 1) hs
      · exact hs.eq_of_whole (by simp)
      · exact hs.eq_of_whole (by simp)
    rwa [hwhole]

theorem renders_spreads (h : List.Forall₂ (Renders q context) es cs) (hs : Spreads cs.flatten ys) :
    ∃ ds, ys = ds.flatten ∧ List.Forall₂ (Renders q context) es ds := by
  induction h generalizing ys with
  | nil =>
    cases hs
    exact ⟨[], rfl, .nil⟩
  | cons hx _ ih =>
    obtain ⟨zs, zs', rfl, hzs, hzs'⟩ := Spreads.append_left (by simpa using hs)
    obtain ⟨ds, rfl, hds⟩ := ih hzs'
    exact ⟨zs :: ds, rfl, .cons (hx.spreads hzs) hds⟩

theorem unmarked_own {half : Bool} {x : Insn} :
    unmarked half (own x :: es) = (Interpose.unmarked half [x] && unmarked (ending half [x]) es) := by
  rw [unmarked, Interpose.unmarked]
  split <;> simp_all [ending, Interpose.unmarked]

theorem unmarked_of_half {half : Bool} (h : unmarked half es = true) : unmarked false es = true := by
  induction es generalizing half with
  | nil => rfl
  | cons x es ih =>
    cases x with
    | own x =>
      rw [unmarked] at h ⊢
      split
      · next hx =>
        rw [if_pos hx] at h
        exact ih h
      · next hx =>
        rw [if_neg hx, Bool.and_eq_true] at h
        rw [h.2]
        rfl
    | _ => exact h

/-- Reports separate what stands around them. -/
theorem unmarked_wanted {half : Bool} {k : EventKind} (h : unmarked half es = true) :
    unmarked half (wanted plan k ++ es) = true := by
  unfold wanted
  split
  · exact unmarked_of_half h
  · exact h

theorem unmarked_caught {half : Bool} (h : unmarked half es = true) :
    unmarked half (caught plan ++ es) = true := by
  unfold caught
  split
  · exact (unmarked_of_half h : unmarked false es = true)
  · exact h

/-- Weaving makes no markers of the method's own instructions. -/
theorem unmarked_woven {half : Bool} (h : unmarked half es = true) :
    unmarked half (es.flatMap (woven plan)) = true := by
  induction es generalizing half with
  | nil => rfl
  | cons x es ih =>
    rw [List.flatMap_cons]
    cases x with
    | own x =>
      cases x with
      | line n => exact unmarked_wanted (ih h)
      | simple op =>
        rw [woven, List.append_assoc]
        rw [unmarked, if_neg (by simp [Insn.isPseudo]), Bool.and_eq_true] at h
        have hown : unmarked half ([own (.simple op)] ++ es.flatMap (woven plan)) = true := by
          rw [List.singleton_append, unmarked, if_neg (by simp [Insn.isPseudo]), h.1, ih h.2]
          rfl
        split
        · exact unmarked_wanted hown
        · exact hown
      | method op index =>
        rw [woven, List.append_assoc]
        refine unmarked_wanted ?_
        rw [unmarked, if_neg (by simp [Insn.isPseudo]), Bool.and_eq_true] at h
        rw [List.cons_append, unmarked, if_neg (by simp [Insn.isPseudo]), h.1, List.append_assoc,
          unmarked_wanted (unmarked_caught (ih h.2))]
        rfl
      | label l => exact ih h
      | _ =>
        rw [unmarked, if_neg (by simp [Insn.isPseudo]), Bool.and_eq_true] at h
        rw [woven, List.singleton_append, unmarked, if_neg (by simp [Insn.isPseudo]), h.1, ih h.2]
        all_goals simp
    | report plan' k => exact ih h
    | link => exact ih h

/-- What the method itself consists of. -/
theorem unmarked_map_own {half : Bool} : unmarked half (xs.map own) = Interpose.unmarked half xs := by
  induction xs generalizing half with
  | nil => rfl
  | cons x xs ih => rw [List.map_cons, unmarked, Interpose.unmarked, ih, ih]

/-- What no instruction of the method is in makes no markers of them. -/
theorem unmarked_foreign {half : Bool} (hnone : ∀ x, own x ∉ es) : unmarked half es = true := by
  induction es generalizing half with
  | nil => rfl
  | cons e es ih =>
    cases e with
    | own x => exact absurd (List.mem_cons_self ..) (hnone x)
    | _ => exact ih fun x hx => hnone x (List.mem_cons_of_mem _ hx)

theorem unmarked_behind {half : Bool} (h : unmarked half es = true) (hnone : ∀ x, own x ∉ es') :
    unmarked half (es ++ es') = true := by
  induction es generalizing half with
  | nil => exact unmarked_foreign hnone
  | cons e es ih =>
    cases e with
    | own x =>
      rw [List.cons_append, unmarked]
      rw [unmarked] at h
      split
      · rename_i hx
        rw [if_pos hx] at h
        exact ih h
      · rename_i hx
        rw [if_neg hx, Bool.and_eq_true] at h
        rw [h.1, ih h.2]
        rfl
    | _ => exact ih h

end Element

open Element Template

/-! ## Segments -/

/-- Whether an instruction is one that a plan may weave something around: a source line, a return or an
invocation. -/
def Insn.isEvent : Insn → Bool
  | line _ | method _ _ => true
  | simple op => Op.isReturn op
  | _ => false

namespace EventKinds

/-- A set without a flag in common with that of invocations has none of their kinds. -/
theorem has_of_not_meets {s : EventKinds} (h : s.meets calls = false) {k : EventKind}
    (hk : k ∈ [EventKind.callBefore, .callReturn, .callThrows]) : s.has k = false := by
  have hzero : s.bits &&& calls.bits = 0 := by simpa [meets] using h
  have hflag : calls.bits &&& k.flag = k.flag := by
    simp only [List.mem_cons, List.not_mem_nil, or_false] at hk
    rcases hk with rfl | rfl | rfl <;> rfl
  rw [has, ← hflag, ← UInt8.and_assoc, hzero, UInt8.zero_and, hflag]
  cases k <;> rfl

end EventKinds

namespace WeaveSite

variable (s : WeaveSite)

theorem composes_wanted {k : EventKind} {ts : List Template}
    (h : s.wants k = true → ∃ us, ts = Marker.around us ∧ Dispatches s k us)
    (hnot : s.wants k = false → ts = []) :
    Composes s.context (wanted s.plan k) ts := by
  cases hk : s.wants k with
  | true =>
    obtain ⟨us, rfl, hus⟩ := h hk
    rw [wanted, if_pos (show s.plan.kinds.has k = true from hk), ← List.append_nil (Marker.around us)]
    exact .report hus .nil
  | false =>
    rw [hnot hk, wanted, if_neg (by rw [show s.plan.kinds.has k = false from hk]; decide)]
    exact .nil

theorem composes_callReturn (l : Label) :
    Composes s.context (wanted s.plan .callReturn) (s.callReturnReport l) :=
  s.composes_wanted (fun hk => s.callReturnReport_dispatches hk l) fun hk => by simp [callReturnReport, hk]

/-- What stands behind an invocation with a handler of its own. -/
theorem composes_guardedBack (hwants : s.wants .callThrows = true) (l : Label) :
    Composes s.context (wanted s.plan .callReturn ++ caught s.plan) (s.guardedBack l) := by
  obtain ⟨us, hus, hdispatches⟩ := s.callThrowsReport_dispatches (l + 4 + s.callReturnLabels)
  rw [guardedBack, hus, caught, if_pos (show s.plan.kinds.has .callThrows = true from hwants)]
  refine .place _ ((s.composes_callReturn (l + 4)).append ?_)
  exact .link (.inl rfl) (.place _ (.report hdispatches (.link (.inr (.inl rfl)) (.place _ .nil))))

/-- An invocation with its reports. -/
theorem composes_call (line : Int32) (m : MemberRef) (op : Opcode) (index : UInt16) (l : Label) :
    Composes s.context (woven s.plan (.own (.method op index)))
      (s.callSegment line m (.method op index) l).templates := by
  have guarded : ∀ l, Composes s.context
      (.own (.method op index) :: (wanted s.plan .callReturn ++ caught s.plan))
      (s.guardedSegment (.method op index) l).templates := by
    intro l
    unfold guardedSegment
    cases hk : s.wants .callThrows with
    | true => exact .place _ (.own rfl (s.composes_guardedBack hk l))
    | false =>
      have hk : s.plan.kinds.has .callThrows = false := hk
      rw [caught, if_neg (by rw [hk]; decide), List.append_nil]
      exact .own rfl (s.composes_callReturn l)
  unfold callSegment
  cases hk : s.wants .callBefore with
  | true =>
    have h := (s.composes_wanted (fun _ => s.callBeforeReport_dispatches line m l)
      (by simp [hk])).append (guarded (l + 2))
    simpa [woven, Segment.templates] using h
  | false =>
    have hk : s.plan.kinds.has .callBefore = false := hk
    rw [woven, wanted, if_neg (by rw [hk]; decide)]
    exact guarded l

/-- Outside of reports, the segment of an instruction is what it says with what is woven around it. -/
theorem segment_composes (p : Position) (l : Label) (m : MemberRef) {i x : Insn} (hx : i.wording = some x)
    (hout : (p.scan.observe i).inside = false) :
    Composes s.context (woven s.plan (.own x)) (s.segment p l m i).templates := by
  have bare : woven s.plan (.own x) = [.own x] →
      Composes s.context (woven s.plan (.own x)) ({ insn := i : Segment }).templates := by
    intro hbare
    rw [hbare]
    exact .own hx .nil
  cases i with
  | label l' => cases hx
  | line n =>
    obtain rfl : Insn.line n = x := Option.some.inj hx
    simp only [segment, Position.after_scan, hout, Bool.not_false, Bool.and_true]
    cases hk : s.wants .line with
    | true => exact .own rfl (s.composes_wanted (fun _ => s.lineReport_dispatches n l) (by simp [hk]))
    | false =>
      have hk : s.plan.kinds.has .line = false := hk
      exact bare (by simp [woven, wanted, hk])
  | simple op =>
    obtain rfl : Insn.simple op = x := Option.some.inj hx
    simp only [segment, Position.after_scan, hout, Bool.not_false, Bool.and_true]
    cases h : Op.isReturn op && s.wants .return with
    | true =>
      rw [Bool.and_eq_true] at h
      rw [woven, if_pos h.1]
      exact (s.composes_wanted (fun _ => s.returnReport_dispatches l) (by simp [h.2])).append
        (.own rfl .nil)
    | false =>
      refine bare ?_
      rw [woven]
      by_cases hreturn : Op.isReturn op = true
      · have hk : s.wants .return = false := by simpa [hreturn] using h
        have hk : s.plan.kinds.has .return = false := hk
        simp [wanted, hk]
      · simp [hreturn]
  | method op index =>
    obtain rfl : Insn.method op index = x := Option.some.inj hx
    simp only [segment, Position.after_scan, hout, Bool.not_false, Bool.and_true]
    cases hmeets : s.plan.kinds.meets EventKinds.calls with
    | true => exact s.composes_call _ m op index l
    | false =>
      have none : ∀ k ∈ [EventKind.callBefore, .callReturn, .callThrows], s.plan.kinds.has k = false :=
        fun k hk => EventKinds.has_of_not_meets hmeets hk
      refine bare ?_
      simp [woven, wanted, caught, none .callBefore (by simp), none .callReturn (by simp),
        none .callThrows (by simp)]
  | _ =>
    obtain rfl := Option.some.inj hx
    exact bare rfl

/-- In a report nothing is woven around an instruction. -/
theorem segment_inside (p : Position) (l : Label) (m : MemberRef) (i : Insn)
    (hin : (p.scan.observe i).inside = true) : s.segment p l m i = { insn := i } := by
  cases i <;> simp [segment, hin]

theorem segment_plain (p : Position) (l : Label) (m : MemberRef) {i : Insn} (hplain : i.isEvent = false) :
    s.segment p l m i = { insn := i } := by
  cases i with
  | line _ | method _ _ => cases hplain
  | simple op =>
    have hplain : Op.isReturn op = false := hplain
    simp [segment, hplain]
  | _ => rfl

/-! ## Runs of instructions -/

theorem forall₂_map_plain {q : Pool} {insns xs : List Insn} (h : SettleAll q (insns.map Template.plain) xs) :
    xs = insns := by
  induction insns generalizing xs with
  | nil =>
    cases h
    rfl
  | cons i insns ih =>
    cases h with
    | cons hi h =>
      cases hi
      rw [ih h]

theorem flatMap_bare {q : Pool} {insns xs : List Insn}
    (h : SettleAll q ((insns.map fun i => ({ insn := i } : Segment)).flatMap Segment.templates) xs) :
    xs = insns := by
  rw [templates_bare] at h
  exact forall₂_map_plain h

namespace Segments

variable {s : WeaveSite} {p : Position} {l : Label} {insns xs ys : List Insn} {gs : List Segment}

theorem append (h : s.Segments p l (xs ++ ys) gs) : ∃ gs₁ gs₂ l', gs = gs₁ ++ gs₂ ∧ s.Segments p l xs gs₁ ∧
    s.Segments (xs.foldl Position.after p) l' ys gs₂ := by
  induction xs generalizing p l gs with
  | nil => exact ⟨[], gs, l, rfl, .nil, h⟩
  | cons x xs ih =>
    cases h with
    | cons m h =>
      obtain ⟨gs₁, gs₂, l', rfl, h₁, h₂⟩ := ih h
      exact ⟨_ :: gs₁, gs₂, l', rfl, .cons m h₁, h₂⟩

theorem foldl_after_scan : (xs.foldl Position.after p).scan = xs.foldl MarkerScan.observe p.scan := by
  induction xs generalizing p with
  | nil => rfl
  | cons x xs ih => exact ih

/-- Outside of reports every instruction is copied with what is woven around it. -/
theorem outside (h : s.Segments p l insns gs) (hscan : p.scan.inside = false)
    (hunmarked : unmarked p.scan.pending.isSome insns = true) :
    List.Forall₂ (fun i g => Composes s.context (i.wording.toList.flatMap fun x => woven s.plan (.own x))
      (Segment.templates g)) insns gs := by
  induction h with
  | nil => exact .nil
  | @cons p l i rest gs m _ ih =>
    have hone : unmarked p.scan.pending.isSome [i] = true ∧
        unmarked (ending p.scan.pending.isSome [i]) rest = true := by
      rw [← Bool.and_eq_true, ← unmarked_append]
      exact hunmarked
    obtain ⟨hinside, hpending⟩ := MarkerScan.foldl_observe hone.1
    refine .cons ?_ (ih (hinside.trans hscan) ?_)
    · cases hx : i.wording with
      | none =>
        cases i with
        | label l' => exact .place l' .nil
        | _ => cases hx
      | some x =>
        rw [Option.toList_some, List.flatMap_singleton]
        exact s.segment_composes p l m hx (hinside.trans hscan)
    · exact (congrArg (unmarked · rest) hpending).trans hone.2

/-- In a report nothing is woven around instructions. -/
theorem inside (h : s.Segments p l insns gs) (hscan : p.scan.inside = true)
    (hunmarked : unmarked p.scan.pending.isSome insns = true) :
    gs = insns.map fun i => { insn := i } := by
  induction h with
  | nil => rfl
  | @cons p l i rest gs m _ ih =>
    have hone : unmarked p.scan.pending.isSome [i] = true ∧
        unmarked (ending p.scan.pending.isSome [i]) rest = true := by
      rw [← Bool.and_eq_true, ← unmarked_append]
      exact hunmarked
    obtain ⟨hinside, hpending⟩ := MarkerScan.foldl_observe hone.1
    rw [s.segment_inside p l m i (hinside.trans hscan),
      ih (hinside.trans hscan) ((congrArg (unmarked · rest) hpending).trans hone.2)]
    rfl

/-- Around most instructions nothing is woven anywhere. -/
theorem plain (h : s.Segments p l insns gs) (hplain : ∀ i ∈ insns, i.isEvent = false) :
    gs = insns.map fun i => { insn := i } := by
  induction h with
  | nil => rfl
  | @cons p l i rest gs m _ ih =>
    rw [s.segment_plain p l m (hplain i (List.mem_cons_self ..)),
      ih fun i hi => hplain i (List.mem_cons_of_mem _ hi)]
    rfl

theorem plain_of_wording (h : s.Segments p l insns gs) (hplain : ∀ x ∈ wording insns, x.isEvent = false) :
    gs = insns.map fun i => { insn := i } := by
  refine h.plain fun i hi => ?_
  cases hx : i.wording with
  | none => cases i <;> first | rfl | cases hx
  | some x =>
    rw [← hplain x (List.mem_filterMap.2 ⟨i, hi, hx⟩)]
    cases i <;> cases hx <;> rfl

/-- The instructions of a report are copied as they are. -/
theorem report {q : Pool} {s' : WeaveSite} {k : EventKind} (h : s.Segments p l insns gs)
    (hreport : Reported q s' k (wording insns)) : gs = insns.map fun i => { insn := i } := by
  obtain ⟨u, operands, index, v, hwording, -, -, -, -, hunmarked⟩ := hreport
  obtain ⟨o, m, rfl, ho, hm⟩ := List.filterMap_eq_append_iff.1 hwording
  obtain ⟨m, c, rfl, hm, hc⟩ := List.filterMap_eq_append_iff.1 hm
  obtain ⟨go, gs, l₁, rfl, hgo, h⟩ := h.append
  obtain ⟨gm, gc, l₂, rfl, hgm, hgc⟩ := h.append
  have hscan : (o.foldl Position.after p).scan = ⟨true, none⟩ := by
    rw [foldl_after_scan, ← MarkerScan.foldl_observe_wording, wording, ho]
    simp only [opened, List.foldl_cons, List.foldl_nil, MarkerScan.observe_half (.inl rfl)]
    rfl
  rw [hgo.plain_of_wording (by rw [wording, ho]; decide), hgc.plain_of_wording (by rw [wording, hc]; decide),
    hgm.inside (by rw [hscan]) (by rw [hscan, ← unmarked_wording, wording, hm]; exact hunmarked),
    List.map_append, List.map_append]

end Segments

/-- What a reader knows behind an own instruction. -/
theorem observe_own {x : Insn} {is : List Insn} {scan : MarkerScan} (hx : x.Spread (wording is))
    (hscan : scan.inside = false) (hunmarked : unmarked scan.pending.isSome [x] = true) :
    (is.foldl MarkerScan.observe scan).inside = false ∧
      (is.foldl MarkerScan.observe scan).pending.isSome = ending scan.pending.isSome [x] := by
  have hspreads : Spreads [x] (wording is) := by simpa using Spreads.cons hx .nil
  rw [← hspreads.unmarked_eq, unmarked_wording] at hunmarked
  obtain ⟨hinside, hpending⟩ := MarkerScan.foldl_observe hunmarked
  rw [← hspreads.ending_eq, ending_wording]
  exact ⟨hinside.trans hscan, hpending⟩

namespace Segments

variable {s : WeaveSite} {p : Position} {l : Label} {insns xs : List Insn} {gs : List Segment} {q r : Pool}

/-- An own instruction is copied with what is woven around it. -/
theorem renders_own {x : Insn} (h : s.Segments p l insns gs) (hx : x.Spread (wording insns))
    (hscan : p.scan.inside = false) (hunmarked : unmarked p.scan.pending.isSome [x] = true)
    (hxs : SettleAll r (gs.flatMap Segment.templates) xs) :
    ∃ ds, wording xs = ds.flatten ∧ List.Forall₂ (Renders r s.context) (woven s.plan (.own x)) ds := by
  have hspreads : Spreads [x] (wording insns) := by simpa using Spreads.cons hx .nil
  rw [← hspreads.unmarked_eq, unmarked_wording] at hunmarked
  generalize hwords : wording insns = words at hx
  cases hx with
  | whole =>
    have hall : ∀ {is : List Insn} {gs : List Segment}, List.Forall₂ (fun i g => Composes s.context
        (i.wording.toList.flatMap fun x => woven s.plan (.own x)) (Segment.templates g)) is gs →
        Composes s.context ((wording is).flatMap fun x => woven s.plan (.own x))
          (gs.flatMap Segment.templates) := by
      intro is gs hgs
      induction hgs with
      | nil => exact .nil
      | cons hg _ ih =>
        rw [wording_cons, List.flatMap_append, List.flatMap_cons]
        exact hg.append ih
    have hcomposes := hall (h.outside hscan hunmarked)
    rw [hwords, List.flatMap_singleton] at hcomposes
    exact hcomposes.renders hxs
  | @split op other n hop =>
    rw [h.plain_of_wording (by
      rw [hwords]
      intro y hy
      rcases List.mem_cons.1 hy with rfl | hy
      · rfl
      · rw [(List.mem_replicate.1 hy).2]
        rfl)] at hxs
    rw [flatMap_bare hxs, hwords]
    exact ⟨[.jump other 0 :: List.replicate n (.jump Op.goto 0)], by simp, .cons (.split n hop) .nil⟩

/-- Instructions that are elements are copied with what is woven around the elements. -/
theorem renders {es : List Element} {cs : List (List Insn)} (h : s.Segments p l insns gs) (hqr : q.Within r)
    (hwords : wording insns = cs.flatten) (hcs : List.Forall₂ (Renders q s.context) es cs)
    (hscan : p.scan.inside = false) (hunmarked : Element.unmarked p.scan.pending.isSome es = true)
    (hxs : SettleAll r (gs.flatMap Segment.templates) xs) :
    ∃ ds, wording xs = ds.flatten ∧ List.Forall₂ (Renders r s.context) (es.flatMap (woven s.plan)) ds := by
  induction hcs generalizing p l insns gs xs with
  | nil =>
    have hnil : wording insns = [] := hwords
    rw [h.plain_of_wording (by rw [hnil]; simp)] at hxs
    rw [flatMap_bare hxs]
    exact ⟨[], hnil, .nil⟩
  | @cons x c es cs hx _ ih =>
    obtain ⟨is, rest, rfl, his, hrest⟩ := List.filterMap_eq_append_iff.1 (show _ = c ++ cs.flatten from hwords)
    obtain ⟨gs₁, gs₂, l', rfl, h₁, h₂⟩ := h.append
    rw [List.flatMap_append] at hxs
    obtain ⟨zs, zs', rfl, hzs, hzs'⟩ := forall₂_append_left hxs
    have his : wording is = c := his
    have key : (∃ ds, wording zs = ds.flatten ∧ List.Forall₂ (Renders r s.context) (woven s.plan x) ds) ∧
        (is.foldl Position.after p).scan.inside = false ∧
        Element.unmarked (is.foldl Position.after p).scan.pending.isSome es = true := by
      rw [foldl_after_scan]
      subst his
      cases x with
      | own x =>
        rw [Element.unmarked_own, Bool.and_eq_true] at hunmarked
        obtain ⟨hinside, hpending⟩ := observe_own hx hscan hunmarked.1
        exact ⟨h₁.renders_own hx hscan hunmarked.1 hzs, hinside,
          (congrArg (Element.unmarked · es) hpending).trans
          hunmarked.2⟩
      | report plan k =>
        rw [h₁.report hx] at hzs
        rw [flatMap_bare hzs, ← MarkerScan.foldl_observe_wording, Reported.foldl_observe hx]
        exact ⟨⟨[wording is], by simp, .cons (Renders.within hqr hx) .nil⟩, rfl, hunmarked⟩
      | link =>
        obtain ⟨y, hy, hevent, hreal, hpop, hhalf⟩ : ∃ y, wording is = [y] ∧ y.isEvent = false ∧
            y.isPseudo = false ∧ y ≠ .simple Op.pop ∧ y.isHalf = false := by
          rcases hx with hx | hx | ⟨slot, hx⟩ <;> exact ⟨_, hx, rfl, rfl, by first | decide | simp, rfl⟩
        rw [h₁.plain_of_wording (by rw [hy]; simpa using hevent)] at hzs
        rw [flatMap_bare hzs]
        obtain ⟨hinside, hpending⟩ := observe_own (hy ▸ Insn.Spread.whole y) hscan
          (by simp [hpop, unmarked])
        refine ⟨⟨[wording is], by simp, .cons hx .nil⟩, hinside, ?_⟩
        rw [hpending, show ending p.scan.pending.isSome [y] = false by simp [ending, hreal, hhalf]]
        exact hunmarked
    obtain ⟨⟨ds, hds, hrenders⟩, hscan', hunmarked'⟩ := key
    obtain ⟨ds', hds', hrenders'⟩ := ih h₂ hrest hscan' hunmarked' hzs'
    exact ⟨ds ++ ds', by rw [wording_append, hds, hds', List.flatten_append],
      List.rel_append hrenders hrenders'⟩

end Segments

end WeaveSite

end Interpose
