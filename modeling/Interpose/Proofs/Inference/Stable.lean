import Interpose.Proofs.Inference.Flow
import Interpose.Proofs.Types.Declared
/-!
# The frames are stable

Once the queue is empty, running the inference on would change nothing: whatever an edge of control
brings to an instruction is in its frame already, declared classes included. Declared classes can
replace a type by one that is not above it, so the order of frames does not carry this. What does is
that a frame, once it has taken a path in, never has to take it in again (`Method.absorbs_takes`).

* `Body.Carries`: what goes along the edges of control.
* `analyze_stable`: taking in again what arrives leaves every frame as it is.
-/

namespace Interpose

/-- The frame that goes along an edge of control, out of an instruction that is executed on a frame. -/
inductive Body.Carries (b : Body) (context : MethodContext) (pool : Pool) (i : Nat) (f : Frame) :
    Nat → Frame → Prop
  | next {insn : Insn} {after : Machine} : b.insns[i]? = some insn → insn.isTerminal = false →
    execute pool context.owner i insn { f with peak := 0 } = .ok after →
    b.Carries context pool i f (i + 1) after.toFrame
  | jump {insn : Insn} {after : Machine} {l : Label} {j : Nat} : b.insns[i]? = some insn →
    l ∈ insn.targets → LastPlace b.insns l j →
    execute pool context.owner i insn { f with peak := 0 } = .ok after →
    b.Carries context pool i f j after.toFrame
  | thrown {insn : Insn} {t : TryCatch} {caught : String} {j : Nat} : b.insns[i]? = some insn →
    insn.isPseudo = false → t ∈ b.tryCatch → t.Covers b.insns i → Analysis.Catches pool t caught →
    LastPlace b.insns t.handler j → b.Carries context pool i f j ⟨f.locals, [.object caught]⟩

/-- The declared frame in front of an instruction, if there is one. -/
def Body.declaredAt (b : Body) (context : MethodContext) (pool : Pool) (i : Nat) : Option Frame :=
  (Interpose.declaredFrames pool context b (labelPositions b.insns))[i]?

namespace Analysis

/-! ## Deliveries stay taken in -/

namespace Method

variable {m : Method}

/-- What is declared in front of an instruction, which may be nothing. -/
def declared (m : Method) (i : Nat) : Frame :=
  m.hints[i]?.getD .undeclared

theorem arrive_first (t : Nat) (g : Frame) : m.arrive t none g = .ok (g.refine (m.declared t)) := by
  rw [arrive_eq]
  unfold declared
  cases m.hints[t]? with
  | none => exact congrArg Except.ok g.refine_undeclared.symm
  | some hint => rfl

theorem arrive_further (t : Nat) (f g : Frame) :
    m.arrive t (some f) g = f.meet m.hierarchy t g (m.declared t) := by
  rw [arrive_eq]
  unfold declared Frame.meet
  cases m.hints[t]? with
  | none =>
    have hid : (fun k : Frame => k.refine .undeclared) = id := funext Frame.refine_undeclared
    simp only [Option.getD_none, Option.elim_none, Option.elim_some, hid]
    rfl
  | some hint => rfl

/-- A frame that has taken in a delivery would not change if it came again. -/
theorem absorbs_takes (hl : m.hierarchy.Lawful) :
    m.Takes fun t f g => f.Absorbs m.hierarchy g (m.declared t) where
  first {t g k} hk := by
    rw [arrive_first] at hk
    cases hk
    exact Frame.refine_absorbs _ _ _
  further hk := by
    rw [arrive_further] at hk
    exact (Frame.meets_of_meet hk).absorbs hl
  keeps hu hk := by
    rw [arrive_further] at hk
    exact (Frame.meets_of_meet hk).keeps hl hu

end Method

section Resolved

variable {b : Body} {context : MethodContext} {pool : Pool} {h : Hierarchy} {m : Method}
  (hof : m.Of b context pool h) {i : Nat} {insn : Insn} {f : Frame} {ds : List (Nat × Frame)}
  {after : Machine} (hi : b.insns[i]? = some insn) (hd : m.deliveries i insn f = .ok (ds, after))
include hof hi hd

/-- Whatever goes along an edge is delivered. -/
theorem Method.Of.mem_deliveries {j : Nat} {g : Frame} (hj : b.Carries context pool i f j g) :
    (j, g) ∈ ds := by
  obtain ⟨hexecute, jumps, next, hjumps, hnext, rfl⟩ := Method.deliveries_eq_ok.1 hd
  rw [hof.pool, hof.context] at hexecute
  have same : ∀ {after' : Machine}, execute pool context.owner i insn { f with peak := 0 } = .ok after' →
      after' = after := fun h => Except.ok.inj (h.symm.trans hexecute)
  cases hj with
  | next hi' ht he =>
    rw [hi] at hi'
    cases hi'
    rw [same he]
    rcases hnext with ⟨ht', -⟩ | ⟨-, -, rfl⟩
    · rw [ht] at ht'
      cases ht'
    · exact List.mem_append_right _ (List.mem_singleton_self _)
  | jump hi' hl hj he =>
    rw [hi] at hi'
    cases hi'
    rw [same he]
    obtain ⟨t, ht, hplace, hframe⟩ := (mem_forall₂ hjumps).1 _ hl
    rw [← ((hof.positions _ _).1 hplace).unique hj, ← hframe]
    exact List.mem_append_left _ (List.mem_append_right _ ht)
  | thrown hi' hr ht hc hcaught hj =>
    rw [hi] at hi'
    cases hi'
    obtain ⟨g, hg, hstart, hstop, hhandler, -, -, hcatches⟩ := (mem_forall₂ hof.guards).1 _ ht
    rw [hof.pool] at hcatches
    rw [hj.unique hhandler, catches_unique hcaught hcatches]
    exact List.mem_append_left _ (List.mem_append_left _
      (Method.mem_toHandlers.2 ⟨hr, g, hg, (Guard.covers_eq_true hstart hstop).2 hc, rfl⟩))

/-- Something goes along every edge. -/
theorem Method.Of.carries {j : Nat} (hj : b.Leads i j) : ∃ g, b.Carries context pool i f j g := by
  obtain ⟨hexecute, -⟩ := Method.deliveries_eq_ok.1 hd
  rw [hof.pool, hof.context] at hexecute
  cases hj with
  | next hi' ht hj =>
    rw [hi] at hi'
    cases hi'
    rw [hj]
    exact ⟨_, .next hi ht hexecute⟩
  | jump hi' hl hj =>
    rw [hi] at hi'
    cases hi'
    exact ⟨_, .jump hi hl hj hexecute⟩
  | thrown hi' hr ht hc hj =>
    obtain ⟨g, -, -, -, -, -, -, hcatches⟩ := (mem_forall₂ hof.guards).1 _ ht
    rw [hof.pool] at hcatches
    exact ⟨_, .thrown hi' hr ht hc hcatches hj⟩

end Resolved

/-! ## The final frames -/

/-- For a hierarchy of least common superclasses and whatever frames are declared: every edge out of
an instruction that has a frame carries one, to an instruction that has a frame, and taking it in there
once more changes nothing. Nor does taking in the initial frame once more, unless a frame is declared
in front of the first instruction. -/
theorem analyze_stable {b : Body} {context : MethodContext} {pool : Pool} {h : Hierarchy}
    {a : Analysis} (hh : h.Semilattice) (ha : analyze b context pool h = .ok a) :
    (∀ i f, a.frame i = some f →
      (∀ j, b.Leads i j → ∃ g, b.Carries context pool i f j g) ∧
      ∀ j g, b.Carries context pool i f j g → ∃ f', a.frame j = some f' ∧
        (f'.merge h j g).map (fun merged => (b.declaredAt context pool j).elim merged merged.refine) =
          .ok f') ∧
    (b.declaredAt context pool 0 = none →
      ∃ f, a.frame 0 = some f ∧ f.merge h 0 (initialFrame context) = .ok f) := by
  obtain ⟨m, -, hm, -⟩ := analyze_eq_ok ha
  have hof := of_ofBody hm
  have hhints : m.hints = Interpose.declaredFrames pool context b (labelPositions b.insns) := by
    rw [(ofBody_eq_ok.1 hm).2]
  have again : ∀ {t : Nat} {f g : Frame}, f.Absorbs m.hierarchy g (m.declared t) →
      (f.merge h t g).map (fun merged => (b.declaredAt context pool t).elim merged merged.refine) =
        .ok f := by
    intro t f g hg
    have := hg.meet_self t
    rw [← Method.arrive_further, Method.arrive_eq, hof.hierarchy, hhints] at this
    exact this
  obtain ⟨hd, f0, h0, hrise⟩ := analyze_taken hm ha
    (Method.absorbs_takes (by rw [hof.hierarchy]; exact hh.lawful))
  refine ⟨fun i f hf => ?_, fun hnone => ⟨f0, h0, ?_⟩⟩
  · cases hinsn : b.insns[i]? with
    | none =>
      refine ⟨fun j hj => ?_, fun j g hj => ?_⟩
      · cases hj <;> simp_all
      · cases hj <;> simp_all
    | some insn =>
      obtain ⟨ds, after, hds, hall⟩ := hd i f insn hf (by rw [hof.insn, hinsn])
      refine ⟨fun j hj => hof.carries hinsn hds hj, fun j g hj => ?_⟩
      obtain ⟨f', hf', htaken⟩ := hall _ (hof.mem_deliveries hinsn hds hj)
      exact ⟨f', hf', again htaken⟩
  · have hself : (initialFrame m.context).Absorbs m.hierarchy (initialFrame m.context)
        (m.declared 0) := by
      have hdeclared : m.declared 0 = .undeclared := by
        unfold Method.declared
        rw [hhints]
        exact congrArg (Option.getD · .undeclared) hnone
      have := Frame.refine_absorbs m.hierarchy (initialFrame m.context) (m.declared 0)
      rw [hdeclared] at this ⊢
      rwa [Frame.refine_undeclared] at this
    have := again (hrise _ hself)
    rw [hnone, hof.context] at this
    obtain ⟨k, hk, he⟩ := map_eq_ok.1 this
    exact hk.trans (congrArg Except.ok he)

/-- A loop that starts with null and goes on with a string, where a class is declared in front of it. -/
def declaredLoop : Body :=
  { Body.ofInsns [.simple Op.aconstNull, .var Op.astore 0, .label 0, .ldc 3, .var Op.astore 0,
      .var Op.aload 0, .jump Op.ifnull 0, .simple Op.returnVoid] with
    declaredFrames := [(0, .full 0 [.object 2] [])] }

def declaredLoopPool : Pool :=
  Pool.ofSlots [some (.utf8 "B"), some (.classRef 1), some (.stringRef 1)]

/-- A string comes back to the head of the loop, which stays of the declared class. -/
theorem analyze_stable_declaredLoop :
    ∃ a, analyze declaredLoop ⟨"A", Access.staticFlag, "f", ⟨[], .void⟩⟩ declaredLoopPool .flat =
        .ok a ∧
      a.frame 6 = some ⟨[.object stringClass], [.object stringClass]⟩ ∧
      ∃ f', a.frame 2 = some f' ∧
        (f'.merge .flat 2 ⟨[.object stringClass], []⟩).map (·.refine ⟨[.object "B"], []⟩) = .ok f' := by
  have hok : (analyze declaredLoop ⟨"A", Access.staticFlag, "f", ⟨[], .void⟩⟩ declaredLoopPool
      .flat).toOption.any
      (·.frame 6 = some ⟨[.object stringClass], [.object stringClass]⟩) := by decide +kernel
  obtain ⟨a, ha, hframe⟩ := any_toOption.1 hok
  have hframe : a.frame 6 = some ⟨[.object stringClass], [.object stringClass]⟩ := by simpa using hframe
  have hlabel : LastPlace declaredLoop.insns 0 2 := labelPositions_eq_some.1 (by decide +kernel)
  have hdeclared : declaredLoop.declaredAt ⟨"A", Access.staticFlag, "f", ⟨[], .void⟩⟩
      declaredLoopPool 2 = some ⟨[.object "B"], []⟩ := by decide +kernel
  obtain ⟨f', hf', hself⟩ := ((analyze_stable Hierarchy.flat_semilattice ha).1 6 _ hframe).2 2 _
    (.jump (l := 0) rfl (List.mem_singleton_self _) hlabel rfl)
  rw [hdeclared] at hself
  exact ⟨a, ha, hframe, f', hf', hself⟩

end Analysis

end Interpose
