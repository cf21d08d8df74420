import Interpose.Proofs.Inference.Run
import Interpose.Proofs.Types.Transfer
/-!
# What type inference finds

The frames of an analysis are the least ones that accept whatever control brings to them, for a
hierarchy of least common superclasses and a body without declared frames.

* `analyze_accepts`: every frame accepts every state that arrives there.
* `analyze_least`: what accepts every state that arrives accepts the frame.
* `analyze_reached`: an instruction has a frame if and only if control can reach it.
-/

namespace Interpose

def Analysis.frame (a : Analysis) (i : Nat) : Option Frame :=
  (a.frames[i]?).join

/-! ## Declared frames -/

section Declared

variable {pool : Pool} {positions : Std.TreeMap Label Nat} {i : Nat} {f : Frame}

/-- A declared frame goes to the instruction that its label is placed at. -/
def hint (positions : Std.TreeMap Label Nat) (hints : Std.TreeMap Nat Frame) (d : Label × Frame) :
    Std.TreeMap Nat Frame :=
  match positions[d.1]? with
  | some i => hints.insert i d.2
  | none => hints

theorem declaredFrames_of_ok {context : MethodContext} {b : Body} {frames : List (Label × Frame)}
    (h : expandFrames pool (initialFrame context).locals b.declaredFrames = .ok frames) :
    declaredFrames pool context b positions = frames.foldl (hint positions) ∅ := by
  unfold declaredFrames
  rw [h]
  rfl

theorem declared_of_expandFrames {locals : List VType} {ds : List (Label × StackMapFrame)}
    {frames : List (Label × Frame)} (h : expandFrames pool locals ds = .ok frames) :
    ∀ x ∈ frames, ∃ d ∈ ds, d.1 = x.1 := by
  induction ds generalizing locals frames with
  | nil =>
    intro x hx
    cases h
    cases hx
  | cons d ds ih =>
    intro x hx
    obtain ⟨frame, -, h⟩ := bind_eq_ok.1 h
    obtain ⟨others, hothers, h⟩ := bind_eq_ok.1 h
    cases h
    rcases List.mem_cons.1 hx with rfl | hx
    · exact ⟨d, List.mem_cons_self .., rfl⟩
    · obtain ⟨d', hd', e⟩ := ih hothers x hx
      exact ⟨d', List.mem_cons_of_mem _ hd', e⟩

/-- Of the frames whose labels are placed at an instruction, the last one stays there. -/
theorem foldl_hint_eq (frames : List (Label × Frame)) (hints : Std.TreeMap Nat Frame) :
    (frames.foldl (hint positions) hints)[i]? =
      ((frames.reverse.find? fun x => positions[x.1]? = some i).map (·.2)).or hints[i]? := by
  induction frames generalizing hints with
  | nil => rfl
  | cons x frames ih =>
    rw [List.foldl_cons, ih, List.reverse_cons, List.find?_append, Option.map_or, Option.or_assoc]
    congr 1
    unfold hint
    cases hx : positions[x.1]? with
    | none => simp [hx]
    | some k =>
      rw [Std.TreeMap.getElem?_insert]
      by_cases hk : k = i
      · simp [hx, hk]
      · simp [hx, hk]

/-- Frames are declared where their labels are placed. -/
theorem exists_declared {context : MethodContext} {b : Body}
    (h : (declaredFrames pool context b positions)[i]? = some f) :
    ∃ d ∈ b.declaredFrames, positions[d.1]? = some i := by
  cases hframes : expandFrames pool (initialFrame context).locals b.declaredFrames with
  | error e =>
    unfold declaredFrames at h
    rw [hframes] at h
    simp at h
  | ok frames =>
    rw [declaredFrames_of_ok hframes] at h
    rw [foldl_hint_eq, Std.TreeMap.getElem?_emptyc, Option.or_none, Option.map_eq_some_iff] at h
    obtain ⟨x, hfound, -⟩ := h
    obtain ⟨d, hd, e⟩ := declared_of_expandFrames hframes x
      (List.mem_reverse.1 (List.mem_of_find?_eq_some hfound))
    have hplace := List.find?_some hfound
    exact ⟨d, hd, by rwa [decide_eq_true_eq, ← e] at hplace⟩

end Declared

namespace Analysis

/-! ## The resolved method -/

theorem ofBody_eq_ok {b : Body} {context : MethodContext} {pool : Pool} {h : Hierarchy}
    {m : Method} :
    Method.ofBody b context pool h = .ok m ↔
      List.Forall₂ (fun t g => guard pool b.insns.toArray (labelPositions b.insns) t = .ok g)
        b.tryCatch m.guards ∧
      m = { pool, context, hierarchy := h, code := b.insns.toArray,
            positions := labelPositions b.insns, guards := m.guards,
            hints := declaredFrames pool context b (labelPositions b.insns) } := by
  unfold Method.ofBody
  constructor
  · intro hm
    obtain ⟨guards, hg, hm⟩ := bind_eq_ok.1 hm
    cases hm
    exact ⟨mapM_eq_ok.1 hg, rfl⟩
  · rintro ⟨hg, hm⟩
    exact bind_eq_ok.2 ⟨m.guards, mapM_eq_ok.2 hg, congrArg Except.ok hm.symm⟩

structure Method.Of (m : Method) (b : Body) (context : MethodContext) (pool : Pool)
    (h : Hierarchy) : Prop where
  pool : m.pool = pool
  context : m.context = context
  hierarchy : m.hierarchy = h
  code : m.code = b.insns.toArray
  positions : ∀ l i, m.positions[l]? = some i ↔ LastPlace b.insns l i
  guards : List.Forall₂ (fun t g =>
    LastPlace b.insns t.start g.start ∧ LastPlace b.insns t.stop g.stop ∧
    LastPlace b.insns t.handler g.handler.target ∧ g.start < g.stop ∧
    anyReal b.insns.toArray g.start g.stop = true ∧ Catches m.pool t g.handler.caught)
    b.tryCatch m.guards

theorem of_ofBody {b : Body} {context : MethodContext} {pool : Pool} {h : Hierarchy} {m : Method}
    (hm : Method.ofBody b context pool h = .ok m) : m.Of b context pool h := by
  obtain ⟨hg, e⟩ := ofBody_eq_ok.1 hm
  have hp : m.positions = labelPositions b.insns := by rw [e]
  have hpool : m.pool = pool := by rw [e]
  refine ⟨hpool, by rw [e], by rw [e], by rw [e], fun l i => ?_, hg.imp fun t g hg => ?_⟩
  · rw [hp, labelPositions_eq_some]
  · rw [hpool]
    rw [guard_eq_ok, labelPositions_eq_some, labelPositions_eq_some, labelPositions_eq_some] at hg
    exact hg

theorem Method.Of.insn {b : Body} {context : MethodContext} {pool : Pool} {h : Hierarchy}
    {m : Method} (hm : m.Of b context pool h) (i : Nat) : m.code[i]? = b.insns[i]? := by
  rw [hm.code, List.getElem?_toArray]

theorem Method.Of.size {b : Body} {context : MethodContext} {pool : Pool} {h : Hierarchy}
    {m : Method} (hm : m.Of b context pool h) : m.code.size = b.insns.length := by
  rw [hm.code, List.size_toArray]

theorem Method.Of.inRange {b : Body} {context : MethodContext} {pool : Pool} {h : Hierarchy}
    {m : Method} (hm : m.Of b context pool h) : m.InRange := by
  refine ⟨fun l i hl => ?_, fun g hg => ?_⟩
  · rw [hm.size]
    exact ((hm.positions l i).1 hl).lt
  · obtain ⟨k, hk⟩ := List.mem_iff_get.1 hg
    have hl := hm.guards.length_eq
    have := (hm.guards.get (i := k.1) (by omega) k.2).2.2.1
    rw [hk] at this
    rw [hm.size]
    exact this.lt

/-! ## The analysis of a body -/

/-- A body is analysed when its labels and protected ranges resolve, its inference comes to an end,
and stack and local variables stay within their bounds. -/
theorem analyze_iff {b : Body} {context : MethodContext} {pool : Pool} {h : Hierarchy}
    {a : Analysis} :
    analyze b context pool h = .ok a ↔ ∃ m p, Method.ofBody b context pool h = .ok m ∧
      jumpTargets b.insns m.positions m.guards = .ok a.branchTargets ∧ 0 < m.code.size ∧
      (∃ limit, (Progress.start m b.maxLocals.toNat).run m limit = .ok p) ∧
      p.maxStack ≤ 0xFFFF ∧ p.maxLocals ≤ 0xFFFF ∧ a.frames = p.frames ∧
      a.maxStack = UInt16.ofNat p.maxStack ∧ a.maxLocals = UInt16.ofNat p.maxLocals := by
  unfold analyze
  constructor
  · intro ha
    obtain ⟨m, hm, ha⟩ := bind_eq_ok.1 ha
    obtain ⟨targets, ht, ha⟩ := bind_eq_ok.1 ha
    by_cases hempty : m.code.isEmpty = true
    · simp only [hempty, if_true] at ha
      cases ha
    simp only [hempty] at ha
    obtain ⟨p, hp, ha⟩ := bind_eq_ok.1 ha
    by_cases hs : p.maxStack > 0xFFFF
    · simp only [hs, if_true] at ha
      cases ha
    simp only [hs, if_false] at ha
    by_cases hl : p.maxLocals > 0xFFFF
    · simp only [hl, if_true] at ha
      cases ha
    simp only [hl, if_false] at ha
    cases ha
    rw [Array.isEmpty_iff] at hempty
    exact ⟨m, p, hm, ht, Array.size_pos_iff.2 hempty, Progress.finish_eq_ok.1 hp,
      Nat.le_of_not_lt hs, Nat.le_of_not_lt hl, rfl, rfl, rfl⟩
  · rintro ⟨m, p, hm, ht, hpos, hrun, hs, hl, hf, hms, hml⟩
    refine bind_eq_ok.2 ⟨m, hm, bind_eq_ok.2 ⟨_, ht, ?_⟩⟩
    have hempty : ¬ m.code.isEmpty = true := fun h => by
      rw [Array.isEmpty_iff] at h
      exact Array.size_pos_iff.1 hpos h
    simp only [hempty]
    refine bind_eq_ok.2 ⟨p, Progress.finish_eq_ok.2 hrun, ?_⟩
    simp only [Nat.not_lt.2 hs, Nat.not_lt.2 hl, if_false]
    obtain ⟨frames, targets, maxStack, maxLocals⟩ := a
    cases hf
    cases hms
    cases hml
    rfl

/-- What it takes for a body to be analysed. -/
theorem analyze_eq_ok {b : Body} {context : MethodContext} {pool : Pool} {h : Hierarchy}
    {a : Analysis} (ha : analyze b context pool h = .ok a) :
    ∃ m p, Method.ofBody b context pool h = .ok m ∧
      jumpTargets b.insns m.positions m.guards = .ok a.branchTargets ∧ 0 < m.code.size ∧
      (∃ limit, (Progress.start m b.maxLocals.toNat).run m limit = .ok p) ∧ a.frames = p.frames ∧
      p.maxLocals ≤ 0xFFFF ∧ a.maxStack.toNat = p.maxStack := by
  obtain ⟨m, p, hm, ht, hpos, hrun, hs, hl, hf, hms, -⟩ := analyze_iff.1 ha
  refine ⟨m, p, hm, ht, hpos, hrun, hf, hl, ?_⟩
  rw [hms]
  exact UInt16.toNat_ofNat_of_lt (Nat.lt_succ_of_le hs)

theorem analyze_size {b : Body} {context : MethodContext} {pool : Pool} {h : Hierarchy}
    {a : Analysis} (ha : analyze b context pool h = .ok a) : a.frames.size = b.insns.length := by
  obtain ⟨m, p, hm, -, hpos, ⟨limit, hrun⟩, hf, -⟩ := analyze_eq_ok ha
  rw [hf, ← (of_ofBody hm).size]
  exact (Progress.run_coherent Progress.start_coherent hrun).frames

/-- The receiver and the parameters of a method that can be analysed have room in its local variables. -/
theorem analyze_room {b : Body} {context : MethodContext} {pool : Pool} {h : Hierarchy}
    {a : Analysis} (ha : analyze b context pool h = .ok a) :
    (initialFrame context).locals.length ≤ 0xFFFF := by
  obtain ⟨m, p, hm, -, -, ⟨limit, hrun⟩, -, hroom, -⟩ := analyze_eq_ok ha
  have hstart : (initialFrame m.context).locals.length ≤
      (Progress.start m b.maxLocals.toNat).maxLocals := Nat.le_max_left _ _
  have := Progress.run_maxLocals hrun
  rw [(of_ofBody hm).context] at hstart
  omega

/-! ## What control brings -/

/-- What control brings to an instruction of a method whose frames are known: the initial frame to
the first instruction, and to the successors of an instruction what it makes of its frame. -/
inductive Arrives (m : Method) (frames : Nat → Option Frame) : Nat → Frame → Prop
  | entry : Arrives m frames 0 (initialFrame m.context)
  | edge {i insn f ds after t} : frames i = some f → m.code[i]? = some insn →
    m.deliveries i insn f = .ok (ds, after) → t ∈ ds → Arrives m frames t.1 t.2

structure Leads (m : Method) (i j : Nat) : Prop where
  insn : ∃ insn, m.code[i]? = some insn ∧
    ((insn.isPseudo = false ∧ ∃ g ∈ m.guards, g.covers i = true ∧ j = g.handler.target) ∨
      (∃ l ∈ insn.targets, m.positions[l]? = some j) ∨
      (insn.isTerminal = false ∧ j = i + 1))

inductive Reached (m : Method) : Nat → Prop
  | entry : Reached m 0
  | step {i j} : Reached m i → Leads m i j → Reached m j

theorem Method.leads_of_deliveries {m : Method} {i : Nat} {insn : Insn} {f : Frame}
    {ds : List (Nat × Frame)} {after : Machine} (hi : m.code[i]? = some insn)
    (hd : m.deliveries i insn f = .ok (ds, after)) {t : Nat × Frame} (ht : t ∈ ds) :
    Leads m i t.1 := by
  obtain ⟨-, jumps, next, hjumps, hnext, rfl⟩ := deliveries_eq_ok.1 hd
  refine ⟨insn, hi, ?_⟩
  rw [List.mem_append, List.mem_append] at ht
  rcases ht with (ht | ht) | ht
  · obtain ⟨hp, g, hg, hc, rfl⟩ := mem_toHandlers.1 ht
    exact .inl ⟨hp, g, hg, hc, rfl⟩
  · obtain ⟨k, hk⟩ := List.mem_iff_get.1 ht
    have hl := hjumps.length_eq
    have := (hjumps.get (i := k.1) (by omega) k.2).1
    rw [hk] at this
    exact .inr (.inl ⟨_, List.get_mem _ _, this⟩)
  · rcases hnext with ⟨-, rfl⟩ | ⟨hn, -, rfl⟩
    · cases ht
    · rw [List.mem_singleton] at ht
      rw [ht]
      exact .inr (.inr ⟨hn, rfl⟩)

theorem Method.deliveries_of_leads {m : Method} {i j : Nat} {insn : Insn} {f : Frame}
    {ds : List (Nat × Frame)} {after : Machine} (hi : m.code[i]? = some insn)
    (hd : m.deliveries i insn f = .ok (ds, after)) (hl : Leads m i j) : ∃ t ∈ ds, t.1 = j := by
  obtain ⟨-, jumps, next, hjumps, hnext, rfl⟩ := deliveries_eq_ok.1 hd
  obtain ⟨insn', hi', h⟩ := hl.insn
  rw [hi] at hi'
  cases hi'
  simp only [List.mem_append]
  rcases h with ⟨hp, g, hg, hc, rfl⟩ | ⟨l, hl, hj⟩ | ⟨hn, rfl⟩
  · exact ⟨_, .inl (.inl (mem_toHandlers.2 ⟨hp, g, hg, hc, rfl⟩)), rfl⟩
  · obtain ⟨k, hk⟩ := List.mem_iff_get.1 hl
    have hlen := hjumps.length_eq
    have := (hjumps.get (i := k.1) k.2 (by omega)).1
    rw [hk, hj] at this
    exact ⟨_, .inl (.inr (List.get_mem _ _)), (Option.some.inj this).symm⟩
  · rcases hnext with ⟨ht, -⟩ | ⟨-, -, rfl⟩
    · rw [hn] at ht
      cases ht
    · exact ⟨_, .inr (List.mem_singleton_self _), rfl⟩

/-! ## Frames as least fixed points -/

/-- No declared frame names the class of a reference. -/
def Method.Undeclared (m : Method) : Prop :=
  ∀ i : Nat, m.hints[i]? = none

theorem Method.Undeclared.arrive_none {m : Method} (hm : m.Undeclared) (t : Nat) (g : Frame) :
    m.arrive t none g = .ok g := by
  unfold arrive
  rw [hm t]
  rfl

theorem Method.Undeclared.arrive_some {m : Method} (hm : m.Undeclared) (t : Nat) (f g : Frame) :
    m.arrive t (some f) g = f.merge m.hierarchy t g := by
  unfold arrive
  rw [hm t]
  simp only
  cases f.merge m.hierarchy t g <;> rfl

theorem undeclared_ofBody {b : Body} {context : MethodContext} {pool : Pool} {h : Hierarchy}
    {m : Method} (hb : b.declaredFrames = []) (hm : Method.ofBody b context pool h = .ok m) :
    m.Undeclared := by
  intro i
  have e : m.hints = ∅ := by
    rw [(ofBody_eq_ok.1 hm).2]
    simp only [Interpose.declaredFrames, hb, expandFrames]
    rfl
  rw [e]
  simp

/-- Merging climbs in the order of frames. -/
theorem Method.Undeclared.ascends {m : Method} (hm : m.Undeclared) (hl : m.hierarchy.Lawful) :
    m.Ascends (fun f g => f.Accepts m.hierarchy g) where
  refl f := .refl _ f
  trans := Frame.Accepts.trans hl
  first h := by
    rw [hm.arrive_none] at h
    cases h
    exact .refl _ _
  further h := by
    rw [hm.arrive_some] at h
    exact Frame.merge_upper hl h

/-- Related frames are delivered to the same instructions, and stay related. -/
theorem Method.deliveries_under {m : Method} {R : VType → VType → Prop} (hR : Respected id R)
    {i : Nat} {insn : Insn} (hmake : ∀ name, R (.uninitialized i name) (.uninitialized i name))
    {f g : Frame} (hgf : Frame.Under R g f) {ds : List (Nat × Frame)} {after : Machine}
    (hd : m.deliveries i insn f = .ok (ds, after)) :
    ∃ ds' after', m.deliveries i insn g = .ok (ds', after') ∧
      List.Forall₂ (fun t' t => t'.1 = t.1 ∧ Frame.Under R t'.2 t.2) ds' ds := by
  obtain ⟨he, jumps, next, hjumps, hnext, rfl⟩ := deliveries_eq_ok.1 hd
  obtain ⟨after', he', hafter⟩ := execute_under hR (Pool.Within.refl m.pool) hmake
    (m := { g with peak := 0 }) (n := { f with peak := 0 }) ⟨hgf, rfl⟩ he
  have handled : List.Forall₂ (fun t' t => t'.1 = t.1 ∧ Frame.Under R t'.2 t.2)
      (m.toHandlers i insn g) (m.toHandlers i insn f) := by
    unfold toHandlers
    split
    · exact .nil
    · refine List.forall₂_map_left_iff.2 (List.forall₂_map_right_iff.2 (List.forall₂_same.2 ?_))
      intro k _
      exact ⟨rfl, .cons (hR.self _ nofun) .nil, hgf.locals⟩
  -- a jump delivers the frame behind the instruction to the place of its label
  let retype (t : Nat × Frame) : Nat × Frame := (t.1, after'.toFrame)
  refine ⟨m.toHandlers i insn g ++ jumps.map retype ++ next.map retype, after',
    deliveries_eq_ok.2 ⟨he', _, _, ?_, ?_, rfl⟩, ?_⟩
  · exact List.forall₂_map_right_iff.2 (hjumps.imp fun l t ht => ⟨ht.1, rfl⟩)
  · rcases hnext with ⟨ht, rfl⟩ | ⟨ht, hi, rfl⟩
    · exact .inl ⟨ht, rfl⟩
    · exact .inr ⟨ht, hi, rfl⟩
  · have moved : ∀ ts : List (Nat × Frame), (∀ t ∈ ts, t.2 = after.toFrame) →
        List.Forall₂ (fun t' t => t'.1 = t.1 ∧ Frame.Under R t'.2 t.2) (ts.map retype) ts := by
      intro ts hts
      refine List.forall₂_map_left_iff.2 (List.forall₂_same.2 fun t ht => ⟨rfl, ?_⟩)
      rw [hts t ht]
      exact hafter.frame
    refine List.rel_append (List.rel_append handled (moved jumps fun t ht => ?_))
      (moved next fun t ht => ?_)
    · obtain ⟨k, hk⟩ := List.mem_iff_get.1 ht
      have hl := hjumps.length_eq
      have := (hjumps.get (i := k.1) (by omega) k.2).2
      rw [hk] at this
      exact this
    · rcases hnext with ⟨-, rfl⟩ | ⟨-, -, rfl⟩
      · cases ht
      · rw [List.mem_singleton] at ht
        rw [ht]

section Analyzed

variable {b : Body} {context : MethodContext} {pool : Pool} {h : Hierarchy} {m : Method}
  {a : Analysis} (hm : Method.ofBody b context pool h = .ok m)
  (ha : analyze b context pool h = .ok a)
include hm ha

theorem run_of_analyze : 0 < m.code.size ∧ ∃ p limit,
    (Progress.start m b.maxLocals.toNat).run m limit = .ok p ∧ ∀ i, a.frame i = p.frame i := by
  obtain ⟨m', p, hm', -, hpos, ⟨limit, hrun⟩, hf, -⟩ := analyze_eq_ok ha
  rw [hm] at hm'
  cases hm'
  exact ⟨hpos, p, limit, hrun, fun i => by unfold Analysis.frame Progress.frame; rw [hf]⟩

/-- At the end every delivery has been taken in. -/
theorem analyze_taken {takes : Nat → Frame → Frame → Prop} (ht : m.Takes takes) :
    (∀ i f insn, a.frame i = some f → m.code[i]? = some insn →
      ∃ ds after, m.deliveries i insn f = .ok (ds, after) ∧
        ∀ t ∈ ds, ∃ f', a.frame t.1 = some f' ∧ takes t.1 f' t.2) ∧
    ∃ f, a.frame 0 = some f ∧
      ∀ g, takes 0 (initialFrame m.context) g → takes 0 f g := by
  obtain ⟨hpos, p, limit, hrun, hf⟩ := run_of_analyze hm ha
  obtain ⟨hd, hrise⟩ := Progress.run_settled ht (of_ofBody hm).inRange Progress.start_coherent
    Progress.start_settled hrun
  refine ⟨fun i f insn hi hinsn => ?_, ?_⟩
  · rw [hf] at hi
    obtain ⟨ds, after, hds, -, -, hall⟩ := hd i f insn hi hinsn
    exact ⟨ds, after, hds, fun t ht => by rw [hf]; exact hall t ht⟩
  · rw [hf]
    exact hrise 0 _ (by rw [Progress.frame_start, if_pos ⟨rfl, hpos⟩])

/-- At the end every delivery has arrived, in any order in which merging climbs. -/
theorem analyze_delivered {above : Frame → Frame → Prop} (hup : m.Ascends above) :
    (∀ i f insn, a.frame i = some f → m.code[i]? = some insn →
      ∃ ds after, m.deliveries i insn f = .ok (ds, after) ∧
        ∀ t ∈ ds, ∃ f', a.frame t.1 = some f' ∧ above f' t.2) ∧
    ∃ f, a.frame 0 = some f ∧ above f (initialFrame m.context) := by
  obtain ⟨hd, f, hf, hrise⟩ := analyze_taken hm ha hup.takes
  exact ⟨hd, f, hf, hrise _ (hup.refl _)⟩

theorem analyze_arrives {above : Frame → Frame → Prop} (hup : m.Ascends above) {j : Nat} {g : Frame}
    (hj : Arrives m a.frame j g) : ∃ f, a.frame j = some f ∧ above f g := by
  obtain ⟨hd, h0⟩ := analyze_delivered hm ha hup
  cases hj with
  | entry => exact h0
  | edge hi hinsn hds ht =>
    obtain ⟨ds', after', hds', hall⟩ := hd _ _ _ hi hinsn
    rw [hds] at hds'
    cases hds'
    exact hall _ ht

/-- An instruction has a frame exactly when control can reach it. -/
theorem analyze_reached {i : Nat} : (∃ f, a.frame i = some f) ↔ Reached m i := by
  -- every order will do here: the one in which all frames are alike
  have hup : m.Ascends (fun _ _ => True) := ⟨fun _ => trivial, fun _ _ => trivial, fun _ => trivial,
    fun _ => ⟨trivial, trivial⟩⟩
  obtain ⟨hd, h0⟩ := analyze_delivered hm ha hup
  constructor
  · obtain ⟨-, p, limit, hrun, hf⟩ := run_of_analyze hm ha
    rintro ⟨f, hi⟩
    have keeps : m.Keeps (fun i _ => Reached m i) (fun i _ => Reached m i) :=
      ⟨fun hr hinsn hds t ht => .step hr (Method.leads_of_deliveries hinsn hds ht),
        fun hg _ _ => hg⟩
    rw [hf] at hi
    exact Progress.run_kept keeps (Progress.start_all Reached.entry) hrun i f hi
  · intro hr
    induction hr with
    | entry =>
      obtain ⟨f, hf, -⟩ := h0
      exact ⟨f, hf⟩
    | step _ hl ih =>
      obtain ⟨f, hf⟩ := ih
      obtain ⟨insn, hinsn, -⟩ := hl.insn
      obtain ⟨ds, after, hds, hall⟩ := hd _ f insn hf hinsn
      obtain ⟨t, ht, rfl⟩ := Method.deliveries_of_leads hinsn hds hl
      obtain ⟨f', hf', -⟩ := hall t ht
      exact ⟨f', hf'⟩

/-- Every frame accepts whatever control brings to it. -/
theorem analyze_accepts (hl : h.Lawful) (hb : b.declaredFrames = []) {j : Nat} {g : Frame}
    (hj : Arrives m a.frame j g) : ∃ f, a.frame j = some f ∧ f.Accepts h g := by
  have hh := (of_ofBody hm).hierarchy
  have hup := (undeclared_ofBody hb hm).ascends (by rw [hh]; exact hl)
  rw [hh] at hup
  exact analyze_arrives hm ha hup hj

/-- What accepts everything that control brings to an instruction accepts its frame. -/
theorem analyze_least (hl : h.Lawful) (hb : b.declaredFrames = []) {j : Nat} {w f : Frame}
    (hw : ∀ g, Arrives m a.frame j g → w.Accepts h g) (hj : a.frame j = some f) : w.Accepts h f := by
  have hh := (of_ofBody hm).hierarchy
  have hu := undeclared_ofBody hb hm
  have hup := hu.ascends (by rw [hh]; exact hl)
  rw [hh] at hup
  obtain ⟨hd, f0, h0, hf0⟩ := analyze_delivered hm ha hup
  obtain ⟨-, p, limit, hrun, hf⟩ := run_of_analyze hm ha
  -- a frame on the way is below the final one and below all that accepts what arrives in the end
  let low (i : Nat) (k : Frame) : Prop :=
    (∃ f, a.frame i = some f ∧ f.Accepts h k) ∧
      ∀ w : Frame, (∀ g, Arrives m a.frame i g → w.Accepts h g) → w.Accepts h k
  let welcome (i : Nat) (k : Frame) : Prop := ∃ g, Arrives m a.frame i g ∧ g.Accepts h k
  have keeps : m.Keeps low welcome := by
    refine ⟨fun {i k insn ds after} hk hinsn hds t ht => ?_, fun {t e g k} hg he hk => ?_⟩
    · obtain ⟨⟨f, hf, hfk⟩, -⟩ := hk
      obtain ⟨ds', after', hds', -⟩ := hd i f insn hf hinsn
      obtain ⟨ds'', after'', hds'', hall⟩ :=
        Method.deliveries_under (VType.accepts_respected hl) (fun _ => .refl h _) hfk hds'
      rw [hds] at hds''
      cases hds''
      obtain ⟨n, hn⟩ := List.mem_iff_get.1 ht
      have hlen := hall.length_eq
      obtain ⟨e, hacc⟩ := hall.get (i := n.1) n.2 (by omega)
      rw [hn] at e hacc
      refine ⟨_, ?_, hacc⟩
      rw [e]
      exact .edge hf hinsn hds' (List.get_mem _ _)
    · obtain ⟨g', harr, hacc⟩ := hg
      obtain ⟨f, hf, hfg⟩ := analyze_arrives hm ha hup harr
      have hfg' := hfg.trans hl hacc
      cases e with
      | none =>
        rw [hu.arrive_none] at hk
        cases hk
        exact ⟨⟨f, hf, hfg'⟩, fun w hw => (hw g' harr).trans hl hacc⟩
      | some k0 =>
        rw [hu.arrive_some, hh] at hk
        obtain ⟨⟨f', hf', hfk0⟩, hleast⟩ := he k0 rfl
        rw [hf] at hf'
        cases hf'
        have below : ∀ w : Frame, w.Accepts h k0 → w.Accepts h g → w.Accepts h k := by
          intro w hw hwg
          obtain ⟨k', hk', hwk⟩ := Frame.merge_least hl t hw hwg
          rw [hk] at hk'
          cases hk'
          exact hwk
        exact ⟨⟨f, hf, below f hfk0 hfg'⟩, fun w hw =>
          below w (hleast w hw) ((hw g' harr).trans hl hacc)⟩
  have hall := Progress.run_kept keeps
    (Progress.start_all ⟨⟨f0, h0, hf0⟩, fun w hw => hw _ .entry⟩) hrun
  rw [hf] at hj
  exact (hall j f hj).2 w hw

end Analyzed

/-! ## Sites of unfinished objects -/

/-- An object that is not constructed yet was made by one of the first `n` instructions. -/
def Sited (n : Nat) (v : VType) : Prop :=
  ∀ site name, v = .uninitialized site name → site < n

theorem sited_of_ne {n : Nat} {v : VType} (h : ∀ i name, v ≠ .uninitialized i name) : Sited n v :=
  fun i name e => absurd e (h i name)

def SitedFrame (n : Nat) (f : Frame) : Prop :=
  ∀ v ∈ f.locals ++ f.stack, Sited n v

theorem sited_respected (n : Nat) : Respected id (fun v w => v = w ∧ Sited n w) where
  self v h := ⟨rfl, sited_of_ne h⟩
  wide h := by rw [h.1]
  reference h := by rw [h.1]
  element {v w} h := by
    refine ⟨by rw [h.1], sited_of_ne fun i name => ?_⟩
    unfold Machine.elementType
    split
    · split <;> exact nofun
    · exact nofun
    · exact nofun
  this h := by rw [h.1]
  made h := by rw [h.1]; rfl
  maker h := ⟨_, h.1.symm⟩

theorem sitedIn_iff {n : Nat} {f : Frame} :
    SitedFrame n f ↔ Frame.Under (fun v w => v = w ∧ Sited n w) f f := by
  constructor
  · intro h
    refine ⟨List.forall₂_same.2 fun v hv => ⟨rfl, h v (List.mem_append_right _ hv)⟩, fun i w hw => ?_⟩
    exact ⟨w, hw, .inr ⟨rfl, h w (List.mem_append_left _ (List.mem_of_getElem? hw))⟩⟩
  · intro h v hv
    rcases List.mem_append.1 hv with hv | hv
    · obtain ⟨i, hi⟩ := List.mem_iff_getElem?.1 hv
      obtain ⟨w, -, rfl | hw⟩ := h.locals i v hi
      · exact sited_of_ne nofun
      · exact hw.2
    · exact (List.forall₂_same.1 h.stack v hv).2

theorem mergeSlot_sited {h : Hierarchy} {n : Nat} {a b c : VType} (ha : Sited n a)
    (hm : mergeSlot h a b = some c) : Sited n c := by
  rcases mergeSlot_cases h hm with ⟨-, rfl⟩ | ⟨-, -, x, rfl⟩ | ⟨-, -, x, rfl⟩ | ⟨x, y, -, -, rfl⟩
  · exact ha
  · exact sited_of_ne nofun
  · exact sited_of_ne nofun
  · exact sited_of_ne nofun

theorem merge_sited {h : Hierarchy} {n i : Nat} {f g k : Frame} (hf : SitedFrame n f)
    (hm : f.merge h i g = .ok k) : SitedFrame n k := by
  obtain ⟨hs, hls⟩ := Frame.merge_eq_ok.1 hm
  intro c hc
  rcases List.mem_append.1 hc with hc | hc
  · obtain ⟨j, hj⟩ := List.mem_iff_getElem?.1 hc
    rw [hls] at hj
    obtain ⟨a, b, ha, -, rfl⟩ := Frame.getElem?_mergeLocals.1 hj
    cases hab : mergeSlot h a b with
    | none => exact sited_of_ne nofun
    | some c => exact mergeSlot_sited (hf a (List.mem_append_left _ (List.mem_of_getElem? ha))) hab
  · obtain ⟨h1, h2, h3⟩ := Frame.mergeStack_eq_some hs
    obtain ⟨j, hj⟩ := List.mem_iff_getElem?.1 hc
    have hlt := (List.getElem?_eq_some_iff.1 hj).1
    have ha : f.stack[j]? = some f.stack[j] := List.getElem?_eq_getElem (by omega)
    obtain ⟨c', hc', hab⟩ := h3 j f.stack[j] g.stack[j] ha (List.getElem?_eq_getElem (by omega))
    rw [hj] at hc'
    cases hc'
    exact mergeSlot_sited (hf _ (List.mem_append_right _ (List.mem_of_getElem? ha))) hab

theorem refineSlots_sited {n : Nat} {vs hints : List VType} (hvs : ∀ v ∈ vs, Sited n v) :
    ∀ v ∈ Frame.refineSlots vs hints, Sited n v := by
  induction vs generalizing hints with
  | nil => exact hvs
  | cons v vs ih =>
    cases hints with
    | nil => exact hvs
    | cons hint hints =>
      intro w hw
      rcases List.mem_cons.1 hw with rfl | hw
      · unfold Frame.refineSlot
        split
        · split
          · exact sited_of_ne nofun
          · exact hvs v (List.mem_cons_self ..)
        · exact hvs v (List.mem_cons_self ..)
      · exact ih (fun v hv => hvs v (List.mem_cons_of_mem _ hv)) w hw

/-- A declared frame names no unfinished objects. -/
theorem refine_sited {n : Nat} {f declared : Frame} (hf : SitedFrame n f) :
    SitedFrame n (f.refine declared) := by
  intro v hv
  rcases List.mem_append.1 hv with hv | hv
  · exact refineSlots_sited (fun v hv => hf v (List.mem_append_left _ hv)) v hv
  · have hstack : ∀ v ∈ f.stack, Sited n v := fun v hv => hf v (List.mem_append_right _ hv)
    unfold Frame.refine at hv
    simp only at hv
    split at hv
    · exact refineSlots_sited hstack v hv
    · exact hstack v hv

theorem arrive_sited {m : Method} {n t : Nat} {e : Option Frame} {g k : Frame} (hg : SitedFrame n g)
    (he : ∀ f, e = some f → SitedFrame n f) (hk : m.arrive t e g = .ok k) : SitedFrame n k := by
  obtain ⟨merged, hnone, hsome, hk⟩ := Method.arrive_cases hk
  have hmerged : SitedFrame n merged := by
    cases e with
    | none => exact hnone rfl ▸ hg
    | some f => exact merge_sited (he f rfl) (hsome f rfl)
  rcases hk with rfl | ⟨hint, rfl⟩
  · exact hmerged
  · exact refine_sited hmerged

theorem initialFrame_sited (n : Nat) (context : MethodContext) :
    SitedFrame n (initialFrame context) := by
  have slots : ∀ (t : JavaType) (v : VType), v ∈ (VType.ofJava t).slots →
      ∀ i name, v ≠ .uninitialized i name := by
    intro t v hv
    unfold VType.slots at hv
    split at hv
    · rcases List.mem_cons.1 hv with rfl | hv
      · cases t <;> exact nofun
      · rw [List.mem_singleton.1 hv]
        exact nofun
    · rw [List.mem_singleton.1 hv]
      cases t <;> exact nofun
  intro v hv
  refine sited_of_ne ?_
  simp only [initialFrame, List.append_nil, List.mem_append, List.mem_flatMap] at hv
  rcases hv with hv | ⟨t, -, hv⟩
  · split at hv
    · cases hv
    · split at hv
      · rw [List.mem_singleton.1 hv]
        exact nofun
      · rw [List.mem_singleton.1 hv]
        exact nofun
  · exact slots t v hv

/-- An unfinished object in a frame stems from an instruction of the method. -/
theorem analyze_sited {b : Body} {context : MethodContext} {pool : Pool} {h : Hierarchy}
    {m : Method} {a : Analysis} (hm : Method.ofBody b context pool h = .ok m)
    (ha : analyze b context pool h = .ok a) {j : Nat} {f : Frame}
    (hj : a.frame j = some f) : SitedFrame b.insns.length f := by
  obtain ⟨-, p, limit, hrun, hf⟩ := run_of_analyze hm ha
  have keeps : m.Keeps (fun _ f => SitedFrame b.insns.length f)
      (fun _ f => SitedFrame b.insns.length f) := by
    refine ⟨fun {i f insn ds after} hf hinsn hds t ht => ?_, fun hg he hk => arrive_sited hg he hk⟩
    have hlt : i < b.insns.length := by
      rw [(of_ofBody hm).insn] at hinsn
      exact (List.getElem?_eq_some_iff.1 hinsn).1
    have hmake : ∀ name, VType.uninitialized i name = .uninitialized i name ∧
        Sited b.insns.length (.uninitialized i name) := by
      refine fun name => ⟨rfl, fun site _ e => ?_⟩
      cases e
      exact hlt
    obtain ⟨ds', after', hds', hall⟩ := Method.deliveries_under (sited_respected _) hmake
      (sitedIn_iff.1 hf) hds
    rw [hds] at hds'
    cases hds'
    obtain ⟨n, hn⟩ := List.mem_iff_get.1 ht
    have := (hall.get n.2 n.2).2
    rw [hn] at this
    exact sitedIn_iff.2 this
  rw [hf] at hj
  exact Progress.run_kept keeps (Progress.start_all (initialFrame_sited _ _)) hrun j f hj

end Analysis

end Interpose
