import Interpose.Code.Analysis
import Interpose.Proofs.Code.Labels
/-!
# Runs of the inference

The queue of the inference is a work list: whatever is not queued has delivered what it delivers now.
So when the queue is empty the frames are a fixed point: every edge delivers something that the
frame at its end has taken in (`Settled`). In the other direction, whatever a single delivery preserves
holds of all frames at the end (`Kept`).

* `finish_eq_ok`: the inference comes to its end when some number of steps leads there.
* `run_settled`: at the end of a run every delivery has arrived.
* `run_kept`: a property kept by deliveries holds at the end of a run.
-/

namespace Interpose

namespace Analysis

/-- The instructions that control is sent to are instructions of the method. -/
structure Method.InRange (m : Method) : Prop where
  labels : ∀ (l : Label) (i : Nat), m.positions[l]? = some i → i < m.code.size
  handlers : ∀ g ∈ m.guards, g.handler.target < m.code.size

namespace Method

variable {m : Method}

/-- What an instruction delivers, taken apart. -/
theorem deliveries_eq_ok {i : Nat} {insn : Insn} {f : Frame} {ds : List (Nat × Frame)}
    {after : Machine} :
    m.deliveries i insn f = .ok (ds, after) ↔
      execute m.pool m.context.owner i insn { f with peak := 0 } = .ok after ∧
      ∃ jumps next,
        List.Forall₂ (fun l t => m.positions[l]? = some t.1 ∧ t.2 = after.toFrame) insn.targets jumps ∧
        ((insn.isTerminal = true ∧ next = []) ∨
          (insn.isTerminal = false ∧ i + 1 < m.code.size ∧ next = [(i + 1, after.toFrame)])) ∧
        ds = m.toHandlers i insn f ++ jumps ++ next := by
  unfold deliveries
  constructor
  · intro h
    obtain ⟨after', hafter, h⟩ := bind_eq_ok.1 h
    obtain ⟨jumps, hjumps, h⟩ := bind_eq_ok.1 h
    have targets : List.Forall₂ (fun l t => m.positions[l]? = some t.1 ∧ t.2 = after'.toFrame)
        insn.targets jumps := by
      refine (mapM_eq_ok.1 hjumps).imp fun l t ht => ?_
      obtain ⟨k, hk, e⟩ := bind_eq_ok.1 ht
      cases e
      exact ⟨labelAt_eq_ok.1 hk, rfl⟩
    cases ht : insn.isTerminal with
    | true =>
      simp only [ht, if_true] at h
      cases h
      exact ⟨hafter, jumps, [], targets, .inl ⟨rfl, rfl⟩, rfl⟩
    | false =>
      simp only [ht, Bool.false_eq_true, if_false] at h
      by_cases hi : i + 1 < m.code.size
      · simp only [hi, if_true] at h
        cases h
        exact ⟨hafter, jumps, _, targets, .inr ⟨rfl, hi, rfl⟩, rfl⟩
      · simp only [hi, if_false] at h
        cases h
  · rintro ⟨hafter, jumps, next, hjumps, hnext, rfl⟩
    refine bind_eq_ok.2 ⟨after, hafter, bind_eq_ok.2 ⟨jumps, ?_, ?_⟩⟩
    · refine mapM_eq_ok.2 (hjumps.imp fun l t ht => ?_)
      obtain ⟨k, g⟩ := t
      obtain ⟨hk, rfl⟩ := ht
      exact bind_eq_ok.2 ⟨k, labelAt_eq_ok.2 hk, rfl⟩
    · rcases hnext with ⟨ht, rfl⟩ | ⟨ht, hi, rfl⟩
      · simp only [ht, if_true]
        rfl
      · simp only [ht, hi, Bool.false_eq_true, if_false, if_true]
        rfl

theorem arrive_eq (t : Nat) (e : Option Frame) (g : Frame) : m.arrive t e g =
    (e.elim (.ok g) fun f => f.merge m.hierarchy t g).map
      fun merged => m.hints[t]?.elim merged merged.refine := by
  unfold arrive
  cases m.hints[t]? <;> cases e with
  | none => rfl
  | some f => exact (map_eq_pure_bind _ _).symm

/-- A frame that arrives is merged with the one that is there, if any, and then takes what a declared
frame says. -/
theorem arrive_cases {t : Nat} {e : Option Frame} {g k : Frame} (h : m.arrive t e g = .ok k) :
    ∃ merged, (e = none → merged = g) ∧ (∀ f, e = some f → f.merge m.hierarchy t g = .ok merged) ∧
      (k = merged ∨ ∃ hint, k = merged.refine hint) := by
  rw [arrive_eq] at h
  obtain ⟨merged, hmerged, rfl⟩ := map_eq_ok.1 h
  refine ⟨merged, ?_, ?_, ?_⟩
  · rintro rfl
    exact (Except.ok.inj hmerged).symm
  · rintro f rfl
    exact hmerged
  · cases m.hints[t]? with
    | none => exact .inl rfl
    | some hint => exact .inr ⟨hint, rfl⟩

theorem mem_toHandlers {i : Nat} {insn : Insn} {f : Frame} {t : Nat × Frame} :
    t ∈ m.toHandlers i insn f ↔ insn.isPseudo = false ∧
      ∃ g ∈ m.guards, g.covers i = true ∧ t = (g.handler.target, ⟨f.locals, [.object g.handler.caught]⟩) := by
  unfold toHandlers handlers
  cases insn.isPseudo with
  | true => simp
  | false =>
    simp only [Bool.false_eq_true, if_false, List.mem_map, List.mem_filter, true_and]
    constructor
    · rintro ⟨_, ⟨g, ⟨hg, hc⟩, rfl⟩, rfl⟩
      exact ⟨g, hg, hc, rfl⟩
    · rintro ⟨g, hg, hc, rfl⟩
      exact ⟨_, ⟨g, ⟨hg, hc⟩, rfl⟩, rfl⟩

theorem InRange.deliveries (hm : m.InRange) {i : Nat} {insn : Insn} {f : Frame}
    {ds : List (Nat × Frame)} {after : Machine} (h : m.deliveries i insn f = .ok (ds, after)) :
    ∀ t ∈ ds, t.1 < m.code.size := by
  obtain ⟨-, jumps, next, hjumps, hnext, rfl⟩ := deliveries_eq_ok.1 h
  intro t ht
  rw [List.mem_append, List.mem_append] at ht
  rcases ht with (ht | ht) | ht
  · obtain ⟨-, g, hg, -, rfl⟩ := mem_toHandlers.1 ht
    exact hm.handlers g hg
  · obtain ⟨k, hk⟩ := List.mem_iff_get.1 ht
    have hl := hjumps.length_eq
    have := (hjumps.get (i := k.1) (by omega) k.2).1
    rw [hk] at this
    exact hm.labels _ _ this
  · rcases hnext with ⟨-, rfl⟩ | ⟨-, hi, rfl⟩
    · cases ht
    · rw [List.mem_singleton] at ht
      rw [ht]
      exact hi

end Method

namespace Progress

def frame (p : Progress) (i : Nat) : Option Frame :=
  (p.frames[i]?).join

/-- The numbers of frames and marks fit the method, and what is marked as queued is in the queue. -/
structure Coherent (m : Method) (p : Progress) : Prop where
  frames : p.frames.size = m.code.size
  queued : p.queued.size = m.code.size
  queue : ∀ i, p.queued[i]? = some true → i ∈ p.front ∨ i ∈ p.back

def receive (p : Progress) (target : Nat) (merged : Frame) : Progress :=
  if p.frame target = some merged then p
  else
    let p := { p with frames := p.frames.setIfInBounds target (some merged) }
    if p.queued[target]?.getD true then p
    else { p with queued := p.queued.setIfInBounds target true, back := target :: p.back }

variable {m : Method} {p q : Progress}

theorem deliver_eq_ok {t : Nat} {g : Frame} :
    p.deliver m t g = .ok q ↔ ∃ k, m.arrive t (p.frame t) g = .ok k ∧ q = p.receive t k := by
  have outcome : ∀ k, (if (p.frames[t]?).join = some k then pure p
      else
        let p := { p with frames := p.frames.setIfInBounds t (some k) }
        if p.queued[t]?.getD true then pure p
        else pure { p with queued := p.queued.setIfInBounds t true, back := t :: p.back } :
        Except CodeError Progress) = .ok (p.receive t k) := by
    intro k
    unfold receive frame
    split
    · rfl
    · simp only
      split <;> rfl
  unfold deliver
  rw [bind_eq_ok]
  constructor
  · rintro ⟨k, hk, h⟩
    exact ⟨k, hk, Except.ok.inj (h.symm.trans (outcome k))⟩
  · rintro ⟨k, hk, rfl⟩
    exact ⟨k, hk, outcome k⟩

theorem frame_receive (t : Nat) (k : Frame) (i : Nat) :
    (p.receive t k).frame i = if i = t ∧ t < p.frames.size then some k else p.frame i := by
  have set : ∀ q : Progress, q.frames = p.frames.setIfInBounds t (some k) →
      q.frame i = if i = t ∧ t < p.frames.size then some k else p.frame i := by
    intro q hq
    unfold frame
    rw [hq, Array.getElem?_setIfInBounds]
    by_cases hi : t = i
    · subst hi
      by_cases ht : t < p.frames.size
      · simp [ht]
      · simp [ht]
    · simp [hi, Ne.symm hi]
  unfold receive
  split
  · rename_i he
    split
    · rename_i hi
      rw [hi.1, he]
    · rfl
  · simp only
    split
    · exact set _ rfl
    · exact set _ rfl

theorem receive_maxStack (t : Nat) (k : Frame) : (p.receive t k).maxStack = p.maxStack := by
  unfold receive
  split
  · rfl
  · simp only
    split <;> rfl

theorem receive_maxLocals (t : Nat) (k : Frame) : (p.receive t k).maxLocals = p.maxLocals := by
  unfold receive
  split
  · rfl
  · simp only
    split <;> rfl

/-- An instruction that is not queued after a delivery was not queued before and has its frame. -/
theorem unqueued_receive {t : Nat} {k : Frame} {i : Nat}
    (h : (p.receive t k).queued[i]? = some false) :
    p.queued[i]? = some false ∧ (p.receive t k).frame i = p.frame i := by
  rw [frame_receive]
  unfold receive at h
  split at h
  · rename_i he
    refine ⟨h, ?_⟩
    split
    · rename_i hi
      rw [hi.1, he]
    · rfl
  · simp only at h
    split at h
    · rename_i hq
      refine ⟨h, if_neg ?_⟩
      rintro ⟨rfl, -⟩
      rw [h] at hq
      cases hq
    · rw [Array.getElem?_setIfInBounds] at h
      by_cases hi : t = i
      · rw [if_pos hi] at h
        split at h <;> cases h
      · rw [if_neg hi] at h
        exact ⟨h, if_neg fun e => hi e.1.symm⟩

theorem Coherent.receive (hp : p.Coherent m) (t : Nat) (k : Frame) : (p.receive t k).Coherent m := by
  unfold Progress.receive
  split
  · exact hp
  · simp only
    split
    · exact ⟨by simp [hp.frames], hp.queued, hp.queue⟩
    · refine ⟨by simp [hp.frames], by simp [hp.queued], fun i hi => ?_⟩
      simp only [Array.getElem?_setIfInBounds] at hi
      by_cases hti : t = i
      · exact .inr (by simp [hti])
      · rw [if_neg hti] at hi
        rcases hp.queue i hi with h | h
        · exact .inl h
        · exact .inr (List.mem_cons_of_mem t h)

/-! ## Taking work off the queue -/

theorem next_eq_none (h : p.next = none) : p.front = [] ∧ p.back = [] := by
  unfold next at h
  split at h
  · cases h
  · rename_i hf
    split at h
    · cases h
    · rename_i hb
      exact ⟨hf, List.reverse_eq_nil_iff.1 hb⟩

/-- Taking an instruction off the queue changes the queue only, which loses that instruction. -/
theorem next_eq_some {i : Nat} (h : p.next = some (i, q)) :
    q.frames = p.frames ∧ q.queued = p.queued ∧ q.maxStack = p.maxStack ∧ q.maxLocals = p.maxLocals ∧
      ∀ j, j ∈ p.front ∨ j ∈ p.back → j = i ∨ j ∈ q.front ∨ j ∈ q.back := by
  unfold next at h
  split at h
  · rename_i k front hf
    cases h
    refine ⟨rfl, rfl, rfl, rfl, fun j hj => ?_⟩
    rw [hf, List.mem_cons] at hj
    simpa only [or_assoc] using hj
  · rename_i hf
    split at h
    · rename_i k front hb
      cases h
      refine ⟨rfl, rfl, rfl, rfl, fun j hj => ?_⟩
      rw [hf] at hj
      rcases hj with hj | hj
      · cases hj
      · rw [← List.mem_reverse, hb] at hj
        rcases List.mem_cons.1 hj with rfl | hj
        · exact .inl rfl
        · exact .inr (.inl hj)
    · cases h

/-- The marks of a progress from whose queue an instruction has just been taken. -/
structure Taken (m : Method) (p : Progress) (i : Nat) : Prop where
  frames : p.frames.size = m.code.size
  queued : p.queued.size = m.code.size
  queue : ∀ j, p.queued[j]? = some true → j = i ∨ j ∈ p.front ∨ j ∈ p.back

theorem Coherent.next (hp : p.Coherent m) {i : Nat} (h : p.next = some (i, q)) : Taken m q i := by
  obtain ⟨hf, hq, -, -, hj⟩ := next_eq_some h
  exact ⟨by rw [hf, hp.frames], by rw [hq, hp.queued], fun j h => hj j (hp.queue j (by rw [← hq, h]))⟩

/-- The progress in which an instruction is no longer marked as queued. -/
def unmark (p : Progress) (i : Nat) : Progress :=
  { p with queued := p.queued.setIfInBounds i false }

theorem Taken.unmark {i : Nat} (hp : Taken m p i) : (p.unmark i).Coherent m := by
  refine ⟨hp.frames, by simp [Progress.unmark, hp.queued], fun j hj => ?_⟩
  simp only [Progress.unmark, Array.getElem?_setIfInBounds] at hj
  by_cases hij : i = j
  · rw [if_pos hij] at hj
    split at hj <;> cases hj
  · rw [if_neg hij] at hj
    rcases hp.queue j hj with h | h
    · exact absurd h.symm hij
    · exact h

/-- A step takes the deliveries of the instruction to their ends. -/
theorem step_eq_ok {i : Nat} :
    p.step m i = .ok q ↔
      ((∀ f insn, p.frame i = some f → m.code[i]? = some insn → False) ∧ q = p.unmark i) ∨
      ∃ f insn ds after, p.frame i = some f ∧ m.code[i]? = some insn ∧
        m.deliveries i insn f = .ok (ds, after) ∧
        ds.foldlM (fun p t => p.deliver m t.1 t.2)
          { p.unmark i with
            maxStack := max p.maxStack after.peak
            maxLocals := max p.maxLocals after.locals.length } = .ok q := by
  unfold step
  simp only
  rw [show (p.frames[i]?).join = p.frame i from rfl]
  cases hf : p.frame i with
  | none =>
    simp only
    constructor
    · intro h
      cases h
      exact .inl ⟨fun _ _ hnone => (Option.some_ne_none _ hnone.symm).elim, rfl⟩
    · rintro (⟨-, rfl⟩ | ⟨f, -, -, -, h, -⟩)
      · rfl
      · cases h
  | some f =>
    cases hi : m.code[i]? with
    | none =>
      simp only
      constructor
      · intro h
        cases h
        exact .inl ⟨fun _ _ _ hnone => (Option.some_ne_none _ hnone.symm).elim, rfl⟩
      · rintro (⟨-, rfl⟩ | ⟨f, insn, -, -, -, h, -⟩)
        · rfl
        · cases h
    | some insn =>
      simp only
      rw [bind_eq_ok]
      constructor
      · rintro ⟨⟨ds, after⟩, hd, h⟩
        exact .inr ⟨f, insn, ds, after, rfl, rfl, hd, h⟩
      · rintro (⟨h, -⟩ | ⟨f', insn', ds, after, hf', hi', hd, h⟩)
        · exact (h f insn rfl rfl).elim
        · cases hf'
          cases hi'
          exact ⟨(ds, after), hd, h⟩

theorem deliver_coherent (hp : p.Coherent m) {t : Nat} {g : Frame} (h : p.deliver m t g = .ok q) :
    q.Coherent m := by
  obtain ⟨k, -, rfl⟩ := deliver_eq_ok.1 h
  exact hp.receive t k

theorem deliverAll_coherent (hp : p.Coherent m) {ds : List (Nat × Frame)}
    (h : ds.foldlM (fun p t => p.deliver m t.1 t.2) p = .ok q) : q.Coherent m := by
  induction ds generalizing p with
  | nil =>
    cases h
    exact hp
  | cons d ds ih =>
    rw [List.foldlM_cons] at h
    obtain ⟨p', hd, h⟩ := bind_eq_ok.1 h
    exact ih (deliver_coherent hp hd) h

theorem step_coherent {i : Nat} (hp : Taken m p i) (h : p.step m i = .ok q) : q.Coherent m := by
  rcases step_eq_ok.1 h with ⟨-, rfl⟩ | ⟨f, insn, ds, after, -, -, -, hfold⟩
  · exact hp.unmark
  · refine deliverAll_coherent ?_ hfold
    exact ⟨hp.unmark.frames, hp.unmark.queued, hp.unmark.queue⟩

theorem run_coherent {limit : Nat} (hp : p.Coherent m) (h : run m limit p = .ok q) :
    q.Coherent m := by
  induction limit generalizing p with
  | zero =>
    unfold run at h
    split at h
    · cases h
      exact hp
    · cases h
  | succ limit ih =>
    unfold run at h
    split at h
    · cases h
      exact hp
    · rename_i hn
      split at h
      · cases h
      · rename_i hstep
        exact ih (step_coherent (hp.next hn) hstep) h

/-! ## To the end -/

/-- A run that comes to its end comes to the same with another number of steps, or has too few. -/
theorem run_of_ok {limit : Nat} (h : run m limit p = .ok q) (n : Nat) :
    run m n p = .ok q ∨ run m n p = .error .unsettled := by
  induction limit generalizing p n with
  | zero =>
    unfold run at h
    split at h
    · rename_i hdone
      cases h
      rw [Option.isNone_iff_eq_none] at hdone
      cases n <;> exact .inl (by simp [run, hdone])
    · cases h
  | succ limit ih =>
    unfold run at h
    split at h
    · rename_i hdone
      cases h
      cases n <;> exact .inl (by simp [run, hdone])
    · rename_i i p' hn
      split at h
      · cases h
      · rename_i p'' hstep
        cases n with
        | zero => exact .inr (by simp [run, hn])
        | succ n => simpa only [run, hn, hstep] using ih h n

/-- A run that is left to take its time ends with what some number of steps comes to. -/
theorem exhaust_eq_ok : p.exhaust m = some (.ok q) ↔ ∃ limit, run m limit p = .ok q := by
  constructor
  · suffices ∀ p r, exhaust m p = some r → ∀ q, r = .ok q → ∃ limit, run m limit p = .ok q from
      fun h => this p _ h q rfl
    refine exhaust.partial_correctness m _ fun exhaust ih p r h q hr => ?_
    subst hr
    split at h
    · rename_i hn
      cases h
      exact ⟨0, by simp [run, hn]⟩
    · rename_i i p' hn
      split at h
      · cases h
      · rename_i p'' hstep
        obtain ⟨limit, hrun⟩ := ih p'' _ h q rfl
        exact ⟨limit + 1, by simpa only [run, hn, hstep] using hrun⟩
  · rintro ⟨limit, h⟩
    induction limit generalizing p with
    | zero =>
      unfold run at h
      split at h
      · rename_i hdone
        cases h
        rw [Option.isNone_iff_eq_none] at hdone
        rw [exhaust, hdone]
      · cases h
    | succ limit ih =>
      unfold run at h
      rw [exhaust]
      split at h
      · cases h
        rfl
      · split at h
        · cases h
        · exact ih h

/-- The inference of a method comes to its end when some number of steps leads there. -/
theorem finish_eq_ok {limit : Nat} : p.finish m limit = .ok q ↔ ∃ n, run m n p = .ok q := by
  unfold finish
  constructor
  · intro h
    split at h
    · cases hex : p.exhaust m with
      | none =>
        rw [hex] at h
        cases h
      | some r =>
        rw [hex] at h
        exact exhaust_eq_ok.1 (hex.trans (congrArg some h))
    · exact ⟨limit, h⟩
  · rintro ⟨n, h⟩
    rcases run_of_ok h limit with hok | hshort
    · rw [hok]
    · rw [hshort]
      simp only [exhaust_eq_ok.2 ⟨n, h⟩, Option.getD_some]

end Progress

namespace Progress

variable {m : Method} {p q : Progress}

theorem deliverAll_maxLocals {ds : List (Nat × Frame)}
    (h : ds.foldlM (fun p t => p.deliver m t.1 t.2) p = .ok q) : q.maxLocals = p.maxLocals := by
  induction ds generalizing p with
  | nil =>
    cases h
    rfl
  | cons d ds ih =>
    rw [List.foldlM_cons] at h
    obtain ⟨p', hd, h⟩ := bind_eq_ok.1 h
    obtain ⟨k, -, rfl⟩ := deliver_eq_ok.1 hd
    rw [ih h, receive_maxLocals]

theorem step_maxLocals {i : Nat} (h : p.step m i = .ok q) : p.maxLocals ≤ q.maxLocals := by
  rcases step_eq_ok.1 h with ⟨-, rfl⟩ | ⟨f, insn, ds, after, -, -, -, hfold⟩
  · exact Nat.le_refl _
  · rw [deliverAll_maxLocals hfold]
    exact Nat.le_max_left _ _

/-- The number of local variables never goes down. -/
theorem run_maxLocals {limit : Nat} (h : run m limit p = .ok q) : p.maxLocals ≤ q.maxLocals := by
  induction limit generalizing p with
  | zero =>
    unfold run at h
    split at h
    · cases h
      exact Nat.le_refl _
    · cases h
  | succ limit ih =>
    unfold run at h
    split at h
    · cases h
      exact Nat.le_refl _
    · rename_i p' hn
      split at h
      · cases h
      · rename_i hstep
        have hnext : p'.maxLocals = p.maxLocals := by
          obtain ⟨-, -, -, h, -⟩ := next_eq_some hn
          exact h
        have := step_maxLocals hstep
        have := ih h
        omega

end Progress

/-! ## Settled frames -/

/-- An order of frames in which what stands at an instruction after a delivery is above what stood
there and above what was delivered. -/
structure Method.Ascends (m : Method) (above : Frame → Frame → Prop) : Prop where
  refl : ∀ f, above f f
  trans : ∀ {f g k}, above f g → above g k → above f k
  first : ∀ {t g k}, m.arrive t none g = .ok k → above k g
  further : ∀ {t f g k}, m.arrive t (some f) g = .ok k → above k f ∧ above k g

/-- A relation between the frame in front of an instruction and what is delivered there: a delivery
brings it about, and further deliveries do not end it. -/
structure Method.Takes (m : Method) (takes : Nat → Frame → Frame → Prop) : Prop where
  first : ∀ {t g k}, m.arrive t none g = .ok k → takes t k g
  further : ∀ {t f g k}, m.arrive t (some f) g = .ok k → takes t k g
  keeps : ∀ {t f g k u}, takes t f u → m.arrive t (some f) g = .ok k → takes t k u

/-- Where frames ascend, they take in what is below them. -/
theorem Method.Ascends.takes {m : Method} {above : Frame → Frame → Prop} (ha : m.Ascends above) :
    m.Takes fun _ => above :=
  ⟨ha.first, fun h => (ha.further h).2, fun hu h => ha.trans (ha.further h).1 hu⟩

namespace Progress

/-- What an instruction delivers now has been taken in where it is delivered to. -/
def Delivered (takes : Nat → Frame → Frame → Prop) (m : Method) (p : Progress) (i : Nat) : Prop :=
  ∀ f insn, p.frame i = some f → m.code[i]? = some insn →
    ∃ ds after, m.deliveries i insn f = .ok (ds, after) ∧
      after.peak ≤ p.maxStack ∧ after.locals.length ≤ p.maxLocals ∧
      ∀ t ∈ ds, ∃ f', p.frame t.1 = some f' ∧ takes t.1 f' t.2

/-- Whatever is not queued has delivered what it delivers now. -/
def Settled (takes : Nat → Frame → Frame → Prop) (m : Method) (p : Progress) : Prop :=
  ∀ i, p.queued[i]? = some false → Delivered takes m p i

/-- Frames have lost nothing that they took in, and where one has changed, the instruction is queued. -/
structure Raised (takes : Nat → Frame → Frame → Prop) (p q : Progress) : Prop where
  frames : ∀ i f, p.frame i = some f → ∃ f', q.frame i = some f' ∧ ∀ g, takes i f g → takes i f' g
  unqueued : ∀ i, q.queued[i]? = some false → p.queued[i]? = some false ∧ q.frame i = p.frame i
  maxStack : q.maxStack = p.maxStack
  maxLocals : q.maxLocals = p.maxLocals

section Settled

variable {m : Method} {takes : Nat → Frame → Frame → Prop} (ht : m.Takes takes) {p q r : Progress}

theorem Raised.refl (p : Progress) : Raised takes p p :=
  ⟨fun _ f h => ⟨f, h, fun _ hg => hg⟩, fun _ h => ⟨h, rfl⟩, rfl, rfl⟩

theorem Raised.trans (h1 : Raised takes p q) (h2 : Raised takes q r) : Raised takes p r := by
  refine ⟨fun i f hf => ?_, fun i hi => ?_, h2.maxStack.trans h1.maxStack,
    h2.maxLocals.trans h1.maxLocals⟩
  · obtain ⟨g, hg, hgf⟩ := h1.frames i f hf
    obtain ⟨k, hk, hkg⟩ := h2.frames i g hg
    exact ⟨k, hk, fun u hu => hkg u (hgf u hu)⟩
  · obtain ⟨hq, e2⟩ := h2.unqueued i hi
    obtain ⟨hp, e1⟩ := h1.unqueued i hq
    exact ⟨hp, e2.trans e1⟩

include ht

theorem deliver_raised (hp : p.Coherent m) {t : Nat} {g : Frame} (h : p.deliver m t g = .ok q) :
    Raised takes p q ∧ q.Coherent m ∧
      (t < m.code.size → ∃ f, q.frame t = some f ∧ takes t f g) := by
  obtain ⟨k, hk, rfl⟩ := deliver_eq_ok.1 h
  have up : (∀ f, p.frame t = some f → ∀ u, takes t f u → takes t k u) ∧ takes t k g := by
    cases hf : p.frame t with
    | none =>
      rw [hf] at hk
      exact ⟨nofun, ht.first hk⟩
    | some f =>
      rw [hf] at hk
      refine ⟨fun f' hf' u hu => ?_, ht.further hk⟩
      cases hf'
      exact ht.keeps hu hk
  refine ⟨⟨fun i f hf => ?_, fun i hi => unqueued_receive hi, receive_maxStack t k,
    receive_maxLocals t k⟩, hp.receive t k, fun ht => ⟨k, ?_, up.2⟩⟩
  · rw [frame_receive]
    split
    · rename_i hi
      obtain ⟨rfl, -⟩ := hi
      exact ⟨k, rfl, up.1 f hf⟩
    · exact ⟨f, hf, fun _ hg => hg⟩
  · rw [frame_receive, if_pos ⟨rfl, by rw [hp.frames]; exact ht⟩]

theorem deliverAll_raised (hp : p.Coherent m) {ds : List (Nat × Frame)}
    (h : ds.foldlM (fun p t => p.deliver m t.1 t.2) p = .ok q) :
    Raised takes p q ∧ q.Coherent m ∧
      ∀ t ∈ ds, t.1 < m.code.size → ∃ f, q.frame t.1 = some f ∧ takes t.1 f t.2 := by
  induction ds generalizing p with
  | nil =>
    cases h
    exact ⟨.refl _, hp, nofun⟩
  | cons d ds ih =>
    rw [List.foldlM_cons] at h
    obtain ⟨p', hd, h⟩ := bind_eq_ok.1 h
    obtain ⟨r1, hp', e1⟩ := deliver_raised ht hp hd
    obtain ⟨r2, hq, e2⟩ := ih hp' h
    refine ⟨r1.trans r2, hq, fun t ht hlt => ?_⟩
    rcases List.mem_cons.1 ht with rfl | ht
    · obtain ⟨f, hf, hfg⟩ := e1 hlt
      obtain ⟨f', hf', hff⟩ := r2.frames _ f hf
      exact ⟨f', hf', hff _ hfg⟩
    · exact e2 t ht hlt

/-- One step keeps the frames settled. -/
theorem step_settled (hm : m.InRange) {i : Nat} (hp : Taken m p i) (hs : Settled takes m p)
    (h : p.step m i = .ok q) :
    q.Coherent m ∧ Settled takes m q ∧
      ∀ j f, p.frame j = some f →
        ∃ f', q.frame j = some f' ∧ ∀ g, takes j f g → takes j f' g := by
  have unmarked : ∀ j, (p.unmark i).queued[j]? = some false → j = i ∨ p.queued[j]? = some false := by
    intro j hj
    simp only [unmark, Array.getElem?_setIfInBounds] at hj
    by_cases hij : i = j
    · exact .inl hij.symm
    · rw [if_neg hij] at hj
      exact .inr hj
  rcases step_eq_ok.1 h with ⟨hnone, rfl⟩ | ⟨f, insn, ds, after, hf, hi, hd, hfold⟩
  · refine ⟨hp.unmark, fun j hj => ?_, fun j f hf => ⟨f, hf, fun _ hg => hg⟩⟩
    rcases unmarked j hj with rfl | hj
    · exact fun f insn hf hi => (hnone f insn hf hi).elim
    · exact hs j hj
  · obtain ⟨hr, hq, hall⟩ := deliverAll_raised ht (p := { p.unmark i with
      maxStack := max p.maxStack after.peak
      maxLocals := max p.maxLocals after.locals.length })
      ⟨hp.unmark.frames, hp.unmark.queued, hp.unmark.queue⟩ hfold
    refine ⟨hq, fun j hj => ?_, fun j f hf => hr.frames j f hf⟩
    obtain ⟨hj, e⟩ := hr.unqueued j hj
    intro f' insn' hf' hi'
    rw [e] at hf'
    rw [hr.maxStack, hr.maxLocals]
    rcases unmarked j hj with rfl | hj
    · -- the instruction itself: all it delivers has just arrived
      have hff : p.frame j = some f' := hf'
      rw [hf] at hff
      cases hff
      rw [hi] at hi'
      cases hi'
      exact ⟨ds, after, hd, Nat.le_max_right _ _, Nat.le_max_right _ _, fun t ht =>
        hall t ht (hm.deliveries hd t ht)⟩
    · obtain ⟨ds', after', hd', h1, h2, h3⟩ := hs j hj f' insn' hf' hi'
      refine ⟨ds', after', hd', Nat.le_trans h1 (Nat.le_max_left _ _),
        Nat.le_trans h2 (Nat.le_max_left _ _), fun t ht => ?_⟩
      obtain ⟨g, hg, hgt⟩ := h3 t ht
      obtain ⟨g', hg', hgg⟩ := hr.frames _ g hg
      exact ⟨g', hg', hgg _ hgt⟩

/-- At the end of a run nothing is queued, and every delivery has arrived. -/
theorem run_settled (hm : m.InRange) {limit : Nat} (hp : p.Coherent m) (hs : Settled takes m p)
    (h : run m limit p = .ok q) :
    (∀ i, Delivered takes m q i) ∧
      ∀ j f, p.frame j = some f →
        ∃ f', q.frame j = some f' ∧ ∀ g, takes j f g → takes j f' g := by
  have done : ∀ p : Progress, p.Coherent m → Settled takes m p → p.next = none →
      ∀ i, Delivered takes m p i := by
    intro p hp hs hn i f insn hf hi
    obtain ⟨h1, h2⟩ := next_eq_none hn
    have hlt : i < p.queued.size := by
      rw [hp.queued]
      exact (Array.getElem?_eq_some_iff.1 hi).1
    refine hs i ?_ f insn hf hi
    cases hb : p.queued[i] with
    | false => rw [Array.getElem?_eq_getElem hlt, hb]
    | true =>
      have := hp.queue i (by rw [Array.getElem?_eq_getElem hlt, hb])
      rw [h1, h2] at this
      rcases this with h | h <;> cases h
  induction limit generalizing p with
  | zero =>
    unfold run at h
    split at h
    · rename_i hn
      cases h
      exact ⟨done _ hp hs (Option.isNone_iff_eq_none.1 hn), fun j f hf => ⟨f, hf, fun _ hg => hg⟩⟩
    · cases h
  | succ limit ih =>
    unfold run at h
    split at h
    · rename_i hn
      cases h
      exact ⟨done _ hp hs hn, fun j f hf => ⟨f, hf, fun _ hg => hg⟩⟩
    · rename_i i p' hn
      split at h
      · cases h
      · rename_i p'' hstep
        obtain ⟨ef, eq, es, el, -⟩ := next_eq_some hn
        have same : ∀ j, p'.frame j = p.frame j := fun j => by unfold frame; rw [ef]
        have hs' : Settled takes m p' := by
          intro j hj f insn hf hi
          rw [eq] at hj
          rw [same] at hf
          simpa only [same, es, el] using hs j hj f insn hf hi
        obtain ⟨hp'', hs'', up⟩ := step_settled ht hm (hp.next hn) hs' hstep
        obtain ⟨hd, up'⟩ := ih hp'' hs'' h
        refine ⟨hd, fun j f hf => ?_⟩
        obtain ⟨g, hg, hgf⟩ := up j f (by rw [same, hf])
        obtain ⟨k, hk, hkg⟩ := up' j g hg
        exact ⟨k, hk, fun u hu => hkg u (hgf u hu)⟩

end Settled

end Progress

/-! ## Properties that deliveries keep -/

/-- What holds of the frames in front of instructions (`holds`) makes everything they deliver
`welcome`, and welcome deliveries keep it. -/
structure Method.Keeps (m : Method) (holds welcome : Nat → Frame → Prop) : Prop where
  delivers : ∀ {i f insn ds after}, holds i f → m.code[i]? = some insn →
    m.deliveries i insn f = .ok (ds, after) → ∀ t ∈ ds, welcome t.1 t.2
  arrives : ∀ {t e g k}, welcome t g → (∀ f, e = some f → holds t f) → m.arrive t e g = .ok k →
    holds t k

namespace Progress

def All (holds : Nat → Frame → Prop) (p : Progress) : Prop :=
  ∀ i f, p.frame i = some f → holds i f

section Kept

variable {m : Method} {holds welcome : Nat → Frame → Prop} {p q : Progress}

theorem deliver_kept (hk : m.Keeps holds welcome) (hp : p.All holds) {t : Nat} {g : Frame}
    (hg : welcome t g) (h : p.deliver m t g = .ok q) : q.All holds := by
  obtain ⟨k, hka, rfl⟩ := deliver_eq_ok.1 h
  intro i f hf
  rw [frame_receive] at hf
  split at hf
  · rename_i hi
    cases hf
    rw [hi.1]
    exact hk.arrives hg (hp t) hka
  · exact hp i f hf

theorem deliverAll_kept (hk : m.Keeps holds welcome) (hp : p.All holds) {ds : List (Nat × Frame)}
    (hds : ∀ t ∈ ds, welcome t.1 t.2)
    (h : ds.foldlM (fun p t => p.deliver m t.1 t.2) p = .ok q) : q.All holds := by
  induction ds generalizing p with
  | nil =>
    cases h
    exact hp
  | cons d ds ih =>
    rw [List.foldlM_cons] at h
    obtain ⟨p', hd, h⟩ := bind_eq_ok.1 h
    exact ih (deliver_kept hk hp (hds d (List.mem_cons_self ..)) hd)
      (fun t ht => hds t (List.mem_cons_of_mem d ht)) h

theorem step_kept (hk : m.Keeps holds welcome) (hp : p.All holds) {i : Nat}
    (h : p.step m i = .ok q) : q.All holds := by
  rcases step_eq_ok.1 h with ⟨-, rfl⟩ | ⟨f, insn, ds, after, hf, hi, hd, hfold⟩
  · exact hp
  · refine deliverAll_kept hk ?_ (hk.delivers (hp i f hf) hi hd) hfold
    exact hp

theorem all_next (hp : p.All holds) {i : Nat} (hn : p.next = some (i, q)) : q.All holds := by
  intro j f hf
  unfold frame at hf
  rw [(next_eq_some hn).1] at hf
  exact hp j f hf

theorem run_kept (hk : m.Keeps holds welcome) {limit : Nat} (hp : p.All holds)
    (h : run m limit p = .ok q) : q.All holds := by
  induction limit generalizing p with
  | zero =>
    unfold run at h
    split at h
    · cases h
      exact hp
    · cases h
  | succ limit ih =>
    unfold run at h
    split at h
    · cases h
      exact hp
    · rename_i hn
      split at h
      · cases h
      · rename_i hstep
        exact ih (step_kept hk (all_next hp hn) hstep) h

end Kept

/-! ## The start -/

variable {m : Method} {maxLocals : Nat}

theorem frame_start (i : Nat) :
    (start m maxLocals).frame i
      = if i = 0 ∧ 0 < m.code.size then some (initialFrame m.context) else none := by
  unfold frame start
  simp only [Array.getElem?_setIfInBounds, Array.getElem?_replicate, Array.size_replicate]
  by_cases h0 : i = 0
  · subst h0
    by_cases hc : 0 < m.code.size
    · simp [hc]
    · simp [hc]
  · simp only [h0, Ne.symm h0, false_and, if_false]
    split <;> rfl

theorem start_coherent : (start m maxLocals).Coherent m := by
  refine ⟨by simp [start], by simp [start], fun i hi => ?_⟩
  simp only [start, Array.getElem?_setIfInBounds, Array.getElem?_replicate] at hi
  by_cases h0 : 0 = i
  · exact .inl (by simp [start, h0])
  · rw [if_neg h0] at hi
    split at hi <;> cases hi

theorem start_settled {takes : Nat → Frame → Frame → Prop} : (start m maxLocals).Settled takes m := by
  intro i hi f insn hf
  rw [frame_start] at hf
  split at hf
  · rename_i h0
    simp only [start, Array.getElem?_setIfInBounds, h0.1, Array.size_replicate, h0.2, if_true] at hi
    cases hi
  · cases hf

theorem start_all {holds : Nat → Frame → Prop} (h : holds 0 (initialFrame m.context)) :
    (start m maxLocals).All holds := by
  intro i f hf
  rw [frame_start] at hf
  split at hf
  · rename_i h0
    cases hf
    rw [h0.1]
    exact h
  · cases hf

end Progress

end Analysis

end Interpose
