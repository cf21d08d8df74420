import Interpose.Proofs.Inference.Result
import Interpose.Proofs.Types.Renumber
/-!
# Inference on renumbered code

The inference never looks at an instruction that control does not reach. So two methods that agree on
the reached instructions, their edges and their handlers are analysed step by step alike, also when
those instructions have other numbers in the one than in the other (`Method.Mirrors`).

* `step_mirrors`, `run_mirrors`: one step of the work list, and a whole run.
* `analyze_mirrors`: the analysis of the one body succeeds if that of the other does, with the same
  frames.
-/

namespace Interpose

namespace Analysis

/-- A method has at `k` what another one has at `e k`, as far as control reaches in that one. -/
structure Method.Mirrors (m n : Method) (e : Equiv.Perm Nat) : Prop where
  pool : n.pool = m.pool
  context : n.context = m.context
  hierarchy : n.hierarchy = m.hierarchy
  entry : e 0 = 0
  insn : ∀ k, Reached m (e k) → n.code[k]? = m.code[e k]?
  handlers : ∀ k insn, Reached m (e k) → m.code[e k]? = some insn → insn.isPseudo = false →
    m.handlers (e k) = (n.handlers k).map fun h => { h with target := e h.target }
  label : ∀ (k : Nat) (insn : Insn) (l : Label) (i : Nat), Reached m (e k) →
    m.code[e k]? = some insn → l ∈ insn.targets → m.positions[l]? = some i →
    n.positions[l]? = some (e.symm i)
  next : ∀ (k : Nat) (insn : Insn), Reached m (e k) → m.code[e k]? = some insn →
    insn.isTerminal = false → e k + 1 < m.code.size → e (k + 1) = e k + 1
  hints : ∀ k, Reached m (e k) → n.hints[k]? = m.hints[e k]?

def redirect (e : Equiv.Perm Nat) (t : Nat × Frame) : Nat × Frame :=
  (e t.1, t.2.renumber e)

theorem redirect_symm (e : Equiv.Perm Nat) (t : Nat × Frame) :
    redirect e (redirect e.symm t) = t := by
  simp only [redirect, Equiv.apply_symm_apply]
  exact congrArg (t.1, ·) (Frame.renumber_symm (e := e.symm) t.2)

/-- No instruction has made anything that a method starts with. -/
theorem renumber_initialFrame (s : Nat → Nat) (context : MethodContext) :
    (initialFrame context).renumber s = initialFrame context := by
  have fixed : ∀ v ∈ (initialFrame context).locals ++ (initialFrame context).stack,
      v.renumber s = v := by
    intro v hv
    refine VType.renumber_of_ne fun i n h => ?_
    exact Nat.not_lt_zero i (initialFrame_sited 0 context v hv i n h)
  refine congrArg₂ Frame.mk ?_ ?_
  · exact (List.map_congr_left fun v hv => fixed v (List.mem_append_left _ hv)).trans (List.map_id _)
  · exact (List.map_congr_left fun v hv => fixed v (List.mem_append_right _ hv)).trans (List.map_id _)

theorem lt_size_iff {α : Type} {xs ys : Array α} {i j : Nat} (h : xs[i]? = ys[j]?) :
    i < xs.size ↔ j < ys.size := by
  have := congrArg (· = none) h
  simpa only [Array.getElem?_eq_none_iff, Nat.not_le] using this.to_iff.not

theorem Method.Mirrors.start_reached {m n : Method} {e : Equiv.Perm Nat} (h : m.Mirrors n e) :
    Reached m (e 0) := by
  rw [h.entry]
  exact .entry

theorem Method.Mirrors.nonempty {m n : Method} {e : Equiv.Perm Nat} (h : m.Mirrors n e) :
    0 < n.code.size ↔ 0 < m.code.size := by
  simpa only [h.entry] using lt_size_iff (h.insn 0 h.start_reached)

/-! ## What instructions deliver -/

namespace Method.Mirrors

variable {m n : Method} {e : Equiv.Perm Nat} (h : m.Mirrors n e)
include h

theorem toHandlers {k : Nat} {insn : Insn} (hr : Reached m (e k)) (hi : m.code[e k]? = some insn)
    (f : Frame) :
    m.toHandlers (e k) insn (f.renumber e) = (n.toHandlers k insn f).map (redirect e) := by
  unfold Method.toHandlers
  cases hp : insn.isPseudo with
  | true => rfl
  | false =>
    simp only [Bool.false_eq_true, if_false]
    rw [h.handlers k insn hr hi hp, List.map_map, List.map_map]
    rfl

/-- An instruction delivers what it delivers under its other number. -/
theorem deliveries {k : Nat} {insn : Insn} {f : Frame} {ds : List (Nat × Frame)} {after : Machine}
    (hr : Reached m (e k)) (hi : m.code[e k]? = some insn)
    (hd : m.deliveries (e k) insn (f.renumber e) = .ok (ds, after)) :
    ∃ ds', ds = ds'.map (redirect e) ∧
      n.deliveries k insn f = .ok (ds', after.renumber e.symm) := by
  obtain ⟨hafter, jumps, next, hjumps, hnext, rfl⟩ := deliveries_eq_ok.1 hd
  have back : ∀ ts : List (Nat × Frame), (ts.map (redirect e.symm)).map (redirect e) = ts := by
    intro ts
    rw [List.map_map, show redirect e ∘ redirect e.symm = id from funext (redirect_symm e),
      List.map_id]
  refine ⟨n.toHandlers k insn f ++ jumps.map (redirect e.symm) ++ next.map (redirect e.symm),
    by rw [List.map_append, List.map_append, back, back, h.toHandlers hr hi], ?_⟩
  refine deliveries_eq_ok.2 ⟨?_, _, _, ?_, ?_, rfl⟩
  · have := execute_renumber (e := e.symm) hafter
    rw [h.pool, h.context]
    simpa using this
  · refine List.forall₂_map_right_iff.2 (forall₂_imp_of_mem hjumps fun l hl t _ ht => ?_)
    exact ⟨h.label k insn l t.1 hr hi hl ht.1, congrArg (Frame.renumber e.symm) ht.2⟩
  · rcases hnext with ⟨ht, rfl⟩ | ⟨ht, hlt, rfl⟩
    · exact .inl ⟨ht, rfl⟩
    · have hk := h.next k insn hr hi ht hlt
      have hr' : Reached m (e (k + 1)) := .step hr ⟨insn, hi, .inr (.inr ⟨ht, hk⟩)⟩
      refine .inr ⟨ht, ?_, ?_⟩
      · rw [← hk] at hlt
        exact (lt_size_iff (h.insn (k + 1) hr')).2 hlt
      · rw [← hk]
        simp only [redirect, List.map_cons, List.map_nil, Equiv.symm_apply_apply]
        rfl

theorem arrive {k : Nat} {existing : Option Frame} {incoming merged : Frame}
    (hr : Reached m (e k))
    (ha : m.arrive (e k) (existing.map (Frame.renumber e)) (incoming.renumber e) = .ok merged) :
    ∃ merged', merged = merged'.renumber e ∧ n.arrive k existing incoming = .ok merged' := by
  rw [arrive_eq] at ha
  obtain ⟨met, hmet, rfl⟩ := map_eq_ok.1 ha
  have unmet : ∃ met', met = met'.renumber e ∧
      existing.elim (.ok incoming) (fun f => f.merge n.hierarchy k incoming) = .ok met' := by
    cases existing with
    | none => exact ⟨incoming, (Except.ok.inj hmet).symm, rfl⟩
    | some f =>
      rw [h.hierarchy]
      obtain ⟨met', hm, e⟩ := Frame.merge_renumber (i := k) hmet
      exact ⟨met', e, hm⟩
  obtain ⟨met', rfl, hmet'⟩ := unmet
  refine ⟨_, ?_, (arrive_eq k existing incoming).trans (map_eq_ok.2 ⟨met', hmet', rfl⟩)⟩
  rw [h.hints k hr]
  cases m.hints[e k]? with
  | none => rfl
  | some hint => exact Frame.refine_renumber met' hint

end Method.Mirrors

/-! ## Runs -/

namespace Progress

/-- Two runs are at the same point. -/
structure Mirrors (m n : Method) (e : Equiv.Perm Nat) (p q : Progress) : Prop where
  size : p.frames.size = m.code.size
  sizeNew : q.frames.size = n.code.size
  frame : ∀ k, p.frame (e k) = (q.frame k).map (Frame.renumber e)
  reached : ∀ i f, p.frame i = some f → Reached m i
  queued : ∀ k, Reached m (e k) → p.queued[e k]? = q.queued[k]?
  front : p.front = q.front.map e
  back : p.back = q.back.map e
  maxStack : p.maxStack = q.maxStack
  maxLocals : p.maxLocals = q.maxLocals

section Mirrors

variable {m n : Method} {e : Equiv.Perm Nat} (h : m.Mirrors n e) {p q p' : Progress}

theorem Mirrors.setQueued (hpq : p.Mirrors m n e q) (k : Nat) (b : Bool) {i : Nat}
    (hr : Reached m (e i)) :
    (p.queued.setIfInBounds (e k) b)[e i]? = (q.queued.setIfInBounds k b)[i]? := by
  simp only [Array.getElem?_setIfInBounds, e.injective.eq_iff, hpq.queued i hr]
  by_cases hk : k = i
  · subst hk
    simp only [lt_size_iff (hpq.queued k hr)]
  · rw [if_neg hk, if_neg hk]

theorem Mirrors.unmark (hpq : p.Mirrors m n e q) (k : Nat) :
    (p.unmark (e k)).Mirrors m n e (q.unmark k) :=
  { hpq with queued := fun _ hr => hpq.setQueued k false hr }

include h

theorem Mirrors.receive (hpq : p.Mirrors m n e q) {k : Nat} (hr : Reached m (e k)) (f : Frame) :
    (p.receive (e k) (f.renumber e)).Mirrors m n e (q.receive k f) := by
  have inRange : e k < p.frames.size ↔ k < q.frames.size := by
    rw [hpq.size, hpq.sizeNew]
    exact (lt_size_iff (h.insn k hr)).symm
  have frames : ∀ i, (p.receive (e k) (f.renumber e)).frame (e i) =
      ((q.receive k f).frame i).map (Frame.renumber e) := by
    intro i
    simp only [frame_receive, inRange, e.injective.eq_iff]
    split
    · rfl
    · exact hpq.frame i
  have reached : ∀ i g, (p.receive (e k) (f.renumber e)).frame i = some g → Reached m i := by
    intro i g hi
    rw [frame_receive] at hi
    split at hi
    · rename_i hik
      rw [hik.1]
      exact hr
    · exact hpq.reached i g hi
  have same : p.frame (e k) = some (f.renumber e) ↔ q.frame k = some f := by
    rw [hpq.frame k]
    exact (Option.map_injective Frame.renumber_injective).eq_iff (b := some f)
  unfold Progress.receive at frames reached ⊢
  by_cases hs : q.frame k = some f
  · rw [if_pos hs, if_pos (same.2 hs)]
    exact hpq
  · rw [if_neg hs, if_neg (same.not.2 hs)] at frames ⊢
    rw [if_neg (same.not.2 hs)] at reached
    simp only [hpq.queued k hr] at frames reached ⊢
    by_cases hq : q.queued[k]?.getD true = true
    · simp only [hq, if_true] at frames reached ⊢
      exact { hpq with size := by simp [hpq.size], sizeNew := by simp [hpq.sizeNew],
                       frame := frames, reached := reached }
    · simp only [hq] at frames reached ⊢
      exact { hpq with size := by simp [hpq.size], sizeNew := by simp [hpq.sizeNew],
                       frame := frames, reached := reached,
                       queued := fun _ hr => hpq.setQueued k true hr,
                       back := congrArg (e k :: ·) hpq.back }

theorem deliver_mirrors (hpq : p.Mirrors m n e q) {k : Nat} {f : Frame} (hr : Reached m (e k))
    (hd : p.deliver m (e k) (f.renumber e) = .ok p') :
    ∃ q', q.deliver n k f = .ok q' ∧ p'.Mirrors m n e q' := by
  obtain ⟨merged, ha, rfl⟩ := deliver_eq_ok.1 hd
  rw [hpq.frame k] at ha
  obtain ⟨merged', rfl, ha'⟩ := h.arrive hr ha
  exact ⟨_, deliver_eq_ok.2 ⟨merged', ha', rfl⟩, hpq.receive h hr merged'⟩

theorem deliverAll_mirrors (hpq : p.Mirrors m n e q) {ds : List (Nat × Frame)}
    (hr : ∀ t ∈ ds, Reached m (e t.1))
    (hd : (ds.map (redirect e)).foldlM (fun p t => p.deliver m t.1 t.2) p = .ok p') :
    ∃ q', ds.foldlM (fun q t => q.deliver n t.1 t.2) q = .ok q' ∧ p'.Mirrors m n e q' := by
  induction ds generalizing p q with
  | nil =>
    cases hd
    exact ⟨q, rfl, hpq⟩
  | cons t ds ih =>
    rw [List.map_cons, List.foldlM_cons] at hd
    obtain ⟨p1, h1, hd⟩ := bind_eq_ok.1 hd
    obtain ⟨q1, hq1, hpq1⟩ := deliver_mirrors h hpq (hr t (List.mem_cons_self ..)) h1
    obtain ⟨q', hq', hpq'⟩ := ih hpq1 (fun t ht => hr t (List.mem_cons_of_mem _ ht)) hd
    exact ⟨q', by rw [List.foldlM_cons]; exact bind_eq_ok.2 ⟨q1, hq1, hq'⟩, hpq'⟩

/-- A step of the one run is a step of the other. -/
theorem step_mirrors (hpq : p.Mirrors m n e q) {k : Nat} (hs : p.step m (e k) = .ok p') :
    ∃ q', q.step n k = .ok q' ∧ p'.Mirrors m n e q' := by
  rcases step_eq_ok.1 hs with ⟨hnone, rfl⟩ | ⟨f, insn, ds, after, hf, hi, hd, hfold⟩
  · refine ⟨_, step_eq_ok.2 (.inl ⟨fun f insn hf hi => ?_, rfl⟩), hpq.unmark k⟩
    have hf' : p.frame (e k) = some (f.renumber e) := by rw [hpq.frame, hf]; rfl
    exact hnone _ insn hf' (by rw [← h.insn k (hpq.reached _ _ hf'), hi])
  · have hr := hpq.reached _ _ hf
    rw [hpq.frame] at hf
    obtain ⟨f', hf', rfl⟩ := Option.map_eq_some_iff.1 hf
    obtain ⟨ds', rfl, hd'⟩ := h.deliveries hr hi hd
    have counted : Progress.Mirrors m n e
        { p.unmark (e k) with
          maxStack := max p.maxStack after.peak
          maxLocals := max p.maxLocals after.locals.length }
        { q.unmark k with
          maxStack := max q.maxStack (after.renumber e.symm).peak
          maxLocals := max q.maxLocals (after.renumber e.symm).locals.length } := by
      refine { hpq.unmark k with maxStack := ?_, maxLocals := ?_ }
      · rw [hpq.maxStack]
        rfl
      · rw [hpq.maxLocals]
        exact congrArg (max q.maxLocals) (List.length_map ..).symm
    have targets : ∀ t ∈ ds', Reached m (e t.1) := fun t ht =>
      .step hr (Method.leads_of_deliveries hi hd (List.mem_map_of_mem (f := redirect e) ht))
    obtain ⟨q', hq', hpq'⟩ := deliverAll_mirrors h counted targets hfold
    exact ⟨q', step_eq_ok.2 (.inr ⟨f', insn, ds', _, hf', by rw [h.insn k hr, hi], hd', hq'⟩), hpq'⟩

omit h in
theorem Mirrors.next_none (hpq : p.Mirrors m n e q) (hn : p.next = none) : q.next = none := by
  obtain ⟨hf, hb⟩ := next_eq_none hn
  rw [hpq.front, List.map_eq_nil_iff] at hf
  rw [hpq.back, List.map_eq_nil_iff] at hb
  simp [next, hf, hb]

omit h in
theorem Mirrors.next_some (hpq : p.Mirrors m n e q) {i : Nat} (hn : p.next = some (i, p')) :
    ∃ k q', i = e k ∧ q.next = some (k, q') ∧ p'.Mirrors m n e q' := by
  unfold next at hn ⊢
  rw [hpq.front, hpq.back, ← List.map_reverse] at hn
  cases hf : q.front with
  | cons k front =>
    rw [hf] at hn
    cases hn
    exact ⟨k, _, rfl, rfl, { hpq with front := rfl, back := rfl }⟩
  | nil =>
    rw [hf] at hn
    cases hb : q.back.reverse with
    | nil =>
      rw [hb] at hn
      cases hn
    | cons k front =>
      rw [hb] at hn
      cases hn
      exact ⟨k, _, rfl, rfl, { hpq with front := rfl, back := rfl }⟩

/-- A run that comes to its end does so under other numbers too, at the same point. -/
theorem run_mirrors {limit : Nat} (hpq : p.Mirrors m n e q) (hrun : run m limit p = .ok p') :
    ∃ q', run n limit q = .ok q' ∧ p'.Mirrors m n e q' := by
  induction limit generalizing p q with
  | zero =>
    unfold run at hrun
    split at hrun
    · rename_i hdone
      cases hrun
      rw [Option.isNone_iff_eq_none] at hdone
      exact ⟨q, by simp [run, hpq.next_none hdone], hpq⟩
    · cases hrun
  | succ limit ih =>
    unfold run at hrun ⊢
    split at hrun
    · rename_i hdone
      cases hrun
      exact ⟨q, by rw [hpq.next_none hdone], hpq⟩
    · rename_i i p1 hn
      obtain ⟨k, q1, rfl, hn', hpq1⟩ := hpq.next_some hn
      split at hrun
      · cases hrun
      · rename_i p2 hstep
        obtain ⟨q2, hstep', hpq2⟩ := step_mirrors h hpq1 hstep
        rw [hn']
        simp only [hstep']
        exact ih hpq2 hrun

/-- The inference starts at the same point. -/
theorem start_mirrors (maxLocals : Nat) :
    (start m maxLocals).Mirrors m n e (start n maxLocals) := by
  have zero : ∀ {k}, e k = 0 ↔ k = 0 := fun {k} => by rw [← h.entry, e.injective.eq_iff, h.entry]
  refine ⟨by simp [start], by simp [start], fun k => ?_, fun i f hf => ?_, fun k hr => ?_, ?_, rfl,
    rfl, ?_⟩
  · simp only [frame_start, zero, h.nonempty, h.context]
    split
    · exact congrArg some (renumber_initialFrame e m.context).symm
    · rfl
  · rw [frame_start] at hf
    split at hf
    · rename_i h0
      rw [h0.1]
      exact .entry
    · cases hf
  · simp only [start, Array.getElem?_setIfInBounds, Array.getElem?_replicate, Array.size_replicate,
      eq_comm (a := 0), zero, h.nonempty, lt_size_iff (h.insn k hr)]
  · exact congrArg (· :: []) h.entry.symm
  · rw [start, start, h.context]

end Mirrors

end Progress

/-- A body is analysed if it is another one that is analysed with other instruction numbers, as far
as control goes there, and finds the same frames. -/
theorem analyze_mirrors {b b' : Body} {context : MethodContext} {pool : Pool} {h : Hierarchy}
    {m n : Method} {a : Analysis} {e : Equiv.Perm Nat} {targets : Std.TreeSet Nat}
    (hm : Method.ofBody b context pool h = .ok m) (ha : analyze b context pool h = .ok a)
    (hn : Method.ofBody b' context pool h = .ok n) (hmn : m.Mirrors n e)
    (hl : b'.maxLocals = b.maxLocals)
    (ht : jumpTargets b'.insns n.positions n.guards = .ok targets) :
    ∃ a', analyze b' context pool h = .ok a' ∧ a'.branchTargets = targets ∧
      a'.maxStack = a.maxStack ∧ a'.maxLocals = a.maxLocals ∧
      ∀ k, a.frame (e k) = (a'.frame k).map (Frame.renumber e) := by
  obtain ⟨m', p, hm', -, hpos, ⟨limit, hrun⟩, hs, hloc, hf, hms, hml⟩ := analyze_iff.1 ha
  rw [hm] at hm'
  cases hm'
  obtain ⟨q, hq, hpq⟩ := Progress.run_mirrors hmn (Progress.start_mirrors hmn _) hrun
  refine ⟨⟨q.frames, targets, UInt16.ofNat q.maxStack, UInt16.ofNat q.maxLocals⟩,
    analyze_iff.2 ⟨n, q, hn, ht, hmn.nonempty.2 hpos, ⟨limit, by rw [hl, hq]⟩, ?_, ?_, rfl, rfl, rfl⟩, rfl, ?_, ?_,
    fun k => ?_⟩
  · rwa [← hpq.maxStack]
  · rwa [← hpq.maxLocals]
  · rw [hms, hpq.maxStack]
  · rw [hml, hpq.maxLocals]
  · unfold Analysis.frame
    rw [hf]
    exact hpq.frame k

end Analysis

end Interpose
