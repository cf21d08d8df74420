import Mathlib.Algebra.Order.BigOperators.Group.Finset
import Mathlib.Data.Prod.Lex
import Interpose.Proofs.Inference.Faults
import Interpose.Proofs.Inference.Stable
import Interpose.Proofs.Types.Grading
/-!
# The inference ends

The loop of the inference, with no bound on its steps, is `Ends`. Every delivery leaves the frames
as they are, gives a frame to an instruction that had none, or takes rank from one (`Sinks`). Only a
change puts an instruction back on the queue, so a step that changes nothing has made the queue shorter.
The numbers of instructions without a frame, the ranks and the length of the queue, in this order, cannot
go down forever.

* `advances_wellFounded`: there is no endless run.
* `inference_ends`: the loop ends for every body, and `run` finds its outcome, given enough steps.
-/

namespace Interpose

namespace Analysis

/-- A rank of frames by instruction that goes down with every change of a frame. -/
def Method.Sinks (m : Method) (rank : Nat → Frame → Nat) : Prop :=
  ∀ {t f g k}, m.arrive t (some f) g = .ok k → k = f ∨ rank t k < rank t f

theorem Method.sinks {m : Method} {height : String → Nat} {bound : Nat}
    (hg : m.hierarchy.Graded height bound) :
    m.Sinks fun t f => f.rank height bound (m.declared t) := by
  intro t f g k hk
  rw [Method.arrive_further] at hk
  exact (Frame.meets_of_meet hk).rank_lt hg

namespace Progress

/-! ## The loop -/

/-- One step of the loop: an instruction is taken off the queue and executed. -/
def Advances (m : Method) (p q : Progress) : Prop :=
  ∃ i p', p.next = some (i, p') ∧ p'.step m i = .ok q

/-- How the loop ends, however many steps it takes: with an empty queue or with a fault. -/
inductive Ends (m : Method) : Progress → Except CodeError Progress → Prop
  | done {p : Progress} : p.next = none → Ends m p (.ok p)
  | fails {p p' : Progress} {i : Nat} {e : CodeError} : p.next = some (i, p') →
    p'.step m i = .error e → Ends m p (.error e)
  | advances {p q : Progress} {r : Except CodeError Progress} : Advances m p q → Ends m q r →
    Ends m p r

variable {m : Method} {rank : Nat → Frame → Nat} {p q : Progress}

theorem Ends.next {r : Except CodeError Progress} (h : Ends m p r) (hr : r = .ok q) :
    q.next = none := by
  induction h with
  | done hn =>
    cases hr
    exact hn
  | fails => cases hr
  | advances _ _ ih => exact ih hr

/-- The loop does not fail for want of steps. -/
theorem Ends.settles {r : Except CodeError Progress} (h : Ends m p r) : Settles r := by
  induction h with
  | done => exact .ok _
  | @fails p p' i e _ hstep =>
    have := p'.step_settles m i
    rw [hstep] at this
    exact .error fun he => this (congrArg Except.error he)
  | advances _ _ ih => exact ih

/-! ## What goes down -/

def missing (p : Progress) : Nat :=
  ∑ i ∈ Finset.range p.frames.size, (p.frame i).elim 1 fun _ => 0

/-- The ranks of all frames together. -/
def weight (rank : Nat → Frame → Nat) (p : Progress) : Nat :=
  ∑ i ∈ Finset.range p.frames.size, (p.frame i).elim 0 (rank i)

/-- How much the frames can still change. -/
def slack (rank : Nat → Frame → Nat) (p : Progress) : Nat ×ₗ Nat :=
  toLex (p.missing, p.weight rank)

def pending (p : Progress) : Nat :=
  p.front.length + p.back.length

theorem frames_receive (t : Nat) (k : Frame) : (p.receive t k).frames.size = p.frames.size := by
  unfold receive
  split
  · rfl
  · simp only
    split <;> simp

theorem slack_congr (h : q.frames = p.frames) : q.slack rank = p.slack rank := by
  unfold slack missing weight frame
  rw [h]

theorem slack_lt : q.slack rank < p.slack rank ↔
    q.missing < p.missing ∨ q.missing = p.missing ∧ q.weight rank < p.weight rank :=
  Prod.Lex.toLex_lt_toLex

/-- An instruction that gets its first frame, or one of less rank, takes up slack. -/
theorem slack_receive_lt {t : Nat} {k : Frame} (ht : t < p.frames.size)
    (hk : ∀ f, p.frame t = some f → rank t k < rank t f) :
    (p.receive t k).slack rank < p.slack rank := by
  have hmem : t ∈ Finset.range p.frames.size := Finset.mem_range.2 ht
  have here : (p.receive t k).frame t = some k := by
    rw [frame_receive, if_pos ⟨rfl, ht⟩]
  have others : ∀ i, i ≠ t → (p.receive t k).frame i = p.frame i := fun i hi => by
    rw [frame_receive, if_neg fun e => hi e.1]
  rw [slack_lt]
  unfold missing weight
  rw [frames_receive]
  cases hf : p.frame t with
  | none =>
    left
    refine Finset.sum_lt_sum (fun i _ => ?_) ⟨t, hmem, ?_⟩
    · by_cases hi : i = t
      · rw [hi, here]
        exact Nat.zero_le _
      · rw [others i hi]
    · rw [here, hf]
      exact Nat.zero_lt_one
  | some f =>
    right
    refine ⟨Finset.sum_congr rfl fun i _ => ?_, Finset.sum_lt_sum (fun i _ => ?_) ⟨t, hmem, ?_⟩⟩
    · by_cases hi : i = t
      · rw [hi, here, hf]
        rfl
      · rw [others i hi]
    · by_cases hi : i = t
      · rw [hi, here, hf]
        exact Nat.le_of_lt (hk f hf)
      · rw [others i hi]
    · rw [here, hf]
      exact hk f hf

/-- The frames have changed downwards, or they and the queue are what they were. -/
def Sunk (rank : Nat → Frame → Nat) (p q : Progress) : Prop :=
  (q.slack rank = p.slack rank ∧ q.pending = p.pending) ∨ q.slack rank < p.slack rank

theorem Sunk.trans {r : Progress} (h : Sunk rank p q) (h' : Sunk rank q r) : Sunk rank p r := by
  rcases h with ⟨hs, hp⟩ | hs
  · rcases h' with ⟨hs', hp'⟩ | hs'
    · exact .inl ⟨hs'.trans hs, hp'.trans hp⟩
    · exact .inr (hs ▸ hs')
  · rcases h' with ⟨hs', -⟩ | hs'
    · exact .inr (hs' ▸ hs)
    · exact .inr (hs'.trans hs)

section Sinks

variable (hs : m.Sinks rank)
include hs

theorem deliver_sunk (hp : p.Coherent m) {t : Nat} {g : Frame} (h : p.deliver m t g = .ok q) :
    Sunk rank p q := by
  obtain ⟨k, hk, rfl⟩ := deliver_eq_ok.1 h
  by_cases hsame : p.frame t = some k
  · rw [receive, if_pos hsame]
    exact .inl ⟨rfl, rfl⟩
  · by_cases ht : t < p.frames.size
    · refine .inr (slack_receive_lt ht fun f hf => ?_)
      rw [hf] at hk
      rcases hs hk with rfl | hlt
      · exact absurd hf hsame
      · exact hlt
    · -- there is no such instruction: nothing is set or queued
      have hqueued : p.queued[t]? = none := by
        rw [Array.getElem?_eq_none_iff, hp.queued, ← hp.frames]
        exact Nat.le_of_not_lt ht
      have hframes : p.frames.setIfInBounds t (some k) = p.frames :=
        Array.setIfInBounds_eq_of_size_le (Nat.le_of_not_lt ht)
      rw [receive, if_neg hsame]
      simp only [hqueued, hframes, Option.getD_none, if_true]
      exact .inl ⟨rfl, rfl⟩

theorem deliverAll_sunk (hp : p.Coherent m) {ds : List (Nat × Frame)}
    (h : ds.foldlM (fun p t => p.deliver m t.1 t.2) p = .ok q) : Sunk rank p q := by
  induction ds generalizing p with
  | nil =>
    cases h
    exact .inl ⟨rfl, rfl⟩
  | cons d ds ih =>
    rw [List.foldlM_cons] at h
    obtain ⟨p', hd, h⟩ := bind_eq_ok.1 h
    exact (deliver_sunk hs hp hd).trans (ih (deliver_coherent hp hd) h)

theorem step_sunk {i : Nat} (hp : Taken m p i) (h : p.step m i = .ok q) : Sunk rank p q := by
  rcases step_eq_ok.1 h with ⟨-, rfl⟩ | ⟨f, insn, ds, after, -, -, -, hfold⟩
  · exact .inl ⟨rfl, rfl⟩
  · exact deliverAll_sunk hs (p := { p.unmark i with
      maxStack := max p.maxStack after.peak
      maxLocals := max p.maxLocals after.locals.length })
      ⟨hp.unmark.frames, hp.unmark.queued, hp.unmark.queue⟩ hfold

omit hs in
theorem pending_next {i : Nat} (h : p.next = some (i, q)) : q.pending < p.pending := by
  unfold next at h
  unfold pending
  split at h
  · rename_i hf
    cases h
    simp [hf]
  · rename_i hf
    split at h
    · rename_i hb
      cases h
      have := congrArg List.length hb
      simp only [List.length_reverse, List.length_cons] at this
      simp only [hf, List.length_nil]
      omega
    · cases h

/-- There is no endless run. -/
theorem advances_wellFounded :
    WellFounded fun q p : Progress => p.Coherent m ∧ Advances m p q := by
  refine Subrelation.wf ?_ (InvImage.wf (fun p : Progress => toLex (p.slack rank, p.pending))
    wellFounded_lt)
  rintro q p ⟨hp, i, p', hn, hstep⟩
  have hslack : p'.slack rank = p.slack rank := slack_congr (next_eq_some hn).1
  have hpending := pending_next hn
  have hsunk := step_sunk hs (hp.next hn) hstep
  unfold Sunk at hsunk
  rw [hslack] at hsunk
  rw [InvImage, Prod.Lex.toLex_lt_toLex]
  rcases hsunk with ⟨hsame, hqueue⟩ | hlt
  · exact .inr ⟨hsame, hqueue ▸ hpending⟩
  · exact .inl hlt

/-- The loop ends, and a run of so many steps comes to the same. -/
theorem exists_ends (hp : p.Coherent m) :
    ∃ r limit, Ends m p r ∧ ∀ n, limit ≤ n → p.run m n = r := by
  induction p using (advances_wellFounded hs).induction with
  | _ p ih =>
    cases hn : p.next with
    | none =>
      refine ⟨.ok p, 0, .done hn, fun n _ => ?_⟩
      cases n with
      | zero => simp [run, hn]
      | succ n => simp [run, hn]
    | some taken =>
      obtain ⟨i, p'⟩ := taken
      cases hstep : p'.step m i with
      | error e =>
        refine ⟨.error e, 1, .fails hn hstep, fun n hle => ?_⟩
        obtain ⟨n, rfl⟩ := Nat.exists_eq_add_of_le' hle
        simp [run, hn, hstep]
      | ok q =>
        have hadvances : Advances m p q := ⟨i, p', hn, hstep⟩
        obtain ⟨r, limit, hends, hrun⟩ := ih q ⟨hp, hadvances⟩ (step_coherent (hp.next hn) hstep)
        refine ⟨r, limit + 1, .advances hadvances hends, fun n hle => ?_⟩
        obtain ⟨n, rfl⟩ := Nat.exists_eq_add_of_le' (Nat.le_trans (Nat.le_add_left 1 limit) hle)
        simp only [run, hn, hstep]
        exact hrun n (by omega)

end Sinks

end Progress

/-! ## The inference of a body -/

/-- For every body, whatever frames are declared, and every hierarchy that is known by sound links:
the loop of the inference ends, with an empty queue or with a fault of one of the instructions, and that
is what every run comes to that is given steps enough. -/
theorem inference_ends {b : Body} {context : MethodContext} {pool : Pool} {h : Hierarchy}
    {links : SuperclassLinks} {m : Method} (hh : h.Known links) (hl : links.Sound)
    (hm : Method.ofBody b context pool h = .ok m) :
    ∃ r limit, Progress.Ends m (Progress.start m b.maxLocals.toNat) r ∧ Settles r ∧
      (∀ p, r = .ok p → p.next = none) ∧
      ∀ n, limit ≤ n → (Progress.start m b.maxLocals.toNat).run m n = r := by
  have hgraded := hh.graded hl
  rw [← (of_ofBody hm).hierarchy] at hgraded
  obtain ⟨r, limit, hends, hrun⟩ :=
    Progress.exists_ends (Method.sinks hgraded) Progress.start_coherent
  exact ⟨r, limit, hends, hends.settles, fun p hr => hends.next hr, hrun⟩

/-- Two classes with a common superclass. -/
def siblings : SuperclassLinks :=
  (SuperclassLinks.insert {} "B" "A").insert "C" "A"

theorem inference_ends_declaredLoop :
    (siblings.insert "D" "A").Sound ∧
    ∃ m, Method.ofBody declaredLoop ⟨"D", Access.staticFlag, "f", ⟨[], .void⟩⟩ declaredLoopPool
        (siblings.hierarchy.lifting "D" (some "A")) = .ok m ∧
      ∃ r limit, Progress.Ends m (Progress.start m 0) r ∧
        ∀ n, limit ≤ n → (Progress.start m 0).run m n = r := by
  have link : ∀ {c s}, (siblings.insert "D" "A").Link c s → c ≠ "A" ∧ s = "A" := by
    intro c s h
    unfold SuperclassLinks.Link siblings SuperclassLinks.insert at h
    simp only [Std.TreeMap.getElem?_insert, Std.compare_eq_iff_eq, Std.TreeMap.getElem?_emptyc] at h
    grind
  have hl : (siblings.insert "D" "A").Sound := by
    refine ⟨fun c hc => ?_, by decide +kernel⟩
    obtain ⟨x, -, hlast⟩ := Relation.TransGen.tail'_iff.1 hc
    obtain ⟨y, hfirst, -⟩ := Relation.TransGen.head'_iff.1 hc
    exact (link hfirst).1 (link hlast).2
  have hok : (Method.ofBody declaredLoop ⟨"D", Access.staticFlag, "f", ⟨[], .void⟩⟩ declaredLoopPool
      (siblings.hierarchy.lifting "D" (some "A"))).toOption.any (fun _ => true) := by decide +kernel
  obtain ⟨m, hm, -⟩ := any_toOption.1 hok
  obtain ⟨r, limit, hends, -, -, hrun⟩ :=
    inference_ends (.lifting (.links siblings) (.inl (by decide +kernel))) hl hm
  exact ⟨hl, m, hm, r, limit, hends, hrun⟩

end Analysis

end Interpose
