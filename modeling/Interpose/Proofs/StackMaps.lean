import Interpose.Proofs.Code.StackMap
/-!
# Stack maps of assembled code

An assembled method has one frame at every offset that control is sent to. Several labels can share
that offset, each with an inferred frame of its own, and the table shows the one of the lowest. It
accepts all that control brings to the offset exactly when it accepts the frames of all those labels
(`assemble_accepts_iff`); it need not (`assemble_refuses`).
-/

namespace Interpose

open Analysis

/-- The frame accepts whatever control brings to an offset, under any of the labels there. -/
def AcceptsArrivals (h : Hierarchy) (m : Method) (a : Analysis) (e : Encoded) (o : Nat)
    (f : Frame) : Prop :=
  ∀ j g, e.offsets[j]? = some o → Arrives m a.frame j g → f.Accepts h g

/-- The frame accepts every frame that is inferred at an offset. -/
def AcceptsInferred (h : Hierarchy) (a : Analysis) (e : Encoded) (o : Nat) (f : Frame) : Prop :=
  ∀ j g, e.offsets[j]? = some o → a.frame j = some g → f.Accepts h g

/-- The table shows one frame at the offset, the one that is inferred for the lowest branch target
there. -/
structure Shows (q : Pool) (a : Analysis) (e : Encoded) (frames : List (Nat × StackMapFrame))
    (o : Nat) (f : Frame) : Prop where
  single : ∃ sf, frames.filter (·.1 = o) = [(o, sf)] ∧ sf.Denotes q e.offsets f
  lowest : ∃ i g, i ∈ a.branchTargets ∧ e.offsets[i]? = some o ∧ a.frame i = some g ∧
    f = g.written ∧ ∀ j ∈ a.branchTargets, e.offsets[j]? = some o → i ≤ j

theorem filter_key_eq_singleton {α : Type} {xs : List (Nat × α)} {o : Nat} {x : α}
    (hs : xs.Pairwise (fun x y => x.1 < y.1)) (hx : (o, x) ∈ xs) :
    xs.filter (·.1 = o) = [(o, x)] := by
  induction xs with
  | nil => cases hx
  | cons y ys ih =>
    obtain ⟨hy, hs⟩ := List.pairwise_cons.1 hs
    rcases List.mem_cons.1 hx with rfl | hx
    · rw [List.filter_cons_of_pos (by simp), List.filter_eq_nil_iff.2]
      intro z hz
      have := hy z hz
      simp only [decide_eq_true_eq]
      omega
    · have := hy _ hx
      rw [List.filter_cons_of_neg (by simp only [decide_eq_true_eq]; omega)]
      exact ih hs hx

/-- At every branch target there is one frame in the table. -/
theorem stands_shows {q : Pool} {a : Analysis} {e : Encoded} {frames : List (Nat × StackMapFrame)}
    (hs : StackMap.Stands q a e frames)
    (hreach : ∀ i ∈ a.branchTargets, ∃ f, a.frame i = some f) {o j : Nat}
    (hj : j ∈ a.branchTargets) (ho : e.offsets[j]? = some o) : ∃ f, Shows q a e frames o f := by
  obtain ⟨i, hi, hio, -, hchosen⟩ := StackMap.instructionsByOffset_least e.widened hj ho
  obtain ⟨g, hg⟩ := hreach i hi
  have hmem : (o, g) ∈ StackMap.framed a (StackMap.chosen a e) :=
    List.mem_filterMap.2 ⟨(o, i), StackMap.mem_chosen.2 hchosen, by simp [hg]⟩
  obtain ⟨⟨o', sf⟩, hsf, rfl, hdenotes⟩ := (mem_forall₂ hs).2 _ hmem
  refine ⟨g.written, ⟨sf, ?_, hdenotes⟩, i, g, hi, hio, hg, rfl, fun k hk hko => ?_⟩
  · exact filter_key_eq_singleton (hs.sorted) hsf
  · obtain ⟨i', -, -, hle, hchosen'⟩ :=
      StackMap.instructionsByOffset_least e.widened hk hko
    rw [hchosen] at hchosen'
    cases hchosen'
    exact hle

/-- In an assembled method every offset that control is sent to has one frame, the one that was
inferred for the lowest label there. It accepts everything that control brings to the offset if and
only if it accepts the frames that were inferred for all the labels at the offset. -/
theorem assemble_accepts_iff {body : Body} {context : MethodContext} {h : Hierarchy}
    {major : UInt16} {pool q : Pool} {c : CodeAttribute} (hs : h.Semilattice) (hp : pool.Sound)
    (hbody : body.declaredFrames = []) (hmajor : stackMapVersion ≤ major)
    (hc : (assemble body context h major).run.run pool = (.ok c, q)) :
    ∃ b a e m, Assemble.live body context pool h = .ok (b, a) ∧ encode b pool = .ok e ∧
      Method.ofBody b context pool h = .ok m ∧ c.code = e.code ∧ c.exceptions = e.exceptions ∧
      ∀ l ∈ b.targets, ∃ o f, e.labels[l]? = some o ∧ Shows q a e c.declaredFrames o f ∧
        (AcceptsArrivals h m a e o f ↔ AcceptsInferred h a e o f) := by
  have hl := hs.lawful
  obtain ⟨b, a, e, hlive, he, hcode, hexc, -, hstands⟩ := assemble_eq_ok hp hc
  obtain ⟨ha, hdecl, hreal⟩ := live_reached hlive
  obtain ⟨m, -, hm, ht, -⟩ := analyze_eq_ok ha
  have hb : b.declaredFrames = [] := by rw [hdecl, hbody]
  have hfits := encode_fits he
  refine ⟨b, a, e, m, hlive, he, hm, hcode, hexc, fun l hlt => ?_⟩
  -- the label is placed, since the analysis has looked it up
  obtain ⟨j, hj⟩ : ∃ j, LastPlace b.insns l j := by
    have hof := of_ofBody hm
    rcases List.mem_append.1 hlt with hlt | hlt
    · obtain ⟨insn, hinsn, hlt⟩ := List.mem_flatMap.1 hlt
      exact placed_of_analyze ha hinsn hlt
    · obtain ⟨t, ht, rfl⟩ := List.mem_map.1 hlt
      obtain ⟨g, -, -, -, hh, -⟩ := (mem_forall₂ hof.guards).1 t ht
      exact ⟨_, hh⟩
  have hjt : j ∈ a.branchTargets := (mem_branchTargets hm ha).2 ⟨l, hlt, hj⟩
  obtain ⟨o, ho⟩ : ∃ o, e.offsets[j]? = some o :=
    ⟨_, Array.getElem?_eq_getElem (by rw [hfits.size]; exact hj.lt)⟩
  obtain ⟨f, hshows⟩ := stands_shows (hstands hmajor)
    (fun i hi => branchTargets_reached hm ha hreal hi) hjt ho
  refine ⟨o, f, (hfits.labels l o).2 ⟨j, hj, ho⟩, hshows, fun harr k g hk hg => ?_,
    fun hinf k g hk hg => ?_⟩
  · exact analyze_least hm ha hl hb (fun g' hg' => harr k g' hk hg') hg
  · obtain ⟨f', hf', hacc⟩ := analyze_accepts hm ha hl hb hg
    exact (hinf k f' hk hf').trans hl hacc

/-- A loop that counts its argument down to zero. -/
def countdown : Body :=
  .ofInsns [.label 0, .iinc 0 (-1), .var Op.iload 0, .jump Op.ifne 0, .simple Op.returnVoid]

def ofOneInt : MethodContext :=
  ⟨"A", Access.staticFlag, "f", ⟨[.int], .void⟩⟩

theorem assemble_accepts_iff_countdown :
    Hierarchy.flat.Semilattice ∧ Pool.empty.Sound ∧ countdown.declaredFrames = [] ∧
      ∃ c q, (assemble countdown ofOneInt .flat 52).run.run .empty = (.ok c, q) ∧
        ∃ b : Body, ∃ a e m, 0 ∈ b.targets ∧ ∀ l ∈ b.targets, ∃ o f, e.labels[l]? = some o ∧
          Shows q a e c.declaredFrames o f ∧
          (AcceptsArrivals .flat m a e o f ↔ AcceptsInferred .flat a e o f) := by
  refine ⟨Hierarchy.flat_semilattice, Pool.empty_sound, rfl, ?_⟩
  have hok : ((assemble countdown ofOneInt .flat 52).run.run .empty).1.toOption.any (fun _ => true) := by
    decide +kernel
  obtain ⟨c, hc, -⟩ := any_toOption.1 hok
  have hrun : (assemble countdown ofOneInt .flat 52).run.run .empty =
      (.ok c, ((assemble countdown ofOneInt .flat 52).run.run .empty).2) := Prod.ext hc rfl
  obtain ⟨b, a, e, m, hlive, -, -, -, -, h⟩ :=
    assemble_accepts_iff Hierarchy.flat_semilattice (Pool.empty_sound) rfl (by decide) hrun
  have hb : (Assemble.live countdown ofOneInt .empty .flat).toOption.any (fun x => x.1.targets = [0]) := by
    decide +kernel
  obtain ⟨x, hx, hb⟩ := any_toOption.1 hb
  rw [hlive] at hx
  cases hx
  simp only [decide_eq_true_eq] at hb
  exact ⟨c, _, hrun, b, a, e, m, by simp [hb], h⟩

/-- Two branches that leave values of different types in one local. The first of their targets shares
its offset with the second, where both branches meet. -/
def crossing : Body :=
  .ofInsns [.simple Op.iconst1, .var Op.istore 1, .var Op.iload 0, .jump Op.ifeq 0,
    .simple Op.fconst0, .var Op.fstore 1, .jump Op.goto 1, .label 0, .label 1, .simple Op.returnVoid]

/-- The frame of a table need not accept what control brings to its offset under another label. -/
theorem assemble_refuses :
    Hierarchy.flat.Semilattice ∧ Pool.empty.Sound ∧ crossing.declaredFrames = [] ∧
      ∃ c q, (assemble crossing ofOneInt .flat 52).run.run .empty = (.ok c, q) ∧
        ∃ (b : Body) (a : Analysis) (e : Encoded) (m : Method),
          Assemble.live crossing ofOneInt .empty .flat = .ok (b, a) ∧ encode b .empty = .ok e ∧
          Method.ofBody b ofOneInt .empty .flat = .ok m ∧ 1 ∈ b.targets ∧
          e.labels[1]? = some 11 ∧
          ¬ ∃ f sf, c.declaredFrames.filter (·.1 = 11) = [(11, sf)] ∧
            sf.Denotes q e.offsets f ∧ AcceptsArrivals .flat m a e 11 f := by
  refine ⟨Hierarchy.flat_semilattice, Pool.empty_sound, rfl, ?_⟩
  have hrun : ((assemble crossing ofOneInt .flat 52).run.run .empty).1.toOption.any
      (fun c => c.declaredFrames = [(11, .full 11 [.integer, .integer] [])]) := by decide +kernel
  have hlive : (Assemble.live crossing ofOneInt .empty .flat).toOption.any (fun x =>
      decide (x.1.targets = [0, 1]) && decide (x.2.frame 6 = some ⟨[.int, .float], []⟩) &&
      (encode x.1 .empty).toOption.any (fun e =>
        decide (e.labels[1]? = some 11) && decide (e.offsets[8]? = some 11)) &&
      (Method.ofBody x.1 ofOneInt .empty .flat).toOption.any (fun m =>
        decide (m.code[6]? = some (.jump Op.goto 1)) &&
        (m.deliveries 6 (.jump Op.goto 1) ⟨[.int, .float], []⟩).toOption.any (fun ds =>
          decide (ds.1 = [(8, ⟨[.int, .float], []⟩)])))) := by decide +kernel
  obtain ⟨c, hc, hframes⟩ := any_toOption.1 hrun
  obtain ⟨⟨b, a⟩, hba, hchecks⟩ := any_toOption.1 hlive
  simp only [Bool.and_eq_true, decide_eq_true_eq, any_toOption] at hframes hchecks
  obtain ⟨⟨⟨ht, hsix⟩, e, he, hl, ho⟩, m, hm, hgoto, ⟨ds, after⟩, hds, rfl⟩ := hchecks
  refine ⟨c, _, Prod.ext hc rfl, b, a, e, m, hba, he, hm, by simp [ht], hl, ?_⟩
  rintro ⟨f, sf, hsf, ⟨_, locals, _, ls, _, rfl, hlocals, -, rfl⟩, hacc⟩
  rw [hframes] at hsf
  cases hsf
  cases hlocals with
  | cons h0 hlocals =>
    cases hlocals with
    | cons h1 hlocals =>
      cases hlocals
      cases h0
      cases h1
      -- the branch over the first label brings a floating-point number
      have harr : Arrives m a.frame 8 ⟨[.int, .float], []⟩ :=
        .edge (t := (8, _)) hsix hgoto hds (List.mem_singleton_self _)
      obtain ⟨-, hlocals⟩ := hacc 8 _ ho harr
      obtain ⟨v, hv, h⟩ := hlocals 1 .int rfl
      cases hv
      rcases h with h | h
      · cases h
      · cases h

end Interpose
