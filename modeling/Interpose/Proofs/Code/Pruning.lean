import Mathlib.Logic.Equiv.Fintype
import Interpose.Proofs.Code.BranchTargets
import Interpose.Proofs.Inference.Mirror
/-!
# What leaving out dead code does

A body without its dead code is the same to the inference: with the numbers that its instructions had
before, the two bodies mirror each other (`mirrors_withoutDeadCode`). So it is analysed too, and
nothing is lost but what control does not reach (`analyze_withoutDeadCode`).
-/

namespace Interpose

namespace Thinned

variable {all kept : List Insn} {old : Nat → Nat}

/-- The old numbers can be taken from a renumbering of all instructions. -/
theorem exists_perm (h : Thinned all kept old) :
    ∃ e : Equiv.Perm Nat, Thinned all kept e ∧ ∀ k, k < kept.length → e k = old k := by
  obtain ⟨e, he⟩ := Equiv.Perm.exists_extending_pair (fun k : Fin kept.length => (k : Nat))
    (fun k => old k) Fin.val_injective fun k k' hkk => Fin.ext (h.inj k.2 k'.2 hkk)
  have same : ∀ k, k < kept.length → e k = old k := fun k hk => he ⟨k, hk⟩
  refine ⟨e, ⟨fun k hk => ?_, fun k k' hlt hk' => ?_, fun i l hi => ?_⟩, same⟩
  · rw [same k hk, h.insn k hk]
  · rw [same k (by omega), same k' hk']
    exact h.mono k k' hlt hk'
  · obtain ⟨k, hk, rfl⟩ := h.label i l hi
    exact ⟨k, hk, same k hk⟩

theorem labelPositions (h : Thinned all kept old) (l : Label) :
    (labelPositions all)[l]? = (labelPositions kept)[l]?.map old := by
  cases hk : (Interpose.labelPositions kept)[l]? with
  | none =>
    refine Option.eq_none_iff_forall_ne_some.2 fun i hi => ?_
    obtain ⟨k, -, -, hplace⟩ := h.lastPlace_old (labelPositions_eq_some.1 hi)
    rw [labelPositions_eq_some.2 hplace] at hk
    cases hk
  | some k =>
    have hplace := labelPositions_eq_some.1 hk
    exact labelPositions_eq_some.2 ((h.lastPlace hplace.lt).2 hplace)

end Thinned

namespace Analysis

/-! ## The two bodies mirror each other -/

/-- The handlers of an instruction that stays are those that it had. -/
theorem handlers_thinned {all kept : List Insn} {old : Nat → Nat} (hold : Thinned all kept old)
    {pool : Pool} {ts : List TryCatch} {gs gs' : List Guard}
    (hgs : List.Forall₂ (fun t g => guard pool all.toArray (labelPositions all) t = .ok g) ts gs)
    (hgs' : List.Forall₂ (fun t g => guard pool kept.toArray (labelPositions kept) t = .ok g)
      (ts.filter (·.holdsCode (labelPositions kept) kept.toArray)) gs')
    {k : Nat} {insn : Insn} (hk : kept[k]? = some insn) (hreal : insn.isPseudo = false) :
    (gs.filter (·.covers (old k))).map (·.handler) =
      ((gs'.filter (·.covers k)).map (·.handler)).map fun h => { h with target := old h.target } := by
  have hlt := (List.getElem?_eq_some_iff.1 hk).1
  induction hgs generalizing gs' with
  | nil =>
    cases hgs'
    rfl
  | @cons t g ts gs hg _ ih =>
    rw [guard_eq_ok, labelPositions_eq_some, labelPositions_eq_some, labelPositions_eq_some] at hg
    obtain ⟨hs, he, hh, -, -, hc⟩ := hg
    have hcovers : g.covers (old k) = true ↔ t.Covers kept k := by
      rw [Guard.covers_eq_true hs he, hold.covers_iff hlt]
    by_cases hcode : t.holdsCode (labelPositions kept) kept.toArray = true
    · rw [List.filter_cons_of_pos hcode, List.forall₂_cons_left_iff] at hgs'
      obtain ⟨g', gs', hg', hgs', rfl⟩ := hgs'
      rw [guard_eq_ok, labelPositions_eq_some, labelPositions_eq_some, labelPositions_eq_some] at hg'
      obtain ⟨hs', he', hh', -, -, hc'⟩ := hg'
      rw [← Guard.covers_eq_true hs' he', ← Bool.eq_iff_iff] at hcovers
      have hhandler : g.handler = { g'.handler with target := old g'.handler.target } := by
        have htarget := hh.unique ((hold.lastPlace hh'.lt).2 hh')
        have hcaught := catches_unique hc hc'
        cases hgh : g.handler
        rw [hgh] at htarget hcaught
        exact congrArg₂ Handler.mk htarget hcaught
      rw [List.filter_cons, List.filter_cons, hcovers]
      split
      · rw [List.map_cons, List.map_cons, List.map_cons, ih hgs', hhandler]
      · exact ih hgs'
    · rw [List.filter_cons_of_neg hcode] at hgs'
      rw [List.filter_cons_of_neg, ih hgs']
      -- a range that covered the instruction would still hold code
      rw [hcovers]
      rintro ⟨s, e, hs, he, hsk, hke⟩
      refine hcode (holdsCode_eq_true.2 ⟨s, e, hs, he, by omega, anyReal_eq_true.2 ?_⟩)
      exact ⟨k, insn, hsk, hke, by rw [List.getElem?_toArray, hk], hreal⟩

theorem getElem?_foldl_hint {all kept : List Insn} {e : Equiv.Perm Nat} (hold : Thinned all kept e)
    (frames : List (Label × Frame)) {hints hints' : Std.TreeMap Nat Frame}
    (hsame : ∀ k, hints'[k]? = hints[e k]?) (k : Nat) :
    (frames.foldl (hint (labelPositions kept)) hints')[k]? =
      (frames.foldl (hint (labelPositions all)) hints)[e k]? := by
  induction frames generalizing hints hints' with
  | nil => exact hsame k
  | cons d frames ih =>
    rw [List.foldl_cons, List.foldl_cons]
    refine ih fun k => ?_
    unfold hint
    rw [hold.labelPositions d.1]
    cases (labelPositions kept)[d.1]? with
    | none => exact hsame k
    | some i =>
      simp only [Option.map_some, Std.TreeMap.getElem?_insert, Std.compare_eq_iff_eq,
        e.injective.eq_iff, hsame k]

/-- The declared frames are those of the same instructions. -/
theorem declaredFrames_thinned {all kept : List Insn} {e : Equiv.Perm Nat} (hold : Thinned all kept e)
    (pool : Pool) (context : MethodContext) {b b' : Body}
    (hb : b'.declaredFrames = b.declaredFrames) (k : Nat) :
    (declaredFrames pool context b' (labelPositions kept))[k]? =
      (declaredFrames pool context b (labelPositions all))[e k]? := by
  cases hframes : expandFrames pool (initialFrame context).locals b.declaredFrames with
  | error _ => simp [declaredFrames, hb, hframes]
  | ok frames =>
    rw [declaredFrames_of_ok (hb ▸ hframes), declaredFrames_of_ok hframes]
    exact getElem?_foldl_hint hold frames (by simp) k

section Dead

variable {b : Body} {context : MethodContext} {pool : Pool} {h : Hierarchy} {m n : Method}
  {a : Analysis} (hm : Method.ofBody b context pool h = .ok m)
  (ha : analyze b context pool h = .ok a)
include hm ha

/-- The method without its dead code mirrors the method, with the numbers that its instructions
had. -/
theorem mirrors_withoutDeadCode
    (hn : Method.ofBody (withoutDeadCode b a) context pool h = .ok n) :
    ∃ e : Equiv.Perm Nat, m.Mirrors n e ∧ Thinned b.insns (withoutDeadCode b a).insns e ∧
      (∀ i, Reached m i → ∃ k, k < (withoutDeadCode b a).insns.length ∧ e k = i) ∧
      ∀ k insn, (withoutDeadCode b a).insns[k]? = some insn → insn.isPseudo = false →
        Reached m (e k) := by
  obtain ⟨old, hthin, hreach, hlive⟩ := withoutDeadCode_thinned hm ha
  obtain ⟨e, hold, same⟩ := hthin.exists_perm
  have om := of_ofBody hm
  have on := of_ofBody hn
  obtain ⟨hgm, em⟩ := ofBody_eq_ok.1 hm
  obtain ⟨hgn, en⟩ := ofBody_eq_ok.1 hn
  have kept : ∀ i, Reached m i → ∃ k, k < (withoutDeadCode b a).insns.length ∧ e k = i := by
    intro i hi
    obtain ⟨k, hk, rfl⟩ := hreach i hi
    exact ⟨k, hk, same k hk⟩
  have bound : ∀ k, Reached m (e k) → k < (withoutDeadCode b a).insns.length := by
    intro k hr
    obtain ⟨k', hk', hkk⟩ := kept _ hr
    rwa [← e.injective hkk]
  refine ⟨e, ⟨by rw [on.pool, om.pool], by rw [on.context, om.context],
    by rw [on.hierarchy, om.hierarchy], ?_, fun k hr => ?_, fun k insn hr hi hreal => ?_,
    fun k insn l i hr hi hl hpos => ?_, fun k insn hr hi ht hlt => ?_, fun k hr => ?_⟩, hold, kept,
    fun k insn hk hreal => ?_⟩
  · obtain ⟨k, hk, h0⟩ := kept 0 .entry
    rwa [hold.eq_zero hk h0] at h0
  · rw [on.insn, om.insn, hold.insn k (bound k hr)]
  · rw [om.insn, hold.insn k (bound k hr)] at hi
    exact handlers_thinned hold hgm hgn hi hreal
  · rw [em] at hpos
    rw [en]
    rw [hold.labelPositions] at hpos
    obtain ⟨j, hj, rfl⟩ := Option.map_eq_some_iff.1 hpos
    rw [e.symm_apply_apply, hj]
  · obtain ⟨k', hk', hnext⟩ := kept (e k + 1) (.step hr ⟨insn, hi, .inr (.inr ⟨ht, rfl⟩)⟩)
    rwa [hold.eq_succ (bound k hr) hk' hnext] at hnext
  · rw [en, em]
    exact declaredFrames_thinned hold pool context rfl k
  · rw [same k (List.getElem?_eq_some_iff.1 hk).1]
    exact hlive k insn hk hreal

/-- Labels stay, so the jumps of the method still find their targets, and it is analysed again. -/
theorem analyzed_withoutDeadCode (hn : Method.ofBody (withoutDeadCode b a) context pool h = .ok n)
    {e : Equiv.Perm Nat} (hmirrors : m.Mirrors n e) (hold : Thinned b.insns (withoutDeadCode b a).insns e) :
    ∃ a', analyze (withoutDeadCode b a) context pool h = .ok a' ∧ a'.maxStack = a.maxStack ∧
      a'.maxLocals = a.maxLocals ∧ ∀ k, a.frame (e k) = (a'.frame k).map (Frame.renumber e) := by
  have placed : ∀ insn ∈ (withoutDeadCode b a).insns, ∀ l ∈ insn.targets,
      ∃ i : Nat, n.positions[l]? = some i := by
    intro insn hinsn l hl
    obtain ⟨k, hk⟩ := List.mem_iff_getElem?.1 hinsn
    rw [← hold.insn k (List.getElem?_eq_some_iff.1 hk).1] at hk
    obtain ⟨i, hi⟩ := placed_of_analyze ha (List.mem_of_getElem? hk) hl
    obtain ⟨j, -, -, hj⟩ := hold.lastPlace_old hi
    exact ⟨j, ((of_ofBody hn).positions l j).2 hj⟩
  obtain ⟨targets, htargets⟩ := jumpTargets_ok placed n.guards
  obtain ⟨a', ha', -, hrest⟩ := analyze_mirrors hm ha hn hmirrors rfl htargets
  exact ⟨a', ha', hrest⟩

end Dead

end Analysis

/-! ## Nothing else is lost -/

/-- A protected range covers an instruction that takes bytes and has a frame. -/
def TryCatch.CoversLive (b : Body) (a : Analysis) (t : TryCatch) : Prop :=
  ∃ (i : Nat) (insn : Insn), b.insns[i]? = some insn ∧ insn.isPseudo = false ∧
    (a.frame i).isSome ∧ t.Covers b.insns i

/-- What is left of a body and of its analysis when nothing but dead code has gone. Number `k` of the
instructions had the number `old k`. -/
structure Pruning (b : Body) (a : Analysis) (b' : Body) (a' : Analysis) (old : Equiv.Perm Nat) :
    Prop where
  insn : ∀ k, k < b'.insns.length → b'.insns[k]? = b.insns[old k]?
  order : ∀ k k', k < k' → k' < b'.insns.length → old k < old k'
  /-- What is gone took bytes and was not reached, or is a source line. -/
  gone : ∀ (i : Nat) (insn : Insn), b.insns[i]? = some insn →
    (∀ k, k < b'.insns.length → old k ≠ i) →
    (insn.isPseudo = false ∧ a.frame i = none) ∨ ∃ number, insn = .line number
  /-- What takes bytes and was not reached is gone. -/
  live : ∀ (k : Nat) (insn : Insn), b'.insns[k]? = some insn → insn.isPseudo = false →
    (a.frame (old k)).isSome
  deadCode : a'.deadCode b' = []
  frame : ∀ k, k < b'.insns.length → a'.frame k = (a.frame (old k)).map (Frame.renumber old.symm)
  /-- What is not constructed yet was made by an instruction that stays. -/
  sited : ∀ (k : Nat) (f : Frame), a'.frame k = some f → Analysis.SitedFrame b'.insns.length f
  maxStack : a'.maxStack = a.maxStack
  maxLocals : a'.maxLocals = a.maxLocals
  tryCatch : ∃ stays : TryCatch → Bool, b'.tryCatch = b.tryCatch.filter stays ∧
    ∀ t ∈ b.tryCatch, stays t = true ↔ t.CoversLive b a
  covers : ∀ (t : TryCatch) (k : Nat), k < b'.insns.length →
    (t.Covers b'.insns k ↔ t.Covers b.insns (old k))

section Pruning

open Analysis

variable {b : Body} {context : MethodContext} {pool : Pool} {h : Hierarchy} {m : Method}
  {a : Analysis} {kept : List Insn} {old : Nat → Nat}
  (hold : Thinned b.insns kept old)
  (hframed : ∀ i f, a.frame i = some f → ∃ k, k < kept.length ∧ old k = i)
include hold hframed

theorem Thinned.gone {i : Nat} {insn : Insn} (hi : b.insns[i]? = some insn)
    (hgone : ∀ k, k < kept.length → old k ≠ i) :
    (insn.isPseudo = false ∧ a.frame i = none) ∨ ∃ number, insn = .line number := by
  have hf : a.frame i = none := by
    refine Option.eq_none_iff_forall_ne_some.2 fun f hf => ?_
    obtain ⟨k, hk, e⟩ := hframed i f hf
    exact hgone k hk e
  cases insn with
  | label l =>
    obtain ⟨k, hk, e⟩ := hold.label i l hi
    exact absurd e (hgone k hk)
  | line number => exact .inr ⟨number, rfl⟩
  | _ => exact .inl ⟨rfl, hf⟩

/-- A range still holds code when it covers an instruction with a frame. -/
theorem Thinned.holdsCode_iff {t : TryCatch} (hlive : ∀ (k : Nat) (insn : Insn),
      kept[k]? = some insn → insn.isPseudo = false → (a.frame (old k)).isSome) :
    t.holdsCode (Interpose.labelPositions kept) kept.toArray = true ↔ t.CoversLive b a := by
  rw [holdsCode_eq_true]
  constructor
  · rintro ⟨s, x, hs, hx, -, hreal⟩
    obtain ⟨k, insn, hsk, hkx, hk, hinsn⟩ := anyReal_eq_true.1 hreal
    rw [List.getElem?_toArray] at hk
    have hlt := (List.getElem?_eq_some_iff.1 hk).1
    exact ⟨old k, insn, (hold.insn k hlt).trans hk, hinsn, hlive k insn hk hinsn,
      (hold.covers_iff hlt).2 ⟨s, x, hs, hx, hsk, hkx⟩⟩
  · rintro ⟨i, insn, hi, hreal, hf, hcovers⟩
    obtain ⟨f, hf⟩ := Option.isSome_iff_exists.1 hf
    obtain ⟨k, hk, rfl⟩ := hframed i f hf
    obtain ⟨s, x, hs, hx, hsk, hkx⟩ := (hold.covers_iff hk).1 hcovers
    refine ⟨s, x, hs, hx, by omega, anyReal_eq_true.2 ⟨k, insn, hsk, hkx, ?_, hreal⟩⟩
    rw [List.getElem?_toArray, ← hold.insn k hk, hi]

end Pruning

open Analysis in
/-- A body without its dead code is analysed again, and nothing else has gone. -/
theorem analyze_withoutDeadCode {b : Body} {context : MethodContext} {pool : Pool} {h : Hierarchy}
    {a : Analysis} (ha : analyze b context pool h = .ok a) :
    ∃ a' old, analyze (withoutDeadCode b a) context pool h = .ok a' ∧
      Pruning b a (withoutDeadCode b a) a' old := by
  obtain ⟨m, -, hm, ht, -⟩ := analyze_iff.1 ha
  obtain ⟨n, hn⟩ := ofBody_withoutDeadCode hm ha
  obtain ⟨e, hmirrors, hold, hreach, hlive⟩ := mirrors_withoutDeadCode hm ha hn
  obtain ⟨a', ha', hstack, hlocals, hframe⟩ := analyzed_withoutDeadCode hm ha hn hmirrors hold
  have framed : ∀ i f, a.frame i = some f →
      ∃ k, k < (withoutDeadCode b a).insns.length ∧ e k = i :=
    fun i f hf => hreach i ((analyze_reached hm ha).1 ⟨f, hf⟩)
  have live : ∀ (k : Nat) (insn : Insn), (withoutDeadCode b a).insns[k]? = some insn →
      insn.isPseudo = false → (a.frame (e k)).isSome := fun k insn hk hreal =>
    Option.isSome_iff_exists.2 ((analyze_reached hm ha).2 (hlive k insn hk hreal))
  refine ⟨a', e, ha', {
    insn := fun k hk => (hold.insn k hk).symm
    order := hold.mono
    gone := fun i insn hi hgone => hold.gone framed hi hgone
    live := live
    deadCode := (deadCode_eq_nil (analyze_size ha')).2 fun k insn hk hreal => ?_
    frame := fun k _ => ?_
    sited := fun k f hf => analyze_sited hn ha' hf
    maxStack := hstack
    maxLocals := hlocals
    tryCatch := ⟨_, rfl, fun t _ => hold.holdsCode_iff framed live⟩
    covers := fun t k hk => (hold.covers_iff hk).symm }⟩
  · have := live k insn hk hreal
    rw [hframe, Option.isSome_map] at this
    exact Option.isSome_iff_exists.1 this
  · rw [hframe, Option.map_map]
    cases a'.frame k with
    | none => rfl
    | some f => exact congrArg some (Frame.renumber_symm f).symm

/-- A jump over an instruction, in a protected range with code that is reached. -/
def jumpedOver : Body :=
  { Body.ofInsns [.label 0, .jump Op.goto 1, .simple Op.nop, .label 1, .simple Op.returnVoid,
      .label 2, .simple Op.athrow] with tryCatch := [⟨0, 2, 2, 0⟩] }

theorem analyze_withoutDeadCode_jumpedOver :
    ∃ a, analyze jumpedOver ⟨"A", Access.staticFlag, "f", ⟨[], .void⟩⟩ .empty .flat = .ok a ∧
      a.deadCode jumpedOver = [2] ∧
      ∃ a' old, analyze (withoutDeadCode jumpedOver a)
          ⟨"A", Access.staticFlag, "f", ⟨[], .void⟩⟩ .empty .flat = .ok a' ∧
        Pruning jumpedOver a (withoutDeadCode jumpedOver a) a' old := by
  have hok : (analyze jumpedOver ⟨"A", Access.staticFlag, "f", ⟨[], .void⟩⟩ .empty
      .flat).toOption.any (·.deadCode jumpedOver = [2]) := by decide +kernel
  obtain ⟨a, ha, hdead⟩ := any_toOption.1 hok
  exact ⟨a, ha, by simpa using hdead, analyze_withoutDeadCode ha⟩

end Interpose
