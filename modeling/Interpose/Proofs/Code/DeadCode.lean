import Interpose.Code.Assemble
import Interpose.Proofs.Inference.Result
/-!
# Leaving out dead code

A body without its dead code has the same edges between the instructions that control can reach:
all of them stay, in their order, with their labels and the protected ranges around them
(`Thins`). So control reaches the same instructions as before, and nothing else that takes bytes
is left (`live_reached`).
-/

namespace Interpose

/-! ## Thinning lists -/

/-- A list of instructions is another one without some of them: number `k` of it had the number
`old k`. Labels stay. -/
structure Thinned (all kept : List Insn) (old : Nat → Nat) : Prop where
  insn : ∀ k, k < kept.length → all[old k]? = kept[k]?
  mono : ∀ k k', k < k' → k' < kept.length → old k < old k'
  label : ∀ i l, all[i]? = some (.label l) → ∃ k, k < kept.length ∧ old k = i

namespace Thinned

variable {all kept : List Insn} {old : Nat → Nat}

theorem keep (h : Thinned all kept old) (insn : Insn) :
    Thinned (insn :: all) (insn :: kept) (fun k => if k = 0 then 0 else old (k - 1) + 1) := by
  refine ⟨fun k hk => ?_, fun k k' hk hk' => ?_, fun i l hi => ?_⟩
  · cases k with
    | zero => rfl
    | succ k => simpa using h.insn k (by simpa using hk)
  · cases k' with
    | zero => omega
    | succ k' =>
      cases k with
      | zero => simp
      | succ k =>
        have := h.mono k k' (by omega) (by simpa using hk')
        simpa using this
  · cases i with
    | zero => exact ⟨0, by simp, rfl⟩
    | succ i =>
      obtain ⟨k, hk, rfl⟩ := h.label i l (by simpa using hi)
      exact ⟨k + 1, by simpa using hk, by simp⟩

theorem leave (h : Thinned all kept old) {insn : Insn} (hl : ∀ l, insn ≠ .label l) :
    Thinned (insn :: all) kept (fun k => old k + 1) := by
  refine ⟨fun k hk => by simpa using h.insn k hk, fun k k' hk hk' => ?_, fun i l hi => ?_⟩
  · have := h.mono k k' hk hk'
    omega
  · cases i with
    | zero => exact absurd (by simpa using hi) (hl l)
    | succ i =>
      obtain ⟨k, hk, rfl⟩ := h.label i l (by simpa using hi)
      exact ⟨k, hk, rfl⟩

theorem lt_iff (h : Thinned all kept old) {k k' : Nat} (hk : k < kept.length)
    (hk' : k' < kept.length) : old k < old k' ↔ k < k' := by
  constructor
  · intro hlt
    by_contra hge
    rcases Nat.eq_or_lt_of_le (Nat.le_of_not_lt hge) with rfl | hgt
    · omega
    · have := h.mono k' k hgt hk
      omega
  · exact fun hlt => h.mono k k' hlt hk'

theorem inj (h : Thinned all kept old) {k k' : Nat} (hk : k < kept.length)
    (hk' : k' < kept.length) (e : old k = old k') : k = k' := by
  have h1 := (h.lt_iff hk hk').not
  have h2 := (h.lt_iff hk' hk).not
  omega

/-- Nothing lies between two instructions that were neighbours. -/
theorem eq_succ (h : Thinned all kept old) {k k' : Nat} (hk : k < kept.length)
    (hk' : k' < kept.length) (e : old k' = old k + 1) : k' = k + 1 := by
  have hgt := (h.lt_iff hk hk').1 (by omega)
  by_contra hne
  have h1 := h.mono k (k + 1) (Nat.lt_succ_self k) (by omega)
  have h2 := h.mono (k + 1) k' (by omega) hk'
  omega

/-- The first instruction that was there is still the first one if it stays. -/
theorem eq_zero (h : Thinned all kept old) {k : Nat} (hk : k < kept.length) (e : old k = 0) :
    k = 0 := by
  by_contra hne
  have := h.mono 0 k (by omega) hk
  omega

theorem lastPlace (h : Thinned all kept old) {l : Label} {k : Nat} (hk : k < kept.length) :
    LastPlace all l (old k) ↔ LastPlace kept l k := by
  constructor
  · rintro ⟨hi, hlater⟩
    refine ⟨by rw [← h.insn k hk, hi], fun k' hlt hk' => ?_⟩
    have hb := (List.getElem?_eq_some_iff.1 hk').1
    exact hlater (old k') (h.mono k k' hlt hb) (by rw [h.insn k' hb, hk'])
  · rintro ⟨hi, hlater⟩
    refine ⟨by rw [h.insn k hk, hi], fun j hlt hj => ?_⟩
    obtain ⟨k', hk', rfl⟩ := h.label j l hj
    exact hlater k' ((h.lt_iff hk hk').1 hlt) (by rw [← h.insn k' hk', hj])

theorem lastPlace_old (h : Thinned all kept old) {l : Label} {i : Nat} (hi : LastPlace all l i) :
    ∃ k, k < kept.length ∧ old k = i ∧ LastPlace kept l k := by
  obtain ⟨k, hk, rfl⟩ := h.label i l hi.1
  exact ⟨k, hk, rfl, (h.lastPlace hk).1 hi⟩

/-- Protected ranges cover the same instructions. -/
theorem covers_iff (h : Thinned all kept old) {t : TryCatch} {k : Nat} (hk : k < kept.length) :
    t.Covers all (old k) ↔ t.Covers kept k := by
  constructor
  · rintro ⟨a, c, ha, hc, hak, hkc⟩
    obtain ⟨a', ha', rfl, hplace⟩ := h.lastPlace_old ha
    obtain ⟨c', hc', rfl, hplace'⟩ := h.lastPlace_old hc
    refine ⟨a', c', hplace, hplace', ?_, (h.lt_iff hk hc').1 hkc⟩
    have := (h.lt_iff hk ha').not
    omega
  · rintro ⟨a, c, ha, hc, hak, hkc⟩
    have hlt := h.mono k c hkc hc.lt
    refine ⟨old a, old c, (h.lastPlace ha.lt).2 ha, (h.lastPlace hc.lt).2 hc, ?_, hlt⟩
    have := (h.lt_iff hk ha.lt).not
    omega

end Thinned

/-! ## What stays -/

/-- Whether an instruction stays, given whether the code behind it leads to a reached one. -/
def Insn.stays (insn : Insn) (frame : Option Frame) (leadsToLive : Bool) : Bool :=
  match insn with
  | .label _ => true
  | .line _ => leadsToLive
  | _ => frame.isSome

theorem keepLive_cons (insn : Insn) (frame : Option Frame) (rest : List (Insn × Option Frame)) :
    keepLive ((insn, frame) :: rest) =
      (if insn.stays frame (keepLive rest).2 then insn :: (keepLive rest).1 else (keepLive rest).1,
        if insn.isPseudo then (keepLive rest).2 else frame.isSome) := by
  unfold keepLive
  rw [List.foldr_cons]
  generalize List.foldr _ _ rest = r
  obtain ⟨kept, leads⟩ := r
  cases insn with
  | label l => rfl
  | line n => cases leads <;> rfl
  | _ => cases frame <;> rfl

def StaysAt (insns : List (Insn × Option Frame)) (i : Nat) : Prop :=
  ∃ (insn : Insn) (frame : Option Frame), insns[i]? = some (insn, frame) ∧
    insn.stays frame (keepLive (insns.drop (i + 1))).2 = true

theorem staysAt_zero {insn : Insn} {frame : Option Frame} {rest : List (Insn × Option Frame)} :
    StaysAt ((insn, frame) :: rest) 0 ↔ insn.stays frame (keepLive rest).2 = true := by
  constructor
  · rintro ⟨insn', frame', h, hs⟩
    cases h
    exact hs
  · exact fun hs => ⟨insn, frame, rfl, hs⟩

theorem staysAt_succ {x : Insn × Option Frame} {rest : List (Insn × Option Frame)} {i : Nat} :
    StaysAt (x :: rest) (i + 1) ↔ StaysAt rest i := by
  unfold StaysAt
  rw [List.getElem?_cons_succ, List.drop_succ_cons]

/-- The instructions that stay are those that are kept, in their order. -/
theorem keepLive_thinned (insns : List (Insn × Option Frame)) :
    ∃ old, Thinned (insns.map (·.1)) (keepLive insns).1 old ∧
      ∀ i, StaysAt insns i ↔ ∃ k, k < (keepLive insns).1.length ∧ old k = i := by
  induction insns with
  | nil =>
    refine ⟨id, ⟨nofun, nofun, nofun⟩, fun i => ⟨?_, ?_⟩⟩
    · rintro ⟨insn, frame, h, -⟩
      cases h
    · rintro ⟨k, hk, -⟩
      cases hk
  | cons x rest ih =>
    obtain ⟨insn, frame⟩ := x
    obtain ⟨old, hold, hstays⟩ := ih
    rw [keepLive_cons, List.map_cons]
    cases hs : insn.stays frame (keepLive rest).2 with
    | true =>
      refine ⟨_, by simpa only [if_true] using hold.keep insn, fun i => ?_⟩
      cases i with
      | zero =>
        rw [staysAt_zero]
        exact ⟨fun _ => ⟨0, by simp, rfl⟩, fun _ => hs⟩
      | succ i =>
        rw [staysAt_succ, hstays]
        constructor
        · rintro ⟨k, hk, rfl⟩
          exact ⟨k + 1, by simpa using hk, by simp⟩
        · rintro ⟨k, hk, e⟩
          cases k with
          | zero => cases e
          | succ k => exact ⟨k, by simpa using hk, by simpa using e⟩
    | false =>
      have hl : ∀ l, insn ≠ .label l := by
        rintro l rfl
        cases hs
      refine ⟨_, by simpa only [Bool.false_eq_true, if_false] using hold.leave hl, fun i => ?_⟩
      simp only [Bool.false_eq_true, if_false]
      cases i with
      | zero =>
        rw [staysAt_zero, hs]
        exact ⟨nofun, fun ⟨k, _, e⟩ => by cases e⟩
      | succ i =>
        rw [staysAt_succ, hstays]
        simp only [Nat.add_right_cancel_iff]

/-- Code that does not lead to a reached instruction leads to one that is not reached. -/
theorem keepLive_dead {insns : List (Insn × Option Frame)} (h : (keepLive insns).2 = false) :
    ∃ (j : Nat) (insn : Insn), insns[j]? = some (insn, none) ∧ insn.isPseudo = false ∧
      ∀ k, k < j → ∃ (insn : Insn) (frame : Option Frame),
        insns[k]? = some (insn, frame) ∧ insn.isPseudo = true := by
  induction insns with
  | nil => cases h
  | cons x rest ih =>
    obtain ⟨insn, frame⟩ := x
    rw [keepLive_cons] at h
    cases hp : insn.isPseudo with
    | true =>
      rw [hp] at h
      obtain ⟨j, insn', hj, hreal, hbefore⟩ := ih h
      refine ⟨j + 1, insn', by simpa using hj, hreal, fun k hk => ?_⟩
      cases k with
      | zero => exact ⟨insn, frame, rfl, hp⟩
      | succ k => simpa using hbefore k (by omega)
    | false =>
      rw [hp] at h
      cases frame with
      | none => exact ⟨0, insn, rfl, hp, fun k hk => by omega⟩
      | some f => cases h

/-! ## Thinning methods -/

namespace Analysis

/-- A method is another one without instructions that control does not reach: number `k` of it had
the number `old k`, and its edges are those of the other one. -/
structure Method.Thins (m n : Method) (old : Nat → Nat) : Prop where
  insn : ∀ k, k < n.code.size → m.code[old k]? = n.code[k]?
  mono : ∀ k k', k < k' → k' < n.code.size → old k < old k'
  inj : ∀ k k', k < n.code.size → k' < n.code.size → old k = old k' → k = k'
  label : ∀ (l : Label) (i : Nat), m.positions[l]? = some i →
    ∃ k, k < n.code.size ∧ old k = i ∧ n.positions[l]? = some k
  labelOld : ∀ (l : Label) (k : Nat), n.positions[l]? = some k → m.positions[l]? = some (old k)
  guard : ∀ (k : Nat) (insn : Insn) g, n.code[k]? = some insn → insn.isPseudo = false →
    g ∈ m.guards → g.covers (old k) = true →
    ∃ g' ∈ n.guards, g'.covers k = true ∧ g'.handler.target < n.code.size ∧
      old g'.handler.target = g.handler.target ∧ g'.handler.caught = g.handler.caught
  guardOld : ∀ (k : Nat) g', k < n.code.size → g' ∈ n.guards → g'.covers k = true →
    ∃ g ∈ m.guards, g.covers (old k) = true ∧
      old g'.handler.target = g.handler.target ∧ g'.handler.caught = g.handler.caught
  reached : ∀ i, Reached m i → ∃ k, k < n.code.size ∧ old k = i
  live : ∀ (k : Nat) (insn : Insn), n.code[k]? = some insn → insn.isPseudo = false →
    Reached m (old k)

theorem holdsCode_eq_true {insns : List Insn} {t : TryCatch} :
    t.holdsCode (labelPositions insns) insns.toArray = true ↔
      ∃ s e, LastPlace insns t.start s ∧ LastPlace insns t.stop e ∧ s < e ∧
        anyReal insns.toArray s e = true := by
  unfold TryCatch.holdsCode
  simp only [← labelPositions_eq_some]
  cases (labelPositions insns)[t.start]? with
  | none => simp
  | some s =>
    cases (labelPositions insns)[t.stop]? with
    | none => simp
    | some e => simp

section Dead

variable {b : Body} {context : MethodContext} {pool : Pool} {h : Hierarchy} {m : Method}
  {a : Analysis} (hm : Method.ofBody b context pool h = .ok m)
  (ha : analyze b context pool h = .ok a)
include hm ha

/-- Behind the instructions that control reaches, marks lead to code that it reaches. -/
theorem leadsToLive_of_reached {i : Nat} (hi : Reached m i)
    (hlive : (keepLive ((b.insns.zip a.frames.toList).drop i)).2 = false) : False := by
  obtain ⟨j, insn, hj, hreal, hbefore⟩ := keepLive_dead hlive
  have hof := of_ofBody hm
  have pair : ∀ (k : Nat) (x : Insn × Option Frame),
      ((b.insns.zip a.frames.toList).drop i)[k]? = some x →
        m.code[i + k]? = some x.1 ∧ a.frame (i + k) = x.2 := by
    intro k x hx
    rw [List.getElem?_drop, List.getElem?_zip_eq_some] at hx
    refine ⟨by rw [hof.insn, hx.1], ?_⟩
    unfold Analysis.frame
    rw [← Array.getElem?_toList, hx.2]
    rfl
  have walk : ∀ k, k ≤ j → Reached m (i + k) := by
    intro k hk
    induction k with
    | zero => exact hi
    | succ k ih =>
      obtain ⟨insn', frame', hk', hp⟩ := hbefore k (by omega)
      obtain ⟨hc, -⟩ := pair k _ hk'
      refine .step (ih (by omega)) ⟨insn', hc, .inr (.inr ⟨?_, rfl⟩)⟩
      cases insn' <;> first | rfl | cases hp
  obtain ⟨f, hf⟩ := (analyze_reached hm ha).2 (walk j (Nat.le_refl j))
  rw [(pair j _ hj).2] at hf
  cases hf

theorem staysAt_of_reached {i : Nat} (hi : Reached m i) (hlt : i < b.insns.length) :
    StaysAt (b.insns.zip a.frames.toList) i := by
  obtain ⟨f, hf⟩ := (analyze_reached hm ha).2 hi
  have hfr : a.frames[i]? = some (some f) := by
    unfold Analysis.frame at hf
    cases hx : a.frames[i]? with
    | none =>
      rw [hx] at hf
      cases hf
    | some x =>
      rw [hx] at hf
      exact congrArg some hf
  refine ⟨b.insns[i], some f, ?_, ?_⟩
  · rw [List.getElem?_zip_eq_some]
    exact ⟨List.getElem?_eq_getElem hlt, by rw [Array.getElem?_toList, hfr]⟩
  · generalize hinsn : b.insns[i] = insn
    cases insn with
    | label l => rfl
    | line n =>
      cases hlive : (keepLive ((b.insns.zip a.frames.toList).drop (i + 1))).2 with
      | true => rfl
      | false =>
        refine (leadsToLive_of_reached hm ha (.step hi ?_) hlive).elim
        refine ⟨.line n, ?_, .inr (.inr ⟨rfl, rfl⟩)⟩
        rw [(of_ofBody hm).insn, List.getElem?_eq_getElem hlt, hinsn]
    | _ => rfl

theorem reached_lt {i : Nat} (hi : Reached m i) : i < b.insns.length := by
  obtain ⟨f, hf⟩ := (analyze_reached hm ha).2 hi
  rw [← analyze_size ha]
  unfold Analysis.frame at hf
  by_contra hge
  rw [Array.getElem?_eq_none (by omega)] at hf
  cases hf

theorem withoutDeadCode_thinned : ∃ old, Thinned b.insns (withoutDeadCode b a).insns old ∧
    (∀ i, Reached m i → ∃ k, k < (withoutDeadCode b a).insns.length ∧ old k = i) ∧
    ∀ k insn, (withoutDeadCode b a).insns[k]? = some insn → insn.isPseudo = false →
      Reached m (old k) := by
  obtain ⟨old, hold, hstays⟩ := keepLive_thinned (b.insns.zip a.frames.toList)
  have hmap : (b.insns.zip a.frames.toList).map (·.1) = b.insns := by
    refine List.map_fst_zip (Nat.le_of_eq ?_)
    rw [Array.length_toList, analyze_size ha]
  rw [hmap] at hold
  refine ⟨old, hold,
    fun i hi => (hstays i).1 (staysAt_of_reached hm ha hi (reached_lt hm ha hi)),
    fun k insn hk hreal => (analyze_reached hm ha).1 ?_⟩
  have hlt := (List.getElem?_eq_some_iff.1 hk).1
  obtain ⟨insn', frame, hx, hst⟩ := (hstays (old k)).2 ⟨k, hlt, rfl⟩
  obtain ⟨hi, hf⟩ := List.getElem?_zip_eq_some.1 hx
  have hinsn := hold.insn k hlt
  have hk' : (keepLive (b.insns.zip a.frames.toList)).1[k]? = some insn := hk
  rw [hi, hk'] at hinsn
  cases hinsn
  rw [Array.getElem?_toList] at hf
  unfold Analysis.frame
  rw [hf]
  cases frame with
  | some f => exact ⟨f, rfl⟩
  | none =>
    cases insn' with
    | label l => cases hreal
    | line n => cases hreal
    | _ => cases hst

omit ha in
/-- The protected ranges that still hold code can be resolved, as ranges around the same code. -/
theorem guard_thinned {kept : List Insn} {old : Nat → Nat} (hold : Thinned b.insns kept old)
    {t : TryCatch} (ht : t ∈ b.tryCatch)
    (hcode : t.holdsCode (labelPositions kept) kept.toArray = true) :
    ∃ g', guard pool kept.toArray (labelPositions kept) t = .ok g' := by
  have hof := of_ofBody hm
  obtain ⟨g, -, -, -, hh, -, -, hc⟩ := (mem_forall₂ hof.guards).1 t ht
  obtain ⟨s, e, hs, he, hlt, hreal⟩ := holdsCode_eq_true.1 hcode
  obtain ⟨target, -, -, htarget⟩ := hold.lastPlace_old hh
  refine ⟨⟨s, e, ⟨target, g.handler.caught⟩⟩, guard_eq_ok.2 ?_⟩
  rw [labelPositions_eq_some, labelPositions_eq_some, labelPositions_eq_some]
  rw [hof.pool] at hc
  exact ⟨hs, he, htarget, hlt, hreal, hc⟩

/-- The body without dead code can be resolved. -/
theorem ofBody_withoutDeadCode : ∃ n, Method.ofBody (withoutDeadCode b a) context pool h = .ok n := by
  obtain ⟨old, hold, -, -⟩ := withoutDeadCode_thinned hm ha
  have each : ∀ t ∈ (withoutDeadCode b a).tryCatch, ∃ g, guard pool
      (withoutDeadCode b a).insns.toArray (labelPositions (withoutDeadCode b a).insns) t = .ok g := by
    intro t ht
    obtain ⟨ht, hcode⟩ := List.mem_filter.1 ht
    exact guard_thinned hm hold ht hcode
  obtain ⟨gs, hgs⟩ := mapM_ok each
  exact ⟨_, bind_eq_ok.2 ⟨gs, hgs, rfl⟩⟩

theorem thins_withoutDeadCode {n : Method}
    (hn : Method.ofBody (withoutDeadCode b a) context pool h = .ok n) : ∃ old, m.Thins n old := by
  obtain ⟨old, hold, hreach, hlive⟩ := withoutDeadCode_thinned hm ha
  have om := of_ofBody hm
  have on := of_ofBody hn
  have size : n.code.size = (withoutDeadCode b a).insns.length := on.size
  refine ⟨old, ?_, ?_, ?_, ?_, ?_, ?_, ?_, ?_, ?_⟩
  · intro k hk
    rw [om.insn, on.insn]
    exact hold.insn k (by rwa [← size])
  · intro k k' hlt hk'
    exact hold.mono k k' hlt (by rwa [← size])
  · intro k k' hk hk' e
    exact hold.inj (by rwa [← size]) (by rwa [← size]) e
  · intro l i hi
    obtain ⟨k, hk, e, hl⟩ := hold.lastPlace_old ((om.positions l i).1 hi)
    exact ⟨k, by rwa [size], e, (on.positions l k).2 hl⟩
  · intro l k hk
    have hl := (on.positions l k).1 hk
    exact (om.positions l _).2 ((hold.lastPlace hl.lt).2 hl)
  · intro k insn g hk hreal hg hcov
    have hklt : k < (withoutDeadCode b a).insns.length := by
      rw [← size]
      exact (Array.getElem?_eq_some_iff.1 hk).1
    obtain ⟨t, ht, hs, he, hh, -, -, hc⟩ := (mem_forall₂ om.guards).2 g hg
    obtain ⟨s, hslt, es, hs'⟩ := hold.lastPlace_old hs
    obtain ⟨e, helt, ee, he'⟩ := hold.lastPlace_old he
    simp only [Guard.covers, Bool.and_eq_true, decide_eq_true_eq] at hcov
    rw [← es, ← ee] at hcov
    have hke : k < e := (hold.lt_iff hklt helt).1 hcov.2
    have hsk : s ≤ k := by
      by_contra hlt
      have := hold.mono k s (by omega) hslt
      omega
    have hcode : t.holdsCode (labelPositions (withoutDeadCode b a).insns)
        (withoutDeadCode b a).insns.toArray = true := by
      refine holdsCode_eq_true.2 ⟨s, e, hs', he', by omega, anyReal_eq_true.2 ?_⟩
      exact ⟨k, insn, hsk, hke, by rw [List.getElem?_toArray, ← on.insn, hk], hreal⟩
    have ht' : t ∈ (withoutDeadCode b a).tryCatch := List.mem_filter.2 ⟨ht, hcode⟩
    obtain ⟨g', hg', hs'', he'', hh'', -, -, hc'⟩ := (mem_forall₂ on.guards).1 t ht'
    refine ⟨g', hg', ?_, ?_, ?_, ?_⟩
    · simp only [Guard.covers, ← hs'.unique hs'', ← he'.unique he'', hsk, hke, decide_true,
        Bool.and_self]
    · rw [size]
      exact hh''.lt
    · obtain ⟨target, -, et, htarget⟩ := hold.lastPlace_old hh
      rw [← htarget.unique hh'', et]
    · rw [on.pool] at hc'
      rw [om.pool] at hc
      exact catches_unique hc' hc
  · intro k g' hk hg' hcov
    obtain ⟨t, ht, hs, he, hh, -, -, hc⟩ := (mem_forall₂ on.guards).2 g' hg'
    obtain ⟨g, hg, hs', he', hh', -, -, hc'⟩ := (mem_forall₂ om.guards).1 t (List.mem_filter.1 ht).1
    have es := ((hold.lastPlace hs.lt).2 hs).unique hs'
    have ee := ((hold.lastPlace he.lt).2 he).unique he'
    have eh := ((hold.lastPlace hh.lt).2 hh).unique hh'
    simp only [Guard.covers, Bool.and_eq_true, decide_eq_true_eq] at hcov
    have hklt : k < (withoutDeadCode b a).insns.length := by rwa [← size]
    refine ⟨g, hg, ?_, eh, ?_⟩
    · have h2 := (hold.lt_iff hklt he.lt).2 hcov.2
      have h1 : g.start ≤ old k := by
        rw [← es]
        rcases Nat.eq_or_lt_of_le hcov.1 with e | hlt
        · exact Nat.le_of_eq (congrArg old e)
        · have := hold.mono _ _ hlt hklt
          omega
      simp only [Guard.covers, Bool.and_eq_true, decide_eq_true_eq]
      omega
    · rw [on.pool] at hc
      rw [om.pool] at hc'
      exact catches_unique hc hc'
  · intro i hi
    obtain ⟨k, hk, e⟩ := hreach i hi
    exact ⟨k, by rwa [size], e⟩
  · intro k insn hk hreal
    rw [on.insn] at hk
    exact hlive k insn hk hreal

end Dead

namespace Method.Thins

variable {m n : Method} {old : Nat → Nat} (ht : m.Thins n old)
include ht

/-- Edges between reached instructions stay. -/
theorem leads {i j : Nat} (hi : Reached m i) (hl : Leads m i j) :
    ∃ k k', k < n.code.size ∧ k' < n.code.size ∧ old k = i ∧ old k' = j ∧ Leads n k k' := by
  obtain ⟨k, hk, rfl⟩ := ht.reached i hi
  obtain ⟨k', hk', rfl⟩ := ht.reached j (.step hi hl)
  refine ⟨k, k', hk, hk', rfl, rfl, ?_⟩
  obtain ⟨insn, hinsn, hcase⟩ := hl.insn
  rw [ht.insn k hk] at hinsn
  refine ⟨insn, hinsn, ?_⟩
  rcases hcase with ⟨hp, g, hg, hc, e⟩ | ⟨l, hl', hpos⟩ | ⟨hterm, e⟩
  · obtain ⟨g', hg', hc', hlt, e', -⟩ := ht.guard k insn g hinsn hp hg hc
    exact .inl ⟨hp, g', hg', hc', ht.inj _ _ hk' hlt (by rw [e, e'])⟩
  · obtain ⟨k'', hk'', e'', hpos'⟩ := ht.label l _ hpos
    exact .inr (.inl ⟨l, hl', by rw [ht.inj _ _ hk' hk'' e''.symm, hpos']⟩)
  · refine .inr (.inr ⟨hterm, ?_⟩)
    -- nothing can lie between two instructions that were neighbours
    rcases Nat.lt_trichotomy k' (k + 1) with hlt | heq | hgt
    · rcases Nat.eq_or_lt_of_le (Nat.le_of_lt_succ hlt) with rfl | hlt
      · omega
      · have := ht.mono k' k hlt hk
        omega
    · exact heq
    · have h1 := ht.mono k (k + 1) (by omega) (by omega)
      have h2 := ht.mono (k + 1) k' hgt hk'
      omega

theorem old_zero : 0 < n.code.size → Reached n 0 ∧ old 0 = 0 := by
  intro hpos
  obtain ⟨k, hk, e⟩ := ht.reached 0 .entry
  refine ⟨.entry, ?_⟩
  rcases Nat.eq_zero_or_pos k with rfl | hkpos
  · exact e
  · have := ht.mono 0 k hkpos hk
    omega

/-- Control still reaches what it reached. -/
theorem reached_new {i : Nat} (hi : Reached m i) : ∃ k, k < n.code.size ∧ old k = i ∧ Reached n k := by
  induction hi with
  | entry =>
    obtain ⟨k, hk, e⟩ := ht.reached 0 .entry
    obtain ⟨hr, e0⟩ := ht.old_zero (by omega)
    exact ⟨0, by omega, e0, hr⟩
  | step hi hl ih =>
    obtain ⟨k, hk, rfl, hr⟩ := ih
    obtain ⟨k1, k', hk1, hk', e1, e', hl'⟩ := ht.leads hi hl
    cases ht.inj _ _ hk1 hk e1
    exact ⟨k', hk', e', .step hr hl'⟩

end Method.Thins

section Live

variable {b : Body} {context : MethodContext} {pool : Pool} {h : Hierarchy} {a : Analysis}

theorem deadCode_eq_nil {b : Body} {a : Analysis} (hsize : a.frames.size = b.insns.length) :
    a.deadCode b = [] ↔
      ∀ i insn, b.insns[i]? = some insn → insn.isPseudo = false → ∃ f, a.frame i = some f := by
  unfold deadCode
  rw [List.filterMap_eq_nil_iff]
  constructor
  · intro hnone i insn hi hreal
    have hlt : i < a.frames.size := by
      rw [hsize]
      exact (List.getElem?_eq_some_iff.1 hi).1
    have hzip : (b.insns.zip a.frames.toList)[i]? = some (insn, a.frames[i]) :=
      List.getElem?_zip_eq_some.2
        ⟨hi, by rw [Array.getElem?_toList, Array.getElem?_eq_getElem hlt]⟩
    have hx : ((b.insns.zip a.frames.toList).zipIdx)[i]? = some ((insn, a.frames[i]), 0 + i) := by
      rw [List.getElem?_zipIdx, hzip]
      rfl
    have := hnone _ (List.mem_of_getElem? hx)
    unfold Analysis.frame
    rw [Array.getElem?_eq_getElem hlt]
    cases hf : a.frames[i] with
    | none => simp [hf, hreal] at this
    | some f => exact ⟨f, rfl⟩
  · rintro hall ⟨⟨insn, frame⟩, i⟩ hx
    obtain ⟨k, hk⟩ := List.mem_iff_getElem?.1 hx
    rw [List.getElem?_zipIdx] at hk
    obtain ⟨x, hx', e⟩ := Option.map_eq_some_iff.1 hk
    cases e
    obtain ⟨hi, hf⟩ := List.getElem?_zip_eq_some.1 hx'
    rw [Array.getElem?_toList] at hf
    cases hp : insn.isPseudo with
    | true => simp [hp]
    | false =>
      obtain ⟨f, hf'⟩ := hall k insn hi hp
      unfold Analysis.frame at hf'
      rw [hf] at hf'
      cases hf'
      rfl

/-- In the code that is assembled, control reaches everything that takes bytes. -/
theorem live_reached {body : Body} (hlive : Assemble.live body context pool h = .ok (b, a)) :
    analyze b context pool h = .ok a ∧ b.declaredFrames = body.declaredFrames ∧
      ∀ i insn, b.insns[i]? = some insn → insn.isPseudo = false → ∃ f, a.frame i = some f := by
  unfold Assemble.live at hlive
  obtain ⟨a0, ha0, hlive⟩ := bind_eq_ok.1 hlive
  by_cases hdead : (a0.deadCode body).isEmpty = true
  · rw [if_pos hdead] at hlive
    cases hlive
    exact ⟨ha0, rfl, (deadCode_eq_nil (analyze_size ha0)).1 (List.isEmpty_iff.1 hdead)⟩
  · rw [if_neg hdead] at hlive
    obtain ⟨a1, ha1, hlive⟩ := bind_eq_ok.1 hlive
    cases hlive
    refine ⟨ha1, rfl, fun k insn hk hreal => ?_⟩
    obtain ⟨m, -, hm, -⟩ := analyze_eq_ok ha0
    obtain ⟨n, -, hn, -⟩ := analyze_eq_ok ha1
    obtain ⟨old, ht⟩ := thins_withoutDeadCode hm ha0 hn
    rw [← (of_ofBody hn).insn] at hk
    obtain ⟨k', hk', e, hr⟩ := ht.reached_new (ht.live k insn hk hreal)
    rw [analyze_reached hn ha1]
    rwa [← ht.inj _ _ hk' (Array.getElem?_eq_some_iff.1 hk).1 e]

end Live

end Analysis

end Interpose
