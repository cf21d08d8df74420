import Interpose.Proofs.Code.Wording
import Interpose.Proofs.Code.DeadCode
import Interpose.Proofs.Inference.Flow
/-!
# What live code says

A place of a body is live if control reaches the first instruction that takes bytes from there on
(`Body.Live`). Without dead code a body says what it says at its live places (`Kept.wording_eq`).
-/

namespace Interpose

/-- Control reaches the first instruction from a place on that takes bytes. -/
def Body.Live (b : Body) (i : Nat) : Prop :=
  ∃ j insn, i ≤ j ∧ b.insns[j]? = some insn ∧ insn.isPseudo = false ∧
    (∀ k x, i ≤ k → k < j → b.insns[k]? = some x → x.isPseudo = true) ∧ b.Reached j

open Classical in
/-- What instructions that stand in a body from a place on say, without dead code. -/
noncomputable def Body.spoken (b : Body) (i : Nat) (insns : List Insn) : List Insn :=
  (insns.zipIdx i).flatMap fun x => if b.Live x.2 then x.1.wording.toList else []

namespace Body

variable {b : Body} {i j : Nat} {insn : Insn} {insns xs ys : List Insn}

/-! ## Live places -/

/-- The first instruction from a place on that takes bytes. -/
theorem first_real (hij : i ≤ j) (hj : insns[j]? = some insn) (hreal : insn.isPseudo = false) :
    ∃ k x, i ≤ k ∧ k ≤ j ∧ insns[k]? = some x ∧ x.isPseudo = false ∧
      ∀ n y, i ≤ n → n < k → insns[n]? = some y → y.isPseudo = true := by
  obtain ⟨n, rfl⟩ := Nat.exists_eq_add_of_le hij
  induction n generalizing i with
  | zero => exact ⟨i, insn, Nat.le_refl i, Nat.le_refl _, hj, hreal,
      fun n y hlo hhi => absurd hhi (Nat.not_lt_of_le hlo)⟩
  | succ n ih =>
    have hlt := (List.getElem?_eq_some_iff.1 hj).1
    have hat : insns[i]? = some insns[i] := List.getElem?_eq_getElem (by omega)
    generalize insns[i] = x at hat
    cases hx : x.isPseudo with
    | false => exact ⟨i, x, Nat.le_refl i, hij, hat, hx, fun n y hlo hhi => absurd hhi (Nat.not_lt_of_le hlo)⟩
    | true =>
      have hshift : i + 1 + n = i + (n + 1) := by omega
      obtain ⟨k, y, hik, hkj, hk, hreal', hmarks⟩ := ih (Nat.le_add_right (i + 1) n) (by rwa [hshift])
      refine ⟨k, y, Nat.le_of_succ_le hik, hshift ▸ hkj, hk, hreal', fun n' z hlo hhi hn' => ?_⟩
      rcases Nat.eq_or_lt_of_le hlo with rfl | hlt'
      · rw [← Option.some.inj (hat.symm.trans hn')]
        exact hx
      · exact hmarks n' z hlt' hhi hn'

/-- A place is live if control reaches the first instruction from there on that takes bytes. -/
theorem live_iff {k : Nat} (hik : i ≤ k) (hk : b.insns[k]? = some insn) (hreal : insn.isPseudo = false)
    (hmarks : ∀ n x, i ≤ n → n < k → b.insns[n]? = some x → x.isPseudo = true) :
    b.Live i ↔ b.Reached k := by
  constructor
  · rintro ⟨j, y, hij, hj, hreal', hmarks', hreached⟩
    rcases Nat.lt_trichotomy j k with hlt | rfl | hlt
    · rw [hmarks j y hij hlt hj] at hreal'
      cases hreal'
    · exact hreached
    · rw [hmarks' k insn hik hlt hk] at hreal
      cases hreal
  · exact fun hreached => ⟨k, insn, hik, hk, hreal, hmarks, hreached⟩

theorem live_iff_reached (hi : b.insns[i]? = some insn) (hreal : insn.isPseudo = false) :
    b.Live i ↔ b.Reached i :=
  live_iff (Nat.le_refl i) hi hreal fun _ _ hlo hhi => absurd hhi (Nat.not_lt_of_le hlo)

/-- Where control is in front of something that takes bytes is live. -/
theorem live_of_reached (hi : b.Reached i) (hij : i ≤ j) (hj : b.insns[j]? = some insn)
    (hreal : insn.isPseudo = false) : b.Live i := by
  obtain ⟨k, x, hik, -, hk, hreal', hmarks⟩ := first_real hij hj hreal
  refine (live_iff hik hk hreal' hmarks).2 ?_
  obtain ⟨k', y, hik', hkk', hk', hreal'', hreached⟩ := (Body.conveys_reached _).exists_real hi hik hk hreal'
  rcases Nat.eq_or_lt_of_le hkk' with rfl | hlt
  · exact hreached
  · rw [hmarks k' y hik' hlt hk'] at hreal''
    cases hreal''

/-- In front of code that control reaches everything is live. -/
theorem live_of_all (hall : ∀ i insn, b.insns[i]? = some insn → insn.isPseudo = false → b.Reached i)
    (hij : i ≤ j) (hj : b.insns[j]? = some insn) (hreal : insn.isPseudo = false) : b.Live i := by
  obtain ⟨k, x, hik, -, hk, hreal', hmarks⟩ := first_real hij hj hreal
  exact (live_iff hik hk hreal' hmarks).2 (hall k x hk hreal')

/-! ## Spoken code -/

theorem spoken_append : b.spoken i (xs ++ ys) = b.spoken i xs ++ b.spoken (i + xs.length) ys := by
  rw [spoken, List.zipIdx_append, List.flatMap_append]
  rfl

theorem spoken_cons (h : b.Live i) : b.spoken i (insn :: insns) =
    insn.wording.toList ++ b.spoken (i + 1) insns := by
  rw [spoken, List.zipIdx_cons, List.flatMap_cons, if_pos h]
  rfl

theorem spoken_cons_dead (h : ¬ b.Live i) : b.spoken i (insn :: insns) = b.spoken (i + 1) insns := by
  rw [spoken, List.zipIdx_cons, List.flatMap_cons, if_neg h]
  rfl

/-- Live instructions say all they say. -/
theorem spoken_eq_wording (h : ∀ n insn, insns[n]? = some insn → (∀ l, insn ≠ .label l) → b.Live (i + n)) :
    b.spoken i insns = wording insns := by
  induction insns generalizing i with
  | nil => rfl
  | cons insn insns ih =>
    have hrest := ih (i := i + 1) fun n x hn hx => by
      rw [Nat.add_assoc, Nat.add_comm 1]
      exact h (n + 1) x hn hx
    rw [wording_cons, ← hrest]
    by_cases hlive : b.Live i
    · exact spoken_cons hlive
    · rw [spoken_cons_dead hlive]
      cases insn with
      | label l => rfl
      | _ => exact absurd (h 0 _ rfl nofun) hlive

/-- Dead instructions say nothing. -/
theorem spoken_eq_nil (h : ∀ n insn, insns[n]? = some insn → (∀ l, insn ≠ .label l) → ¬ b.Live (i + n)) :
    b.spoken i insns = [] := by
  induction insns generalizing i with
  | nil => rfl
  | cons insn insns ih =>
    have hrest := ih (i := i + 1) fun n x hn hx => by
      rw [Nat.add_assoc, Nat.add_comm 1]
      exact h (n + 1) x hn hx
    by_cases hlive : b.Live i
    · rw [spoken_cons hlive, hrest]
      cases insn with
      | label l => rfl
      | _ => exact absurd hlive (h 0 _ rfl nofun)
    · rw [spoken_cons_dead hlive, hrest]

end Body

/-- A mark of a source line leads to something that takes bytes. -/
theorem Led.lead {insns : List Insn} (h : Led insns) {i : Nat} {line : UInt16}
    (hi : insns[i]? = some (.line line)) : ∃ j insn, i < j ∧ insns[j]? = some insn ∧ insn.isPseudo = false := by
  induction insns generalizing i with
  | nil => cases hi
  | cons x insns ih =>
    cases i with
    | zero =>
      cases hi
      obtain ⟨insn, hmem, hreal⟩ := h.1
      obtain ⟨j, hj⟩ := List.mem_iff_getElem?.1 hmem
      exact ⟨j + 1, insn, Nat.succ_pos j, hj, hreal⟩
    | succ i =>
      have hrest : Led insns := by
        cases x <;> first | exact h.2 | exact h
      obtain ⟨j, insn, hij, hj, hreal⟩ := ih hrest hi
      exact ⟨j + 1, insn, Nat.succ_lt_succ hij, hj, hreal⟩

/-- Where every mark of a source line leads to something. -/
theorem led_of_lead {insns : List Insn} (h : ∀ (i : Nat) (line : UInt16), insns[i]? = some (.line line) →
    ∃ (j : Nat) (insn : Insn), i < j ∧ insns[j]? = some insn ∧ insn.isPseudo = false) : Led insns := by
  induction insns with
  | nil => trivial
  | cons x insns ih =>
    have hrest : Led insns := by
      refine ih fun i line hi => ?_
      obtain ⟨j, insn, hij, hj, hreal⟩ := h (i + 1) line hi
      obtain ⟨j, rfl⟩ := Nat.exists_eq_add_of_lt (Nat.zero_lt_of_lt hij)
      rw [Nat.zero_add] at hij hj
      exact ⟨j, insn, Nat.lt_of_succ_lt_succ hij, hj, hreal⟩
    cases x with
    | line n =>
      obtain ⟨j, insn, hij, hj, hreal⟩ := h 0 n rfl
      obtain ⟨j, rfl⟩ := Nat.exists_eq_add_of_lt hij
      rw [Nat.zero_add] at hj
      exact ⟨⟨insn, List.mem_of_getElem? hj, hreal⟩, hrest⟩
    | _ => exact hrest

/-- Where control reaches everything that takes bytes everything else leads there. -/
theorem Led.live_of_all {b : Body} (hled : Led b.insns)
    (hall : ∀ i insn, b.insns[i]? = some insn → insn.isPseudo = false → b.Reached i) {i : Nat} {insn : Insn}
    (hi : b.insns[i]? = some insn) (hlabel : ∀ l, insn ≠ .label l) : b.Live i := by
  cases insn with
  | label l => exact absurd rfl (hlabel l)
  | line m =>
    obtain ⟨j, x, hij, hj, hreal⟩ := hled.lead hi
    exact Body.live_of_all hall (Nat.le_of_lt hij) hj hreal
  | _ => exact Body.live_of_all hall (Nat.le_refl _) hi rfl

/-- Everything that control reaches is said. -/
theorem Body.spoken_of_all {b : Body} (hled : Led b.insns)
    (hall : ∀ i insn, b.insns[i]? = some insn → insn.isPseudo = false → b.Reached i) {i : Nat}
    {insns : List Insn} (hat : ∀ n insn, insns[n]? = some insn → b.insns[i + n]? = some insn) :
    b.spoken i insns = wording insns :=
  spoken_eq_wording fun n insn hn => hled.live_of_all hall (hat n insn hn)

/-! ## Without dead code -/

/-- Whether code leads to something live is decided by the first instruction that takes bytes. -/
theorem keepLive_snd {zs : List (Insn × Option Frame)} {j : Nat} {insn : Insn} {frame : Option Frame}
    (hj : zs[j]? = some (insn, frame)) (hreal : insn.isPseudo = false)
    (hmarks : ∀ k x f, k < j → zs[k]? = some (x, f) → x.isPseudo = true) :
    (keepLive zs).2 = frame.isSome := by
  induction zs generalizing j with
  | nil => cases hj
  | cons z zs ih =>
    obtain ⟨x, f⟩ := z
    rw [keepLive_cons]
    cases j with
    | zero =>
      cases hj
      rw [hreal]
      rfl
    | succ j =>
      rw [hmarks 0 x f (Nat.succ_pos j) rfl]
      exact ih hj fun k y g hk => hmarks (k + 1) y g (Nat.succ_lt_succ hk)

namespace Analysis

variable {b kept : Body} {context : MethodContext} {p : Pool} {h : Hierarchy} {a : Analysis}

/-- Every instruction has its place beside its frame. -/
theorem exists_zipped (ha : analyze b context p h = .ok a) {i : Nat} {insn : Insn}
    (hi : b.insns[i]? = some insn) : ∃ f, (b.insns.zip a.frames.toList)[i]? = some (insn, f) := by
  have hlt := (List.getElem?_eq_some_iff.1 hi).1
  rw [← analyze_size ha, ← Array.length_toList] at hlt
  exact ⟨_, List.getElem?_zip_eq_some.2 ⟨hi, List.getElem?_eq_getElem hlt⟩⟩

/-- The places that stay are the live ones, where source lines lead to code. -/
theorem staysAt_iff (ha : analyze b context p h = .ok a) {i : Nat} {insn : Insn}
    (hlead : ∀ line, insn = .line line → ∃ (j : Nat) (insn : Insn), i < j ∧
      b.insns[j]? = some insn ∧ insn.isPseudo = false)
    {frame : Option Frame} (hi : (b.insns.zip a.frames.toList)[i]? = some (insn, frame))
    (hlabel : ∀ l, insn ≠ .label l) : StaysAt (b.insns.zip a.frames.toList) i ↔ b.Live i := by
  have framed {k : Nat} {x : Insn} {f : Option Frame}
      (hk : (b.insns.zip a.frames.toList)[k]? = some (x, f)) : f.isSome = true ↔ b.Reached k := by
    rw [List.getElem?_zip_eq_some, Array.getElem?_toList] at hk
    have hframe : a.frame k = f := by rw [Analysis.frame, hk.2]; rfl
    rw [← analyze_frame_iff ha, hframe, Option.isSome_iff_exists]
  have insn_at {k : Nat} {x : Insn} {f : Option Frame}
      (hk : (b.insns.zip a.frames.toList)[k]? = some (x, f)) : b.insns[k]? = some x :=
    (List.getElem?_zip_eq_some.1 hk).1
  have stays : StaysAt (b.insns.zip a.frames.toList) i ↔
      insn.stays frame (keepLive ((b.insns.zip a.frames.toList).drop (i + 1))).2 = true := by
    constructor
    · rintro ⟨x, f, hx, hstays⟩
      cases hi.symm.trans hx
      exact hstays
    · exact fun hstays => ⟨insn, frame, hi, hstays⟩
  rw [stays]
  cases insn with
  | label l => exact absurd rfl (hlabel l)
  | line n =>
    obtain ⟨j, x, hij, hj, hreal⟩ := hlead n rfl
    obtain ⟨k, y, hik, -, hk, hreal', hmarks⟩ := Body.first_real (Nat.succ_le_of_lt hij) hj hreal
    obtain ⟨f, hf⟩ := exists_zipped ha hk
    have hsnd : (keepLive ((b.insns.zip a.frames.toList).drop (i + 1))).2 = f.isSome := by
      refine keepLive_snd (j := k - (i + 1)) ?_ hreal' fun n z g hn hz => ?_
      · rw [List.getElem?_drop, Nat.add_sub_of_le hik, hf]
      · rw [List.getElem?_drop] at hz
        exact hmarks _ z (Nat.le_add_right _ _) (by omega) (insn_at hz)
    rw [Insn.stays, hsnd, framed hf]
    refine (Body.live_iff (Nat.le_of_succ_le hik) hk hreal' fun n z hlo hhi hn => ?_).symm
    rcases Nat.eq_or_lt_of_le hlo with rfl | hlt
    · rw [Option.some.inj (hn.symm.trans (insn_at hi))]
      rfl
    · exact hmarks n z hlt hhi hn
  | _ => exact (framed hi).trans (Body.live_iff_reached (insn_at hi) rfl).symm

end Analysis

/-- What is left of a body without its dead code: number `k` of its instructions had the number
`old k`. -/
structure Kept (b kept : Body) (old : Nat → Nat) : Prop where
  thinned : Thinned b.insns kept.insns old
  live : ∀ k insn, kept.insns[k]? = some insn → (∀ l, insn ≠ .label l) → b.Live (old k)
  alive : ∀ i insn, b.insns[i]? = some insn → (∀ l, insn ≠ .label l) → b.Live i →
    ∃ k, k < kept.insns.length ∧ old k = i
  tryCatch : ∃ stays : TryCatch → Bool, kept.tryCatch = b.tryCatch.filter stays ∧
    ∀ t ∈ b.tryCatch, ∀ k insn, kept.insns[k]? = some insn → insn.isPseudo = false →
      t.Covers kept.insns k → stays t = true

theorem kept_of_live {b kept : Body} {context : MethodContext} {p : Pool} {h : Hierarchy} {a : Analysis}
    (hlive : Assemble.live b context p h = .ok (kept, a)) (hled : Led b.insns) : ∃ old, Kept b kept old := by
  unfold Assemble.live at hlive
  obtain ⟨a0, ha, hlive⟩ := bind_eq_ok.1 hlive
  by_cases hdead : (a0.deadCode b).isEmpty = true
  · rw [if_pos hdead] at hlive
    cases hlive
    have hall : ∀ i insn, b.insns[i]? = some insn → insn.isPseudo = false → b.Reached i := fun i insn hi hreal =>
      (Analysis.analyze_frame_iff ha).1
        ((Analysis.deadCode_eq_nil (Analysis.analyze_size ha)).1 (List.isEmpty_iff.1 hdead) i insn hi hreal)
    refine ⟨id, ⟨fun _ _ => rfl, fun _ _ hlt _ => hlt, fun i _ hi =>
      ⟨i, (List.getElem?_eq_some_iff.1 hi).1, rfl⟩⟩, fun k insn hk hlabel => ?_, fun i insn hi _ _ =>
      ⟨i, (List.getElem?_eq_some_iff.1 hi).1, rfl⟩, fun _ => true, (List.filter_true _).symm,
      fun _ _ _ _ _ _ _ => rfl⟩
    exact hled.live_of_all hall hk hlabel
  · rw [if_neg hdead] at hlive
    obtain ⟨a1, -, hlive⟩ := bind_eq_ok.1 hlive
    cases hlive
    obtain ⟨old, hthinned, hstays⟩ := keepLive_thinned (b.insns.zip a0.frames.toList)
    rw [List.map_fst_zip (Nat.le_of_eq (by rw [Array.length_toList, Analysis.analyze_size ha]))] at hthinned
    have lead {i : Nat} {insn : Insn} (hi : b.insns[i]? = some insn) (line : UInt16)
        (e : insn = .line line) := hled.lead (hi.trans (congrArg some e))
    refine ⟨old, hthinned, fun k insn hk hlabel => ?_, fun i insn hi hlabel hlive => ?_, _, rfl,
      fun t ht k insn hk hreal hcovers => ?_⟩
    · have hlt := (List.getElem?_eq_some_iff.1 hk).1
      have hi := (hthinned.insn k hlt).trans hk
      obtain ⟨f, hf⟩ := Analysis.exists_zipped ha hi
      exact (Analysis.staysAt_iff ha (lead hi) hf hlabel).1 ((hstays _).2 ⟨k, hlt, rfl⟩)
    · obtain ⟨f, hf⟩ := Analysis.exists_zipped ha hi
      exact (hstays i).1 ((Analysis.staysAt_iff ha (lead hi) hf hlabel).2 hlive)
    · obtain ⟨s, e, hs, he, hsk, hke⟩ := hcovers
      refine Analysis.holdsCode_eq_true.2 ⟨s, e, hs, he, Nat.lt_of_le_of_lt hsk hke, anyReal_eq_true.2 ?_⟩
      exact ⟨k, insn, hsk, hke, List.getElem?_toArray.trans hk, hreal⟩

namespace Kept

variable {b kept : Body} {old : Nat → Nat} (h : Kept b kept old)
include h

/-- Where nothing is kept nothing is said. -/
theorem spoken_gap {i j : Nat} (hij : i ≤ j) (hgap : ∀ n, i ≤ n → n < j → ∀ k < kept.insns.length, old k ≠ n) :
    b.spoken 0 (b.insns.take j) = b.spoken 0 (b.insns.take i) := by
  have hcut : b.insns.take j = b.insns.take i ++ (b.insns.drop i).take (j - i) := by
    rw [← List.take_add, Nat.add_sub_of_le hij]
  rw [hcut, Body.spoken_append, Nat.zero_add]
  refine (congrArg _ (Body.spoken_eq_nil fun n insn hn hlabel hlive => ?_)).trans (List.append_nil _)
  have hlt := (List.getElem?_eq_some_iff.1 hn).1
  rw [List.length_take, List.length_drop] at hlt
  have hi : (b.insns.take i).length = i := List.length_take_of_le (by omega)
  rw [List.getElem?_take_of_lt (by omega), List.getElem?_drop] at hn
  rw [hi] at hlive
  obtain ⟨k, hk, hold⟩ := h.alive _ insn hn hlabel hlive
  exact hgap _ (Nat.le_add_right _ _) (by omega) k hk hold

/-- Up to an instruction that is kept, both say the same. -/
theorem wording_take_succ {k : Nat} (hk : k < kept.insns.length) :
    wording (kept.insns.take (k + 1)) = b.spoken 0 (b.insns.take (old k + 1)) := by
  have one {k : Nat} (hk : k < kept.insns.length)
      (hfirst : wording (kept.insns.take k) = b.spoken 0 (b.insns.take (old k))) :
      wording (kept.insns.take (k + 1)) = b.spoken 0 (b.insns.take (old k + 1)) := by
    have hinsn : b.insns[old k]? = some kept.insns[k] :=
      (h.thinned.insn k hk).trans (List.getElem?_eq_getElem hk)
    have hlt := (List.getElem?_eq_some_iff.1 hinsn).1
    have hlength : (b.insns.take (old k)).length = old k := List.length_take_of_le (Nat.le_of_lt hlt)
    rw [List.take_succ_eq_append_getElem hk, List.take_succ_eq_append_getElem hlt, wording_append,
      Body.spoken_append, hlength, Nat.zero_add, hfirst,
      Option.some.inj ((List.getElem?_eq_getElem hlt).symm.trans hinsn)]
    refine congrArg _ (Body.spoken_eq_wording fun n insn hn hlabel => ?_).symm
    obtain ⟨rfl, rfl⟩ : n = 0 ∧ insn = kept.insns[k] := by
      cases n with
      | zero => exact ⟨rfl, (Option.some.inj hn).symm⟩
      | succ n => cases hn
    exact h.live k _ (List.getElem?_eq_getElem hk) hlabel
  induction k with
  | zero =>
    refine one hk (.trans ?_ (h.spoken_gap (Nat.zero_le _) fun n _ hn k hk => ?_).symm)
    · rfl
    · rcases Nat.eq_zero_or_pos k with rfl | hpos
      · exact Nat.ne_of_gt hn
      · exact Nat.ne_of_gt (Nat.lt_trans hn (h.thinned.mono 0 k hpos hk))
  | succ k ih =>
    have hmono := h.thinned.mono k (k + 1) (Nat.lt_succ_self k) hk
    refine one hk ((ih (Nat.lt_of_succ_lt hk)).trans
      (h.spoken_gap (Nat.succ_le_of_lt hmono) fun n hlo hhi k' hk' hold => ?_).symm)
    rw [← hold] at hlo hhi
    have := (h.thinned.lt_iff (Nat.lt_of_succ_lt hk) hk').1 (Nat.lt_of_succ_le hlo)
    have := (h.thinned.lt_iff hk' hk).1 hhi
    omega

/-- What is left says what the body says at its live places. -/
theorem wording_eq : wording kept.insns = b.spoken 0 b.insns := by
  rw [← List.take_length (l := kept.insns), ← List.take_length (l := b.insns)]
  rcases Nat.eq_zero_or_pos kept.insns.length with hzero | hpos
  · rw [hzero]
    refine (h.spoken_gap (i := 0) (Nat.zero_le _) fun n _ _ k hk => ?_).symm
    exact absurd hk (hzero ▸ Nat.not_lt_zero k)
  · obtain ⟨n, hn⟩ := Nat.exists_eq_succ_of_ne_zero (Nat.ne_of_gt hpos)
    have hlast : n < kept.insns.length := hn ▸ Nat.lt_succ_self n
    have hold := (List.getElem?_eq_some_iff.1
      ((h.thinned.insn n hlast).trans (List.getElem?_eq_getElem hlast))).1
    rw [hn, Nat.succ_eq_add_one, h.wording_take_succ hlast]
    refine (h.spoken_gap (Nat.succ_le_of_lt hold) fun m hlo _ k hk hold => ?_).symm
    rw [← hold] at hlo
    have := (h.thinned.lt_iff hlast hk).1 (Nat.lt_of_succ_le hlo)
    omega

/-- And so it is behind an instruction that is kept. -/
theorem wording_drop_succ {k : Nat} (hk : k < kept.insns.length) :
    wording (kept.insns.drop (k + 1)) = b.spoken (old k + 1) (b.insns.drop (old k + 1)) := by
  have hall := h.wording_eq
  have hold := (List.getElem?_eq_some_iff.1
    ((h.thinned.insn k hk).trans (List.getElem?_eq_getElem hk))).1
  have hlength : (b.insns.take (old k + 1)).length = old k + 1 := List.length_take_of_le hold
  rw [← List.take_append_drop (k + 1) kept.insns, ← List.take_append_drop (old k + 1) b.insns,
    wording_append, Body.spoken_append, hlength, Nat.zero_add, h.wording_take_succ hk] at hall
  exact List.append_cancel_left hall

/-! ### Paths -/

/-- What control reaches is kept. -/
theorem of_reached (hled : Led b.insns) {i : Nat} {insn : Insn} (hi : b.insns[i]? = some insn)
    (hreached : b.Reached i) : ∃ k, k < kept.insns.length ∧ old k = i := by
  cases insn with
  | label l => exact h.thinned.label i l hi
  | line n =>
    obtain ⟨j, x, hij, hj, hreal⟩ := hled.lead hi
    exact h.alive i _ hi nofun (Body.live_of_reached hreached (Nat.le_of_lt hij) hj hreal)
  | _ => exact h.alive i _ hi nofun ((Body.live_iff_reached hi rfl).2 hreached)

/-- Control goes between instructions that are kept as it went before. -/
theorem flows {pool : Pool} {k k' : Nat} {w w' : Held} (hk : k < kept.insns.length)
    (hk' : k' < kept.insns.length) (hstep : Flows pool b (old k, w) (old k', w')) :
    Flows pool kept (k, w) (k', w') := by
  have insn_of {insn : Insn} (hi : b.insns[old k]? = some insn) : kept.insns[k]? = some insn :=
    (h.thinned.insn k hk).symm.trans hi
  generalize hold : old k' = j at hstep
  cases hstep with
  | next hi ht =>
    obtain rfl : k' = k + 1 := by
      have hlt := (h.thinned.lt_iff hk hk').1 (hold ▸ Nat.lt_succ_self _)
      by_contra hne
      have hfirst := h.thinned.mono k (k + 1) (Nat.lt_succ_self k) (by omega)
      have hsecond := h.thinned.mono (k + 1) k' (by omega) hk'
      omega
    exact .next (insn_of hi) ht
  | jump hi hl hj => exact .jump (insn_of hi) hl ((h.thinned.lastPlace hk').1 (hold ▸ hj))
  | thrown hi hreal ht hcovers hj =>
    obtain ⟨stays, htable, hstays⟩ := h.tryCatch
    have hcovers := (h.thinned.covers_iff hk).1 hcovers
    refine .thrown (insn_of hi) hreal ?_ hcovers ((h.thinned.lastPlace hk').1 (hold ▸ hj))
    rw [htable, List.mem_filter]
    exact ⟨ht, hstays _ ht k _ (insn_of hi) hreal hcovers⟩

/-- A path to an instruction that is kept is still one. -/
theorem comes (hled : Led b.insns) {pool : Pool} {w : Held} {y : Nat × Held} (hcomes : Comes pool b (0, w) y)
    {k : Nat} (hk : k < kept.insns.length) (hold : old k = y.1) : Comes pool kept (0, w) (k, y.2) := by
  induction hcomes generalizing k with
  | refl =>
    obtain rfl : k = 0 := by
      by_contra hne
      have := h.thinned.mono 0 k (Nat.pos_of_ne_zero hne) hk
      omega
    exact .refl
  | @tail x y hx hstep ih =>
    obtain ⟨insn, hinsn⟩ : ∃ insn, b.insns[x.1]? = some insn := by cases hstep <;> exact ⟨_, ‹_›⟩
    obtain ⟨k', hk', hold'⟩ := h.of_reached hled hinsn (Body.Reached.of_comes (x := (0, w)) .entry hx)
    refine (ih hk' hold').tail (h.flows hk' hk ?_)
    rwa [hold, hold']

/-- Every mark of a source line that is kept leads to something. -/
theorem led : Led kept.insns := by
  refine led_of_lead fun k line hk => ?_
  have hlt := (List.getElem?_eq_some_iff.1 hk).1
  obtain ⟨j, insn, hij, hj, hreal, -, hreached⟩ := h.live k _ hk nofun
  obtain ⟨k', hk', rfl⟩ := h.alive j insn hj (by rintro l rfl; cases hreal)
    ((Body.live_iff_reached hj hreal).2 hreached)
  refine ⟨k', insn, ?_, (h.thinned.insn k' hk').symm.trans hj, hreal⟩
  rcases Nat.eq_or_lt_of_le hij with heq | hgt
  · rw [← heq, h.thinned.insn k hlt, hk] at hj
    cases hj
    cases hreal
  · exact (h.thinned.lt_iff hlt hk').1 hgt

/-- Control reaches everything that is left. -/
theorem reached (hled : Led b.insns) {k : Nat} {insn : Insn} (hk : kept.insns[k]? = some insn)
    (hreal : insn.isPseudo = false) : kept.Reached k := by
  have hlt := (List.getElem?_eq_some_iff.1 hk).1
  have hold := (h.thinned.insn k hlt).trans hk
  have hreached := (Body.live_iff_reached hold hreal).1 (h.live k insn hk (by rintro l rfl; cases hreal))
  obtain ⟨w', hcomes⟩ := hreached.comes .empty ⟨fun _ => false, []⟩
  exact Body.Reached.of_comes (x := (0, _)) .entry (h.comes hled hcomes hlt rfl)

end Kept

end Interpose
