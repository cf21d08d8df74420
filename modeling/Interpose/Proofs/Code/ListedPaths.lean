import Interpose.Proofs.Code.Wording
import Interpose.Proofs.Inference.Flow
/-!
# Paths through a listing

Control goes through the listing of a body as it goes through the body (`Listing.Flows`): a label
takes it nowhere, and a branch that is split takes it to the same places by way of a jump. So a body
that was written and read again (`Rereads`) has the same paths and says the same.

Results:
* `Rereads.comes`: a path of a body is one of the body that its code is read as.
* `Rereads.reached`: control reaches everything there if it reaches everything in the body.
* `Rereads.spreads`, `Rereads.spreads_at`: both say the same, but for the branches that were split.
-/

namespace Interpose

def Listing.insns (l : Listing) : List Insn :=
  l.steps.map Step.insn

/-- Control goes from one step of a listing to another, with the object under construction where it
is. -/
inductive Listing.Flows (pool : Pool) (l : Listing) : Nat × Held → Nat × Held → Prop
  | next {k : Nat} {insn : Insn} {w : Held} : l.insns[k]? = some insn → insn.isTerminal = false →
    l.Flows pool (k, w) (k + 1, w.after pool insn)
  | jump {k n : Nat} {insn : Insn} {w : Held} : l.insns[k]? = some insn → n ∈ insn.targets →
    l.Flows pool (k, w) (n, w.after pool insn)
  | thrown {k : Nat} {insn : Insn} {t : TryCatch} {w : Held} : l.insns[k]? = some insn →
    t ∈ l.ranges → t.start ≤ k → k < t.stop → l.Flows pool (k, w) (t.handler, w.thrown)

/-- Control comes from one step of a listing to another in any number of steps. -/
abbrev Listing.Comes (pool : Pool) (l : Listing) : Nat × Held → Nat × Held → Prop :=
  Relation.ReflTransGen (l.Flows pool)

/-! ## What instructions do -/

section After

variable (pool : Pool) (w : Held) (f : Label → Label) (insn : Insn)

theorem Held.after_retarget : w.after pool (insn.retarget f) = w.after pool insn := by
  cases insn <;> rfl

theorem Held.after_sorted : w.after pool insn.sorted = w.after pool insn := by
  cases insn <;> rfl

theorem Insn.isTerminal_retarget : (insn.retarget f).isTerminal = insn.isTerminal := by
  cases insn <;> rfl

theorem Insn.isTerminal_sorted : insn.sorted.isTerminal = insn.isTerminal := by
  cases insn <;> rfl

theorem Insn.targets_retarget : (insn.retarget f).targets = insn.targets.map f := by
  cases insn <;> simp [Insn.retarget, Insn.targets, Function.comp_def]

theorem Insn.mem_targets_sorted {l : Label} : l ∈ insn.sorted.targets ↔ l ∈ insn.targets := by
  cases insn with
  | lookupSwitch fallback pairs =>
    have hperm : (Encode.sortedPairs pairs).Perm pairs := List.mergeSort_perm pairs _
    rw [sorted, targets, targets, List.mem_append, List.mem_append, (hperm.map (·.2)).mem_iff]
  | _ => rfl

/-- Where control may go is what the bytes mention. -/
theorem Insn.mem_targets_iff {l : Label} : l ∈ insn.targets ↔ l ∈ insn.mentions := by
  cases insn <;> simp [targets, mentions, or_comm]

/-- A mark does nothing. -/
theorem Held.after_pseudo {insn : Insn} (h : insn.isPseudo = true) : w.after pool insn = w := by
  cases insn <;> first | rfl | cases h

/-- The opposite of a conditional branch takes the same operands. -/
theorem Op.effect_opposite (op opposite : Opcode) (h : Op.invertBranch op = some opposite)
    (l l' : Label) : (Insn.jump opposite l).effect pool = (Insn.jump op l').effect pool ∧
      (Insn.jump opposite l).isTerminal = false := by
  unfold Op.invertBranch at h
  split at h <;> cases h <;> exact ⟨rfl, rfl⟩

end After

/-! ## Steps and numbers -/

section Steps

variable {split : Nat → Bool} {number : Label → Nat} {insns : List Insn} {insn : Insn}

theorem insns_marked (lines : List UInt16) (xs : List Insn) : (marked lines xs).map Step.insn = xs := by
  cases xs with
  | nil => rfl
  | cons x xs => simp [marked, Function.comp_def]

/-- What is listed for an instruction stands behind what is listed for those in front of it. -/
theorem stepsFrom_drop {i j : Nat} (number : Label → Nat) (k : Nat) (lines : List UInt16) (hsplits : Splits split i insns)
    (hj : insns[j]? = some insn) (hreal : insn.isPseudo = false) : ∃ rest,
    ((stepsFrom split number i k lines insns).map Step.insn).drop
        (((insns.take j).zipIdx i).map fun (insn, j) => insn.weight (split j)).sum =
      insn.listed (split (i + j)) number
        (k + (((insns.take j).zipIdx i).map fun (insn, j) => insn.weight (split j)).sum + 2) ++ rest := by
  induction insns generalizing i j k lines with
  | nil => cases hj
  | cons x insns ih =>
    cases j with
    | zero =>
      cases hj
      refine ⟨(stepsFrom split number (i + 1) (k + insn.weight (split i)) [] insns).map Step.insn, ?_⟩
      rw [stepsFrom_real hreal, List.map_append, insns_marked]
      rfl
    | succ j =>
      have hshift : i + (j + 1) = i + 1 + j := by omega
      rw [hshift, List.take_succ_cons, List.zipIdx_cons, List.map_cons, List.sum_cons]
      dsimp only
      cases hpseudo : x.isPseudo with
      | true =>
        have hweight : x.weight (split i) = 0 := by rw [Insn.weight, hpseudo]; rfl
        rw [hweight, Nat.zero_add]
        cases x with
        | label l => exact ih _ _ hsplits.tail hj
        | line n => exact ih _ _ hsplits.tail hj
        | _ => cases hpseudo
      | false =>
        obtain ⟨-, hlength, -⟩ := wording_listed number hpseudo hsplits.head (k + 2)
        obtain ⟨rest, hrest⟩ := ih (k + x.weight (split i)) [] hsplits.tail hj
        refine ⟨rest, ?_⟩
        rw [stepsFrom_real hpseudo, List.map_append, insns_marked, ← List.drop_drop, ← hlength,
          List.drop_left, hlength, hrest, Nat.add_assoc k]

end Steps

/-! ## From a body to its listing -/

namespace Body

variable {pool : Pool} {b : Body} {split : Nat → Bool} (hsplits : Splits split 0 b.insns)
include hsplits

/-- What is listed for an instruction has its number. -/
theorem listing_insn {i m : Nat} {insn x : Insn} (hi : b.insns[i]? = some insn)
    (hreal : insn.isPseudo = false)
    (hm : (insn.listed (split i) (numberOf split b.insns) (numberAt split b.insns i + 2))[m]? = some x) :
    (b.listing split).insns[numberAt split b.insns i + m]? = some x := by
  obtain ⟨rest, hrest⟩ := stepsFrom_drop (numberOf split b.insns) 0 [] hsplits hi hreal
  rw [Nat.zero_add, Nat.zero_add] at hrest
  have hdrop : (b.listing split).insns.drop (numberAt split b.insns i) =
      insn.listed (split i) (numberOf split b.insns) (numberAt split b.insns i + 2) ++ rest := hrest
  rw [← List.getElem?_drop, hdrop, List.getElem?_append_left (List.getElem?_eq_some_iff.1 hm).1, hm]

omit hsplits in
theorem numberAt_mono (split : Nat → Bool) (insns : List Insn) {i j : Nat} (hij : i ≤ j)
    (hj : j ≤ insns.length) : numberAt split insns i ≤ numberAt split insns j := by
  induction j with
  | zero =>
    cases Nat.le_zero.1 hij
    exact Nat.le_refl _
  | succ j ih =>
    rcases Nat.eq_or_lt_of_le hij with rfl | hlt
    · exact Nat.le_refl _
    · rw [numberAt_succ (List.getElem?_eq_getElem hj)]
      exact Nat.le_trans (ih (Nat.le_of_lt_succ hlt) (Nat.le_of_succ_le hj)) (Nat.le_add_right _ _)

omit hsplits in
theorem weight_pos {insn : Insn} (hreal : insn.isPseudo = false) (split : Bool) :
    0 < insn.weight split := by
  rw [Insn.weight, hreal]
  cases split <;> decide

/-- An instruction that takes bytes is listed as it is, or as two branches. -/
theorem listing_row {i : Nat} {insn : Insn} (hi : b.insns[i]? = some insn) (hreal : insn.isPseudo = false) :
    (b.listing split).insns[numberAt split b.insns i]? =
        some (insn.retarget (numberOf split b.insns)) ∧
      numberAt split b.insns (i + 1) = numberAt split b.insns i + 1 ∨
    ∃ op target opposite, insn = .jump op target ∧ Op.invertBranch op = some opposite ∧
      (b.listing split).insns[numberAt split b.insns i]? =
        some (.jump opposite (numberAt split b.insns i + 2)) ∧
      (b.listing split).insns[numberAt split b.insns i + 1]? =
        some (.jump Op.goto (numberOf split b.insns target)) ∧
      numberAt split b.insns (i + 1) = numberAt split b.insns i + 2 := by
  have hsucc : numberAt split b.insns (i + 1) = numberAt split b.insns i + insn.weight (split i) :=
    numberAt_succ hi
  have hlisted {m : Nat} {x : Insn} := listing_insn hsplits (m := m) (x := x) hi hreal
  cases hs : split i with
  | false =>
    have hone : ∀ next, insn.listed false (numberOf split b.insns) next =
        [insn.retarget (numberOf split b.insns)] := Insn.listed_whole hreal i
    rw [hs, hone] at hlisted
    rw [hs, Insn.weight, hreal] at hsucc
    exact .inl ⟨hlisted (m := 0) rfl, hsucc⟩
  | true =>
    obtain ⟨op, target, rfl, hop⟩ := hsplits i insn hi (by rwa [Nat.zero_add])
    obtain ⟨opposite, hopposite⟩ := Option.ne_none_iff_exists'.1 hop
    rw [hs, Insn.weight, hreal] at hsucc
    rw [hs, Insn.listed, if_pos rfl, hopposite] at hlisted
    exact .inr ⟨op, target, opposite, rfl, hopposite, hlisted (m := 0) rfl, hlisted (m := 1) rfl, hsucc⟩

/-- Where control goes in a body, it goes in its listing. -/
theorem listing_flows {x y : Nat × Held} (h : Flows pool b x y) :
    (b.listing split).Comes pool (numberAt split b.insns x.1, x.2) (numberAt split b.insns y.1, y.2) := by
  cases h with
  | @next i insn w hi ht =>
    cases hreal : insn.isPseudo with
    | true =>
      have hsucc : numberAt split b.insns (i + 1) = numberAt split b.insns i + insn.weight (split i) :=
        numberAt_succ hi
      rw [Insn.weight, hreal, if_pos rfl, Nat.add_zero] at hsucc
      rw [hsucc, Held.after_pseudo pool w hreal]
      exact .refl
    | false =>
      rcases listing_row hsplits hi hreal with ⟨hat, hsucc⟩
        | ⟨op, target, opposite, rfl, hopposite, hat, -, hsucc⟩
      · rw [hsucc, ← Held.after_retarget pool w (numberOf split b.insns)]
        exact .single (.next hat (by rwa [Insn.isTerminal_retarget]))
      · have heffect := (Op.effect_opposite pool op opposite hopposite (numberAt split b.insns i + 2)
          target).1
        rw [hsucc]
        have hstep : (b.listing split).Flows pool _ _ := .jump (w := w) hat (List.mem_singleton_self _)
        simp only [Held.after, heffect] at hstep ⊢
        exact .single hstep
  | @jump i j insn l w hi hl hj =>
    have hreal : insn.isPseudo = false := by
      cases insn <;> first | rfl | cases hl
    rw [← numberOf_eq hj]
    rcases listing_row hsplits hi hreal with ⟨hat, -⟩ | ⟨op, target, opposite, rfl, hopposite, hat, hnext, -⟩
    · rw [← Held.after_retarget pool w (numberOf split b.insns)]
      refine .single (.jump hat ?_)
      rw [Insn.targets_retarget]
      exact List.mem_map_of_mem hl
    · obtain ⟨heffect, hon⟩ := Op.effect_opposite pool op opposite hopposite
        (numberAt split b.insns i + 2) target
      have hfirst : (b.listing split).Flows pool _ _ := .next (w := w) hat hon
      have hsecond : (b.listing split).Flows pool _ _ :=
        .jump (w := w.after pool (.jump opposite (numberAt split b.insns i + 2))) hnext
          (List.mem_singleton_self _)
      rw [List.mem_singleton.1 hl]
      simp only [Held.after, heffect] at hfirst hsecond ⊢
      exact .tail (.single hfirst) hsecond
  | @thrown i j insn t w hi hreal ht hcovers hj =>
    obtain ⟨start, stop, hstart, hstop, hlo, hhi⟩ := hcovers
    have hat : ∃ x, (b.listing split).insns[numberAt split b.insns i]? = some x := by
      rcases listing_row hsplits hi hreal with ⟨hat, -⟩ | ⟨_, _, _, _, _, hat, _⟩
      · exact ⟨_, hat⟩
      · exact ⟨_, hat⟩
    obtain ⟨x, hat⟩ := hat
    have hbehind : numberAt split b.insns i < numberAt split b.insns stop := by
      refine Nat.lt_of_lt_of_le ?_ (numberAt_mono split b.insns hhi (Nat.le_of_lt hstop.lt))
      rw [numberAt_succ hi]
      exact Nat.lt_add_of_pos_right (weight_pos hreal _)
    have hmem := List.mem_map_of_mem (f := fun t : TryCatch =>
      ({ start := numberOf split b.insns t.start, stop := numberOf split b.insns t.stop,
         handler := numberOf split b.insns t.handler, catchType := t.catchType } : TryCatch)) ht
    have hbegun : numberOf split b.insns t.start ≤ numberAt split b.insns i := by
      rw [numberOf_eq hstart]
      exact numberAt_mono split b.insns hlo (Nat.le_of_lt (List.getElem?_eq_some_iff.1 hi).1)
    have hstep : (b.listing split).Flows pool _ _ :=
      .thrown (w := w) hat hmem hbegun (by rwa [numberOf_eq hstop])
    rw [numberOf_eq hj] at hstep
    exact .single hstep

theorem listing_comes {x y : Nat × Held} (h : Comes pool b x y) :
    (b.listing split).Comes pool (numberAt split b.insns x.1, x.2) (numberAt split b.insns y.1, y.2) := by
  induction h with
  | refl => exact .refl
  | tail _ hstep ih => exact ih.trans (listing_flows hsplits hstep)

end Body

/-! ## From a listing to its body -/

namespace Body

variable {pool : Pool} {b : Body}

theorem numberAt_length (split : Nat → Bool) (hsplits : Splits split 0 b.insns) :
    (b.listing split).insns.length = numberAt split b.insns b.insns.length := by
  rw [Listing.insns, List.length_map, listing, length_stepsFrom hsplits, numberAt, List.take_length]

/-- Control goes on from marks to the instruction that takes bytes. -/
theorem comes_real (pool : Pool) {i : Nat} (hi : i ≤ b.insns.length) {x : Insn}
    (hx : (b.listing whole).insns[numberAt whole b.insns i]? = some x) (w : Held) :
    ∃ r insn, b.insns[r]? = some insn ∧ insn.isPseudo = false ∧
      x = insn.retarget (numberOf whole b.insns) ∧ numberAt whole b.insns r = numberAt whole b.insns i ∧
      Comes pool b (i, w) (r, w) := by
  obtain ⟨n, hn⟩ := Nat.exists_eq_add_of_le hi
  induction n generalizing i with
  | zero =>
    have hlt := (List.getElem?_eq_some_iff.1 hx).1
    rw [numberAt_length whole (splits_whole 0 b.insns), hn, Nat.add_zero] at hlt
    exact absurd hlt (Nat.lt_irrefl _)
  | succ n ih =>
    have hinsn : b.insns[i]? = some b.insns[i] := List.getElem?_eq_getElem (by omega)
    generalize b.insns[i] = insn at hinsn
    cases hreal : insn.isPseudo with
    | true =>
      have hsucc : numberAt whole b.insns (i + 1) = numberAt whole b.insns i := by
        rw [numberAt_succ hinsn, Insn.weight, hreal]
        rfl
      rw [← hsucc] at hx ⊢
      obtain ⟨r, insn', hr, hreal', hx', hnumber, hcomes⟩ := ih (by omega) hx (by omega)
      have hstep : Flows pool b (i, w) (i + 1, w.after pool insn) :=
        .next hinsn (Insn.isTerminal_pseudo hreal)
      rw [Held.after_pseudo pool w hreal] at hstep
      exact ⟨r, insn', hr, hreal', hx', hnumber, .head hstep hcomes⟩
    | false =>
      refine ⟨i, insn, hinsn, hreal, ?_, rfl, .refl⟩
      rcases listing_row (splits_whole 0 b.insns) hinsn hreal with ⟨hat, -⟩ | ⟨_, _, _, _, _, _, _, hsucc⟩
      · exact Option.some.inj (hx.symm.trans hat)
      · rw [numberAt_succ hinsn, Insn.weight, hreal] at hsucc
        exact absurd hsucc (by simp [whole])

theorem lt_of_numberAt_lt {split : Nat → Bool} {i j : Nat}
    (h : numberAt split b.insns i < numberAt split b.insns j) (hi : i ≤ b.insns.length) : i < j := by
  by_contra hge
  exact absurd (numberAt_mono split b.insns (Nat.le_of_not_lt hge) hi) (Nat.not_le_of_lt h)

/-- Where control goes in the listing of a body, it goes in the body. -/
theorem comes_of_listing_flows (hclosed : b.Closed) {x y : Nat × Held}
    (h : (b.listing whole).Flows pool x y) {i : Nat} (hi : i ≤ b.insns.length)
    (hx : numberAt whole b.insns i = x.1) : ∃ j ≤ b.insns.length, numberAt whole b.insns j = y.1 ∧
      Comes pool b (i, x.2) (j, y.2) := by
  cases h with
  | @next k insn w hk ht =>
    subst hx
    obtain ⟨r, insn', hr, hreal, rfl, hnumber, hcomes⟩ := comes_real pool hi hk w
    rw [Insn.isTerminal_retarget] at ht
    refine ⟨r + 1, (List.getElem?_eq_some_iff.1 hr).1, ?_, ?_⟩
    · rw [numberAt_succ hr, Insn.weight, hreal, hnumber]
      rfl
    · rw [Held.after_retarget]
      exact hcomes.tail (.next hr ht)
  | @jump k n insn w hk hn =>
    subst hx
    obtain ⟨r, insn', hr, hreal, rfl, hnumber, hcomes⟩ := comes_real pool hi hk w
    rw [Insn.targets_retarget] at hn
    obtain ⟨l, hl, rfl⟩ := List.mem_map.1 hn
    obtain ⟨j, hj⟩ := hclosed.1 insn' (List.mem_of_getElem? hr) l ((Insn.mem_targets_iff _).1 hl)
    refine ⟨j, Nat.le_of_lt hj.lt, (numberOf_eq hj).symm, ?_⟩
    rw [Held.after_retarget]
    exact hcomes.tail (.jump hr hl hj)
  | @thrown k insn t w hk ht hlo hhi =>
    subst hx
    obtain ⟨r, insn', hr, hreal, rfl, hnumber, hcomes⟩ := comes_real pool hi hk w
    obtain ⟨t, hmem, rfl⟩ := List.mem_map.1 ht
    have place := hclosed.2 t hmem
    obtain ⟨start, hstart⟩ := place t.start (List.mem_cons_self ..)
    obtain ⟨stop, hstop⟩ := place t.stop (List.mem_cons_of_mem _ (List.mem_cons_self ..))
    obtain ⟨j, hj⟩ := place t.handler
      (List.mem_cons_of_mem _ (List.mem_cons_of_mem _ (List.mem_singleton_self _)))
    simp only [numberOf_eq hstart, numberOf_eq hstop] at hlo hhi
    have hlt := (List.getElem?_eq_some_iff.1 hr).1
    refine ⟨j, Nat.le_of_lt hj.lt, (numberOf_eq hj).symm, hcomes.tail (.thrown hr hreal hmem ?_ hj)⟩
    refine ⟨start, stop, hstart, hstop, ?_, ?_⟩
    · have hbehind : numberAt whole b.insns start < numberAt whole b.insns (r + 1) := by
        rw [numberAt_succ hr, Insn.weight, hreal, hnumber]
        exact Nat.lt_succ_of_le hlo
      exact Nat.le_of_lt_succ (lt_of_numberAt_lt hbehind (Nat.le_of_lt hstart.lt))
    · exact lt_of_numberAt_lt (by rwa [hnumber]) (Nat.le_of_lt hlt)

theorem comes_of_listing_comes (hclosed : b.Closed) {x y : Nat × Held}
    (h : (b.listing whole).Comes pool x y) {i : Nat} (hi : i ≤ b.insns.length)
    (hx : numberAt whole b.insns i = x.1) : ∃ j ≤ b.insns.length, numberAt whole b.insns j = y.1 ∧
      Comes pool b (i, x.2) (j, y.2) := by
  induction h with
  | refl => exact ⟨i, hi, hx, .refl⟩
  | tail _ hstep ih =>
    obtain ⟨j, hj, hnumber, hcomes⟩ := ih
    obtain ⟨j', hj', hnumber', hcomes'⟩ := comes_of_listing_flows hclosed hstep hj hnumber
    exact ⟨j', hj', hnumber', hcomes.trans hcomes'⟩

end Body

/-! ## Bodies that are read again -/

namespace Body

variable {pool : Pool} {b : Body}

theorem lastPlace_sorted {insns : List Insn} {l : Label} {i : Nat} :
    LastPlace (insns.map Insn.sorted) l i ↔ LastPlace insns l i := by
  have label : ∀ i : Nat, (insns.map Insn.sorted)[i]? = some (Insn.label l) ↔
      insns[i]? = some (Insn.label l) := by
    intro i
    rw [List.getElem?_map]
    cases insns[i]? with
    | none => exact Iff.rfl
    | some insn => cases insn <;> simp [Insn.sorted]
  rw [LastPlace, LastPlace, label]
  exact and_congr_right fun _ => forall₂_congr fun j _ => not_congr (label j)

theorem covers_sorted {insns : List Insn} {t : TryCatch} {i : Nat} :
    t.Covers (insns.map Insn.sorted) i ↔ t.Covers insns i := by
  simp only [TryCatch.Covers, lastPlace_sorted]

/-- The order of the keys of a switch does not matter to where control goes. -/
theorem sorted_flows {x y : Nat × Held} (h : Flows pool b x y) : Flows pool b.sorted x y := by
  have insn_sorted {i : Nat} {insn : Insn} (hi : b.insns[i]? = some insn) :
      b.sorted.insns[i]? = some insn.sorted := by
    rw [sorted, List.getElem?_map, hi]
    rfl
  cases h with
  | @next i insn w hi ht =>
    rw [← Held.after_sorted]
    exact .next (insn_sorted hi) (by rwa [Insn.isTerminal_sorted])
  | @jump i j insn l w hi hl hj =>
    rw [← Held.after_sorted]
    exact .jump (insn_sorted hi) ((Insn.mem_targets_sorted insn).2 hl) (lastPlace_sorted.2 hj)
  | @thrown i j insn t w hi hreal ht hcovers hj =>
    exact .thrown (insn_sorted hi) (by rwa [Insn.isPseudo_sorted]) ht (covers_sorted.2 hcovers)
      (lastPlace_sorted.2 hj)

theorem sorted_comes {x y : Nat × Held} (h : Comes pool b x y) : Comes pool b.sorted x y := by
  induction h with
  | refl => exact .refl
  | tail _ hstep ih => exact ih.tail (sorted_flows hstep)

theorem numberAt_sorted (split : Nat → Bool) (insns : List Insn) (i : Nat) :
    numberAt split (insns.map Insn.sorted) i = numberAt split insns i := by
  rw [numberAt, numberAt, ← List.map_take, List.zipIdx_map, List.map_map]
  exact congrArg List.sum (List.map_congr_left fun x _ => Insn.weight_sorted _ _)

end Body

theorem led_sorted {insns : List Insn} : Led (insns.map Insn.sorted) ↔ Led insns := by
  induction insns with
  | nil => exact Iff.rfl
  | cons insn insns ih =>
    cases insn with
    | line n =>
      refine and_congr ?_ ih
      simp only [List.mem_map, exists_exists_and_eq_and, Insn.isPseudo_sorted]
    | _ => exact ih

/-- A body is read as another one when its code, in which the branches at some places are split, is read
again. -/
structure Rereads (split : Nat → Bool) (b b' : Body) : Prop where
  closed : b'.Closed
  splits : Splits split 0 b.insns
  listing : b'.listing whole = b.sorted.listing split

namespace Rereads

variable {split : Nat → Bool} {b b' : Body} (h : Rereads split b b')
include h

theorem splits_sorted : Splits split 0 b.sorted.insns := by
  intro j insn hj hs
  rw [Body.sorted, List.getElem?_map] at hj
  obtain ⟨insn', hj', rfl⟩ := Option.map_eq_some_iff.1 hj
  obtain ⟨op, target, rfl, hop⟩ := h.splits j insn' hj' hs
  exact ⟨op, target, rfl, hop⟩

/-- What is listed for an instruction stands in the body that is read. -/
theorem row {i : Nat} {insn : Insn} (hi : b.insns[i]? = some insn) (hreal : insn.isPseudo = false) :
    (b'.listing whole).insns[numberAt split b.insns i]? =
        some (insn.sorted.retarget (numberOf split b.sorted.insns)) ∧
      numberAt split b.insns (i + 1) = numberAt split b.insns i + 1 ∨
    ∃ op target opposite, insn = .jump op target ∧ Op.invertBranch op = some opposite ∧
      (b'.listing whole).insns[numberAt split b.insns i]? =
        some (.jump opposite (numberAt split b.insns i + 2)) ∧
      (b'.listing whole).insns[numberAt split b.insns i + 1]? =
        some (.jump Op.goto (numberOf split b.sorted.insns target)) ∧
      numberAt split b.insns (i + 1) = numberAt split b.insns i + 2 := by
  have hi' : b.sorted.insns[i]? = some insn.sorted := by
    rw [Body.sorted, List.getElem?_map, hi]
    rfl
  have hrow := Body.listing_row h.splits_sorted hi' (by rwa [Insn.isPseudo_sorted])
  rw [← h.listing] at hrow
  simp only [show b.sorted.insns = b.insns.map Insn.sorted from rfl, Body.numberAt_sorted] at hrow ⊢
  rcases hrow with hrow | ⟨op, target, opposite, hjump, hrest⟩
  · exact .inl hrow
  · refine .inr ⟨op, target, opposite, ?_, hrest⟩
    cases insn <;> first | exact hjump | cases hjump

/-- Both list as many instructions. -/
theorem length_listing : (b'.listing whole).insns.length = numberAt split b.insns b.insns.length := by
  rw [h.listing, Listing.insns, List.length_map, Body.listing, length_stepsFrom h.splits_sorted,
    ← Body.numberAt_sorted split b.insns b.insns.length, numberAt, List.take_of_length_le]
  · rfl
  · exact Nat.le_of_eq (List.length_map _)

/-- What is read as one instruction was written for one. -/
theorem exists_row {r : Nat} {insn : Insn} (hr : b'.insns[r]? = some insn) (hreal : insn.isPseudo = false) :
    ∃ i insn', b.insns[i]? = some insn' ∧ insn'.isPseudo = false ∧
      numberAt split b.insns i ≤ numberAt whole b'.insns r ∧
      numberAt whole b'.insns r < numberAt split b.insns (i + 1) := by
  have hlt : numberAt whole b'.insns r < numberAt split b.insns b.insns.length := by
    rw [← h.length_listing]
    rcases Body.listing_row (splits_whole 0 b'.insns) hr hreal with ⟨hat, -⟩ | ⟨_, _, _, _, _, hat, _⟩
    · exact (List.getElem?_eq_some_iff.1 hat).1
    · exact (List.getElem?_eq_some_iff.1 hat).1
  -- the last place in front of which no more instructions stand
  have search : ∀ n ≤ b.insns.length, numberAt whole b'.insns r < numberAt split b.insns n →
      ∃ i < n, numberAt split b.insns i ≤ numberAt whole b'.insns r ∧
        numberAt whole b'.insns r < numberAt split b.insns (i + 1) := by
    intro n hn hn'
    induction n with
    | zero => exact absurd hn' (Nat.not_lt_zero _)
    | succ n ih =>
      rcases Nat.lt_or_ge (numberAt whole b'.insns r) (numberAt split b.insns n) with hlt | hge
      · obtain ⟨i, hi, hrest⟩ := ih (Nat.le_of_succ_le hn) hlt
        exact ⟨i, Nat.lt_succ_of_lt hi, hrest⟩
      · exact ⟨n, Nat.lt_succ_self n, hge, hn'⟩
  obtain ⟨i, hi, hlo, hhi⟩ := search _ (Nat.le_refl _) hlt
  have hinsn := List.getElem?_eq_getElem hi
  refine ⟨i, _, hinsn, ?_, hlo, hhi⟩
  cases hpseudo : b.insns[i].isPseudo with
  | false => rfl
  | true =>
    rw [numberAt_succ hinsn, Insn.weight, hpseudo, if_pos rfl, Nat.add_zero] at hhi
    exact absurd hhi (Nat.not_lt_of_le hlo)

/-- An invocation was written for an invocation. -/
theorem row_of_method {r : Nat} {op : Opcode} {index : UInt16} (hr : b'.insns[r]? = some (.method op index)) :
    ∃ i, b.insns[i]? = some (.method op index) ∧ numberAt split b.insns i = numberAt whole b'.insns r := by
  obtain ⟨i, insn, hi, hreal, hlo, hhi⟩ := h.exists_row hr rfl
  have hat : (b'.listing whole).insns[numberAt whole b'.insns r]? = some (.method op index) := by
    rcases Body.listing_row (splits_whole 0 b'.insns) hr rfl with ⟨hat, -⟩ | ⟨_, _, _, hjump, _⟩
    · exact hat
    · cases hjump
  rcases h.row hi hreal with ⟨hrow, hsucc⟩ | ⟨_, _, _, rfl, -, hfirst, hsecond, hsucc⟩
  · have hnumber : numberAt split b.insns i = numberAt whole b'.insns r := by omega
    rw [hnumber, hat, Option.some.injEq] at hrow
    refine ⟨i, ?_, hnumber⟩
    cases insn <;> cases hrow
    exact hi
  · have hcases : numberAt whole b'.insns r = numberAt split b.insns i ∨
        numberAt whole b'.insns r = numberAt split b.insns i + 1 := by omega
    rcases hcases with hnumber | hnumber
    · rw [hnumber, hfirst] at hat
      cases hat
    · rw [hnumber, hsecond] at hat
      cases hat

variable {pool : Pool} {w w' : Held}

/-- A path to an instruction is one to what is read for it. -/
theorem comes {i : Nat} {insn : Insn} (hcomes : Comes pool b (0, w) (i, w')) (hi : b.insns[i]? = some insn)
    (hreal : insn.isPseudo = false) : ∃ r insn', b'.insns[r]? = some insn' ∧ insn'.isPseudo = false ∧
      numberAt whole b'.insns r = numberAt split b.insns i ∧ Comes pool b' (0, w) (r, w') := by
  have hlisted := Body.listing_comes h.splits_sorted (Body.sorted_comes hcomes)
  rw [← h.listing] at hlisted
  obtain ⟨j, hj, hnumber, hcomes'⟩ := Body.comes_of_listing_comes (i := 0) h.closed hlisted (Nat.zero_le _) rfl
  simp only [show b.sorted.insns = b.insns.map Insn.sorted from rfl, Body.numberAt_sorted] at hnumber
  obtain ⟨x, hx⟩ : ∃ x, (b'.listing whole).insns[numberAt whole b'.insns j]? = some x := by
    rw [hnumber]
    rcases h.row hi hreal with ⟨hrow, -⟩ | ⟨_, _, _, _, _, hrow, _⟩ <;> exact ⟨_, hrow⟩
  obtain ⟨r, insn', hr, hreal', -, hnumber', hcomes''⟩ := Body.comes_real pool hj hx w'
  exact ⟨r, insn', hr, hreal', hnumber'.trans hnumber, hcomes'.trans hcomes''⟩

omit h in
/-- Instructions that take bytes are numbered in their order. -/
theorem numberAt_lt {r r' : Nat} {insn insn' : Insn} (hr : b'.insns[r]? = some insn)
    (hreal : insn.isPseudo = false) (hr' : b'.insns[r']? = some insn') (hlt : r < r') :
    numberAt whole b'.insns r < numberAt whole b'.insns r' := by
  refine Nat.lt_of_lt_of_le ?_ (Body.numberAt_mono whole b'.insns (Nat.succ_le_of_lt hlt)
    (Nat.le_of_lt (List.getElem?_eq_some_iff.1 hr').1))
  rw [numberAt_succ hr]
  exact Nat.lt_add_of_pos_right (Body.weight_pos hreal _)

omit h in
theorem unique {r r' : Nat} {insn insn' : Insn} (hr : b'.insns[r]? = some insn)
    (hreal : insn.isPseudo = false) (hr' : b'.insns[r']? = some insn') (hreal' : insn'.isPseudo = false)
    (hnumber : numberAt whole b'.insns r = numberAt whole b'.insns r') : r = r' := by
  rcases Nat.lt_trichotomy r r' with hlt | heq | hlt
  · exact absurd hnumber (Nat.ne_of_lt (numberAt_lt hr hreal hr' hlt))
  · exact heq
  · exact absurd hnumber (Nat.ne_of_gt (numberAt_lt hr' hreal' hr hlt))

/-- Control reaches everything that is read if it reaches everything that was written. -/
theorem reached (hall : ∀ i insn, b.insns[i]? = some insn → insn.isPseudo = false → b.Reached i) {r : Nat}
    {insn : Insn} (hr : b'.insns[r]? = some insn) (hreal : insn.isPseudo = false) : b'.Reached r := by
  obtain ⟨i, insn', hi, hreal', hlo, hhi⟩ := h.exists_row hr hreal
  let nothing : Held := ⟨fun _ => false, []⟩
  obtain ⟨w', hcomes⟩ := (hall i insn' hi hreal').comes .empty nothing
  have reachedBy {r' : Nat} {insn'' : Insn} {w'' : Held} (hcomes : Comes .empty b' (0, nothing) (r', w''))
      (hr' : b'.insns[r']? = some insn'') (hreal'' : insn''.isPseudo = false)
      (hnumber : numberAt whole b'.insns r' = numberAt whole b'.insns r) : b'.Reached r := by
    rw [← unique hr' hreal'' hr hreal hnumber]
    exact Body.Reached.of_comes (x := (0, nothing)) .entry hcomes
  rcases h.row hi hreal' with ⟨-, hsucc⟩ | ⟨op, target, opposite, rfl, hopposite, hfirst, hsecond, hsucc⟩
  · obtain ⟨r', insn'', hr', hreal'', hnumber, hcomes'⟩ := h.comes hcomes hi hreal'
    exact reachedBy hcomes' hr' hreal'' (by omega)
  · have hcases : numberAt whole b'.insns r = numberAt split b.insns i ∨
        numberAt whole b'.insns r = numberAt split b.insns i + 1 := by omega
    rcases hcases with hnumber | hnumber
    · obtain ⟨r', insn'', hr', hreal'', hnumber', hcomes'⟩ := h.comes hcomes hi hreal'
      exact reachedBy hcomes' hr' hreal'' (by omega)
    · -- the jump behind a branch that was split
      have hlisted := Body.listing_comes h.splits_sorted (Body.sorted_comes hcomes)
      rw [← h.listing] at hlisted
      simp only [show b.sorted.insns = b.insns.map Insn.sorted from rfl, Body.numberAt_sorted] at hlisted
      have hon := (Op.effect_opposite .empty op opposite hopposite (numberAt split b.insns i + 2) target).2
      have hlisted' := hlisted.tail (.next hfirst hon)
      obtain ⟨j, hj, hnumber', hcomes'⟩ :=
        Body.comes_of_listing_comes (i := 0) h.closed hlisted' (Nat.zero_le _) rfl
      dsimp only at hnumber'
      rw [← hnumber'] at hsecond
      obtain ⟨r', insn'', hr', hreal'', -, hnumber'', hcomes''⟩ :=
        Body.comes_real .empty hj hsecond _
      exact reachedBy (hcomes'.trans hcomes'') hr' hreal'' (by omega)

section Wordings

variable (hb : Led b.insns) (hb' : Led b'.insns)
include hb hb'

/-- Both say the same, but for the branches that were split. -/
theorem spreads : Spreads (wording b.insns) (wording b'.insns) := by
  rw [← wording_sorted]
  exact spreads_of_steps (congrArg Listing.steps h.listing).symm h.splits_sorted (led_sorted.2 hb) hb'

/-- So they do up to an instruction that was written whole, and behind it. -/
theorem spreads_at {i r : Nat} {insn insn' : Insn} (hi : b.insns[i]? = some insn)
    (hreal : insn.isPseudo = false) (hsplit : split i = false) (hr : b'.insns[r]? = some insn')
    (hreal' : insn'.isPseudo = false) (hnumber : numberAt whole b'.insns r = numberAt split b.insns i) :
    Spreads (wording (b.insns.take (i + 1))) (wording (b'.insns.take (r + 1))) ∧
      Spreads (wording (b.insns.drop (i + 1))) (wording (b'.insns.drop (r + 1))) := by
  have cut {xs : List Insn} {n : Nat} {x : Insn} (hn : xs[n]? = some x) :
      xs = xs.take n ++ x :: xs.drop (n + 1) ∧ xs.take (n + 1) = xs.take n ++ [x] ∧
        (xs.take n).length = n := by
    obtain ⟨hlt, rfl⟩ := List.getElem?_eq_some_iff.1 hn
    refine ⟨?_, List.take_succ_eq_append_getElem hlt, List.length_take_of_le (Nat.le_of_lt hlt)⟩
    rw [← List.drop_eq_getElem_cons hlt, List.take_append_drop]
  have hi' : b.sorted.insns[i]? = some insn.sorted := by
    rw [Body.sorted, List.getElem?_map, hi]
    rfl
  obtain ⟨hall, htake, hlength⟩ := cut hi'
  obtain ⟨hall', htake', hlength'⟩ := cut hr
  have hsteps : (b.sorted.listing split).steps = (b'.listing whole).steps :=
    (congrArg Listing.steps h.listing).symm
  rw [Body.listing, Body.listing] at hsteps
  dsimp only at hsteps
  rw [hall, hall'] at hsteps
  have hresult := spreads_of_steps_split hsteps (hall ▸ h.splits_sorted)
    (hall ▸ (led_sorted.2 hb : Led b.sorted.insns)) (hall' ▸ hb') (by rwa [Insn.isPseudo_sorted]) hreal'
    (by rwa [hlength]) (by
      rw [← hall, ← hall', hlength, hlength', hnumber]
      exact Body.numberAt_sorted _ _ _)
  rw [← htake, ← htake', show b.sorted.insns = b.insns.map Insn.sorted from rfl, ← List.map_take,
    ← List.map_drop, wording_sorted, wording_sorted] at hresult
  exact hresult

end Wordings

end Rereads

end Interpose
