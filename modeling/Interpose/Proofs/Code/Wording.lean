import Interpose.Proofs.Code.Inverse
/-!
# What code says

The wording of a body leaves out where it leads: labels are gone, and what is left is one
instruction or source line mark behind the other (`wording`). Writing code and reading it again
changes the wording only where a conditional branch is split in two (`Spreads`).

Results:
* `spreads_of_steps`: bodies with the same listing say the same, but for the branches that are
  split.
* `spreads_of_steps_split`: so they do up to an instruction and behind it.
-/

namespace Interpose

namespace Insn

/-- What an instruction says, wherever it leads. A label says nothing. -/
def wording : Insn → Option Insn
  | label _ => none
  | insn => some (insn.sorted.retarget fun _ => 0)

/-- An instruction is written as it is, or a conditional branch as another one in front of jumps. -/
inductive Spread : Insn → List Insn → Prop
  | whole (insn : Insn) : Spread insn [insn]
  | split {op other : Opcode} (n : Nat) : Op.invertBranch op ≠ none →
    Spread (jump op 0) (jump other 0 :: List.replicate n (jump Op.goto 0))

/-- The wording of an instruction, split or not. -/
def spelled (split : Bool) : Insn → List Insn
  | jump op _ =>
    if split then
      (Op.invertBranch op).toList.flatMap fun opposite => [jump opposite 0, jump Op.goto 0]
    else [jump op 0]
  | insn => insn.wording.toList

end Insn

def wording (insns : List Insn) : List Insn :=
  insns.filterMap Insn.wording

inductive Spreads : List Insn → List Insn → Prop
  | nil : Spreads [] []
  | cons {insn : Insn} {insns ys zs : List Insn} : insn.Spread ys → Spreads insns zs →
    Spreads (insn :: insns) (ys ++ zs)

def Step.wording (s : Step) : List Insn :=
  s.lines.map .line ++ s.insn.wording.toList

/-! ## Spreading -/

namespace Spreads

theorem refl (xs : List Insn) : Spreads xs xs := by
  induction xs with
  | nil => exact .nil
  | cons x xs ih => exact .cons (.whole x) ih

theorem append {xs xs' ys ys' : List Insn} (h : Spreads xs ys) (h' : Spreads xs' ys') :
    Spreads (xs ++ xs') (ys ++ ys') := by
  induction h with
  | nil => exact h'
  | cons hx _ ih =>
    rw [List.cons_append, List.append_assoc]
    exact .cons hx ih

theorem append_left {xs xs' ys : List Insn} (h : Spreads (xs ++ xs') ys) :
    ∃ zs zs', ys = zs ++ zs' ∧ Spreads xs zs ∧ Spreads xs' zs' := by
  induction xs generalizing ys with
  | nil => exact ⟨[], ys, rfl, .nil, h⟩
  | cons x xs ih =>
    cases h with
    | @cons _ _ ys zs hx hrest =>
      obtain ⟨us, us', rfl, hus, hus'⟩ := ih hrest
      exact ⟨ys ++ us, us', (List.append_assoc ..).symm, .cons hx hus, hus'⟩

theorem of_eq {xs ys : List Insn} (h : xs = ys) : Spreads xs ys := h ▸ refl xs

end Spreads

theorem Op.invertBranch_goto : Op.invertBranch Op.goto = none := by decide

/-- Jumps that follow a branch stay. -/
theorem Spreads.of_jumps {n : Nat} {ys : List Insn}
    (h : Spreads (List.replicate n (.jump Op.goto 0)) ys) :
    ys = List.replicate n (.jump Op.goto 0) := by
  induction n generalizing ys with
  | zero =>
    cases h
    rfl
  | succ n ih =>
    rw [List.replicate_succ] at h
    cases h with
    | cons hx hrest =>
      cases hx with
      | whole => rw [ih hrest]; rfl
      | split _ hop => exact absurd Op.invertBranch_goto hop

theorem Insn.Spread.trans {x : Insn} {ys zs : List Insn} (h : x.Spread ys) (h' : Spreads ys zs) :
    x.Spread zs := by
  cases h with
  | whole =>
    cases h' with
    | cons hx hrest =>
      cases hrest
      rwa [List.append_nil]
  | @split op other n hop =>
    cases h' with
    | cons hx hrest =>
      rw [hrest.of_jumps]
      cases hx with
      | whole => exact .split n hop
      | split m _ =>
        rw [List.cons_append, List.replicate_append_replicate]
        exact .split (m + n) hop

theorem Spreads.trans {xs ys zs : List Insn} (h : Spreads xs ys) (h' : Spreads ys zs) :
    Spreads xs zs := by
  induction h generalizing zs with
  | nil => exact h'
  | cons hx _ ih =>
    obtain ⟨us, us', rfl, hus, hus'⟩ := h'.append_left
    exact .cons (hx.trans hus) (ih hus')

/-! ## Wordings -/

theorem wording_append (xs ys : List Insn) : wording (xs ++ ys) = wording xs ++ wording ys :=
  List.filterMap_append

theorem wording_cons (insn : Insn) (insns : List Insn) :
    wording (insn :: insns) = insn.wording.toList ++ wording insns := by
  rw [wording, List.filterMap_cons]
  cases insn.wording <;> rfl

theorem Encode.sortedPairs_map (f : Label → Label) (pairs : List (Int32 × Label)) :
    sortedPairs (pairs.map fun (k, l) => (k, f l)) =
      (sortedPairs pairs).map fun (k, l) => (k, f l) :=
  (List.map_mergeSort (f := fun x : Int32 × Label => (x.1, f x.2))
    (s := fun a b : Int32 × Label => decide (a.1.toInt ≤ b.1.toInt)) fun _ _ _ _ => rfl).symm

theorem Encode.sortedPairs_sortedPairs (pairs : List (Int32 × Label)) :
    sortedPairs (sortedPairs pairs) = sortedPairs pairs := by
  refine List.mergeSort_of_pairwise (List.pairwise_mergeSort (fun a b c hab hbc => ?_) (fun a b => ?_) _)
  · simp only [decide_eq_true_eq] at *
    omega
  · simp only [Bool.or_eq_true, decide_eq_true_eq]
    omega

/-- Other labels do not change what an instruction says. -/
theorem Insn.wording_retarget (f : Label → Label) (insn : Insn) :
    (insn.retarget f).wording = insn.wording := by
  cases insn with
  | lookupSwitch fallback pairs =>
    simp only [Insn.sorted, Insn.retarget, Insn.wording, Encode.sortedPairs_map, List.map_map,
      Function.comp_def]
  | _ => simp only [Insn.sorted, Insn.retarget, Insn.wording, Function.comp_def, List.map_map]

/-- Nor does the order of the keys of a switch. -/
theorem Insn.wording_sorted (insn : Insn) : insn.sorted.wording = insn.wording := by
  cases insn with
  | lookupSwitch fallback pairs =>
    simp only [Insn.sorted, Insn.wording, Encode.sortedPairs_sortedPairs]
  | _ => rfl

/-- What an instruction says is one that a reader can answer if the instruction is. -/
theorem Insn.standard_wording {insn x : Insn} (h : insn.wording = some x) : x.Standard ↔ insn.Standard := by
  cases insn with
  | label _ => cases h
  | tableSwitch fallback low targets =>
    cases h
    change 0 < (targets.map _).length ∧ low.toInt + (targets.map _).length ≤ 2147483648 ↔ _
    rw [List.length_map]
    rfl
  | lookupSwitch fallback pairs =>
    cases h
    change ((Encode.sortedPairs pairs).map _).length < 2147483648 ↔ _
    rw [List.length_map, Encode.sortedPairs, List.length_mergeSort]
    rfl
  | _ =>
    cases h
    exact Iff.rfl

theorem wording_sorted (insns : List Insn) : wording (insns.map Insn.sorted) = wording insns := by
  rw [wording, List.filterMap_map]
  exact List.filterMap_congr fun insn _ => Insn.wording_sorted insn

/-! ## Wordings of listings -/

/-- Only conditional branches are split. -/
def Splits (split : Nat → Bool) (i : Nat) (insns : List Insn) : Prop :=
  ∀ j insn, insns[j]? = some insn → split (i + j) = true →
    ∃ op target, insn = .jump op target ∧ Op.invertBranch op ≠ none

/-- A source line mark stands in front of something that takes bytes. -/
def Led : List Insn → Prop
  | [] => True
  | .line _ :: rest => (∃ insn ∈ rest, insn.isPseudo = false) ∧ Led rest
  | _ :: rest => Led rest

/-- The wording of instructions from a place on, some of them split. -/
def spelling (split : Nat → Bool) (i : Nat) (insns : List Insn) : List Insn :=
  (insns.zipIdx i).flatMap fun x => x.1.spelled (split x.2)

section Spelling

variable {split : Nat → Bool} {number : Label → Nat} {i k : Nat} {insn : Insn} {insns xs ys : List Insn}
  {lines : List UInt16}

theorem Splits.head (h : Splits split i (insn :: insns)) (hs : split i = true) :
    ∃ op target, insn = .jump op target ∧ Op.invertBranch op ≠ none :=
  h 0 insn rfl hs

theorem Splits.left (h : Splits split i (xs ++ ys)) : Splits split i xs := by
  intro j insn hj
  exact h j insn (by rw [List.getElem?_append_left (List.getElem?_eq_some_iff.1 hj).1, hj])

theorem Splits.right (h : Splits split i (xs ++ ys)) : Splits split (i + xs.length) ys := by
  intro j insn hj hs
  rw [Nat.add_assoc] at hs
  exact h _ insn (by rwa [List.getElem?_append_right (Nat.le_add_right _ _), Nat.add_sub_cancel_left]) hs

theorem Splits.tail (h : Splits split i (insn :: insns)) : Splits split (i + 1) insns :=
  show Splits split (i + [insn].length) insns from Splits.right h

theorem spelling_cons : spelling split i (insn :: insns) =
    insn.spelled (split i) ++ spelling split (i + 1) insns := by
  rw [spelling, List.zipIdx_cons, List.flatMap_cons]
  rfl

/-- An instruction that is split is a conditional branch. -/
theorem wording_listed (number : Label → Nat) (hreal : insn.isPseudo = false) {split : Bool}
    (hsplit : split = true → ∃ op target, insn = .jump op target ∧ Op.invertBranch op ≠ none)
    (next : Nat) : wording (insn.listed split number next) = insn.spelled split ∧
      (insn.listed split number next).length = insn.weight split ∧
      insn.listed split number next ≠ [] := by
  have whole : ∀ xs : List Insn, xs = [insn.retarget number] → split = false →
      wording xs = insn.wording.toList ∧ xs.length = insn.weight split ∧ xs ≠ [] := by
    rintro _ rfl rfl
    refine ⟨?_, by simp [Insn.weight, hreal], by simp⟩
    rw [wording, List.filterMap_cons, Insn.wording_retarget]
    cases insn.wording <;> rfl
  cases split with
  | false =>
    cases insn with
    | label _ | line _ => cases hreal
    | _ => exact whole _ rfl rfl
  | true =>
    obtain ⟨op, target, rfl, hop⟩ := hsplit rfl
    obtain ⟨opposite, hopposite⟩ := Option.ne_none_iff_exists'.1 hop
    simp [Insn.listed, Insn.spelled, Insn.weight, Insn.isPseudo, hopposite, wording, Insn.wording,
      Insn.sorted, Insn.retarget]

theorem wording_marked {xs : List Insn} (hxs : xs ≠ []) :
    (marked lines xs).flatMap Step.wording = lines.map .line ++ wording xs := by
  cases xs with
  | nil => exact absurd rfl hxs
  | cons x xs =>
    rw [marked, List.flatMap_cons, Step.wording, List.append_assoc, wording, List.flatMap_map]
    congr 1
    rw [List.filterMap_cons]
    have hrest : ∀ xs : List Insn, xs.flatMap (fun y => Step.wording ⟨[], y⟩) = xs.filterMap Insn.wording := by
      intro xs
      induction xs with
      | nil => rfl
      | cons y xs ih =>
        rw [List.flatMap_cons, ih, List.filterMap_cons]
        cases hy : y.wording <;> simp [Step.wording, hy]
    rw [hrest]
    cases x.wording <;> rfl

theorem length_marked (xs : List Insn) : (marked lines xs).length = xs.length := by
  cases xs <;> simp [marked]

/-- The steps of instructions say what the instructions say. -/
theorem wording_stepsFrom (hsplits : Splits split i insns) (hled : Led insns)
    (hlines : lines ≠ [] → ∃ insn ∈ insns, insn.isPseudo = false) :
    (stepsFrom split number i k lines insns).flatMap Step.wording =
      lines.map .line ++ spelling split i insns := by
  induction insns generalizing i k lines with
  | nil =>
    cases lines with
    | nil => rfl
    | cons n lines =>
      obtain ⟨insn, hmem, -⟩ := hlines (List.cons_ne_nil _ _)
      cases hmem
  | cons insn insns ih =>
    rw [spelling_cons]
    cases hreal : insn.isPseudo with
    | true =>
      have hrest : lines ≠ [] → ∃ insn ∈ insns, insn.isPseudo = false := by
        intro hne
        obtain ⟨insn', hmem, hreal'⟩ := hlines hne
        rcases List.mem_cons.1 hmem with rfl | hmem
        · rw [hreal] at hreal'
          cases hreal'
        · exact ⟨insn', hmem, hreal'⟩
      cases insn with
      | label l => exact ih hsplits.tail hled hrest
      | line n =>
        rw [stepsFrom, ih hsplits.tail hled.2 fun _ => hled.1, List.map_append, List.append_assoc]
        rfl
      | _ => cases hreal
    | false =>
      have hled : Led insns := by
        cases insn <;> first | exact hled | cases hreal
      obtain ⟨hwording, -, hne⟩ := wording_listed number hreal hsplits.head (k + 2)
      rw [stepsFrom_real hreal, List.flatMap_append, wording_marked hne, hwording,
        ih hsplits.tail hled (fun h => absurd rfl h), List.append_assoc]
      rfl

/-- The steps of instructions are as many as the instructions count. -/
theorem length_stepsFrom (hsplits : Splits split i insns) :
    (stepsFrom split number i k lines insns).length =
      ((insns.zipIdx i).map fun (insn, j) => insn.weight (split j)).sum := by
  induction insns generalizing i k lines with
  | nil => rfl
  | cons insn insns ih =>
    rw [List.zipIdx_cons, List.map_cons, List.sum_cons]
    change _ = insn.weight (split i) + _
    cases hreal : insn.isPseudo with
    | true =>
      have hweight : insn.weight (split i) = 0 := by rw [Insn.weight, hreal]; rfl
      rw [hweight, Nat.zero_add]
      cases insn with
      | label l => exact ih hsplits.tail
      | line n => exact ih hsplits.tail
      | _ => cases hreal
    | false =>
      obtain ⟨-, hlength, -⟩ := wording_listed number hreal hsplits.head (k + 2)
      rw [stepsFrom_real hreal, List.length_append, length_marked, hlength, ih hsplits.tail]

/-- Behind an instruction that takes bytes the steps start anew. -/
theorem stepsFrom_append (hreal : insn.isPseudo = false) : ∃ k',
    stepsFrom split number i k lines (xs ++ insn :: ys) =
      stepsFrom split number i k lines (xs ++ [insn]) ++
        stepsFrom split number (i + (xs.length + 1)) k' [] ys := by
  induction xs generalizing i k lines with
  | nil =>
    refine ⟨k + insn.weight (split i), ?_⟩
    rw [List.nil_append, List.nil_append, stepsFrom_real hreal, stepsFrom_real hreal, List.append_assoc]
    rfl
  | cons x xs ih =>
    have hlength : i + ((x :: xs).length + 1) = i + 1 + (xs.length + 1) := by
      rw [List.length_cons]
      omega
    rw [hlength, List.cons_append, List.cons_append]
    cases hpseudo : x.isPseudo with
    | true =>
      cases x with
      | label l => exact ih
      | line n => exact ih
      | _ => cases hpseudo
    | false =>
      obtain ⟨k', hk⟩ : ∃ k', stepsFrom split number (i + 1) (k + x.weight (split i)) []
          (xs ++ insn :: ys) = _ ++ stepsFrom split number (i + 1 + (xs.length + 1)) k' [] ys := ih
      refine ⟨k', ?_⟩
      rw [stepsFrom_real hpseudo, stepsFrom_real hpseudo, hk, List.append_assoc]

theorem spelled_false (insn : Insn) : insn.spelled false = insn.wording.toList := by
  cases insn <;> rfl

theorem spelling_whole (i : Nat) (insns : List Insn) : spelling whole i insns = wording insns := by
  induction insns generalizing i with
  | nil => rfl
  | cons insn insns ih =>
    rw [spelling_cons, ih, whole, spelled_false, wording_cons]

theorem splits_whole (i : Nat) (insns : List Insn) : Splits whole i insns :=
  fun _ _ _ h => nomatch h

/-- Split branches are written as others in front of jumps. -/
theorem spreads_spelling (hsplits : Splits split i insns) :
    Spreads (wording insns) (spelling split i insns) := by
  induction insns generalizing i with
  | nil => exact .nil
  | cons insn insns ih =>
    rw [spelling_cons]
    have hrest := ih hsplits.tail
    cases hs : split i with
    | false =>
      rw [spelled_false, wording_cons]
      exact (Spreads.refl _).append hrest
    | true =>
      obtain ⟨op, target, rfl, hop⟩ := hsplits.head hs
      obtain ⟨opposite, hopposite⟩ := Option.ne_none_iff_exists'.1 hop
      rw [Insn.spelled, if_pos rfl, hopposite]
      have hpair : Insn.Spread (.jump op 0) [.jump opposite 0, .jump Op.goto 0] := .split 1 hop
      exact .cons hpair hrest

end Spelling

/-! ## Bodies with one listing -/

theorem Led.of_append {xs ys : List Insn} (h : Led (xs ++ ys)) : Led ys := by
  induction xs with
  | nil => exact h
  | cons x xs ih =>
    refine ih ?_
    cases x <;> first | exact h.2 | exact h

theorem led_of_real {insn : Insn} (hreal : insn.isPseudo = false) (xs : List Insn) :
    Led (xs ++ [insn]) := by
  induction xs with
  | nil => cases insn <;> trivial
  | cons x xs ih =>
    cases x with
    | line n => exact ⟨⟨insn, List.mem_append_right _ (List.mem_singleton_self _), hreal⟩, ih⟩
    | _ => exact ih

section Same

variable {split : Nat → Bool} {number number' : Label → Nat} {i i' k k' : Nat} {xs ys : List Insn}

/-- Where the steps are the same, so is the wording, but for the branches that are split. -/
theorem spreads_of_steps
    (hsteps : stepsFrom split number i k [] xs = stepsFrom whole number' i' k' [] ys)
    (hsplits : Splits split i xs) (hxs : Led xs) (hys : Led ys) : Spreads (wording xs) (wording ys) := by
  have hwording : (stepsFrom split number i k [] xs).flatMap Step.wording = spelling split i xs :=
    wording_stepsFrom hsplits hxs fun h => absurd rfl h
  rw [hsteps, wording_stepsFrom (splits_whole _ ys) hys fun h => absurd rfl h, spelling_whole] at hwording
  rw [show wording ys = spelling split i xs from hwording]
  exact spreads_spelling hsplits

/-- And so it is up to an instruction and behind it, if as many instructions stand in front of it. -/
theorem spreads_of_steps_split {insn insn' : Insn} {xs' ys' : List Insn}
    (hsteps : stepsFrom split number 0 0 [] (xs ++ insn :: xs') =
      stepsFrom whole number' 0 0 [] (ys ++ insn' :: ys'))
    (hsplits : Splits split 0 (xs ++ insn :: xs')) (hxs : Led (xs ++ insn :: xs'))
    (hys : Led (ys ++ insn' :: ys')) (hreal : insn.isPseudo = false) (hreal' : insn'.isPseudo = false)
    (hone : split xs.length = false)
    (hnumber : numberAt split (xs ++ insn :: xs') xs.length = numberAt whole (ys ++ insn' :: ys') ys.length) :
    Spreads (wording (xs ++ [insn])) (wording (ys ++ [insn'])) ∧
      Spreads (wording xs') (wording ys') := by
  have hcut : xs ++ insn :: xs' = (xs ++ [insn]) ++ xs' := by simp
  have hcut' : ys ++ insn' :: ys' = (ys ++ [insn']) ++ ys' := by simp
  obtain ⟨k, hk⟩ : ∃ k, stepsFrom split number 0 0 [] (xs ++ insn :: xs') =
      stepsFrom split number 0 0 [] (xs ++ [insn]) ++
        stepsFrom split number (0 + (xs.length + 1)) k [] xs' := stepsFrom_append hreal
  obtain ⟨k', hk'⟩ : ∃ k', stepsFrom whole number' 0 0 [] (ys ++ insn' :: ys') =
      stepsFrom whole number' 0 0 [] (ys ++ [insn']) ++
        stepsFrom whole number' (0 + (ys.length + 1)) k' [] ys' := stepsFrom_append hreal'
  rw [hk, hk'] at hsteps
  rw [hcut] at hsplits hxs
  rw [hcut'] at hys
  have hlength : (stepsFrom split number 0 0 [] (xs ++ [insn])).length =
      (stepsFrom whole number' 0 0 [] (ys ++ [insn'])).length := by
    rw [numberAt, numberAt, List.take_left, List.take_left] at hnumber
    rw [length_stepsFrom hsplits.left, length_stepsFrom (splits_whole _ _), List.zipIdx_append,
      List.zipIdx_append, List.map_append, List.map_append, List.sum_append, List.sum_append, hnumber]
    simp [Insn.weight, hreal, hreal', hone, whole]
  obtain ⟨hfirst, hrest⟩ := List.append_inj hsteps hlength
  have hbehind := hsplits.right
  rw [List.length_append, List.length_singleton] at hbehind
  exact ⟨spreads_of_steps hfirst hsplits.left (led_of_real hreal xs) (led_of_real hreal' ys),
    spreads_of_steps hrest hbehind hxs.of_append hys.of_append⟩

end Same

end Interpose
