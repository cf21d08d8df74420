import Mathlib.Data.Set.Lattice
import Interpose.Matching.Matcher
import Interpose.Proofs.Outcome
/-!
# The algebra of matchers

What a matcher chooses is a set of signature codes with an order on it. For matchers without a criterion
of the host, choosing never fails and the sets are made like the matchers (`Matcher.codes`): `and`
intersects, `or` unites, `not` takes the complement in the codes of the type, and a guard chooses nothing
of a type that must not be woven. So the laws of sets are laws of matchers. Behaviors of a type may share
a code; of those only the first is ever chosen.

Results:
* `choose_codes`: what a matcher chooses, by induction on the matcher.
* `not_or_choose`: one of the laws of De Morgan holds for the order of choice too.
* `choose_boolean`: the laws together.
-/

namespace Interpose

def codesOf (bs : List Behavior) : Set String :=
  {c | ∃ b ∈ bs, b.signCode = c}

/-! ## Selections -/

namespace Selection

/-- The signature codes of the chosen behaviors, as a set. -/
def codes (s : Selection) : Set String :=
  codesOf s.behaviors

theorem mem_signCodes {s : Selection} {c : String} : c ∈ s.signCodes ↔ c ∈ s.codes := by
  simp [signCodes, codes, codesOf]

theorem contains_iff {s : Selection} {c : String} : s.contains c = true ↔ c ∈ s.codes := by
  rw [contains, List.contains_iff_mem, mem_signCodes]

theorem behaviors_add (s : Selection) (b : Behavior) :
    (s.add b).behaviors = if b.signCode ∈ s.signCodes then s.behaviors else s.behaviors ++ [b] := by
  unfold add signCodes
  split <;> rfl

theorem codes_add (s : Selection) (b : Behavior) : (s.add b).codes = s.codes ∪ {b.signCode} := by
  ext c
  rw [codes, behaviors_add]
  split
  · rename_i h
    rw [mem_signCodes] at h
    simp only [Set.mem_union, Set.mem_singleton_iff]
    exact ⟨.inl, fun hc => hc.elim id fun e => e ▸ h⟩
  · simp only [codes, codesOf, List.mem_append, List.mem_singleton, Set.mem_ofPred_eq, Set.mem_union,
      Set.mem_singleton_iff, or_and_right, exists_or, exists_eq_left]
    exact or_congr_right eq_comm

theorem subset_foldl_add (bs : List Behavior) (s : Selection) :
    (bs.foldl add s).behaviors ⊆ s.behaviors ++ bs := by
  induction bs generalizing s with
  | nil => simp
  | cons b bs ih =>
    intro x hx
    have hx := ih (s.add b) hx
    rw [List.mem_append, behaviors_add] at hx
    split at hx
    · simp only [List.mem_append, List.mem_cons]
      tauto
    · simp only [List.mem_append, List.mem_cons, List.not_mem_nil, or_false] at hx ⊢
      tauto

theorem codes_foldl_add (bs : List Behavior) (s : Selection) :
    (bs.foldl add s).codes = s.codes ∪ codesOf bs := by
  induction bs generalizing s with
  | nil => simp [codesOf]
  | cons b bs ih =>
    rw [List.foldl_cons, ih, codes_add, Set.union_assoc]
    congr 1
    ext c
    simp [codesOf, eq_comm]

theorem ofList_subset (bs : List Behavior) : (ofList bs).behaviors ⊆ bs :=
  subset_foldl_add bs empty

theorem codes_ofList (bs : List Behavior) : (ofList bs).codes = codesOf bs := by
  rw [ofList, codes_foldl_add, codes, empty]
  simp [codesOf]

theorem codes_filter (t : StructuralType) (keep : Behavior → Bool) :
    (filter t keep).codes = {c | ∃ b ∈ t.behaviors, keep b = true ∧ b.signCode = c} := by
  rw [filter, codes_ofList]
  simp [codesOf, and_assoc]

theorem codes_inter (a b : Selection) : (a.inter b).codes = a.codes ∩ b.codes := by
  ext c
  rw [inter, codes_ofList]
  simp only [codesOf, List.mem_filter, contains_iff, Set.mem_ofPred_eq, Set.mem_inter_iff]
  constructor
  · rintro ⟨x, ⟨hx, hb⟩, rfl⟩
    exact ⟨⟨x, hx, rfl⟩, hb⟩
  · rintro ⟨⟨x, hx, rfl⟩, hb⟩
    exact ⟨x, ⟨hx, hb⟩, rfl⟩

theorem codes_union (a b : Selection) : (a.union b).codes = a.codes ∪ b.codes :=
  codes_foldl_add b.behaviors a

/-- What nothing is chosen of has nothing in common with another selection. -/
theorem inter_of_unmatched {a : Selection} (b : Selection) (h : a.isMatched = false) : a.inter b = a := by
  have hnone : a.behaviors = [] := by simpa [isMatched] using h
  rw [inter, hnone]
  cases a with
  | mk behaviors _ =>
    subst hnone
    rfl

theorem ext_behaviors {a b : Selection} (h : a.behaviors = b.behaviors) : a = b := by
  cases a
  cases b
  cases h
  rfl

/-- Behaviors with distinct codes are all chosen. -/
theorem foldl_add_of_nodup {bs : List Behavior} {s : Selection}
    (h : ((s.behaviors ++ bs).map Behavior.signCode).Nodup) :
    (bs.foldl add s).behaviors = s.behaviors ++ bs := by
  induction bs generalizing s with
  | nil => simp
  | cons b bs ih =>
    have hnew : b.signCode ∉ s.signCodes := by
      rw [List.map_append, List.map_cons, List.nodup_append] at h
      intro hb
      exact h.2.2 _ hb _ (List.mem_cons_self ..) rfl
    have hadd : (s.add b).behaviors = s.behaviors ++ [b] := by rw [behaviors_add, if_neg hnew]
    rw [List.foldl_cons, ih, hadd]
    · simp
    · rw [hadd]
      simpa using h

theorem ofList_of_nodup {bs : List Behavior} (h : (bs.map Behavior.signCode).Nodup) :
    (ofList bs).behaviors = bs :=
  foldl_add_of_nodup (s := empty) h

/-- A condition on codes may be tested before or after repeated codes are left out. -/
theorem foldl_add_filter {keep : Behavior → Bool}
    (hkeep : ∀ b b' : Behavior, b.signCode = b'.signCode → keep b = keep b') {bs : List Behavior}
    {s t : Selection} (h : t.behaviors = s.behaviors.filter keep) :
    ((bs.filter keep).foldl add t).behaviors = (bs.foldl add s).behaviors.filter keep := by
  induction bs generalizing s t with
  | nil => simpa using h
  | cons b bs ih =>
    cases hb : keep b with
    | false =>
      rw [List.filter_cons_of_neg (by simp [hb]), List.foldl_cons]
      refine ih ?_
      rw [behaviors_add]
      split
      · exact h
      · rw [List.filter_append, List.filter_cons_of_neg (by simp [hb]), List.filter_nil,
          List.append_nil, h]
    | true =>
      rw [List.filter_cons_of_pos hb, List.foldl_cons, List.foldl_cons]
      refine ih ?_
      have hsame : b.signCode ∈ t.signCodes ↔ b.signCode ∈ s.signCodes := by
        simp only [signCodes, h, List.mem_map, List.mem_filter]
        constructor
        · rintro ⟨x, ⟨hx, -⟩, e⟩
          exact ⟨x, hx, e⟩
        · rintro ⟨x, hx, e⟩
          exact ⟨x, ⟨hx, (hkeep x b e).trans hb⟩, e⟩
      rw [behaviors_add, behaviors_add]
      by_cases hin : b.signCode ∈ s.signCodes
      · rw [if_pos (hsame.2 hin), if_pos hin, h]
      · rw [if_neg (hsame.not.2 hin), if_neg hin, List.filter_append, List.filter_cons_of_pos hb,
          List.filter_nil, h]

theorem behaviors_filter (t : StructuralType) {keep : Behavior → Bool}
    (hkeep : ∀ b b' : Behavior, b.signCode = b'.signCode → keep b = keep b') :
    (filter t keep).behaviors = (all t).behaviors.filter keep :=
  foldl_add_filter hkeep (s := empty) (t := empty) rfl

/-- Leaving out two sets of codes at once, or one after the other. -/
theorem filter_neither (t : StructuralType) (a b : Selection) :
    filter t (fun x => !(a.union b).contains x.signCode) =
      (filter t fun x => !a.contains x.signCode).inter (filter t fun x => !b.contains x.signCode) := by
  have byCode (s : Selection) (x x' : Behavior) (h : x.signCode = x'.signCode) :
      (!s.contains x.signCode) = !s.contains x'.signCode := by rw [h]
  apply ext_behaviors
  rw [behaviors_filter t (byCode _), inter, behaviors_filter t (byCode a)]
  rw [ofList_of_nodup, List.filter_filter]
  · refine List.filter_congr fun x hx => ?_
    have hxt : x ∈ t.behaviors := ofList_subset _ hx
    have hunion : (a.union b).contains x.signCode = (a.contains x.signCode || b.contains x.signCode) := by
      rw [Bool.eq_iff_iff, Bool.or_eq_true, contains_iff, contains_iff, contains_iff, codes_union]
      exact Iff.rfl
    have hother : (filter t fun x => !b.contains x.signCode).contains x.signCode =
        !b.contains x.signCode := by
      rw [Bool.eq_iff_iff, contains_iff, codes_filter]
      constructor
      · rintro ⟨y, -, hy, e⟩
        rwa [e] at hy
      · exact fun hb => ⟨x, hxt, hb, rfl⟩
    rw [hunion, hother, Bool.not_or, Bool.and_comm]
  · exact (((List.filter_sublist.trans List.filter_sublist).map _).nodup (all t).codes_nodup)

end Selection

/-! ## Matchers -/

namespace Matcher

/-- No criterion of the host is part of the matcher. -/
def BuiltIn : Matcher → Prop
  | and a b | or a b => a.BuiltIn ∧ b.BuiltIn
  | not a | guarded a _ => a.BuiltIn
  | custom _ => False
  | _ => True

/-- The signature codes that a matcher stands for in a type. -/
def codes (t : StructuralType) : Matcher → Set String
  | all => codesOf t.behaviors
  | typeName pattern subtypes => if acceptsType pattern subtypes t then codesOf t.behaviors else ∅
  | behaviorName pattern parameters =>
    {c | ∃ b ∈ t.behaviors, acceptsBehavior pattern parameters b = true ∧ b.signCode = c}
  | typeAnnotated pattern =>
    if t.annotations.any (pattern.holds ·) then codesOf t.behaviors else ∅
  | behaviorAnnotated pattern =>
    {c | ∃ b ∈ t.behaviors, b.annotations.any (pattern.holds ·) = true ∧ b.signCode = c}
  | and a b => a.codes t ∩ b.codes t
  | or a b => a.codes t ∪ b.codes t
  | not a => codesOf t.behaviors \ a.codes t
  | guarded a enableUnsafe => if refuses enableUnsafe t then ∅ else a.codes t
  | custom _ => ∅

/-- Both matchers choose the same signature codes of a type. -/
def Agree (t : StructuralType) (m n : Matcher) : Prop :=
  ∃ s s', m.choose t = .ok s ∧ n.choose t = .ok s' ∧ s.codes = s'.codes

variable {t : StructuralType} {m n a b : Matcher}

theorem ite_subset (accepted : Bool) {s u : Set String} (h : s ⊆ u) :
    (if accepted then s else ∅) ⊆ u := by
  split
  · exact h
  · exact Set.empty_subset _

theorem codes_subset (hm : m.BuiltIn) : m.codes t ⊆ codesOf t.behaviors := by
  induction m with
  | all => exact subset_rfl
  | typeName pattern subtypes => exact ite_subset _ subset_rfl
  | typeAnnotated pattern => exact ite_subset _ subset_rfl
  | behaviorName pattern parameters =>
    rintro c ⟨b, hb, -, hc⟩
    exact ⟨b, hb, hc⟩
  | behaviorAnnotated pattern =>
    rintro c ⟨b, hb, -, hc⟩
    exact ⟨b, hb, hc⟩
  | and a b iha _ => exact fun c hc => iha hm.1 hc.1
  | or a b iha ihb => exact Set.union_subset (iha hm.1) (ihb hm.2)
  | not a _ => exact fun c hc => hc.1
  | guarded a enableUnsafe ih =>
    rw [codes]
    split
    · exact Set.empty_subset _
    · exact ih hm
  | custom choose => exact hm.elim

theorem choose_and {s s' : Selection} (ha : a.choose t = .ok s) (hb : b.choose t = .ok s') :
    (and a b).choose t = .ok (s.inter s') := by
  simp only [choose, ha, hb, bind, Except.bind]
  split
  · rfl
  · rename_i h
    rw [Selection.inter_of_unmatched s' (Bool.eq_false_iff.2 h)]
    rfl

theorem choose_or {s s' : Selection} (ha : a.choose t = .ok s) (hb : b.choose t = .ok s') :
    (or a b).choose t = .ok (s.union s') := by
  simp only [choose, ha, hb]
  rfl

theorem choose_not {s : Selection} (ha : a.choose t = .ok s) :
    (not a).choose t = .ok (Selection.filter t fun b => !s.contains b.signCode) := by
  simp only [choose, ha]
  rfl

theorem allIf_subset (t : StructuralType) (accepted : Bool) :
    (allIf t accepted).behaviors ⊆ t.behaviors := by
  cases accepted with
  | true => exact Selection.ofList_subset _
  | false => exact List.nil_subset _

theorem codes_allIf (t : StructuralType) (accepted : Bool) :
    (allIf t accepted).codes = if accepted then codesOf t.behaviors else ∅ := by
  cases accepted with
  | true => exact Selection.codes_ofList t.behaviors
  | false => simp [allIf, Selection.empty, Selection.codes, codesOf]

theorem filter_subset (t : StructuralType) (keep : Behavior → Bool) :
    (Selection.filter t keep).behaviors ⊆ t.behaviors :=
  fun _ hx => (List.mem_filter.1 (Selection.ofList_subset _ hx)).1

/-- Choosing never fails, and chooses behaviors of the type with the codes that the matcher stands for. -/
theorem choose_codes (hm : m.BuiltIn) :
    ∃ s, m.choose t = .ok s ∧ s.behaviors ⊆ t.behaviors ∧ s.codes = m.codes t := by
  induction m with
  | all => exact ⟨_, rfl, Selection.ofList_subset _, Selection.codes_ofList _⟩
  | typeName pattern subtypes => exact ⟨_, rfl, allIf_subset t _, codes_allIf t _⟩
  | typeAnnotated pattern => exact ⟨_, rfl, allIf_subset t _, codes_allIf t _⟩
  | behaviorName pattern parameters => exact ⟨_, rfl, filter_subset t _, Selection.codes_filter t _⟩
  | behaviorAnnotated pattern => exact ⟨_, rfl, filter_subset t _, Selection.codes_filter t _⟩
  | and a b iha ihb =>
    obtain ⟨s, hs, hsub, hcodes⟩ := iha hm.1
    obtain ⟨s', hs', -, hcodes'⟩ := ihb hm.2
    refine ⟨_, choose_and hs hs', fun x hx => ?_, ?_⟩
    · exact hsub (List.mem_filter.1 (Selection.ofList_subset _ hx)).1
    · rw [Selection.codes_inter, hcodes, hcodes', codes]
  | or a b iha ihb =>
    obtain ⟨s, hs, hsub, hcodes⟩ := iha hm.1
    obtain ⟨s', hs', hsub', hcodes'⟩ := ihb hm.2
    refine ⟨_, choose_or hs hs', fun x hx => ?_, ?_⟩
    · exact (List.mem_append.1 (Selection.subset_foldl_add _ _ hx)).elim (hsub ·) (hsub' ·)
    · rw [Selection.codes_union, hcodes, hcodes', codes]
  | not a ih =>
    obtain ⟨s, hs, -, hcodes⟩ := ih hm
    refine ⟨_, choose_not hs, filter_subset t _, ?_⟩
    rw [Selection.codes_filter, codes, ← hcodes]
    ext c
    simp only [Bool.not_eq_true', ← Bool.not_eq_true, Selection.contains_iff, codesOf,
      Set.mem_ofPred_eq, Set.mem_sdiff]
    constructor
    · rintro ⟨b, hb, hout, rfl⟩
      exact ⟨⟨b, hb, rfl⟩, hout⟩
    · rintro ⟨⟨b, hb, rfl⟩, hout⟩
      exact ⟨b, hb, hout, rfl⟩
  | guarded a enableUnsafe ih =>
    cases hr : refuses enableUnsafe t with
    | true =>
      refine ⟨Selection.empty, by simp [choose, hr, pure, Except.pure], List.nil_subset _, ?_⟩
      simp [codes, hr, Selection.codes, Selection.empty, codesOf]
    | false =>
      obtain ⟨s, hs, hsub, hcodes⟩ := ih hm
      exact ⟨s, by simpa [choose, hr] using hs, hsub, by simp [codes, hr, hcodes]⟩
  | custom choose => exact hm.elim

/-- A law of the sets of codes is a law of matchers. -/
theorem agree_of_codes (hm : m.BuiltIn) (hn : n.BuiltIn) (h : m.codes t = n.codes t) : Agree t m n := by
  obtain ⟨s, hs, -, hcodes⟩ := choose_codes (t := t) hm
  obtain ⟨s', hs', -, hcodes'⟩ := choose_codes (t := t) hn
  exact ⟨s, s', hs, hs', by rw [hcodes, hcodes', h]⟩

/-- What neither of two matchers chooses, in the order of the type. -/
theorem not_or_choose (ha : a.BuiltIn) (hb : b.BuiltIn) :
    (not (or a b)).choose t = (and (not a) (not b)).choose t := by
  obtain ⟨s, hs, -⟩ := choose_codes (t := t) ha
  obtain ⟨s', hs', -⟩ := choose_codes (t := t) hb
  rw [choose_not (choose_or hs hs'), choose_and (choose_not hs) (choose_not hs'),
    Selection.filter_neither]

/-- Matchers are a boolean algebra of signature codes. -/
theorem choose_boolean (t : StructuralType) {a b : Matcher} (ha : a.BuiltIn) (hb : b.BuiltIn) :
    (∃ s, a.choose t = .ok s ∧ s.behaviors ⊆ t.behaviors ∧ s.signCodes.Nodup ∧
      (∀ c, s.contains c = true ↔ ∃ x ∈ s.behaviors, x.signCode = c) ∧
      {c | c ∈ s.signCodes} = a.codes t) ∧
    Agree t (not (and a b)) (or (not a) (not b)) ∧
    Agree t (not (or a b)) (and (not a) (not b)) ∧
    Agree t (not (not a)) a ∧
    Agree t (and a a) a ∧ Agree t (or a a) a ∧
    Agree t (and a b) (and b a) ∧ Agree t (or a b) (or b a) ∧
    (not (or a b)).choose t = (and (not a) (not b)).choose t := by
  obtain ⟨s, hs, hsub, hcodes⟩ := choose_codes (t := t) ha
  refine ⟨⟨s, hs, hsub, s.codes_nodup, fun c => Selection.contains_iff, ?_⟩, ?_, ?_, ?_, ?_, ?_, ?_, ?_,
    not_or_choose ha hb⟩
  · rw [← hcodes]
    exact Set.ext fun c => Selection.mem_signCodes
  · exact agree_of_codes ⟨ha, hb⟩ ⟨ha, hb⟩ Set.sdiff_inter
  · exact agree_of_codes ⟨ha, hb⟩ ⟨ha, hb⟩ Set.sdiff_inter_sdiff.symm
  · exact agree_of_codes ha ha (Set.sdiff_sdiff_cancel_left (codes_subset ha))
  · exact agree_of_codes ⟨ha, ha⟩ ha (Set.inter_self _)
  · exact agree_of_codes ⟨ha, ha⟩ ha (Set.union_self _)
  · exact agree_of_codes ⟨ha, hb⟩ ⟨hb, ha⟩ (Set.inter_comm _ _)
  · exact agree_of_codes ⟨ha, hb⟩ ⟨hb, ha⟩ (Set.union_comm _ _)

/-- A type in which two methods differ in what they return only. -/
def twins : StructuralType where
  javaName := "A"
  superName := some "B"
  interfaces := []
  access := 0
  annotations := []
  behaviors :=
    [{ declaringType := "A", name := "f", descriptor := "()V", access := 0, parameters := [],
       returns := "void" },
     { declaringType := "A", name := "f", descriptor := "()I", access := 0, parameters := [],
       returns := "int" },
     { declaringType := "A", name := "g", descriptor := "(I)V", access := 0, parameters := ["int"],
       returns := "void" }]
  boundary := .application 1

def allBut (name : String) : Matcher :=
  and all (not (behaviorName (.exact name) none))

theorem choose_boolean_twins :
    (allBut "g").BuiltIn ∧ ((allBut "f").guarded false).BuiltIn ∧
      (∃ s, (allBut "g").choose twins = .ok s ∧ s.signCodes = ["A#f()"] ∧
        s.behaviors ⊆ twins.behaviors ∧ {c | c ∈ s.signCodes} = (allBut "g").codes twins) ∧
      Agree twins (not (and (allBut "g") ((allBut "f").guarded false)))
        (or (not (allBut "g")) (not ((allBut "f").guarded false))) ∧
      (not (or (allBut "g") ((allBut "f").guarded false))).choose twins =
        (and (not (allBut "g")) (not ((allBut "f").guarded false))).choose twins := by
  have hg : (allBut "g").BuiltIn := ⟨trivial, trivial⟩
  have hf : ((allBut "f").guarded false).BuiltIn := ⟨trivial, trivial⟩
  obtain ⟨⟨s, hs, hsub, -, -, hcodes⟩, hand, -, -, -, -, -, -, hor⟩ := choose_boolean twins hg hf
  have hone : ((allBut "g").choose twins).toOption.any (fun s => s.signCodes = ["A#f()"]) := by
    decide +kernel
  obtain ⟨s', hs', hcode⟩ := any_toOption.1 hone
  rw [hs] at hs'
  cases hs'
  exact ⟨hg, hf, ⟨s, hs, of_decide_eq_true hcode, hsub, hcodes⟩, hand, hor⟩

end Matcher

end Interpose
