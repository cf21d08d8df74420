import Mathlib.Data.List.DropRight
import Interpose.Matching.Builder
import Interpose.Proofs.Matching.Algebra
import Interpose.Proofs.Matching.Wildcards
/-!
# What a built matcher chooses

The matcher that comes of a sequence of calls is read off the calls (`Accepts`): the last pattern for types
counts, with subtypes if they were asked for at any time, and so do the last pattern for behaviors and every
further criterion. A list of parameter types counts only until the next pattern for behaviors is given.
Without such a pattern the name is tested by `*`, which no name with a line feed satisfies.

So the matcher is the conjunction of all that was asked for (`Meets`) if the last list of parameter types was
given behind the last pattern for behaviors, and no name has a line feed where parameter types stand alone.
Otherwise it may choose more in the first case, and less in the second.

Results:
* `ofCalls_fields`: the collected criteria after any calls.
* `choose_build`: a conjunction of criteria chooses what each of them chooses.
* `build_selects`: what is chosen after any calls, and when that is all that was asked for.
* `build_not_fulfils`: when it is not.
-/

namespace Interpose

namespace Selection

theorem behaviors_inter (a b : Selection) :
    (a.inter b).behaviors = a.behaviors.filter fun x => b.contains x.signCode :=
  ofList_of_nodup ((List.filter_sublist.map _).nodup a.codes_nodup)

theorem signCodes_foldl_add (bs : List Behavior) (s : Selection) :
    (bs.foldl add s).signCodes =
      (bs.map Behavior.signCode).foldl (fun seen c => if seen.contains c then seen else seen ++ [c])
        s.signCodes := by
  induction bs generalizing s with
  | nil => rfl
  | cons b bs ih =>
    have hadd : (s.add b).signCodes =
        if s.signCodes.contains b.signCode then s.signCodes else s.signCodes ++ [b.signCode] := by
      rw [signCodes, behaviors_add]
      simp only [List.contains_iff_mem]
      split <;> simp [signCodes]
    rw [List.foldl_cons, ih, hadd]
    rfl

/-- All codes of a type are chosen in the order of their first behaviors. -/
theorem signCodes_all (t : StructuralType) :
    (all t).signCodes = StructuralType.distinct (t.behaviors.map Behavior.signCode) :=
  signCodes_foldl_add t.behaviors empty

theorem codes_all (t : StructuralType) : (all t).codes = codesOf t.behaviors :=
  codes_ofList t.behaviors

end Selection

namespace MatcherBuilder

inductive Call where
  | onType (pattern : NamePattern)
  | includeSubtypes
  | onBehavior (pattern : NamePattern)
  | withParameters (parameters : List String)
  | typeAnnotated (pattern : NamePattern)
  | behaviorAnnotated (pattern : NamePattern)
  | andMatching (m : Matcher)

namespace Call

def typePattern? : Call → Option NamePattern
  | onType pattern => some pattern
  | _ => none

def asksSubtypes : Call → Bool
  | includeSubtypes => true
  | _ => false

def behaviorPattern? : Call → Option NamePattern
  | onBehavior pattern => some pattern
  | _ => none

def parameters? : Call → Option (List String)
  | withParameters parameters => some parameters
  | _ => none

def criterion? : Call → Option Matcher
  | typeAnnotated pattern => some (.typeAnnotated pattern)
  | behaviorAnnotated pattern => some (.behaviorAnnotated pattern)
  | andMatching m => some m
  | _ => none

end Call

variable (E : RegexEngine)

def apply (b : MatcherBuilder) : Call → MatcherBuilder
  | .onType pattern => b.onType pattern
  | .includeSubtypes => b.includeSubtypes
  | .onBehavior pattern => b.onBehavior pattern
  | .withParameters parameters => b.withParameters E parameters
  | .typeAnnotated pattern => b.and (.typeAnnotated pattern)
  | .behaviorAnnotated pattern => b.and (.behaviorAnnotated pattern)
  | .andMatching m => b.and m

def ofCalls (calls : List Call) : MatcherBuilder :=
  calls.foldl (apply E) {}

/-! ## The last call of a kind -/

/-- What the last of the calls gave that gave anything. -/
def last {α : Type} (given : Call → Option α) (calls : List Call) : Option α :=
  (calls.filterMap given).getLast?

/-- The calls behind the last pattern for behaviors. -/
def afterBehavior (calls : List Call) : List Call :=
  calls.rtakeWhile fun c => c.behaviorPattern?.isNone

/-- The parameter types that count. -/
def parametersInForce (calls : List Call) : Option (List String) :=
  last Call.parameters? (afterBehavior calls)

variable {E} {calls : List Call} {call : Call} {t : StructuralType} {x : Behavior}

theorem last_concat {α : Type} (given : Call → Option α) :
    last given (calls ++ [call]) = (given call).or (last given calls) := by
  rw [last, List.filterMap_append]
  cases h : given call with
  | none => simp [h, last]
  | some a => simp [h]

theorem parametersInForce_concat : parametersInForce (calls ++ [call]) =
    if call.behaviorPattern?.isNone then call.parameters?.or (parametersInForce calls) else none := by
  rw [parametersInForce, afterBehavior]
  split
  · rename_i h
    rw [List.rtakeWhile_concat_pos (fun c : Call => c.behaviorPattern?.isNone) _ _ h, last_concat]
    rfl
  · rename_i h
    rw [List.rtakeWhile_concat_neg (fun c : Call => c.behaviorPattern?.isNone) _ _ h]
    rfl

/-- The criterion on behaviors that a pattern and parameter types make. -/
def behaviorCriterion (E : RegexEngine) : Option NamePattern → Option (List String) →
    Option (NamePattern × Option (List String))
  | some pattern, parameters => some (pattern, parameters)
  | none, some parameters => some (.ofWildcard E "*", some parameters)
  | none, none => none

theorem ofCalls_fields (calls : List Call) : ofCalls E calls =
    { typePattern := last Call.typePattern? calls
      subtypes := calls.any Call.asksSubtypes
      behavior := behaviorCriterion E (last Call.behaviorPattern? calls) (parametersInForce calls)
      further := calls.filterMap Call.criterion? } := by
  induction calls using List.reverseRecOn with
  | nil => rfl
  | append_singleton calls call ih =>
    have hstep : ofCalls E (calls ++ [call]) = (ofCalls E calls).apply E call := by
      rw [ofCalls, List.foldl_append]
      rfl
    rw [hstep, ih, last_concat, last_concat, parametersInForce_concat, List.any_append,
      List.filterMap_append]
    generalize last Call.behaviorPattern? calls = pattern
    cases call with
    | withParameters parameters =>
      have hname : ((behaviorCriterion E pattern (parametersInForce calls)).map (·.1)).getD
          (.ofWildcard E "*") = pattern.getD (.ofWildcard E "*") := by
        cases pattern <;> cases parametersInForce calls <;> rfl
      simp only [apply, withParameters, hname]
      cases pattern <;> simp [behaviorCriterion, Call.typePattern?, Call.behaviorPattern?,
        Call.parameters?, Call.criterion?, Call.asksSubtypes]
    | _ =>
      simp [apply, onType, includeSubtypes, onBehavior, MatcherBuilder.and, behaviorCriterion,
        Call.typePattern?, Call.asksSubtypes, Call.behaviorPattern?, Call.parameters?, Call.criterion?]

/-! ## Conjunctions -/

/-- What every selection has is chosen, in the order of the first. -/
theorem choose_foldl {chosen : Matcher → Selection} {ms : List Matcher}
    (hchosen : ∀ m ∈ ms, m.choose t = .ok (chosen m)) {a : Matcher} {s : Selection}
    (ha : a.choose t = .ok s) : ∃ s', (ms.foldl Matcher.and a).choose t = .ok s' ∧
      s'.behaviors = s.behaviors.filter fun x => ms.all fun m => (chosen m).contains x.signCode := by
  induction ms generalizing a s with
  | nil => exact ⟨s, ha, (List.filter_eq_self.2 fun _ _ => rfl).symm⟩
  | cons m ms ih =>
    obtain ⟨s', hs', hbehaviors⟩ := ih (fun m hm => hchosen m (List.mem_cons_of_mem _ hm))
      (Matcher.choose_and ha (hchosen m List.mem_cons_self))
    refine ⟨s', hs', ?_⟩
    rw [hbehaviors, Selection.behaviors_inter, List.filter_filter]
    refine List.filter_congr fun x _ => ?_
    rw [List.all_cons, Bool.and_comm]

/-- The matcher chooses the signature codes that every criterion chooses, in the order of the type. -/
theorem choose_build {b : MatcherBuilder} (heval : ∀ m ∈ b.criteria, ∃ s, m.choose t = .ok s) :
    ∃ s, b.build.choose t = .ok s ∧
      s.signCodes.Sublist (StructuralType.distinct (t.behaviors.map Behavior.signCode)) ∧
      ∀ c, c ∈ s.signCodes ↔ c ∈ codesOf t.behaviors ∧
        ∀ m ∈ b.criteria, ∃ s', m.choose t = .ok s' ∧ s'.contains c = true := by
  have hchosen : ∀ m ∈ b.criteria, m.choose t = .ok ((m.choose t).toOption.getD Selection.empty) := by
    intro m hm
    obtain ⟨s, hs⟩ := heval m hm
    rw [hs]
    rfl
  obtain ⟨s, hs, hbehaviors⟩ := choose_foldl hchosen (a := .all) (s := Selection.all t) rfl
  refine ⟨s, hs, ?_, fun c => ?_⟩
  · rw [Selection.signCodes, hbehaviors, ← Selection.signCodes_all]
    exact List.filter_sublist.map _
  · rw [Selection.signCodes, hbehaviors, List.mem_map, ← Selection.codes_all]
    constructor
    · rintro ⟨x, hx, rfl⟩
      obtain ⟨hx, hall⟩ := List.mem_filter.1 hx
      exact ⟨⟨x, hx, rfl⟩, fun m hm => ⟨_, hchosen m hm, List.all_eq_true.1 hall m hm⟩⟩
    · rintro ⟨⟨x, hx, rfl⟩, hall⟩
      refine ⟨x, List.mem_filter.2 ⟨hx, List.all_eq_true.2 fun m hm => ?_⟩, rfl⟩
      obtain ⟨s', hs', hc⟩ := hall m hm
      rwa [hs']

/-! ## What calls ask for, and what comes of them -/

/-- The behavior is one that the built matcher chooses. -/
structure Accepts (calls : List Call) (t : StructuralType) (x : Behavior) : Prop where
  type : ∀ pattern, last Call.typePattern? calls = some pattern →
    Matcher.acceptsType pattern (calls.any Call.asksSubtypes) t = true
  name : ∀ pattern, last Call.behaviorPattern? calls = some pattern → pattern.holds x.name = true
  unnamed : last Call.behaviorPattern? calls = none → (parametersInForce calls).isSome = true →
    '\n' ∉ x.name.toList
  parameters : ∀ parameters, parametersInForce calls = some parameters → x.parameters = parameters
  further : ∀ m ∈ calls.filterMap Call.criterion?,
    ∃ s, m.choose t = .ok s ∧ s.contains x.signCode = true

/-- The behavior is one that everything that was asked for allows. -/
structure Meets (calls : List Call) (t : StructuralType) (x : Behavior) : Prop where
  type : ∀ pattern, last Call.typePattern? calls = some pattern →
    Matcher.acceptsType pattern (calls.any Call.asksSubtypes) t = true
  name : ∀ pattern, last Call.behaviorPattern? calls = some pattern → pattern.holds x.name = true
  parameters : ∀ parameters, last Call.parameters? calls = some parameters → x.parameters = parameters
  further : ∀ m ∈ calls.filterMap Call.criterion?,
    ∃ s, m.choose t = .ok s ∧ s.contains x.signCode = true

theorem holds_star (hE : E.Documented) (name : String) :
    (NamePattern.ofWildcard E "*").holds name = true ↔ '\n' ∉ name.toList :=
  (NamePattern.holds_ofWildcard_iff hE "*" name).trans NamePattern.covers_run_singleton

theorem acceptsBehavior_eq_true {p : NamePattern} {parameters : Option (List String)} :
    Matcher.acceptsBehavior p parameters x = true ↔
      p.holds x.name = true ∧ ∀ ps, parameters = some ps → x.parameters = ps := by
  rw [Matcher.acceptsBehavior, Bool.and_eq_true]
  refine and_congr_right fun _ => ?_
  cases parameters with
  | none => exact iff_of_true rfl nofun
  | some ps => simpa using eq_comm

theorem behaviorCriterion_accepts_iff (hE : E.Documented) {pattern : Option NamePattern} {parameters : Option (List String)} :
    (∀ p ps, behaviorCriterion E pattern parameters = some (p, ps) → Matcher.acceptsBehavior p ps x = true) ↔
      (∀ p, pattern = some p → p.holds x.name = true) ∧
      (pattern = none → parameters.isSome = true → '\n' ∉ x.name.toList) ∧
      (∀ ps, parameters = some ps → x.parameters = ps) := by
  simp only [acceptsBehavior_eq_true]
  cases pattern <;> cases parameters <;> simp [behaviorCriterion, holds_star hE]

/-- The criterion on behaviors may be tested on a behavior or on its code. -/
theorem exists_acceptsBehavior {c : String} {criterion : Option (NamePattern × Option (List String))} :
    (c ∈ codesOf t.behaviors ∧ ∀ p ps, criterion = some (p, ps) →
        c ∈ (Matcher.behaviorName p ps).codes t) ↔
      ∃ x ∈ t.behaviors, x.signCode = c ∧
        ∀ p ps, criterion = some (p, ps) → Matcher.acceptsBehavior p ps x = true := by
  cases criterion with
  | none => simp [codesOf]
  | some criterion =>
    obtain ⟨p, ps⟩ := criterion
    constructor
    · rintro ⟨-, h⟩
      obtain ⟨x, hx, haccepts, hc⟩ := h p ps rfl
      exact ⟨x, hx, hc, fun _ _ e => by cases e; exact haccepts⟩
    · rintro ⟨x, hx, hc, h⟩
      exact ⟨⟨x, hx, hc⟩, fun _ _ e => by cases e; exact ⟨x, hx, h p ps rfl, hc⟩⟩

/-- A criterion of the library's own chooses the codes that it stands for. -/
theorem exists_contains_iff {m : Matcher} (hm : m.BuiltIn) {c : String} :
    (∃ s, m.choose t = .ok s ∧ s.contains c = true) ↔ c ∈ m.codes t := by
  obtain ⟨s, hs, -, hcodes⟩ := Matcher.choose_codes (t := t) hm
  constructor
  · rintro ⟨s', hs', hc⟩
    cases hs.symm.trans hs'
    rwa [Selection.contains_iff, hcodes] at hc
  · intro hc
    exact ⟨s, hs, by rwa [Selection.contains_iff, hcodes]⟩

theorem forall_mem_criteria {P : Matcher → Prop} : (∀ m ∈ (ofCalls E calls).criteria, P m) ↔
    (∀ p, last Call.typePattern? calls = some p → P (.typeName p (calls.any Call.asksSubtypes))) ∧
    (∀ p ps, behaviorCriterion E (last Call.behaviorPattern? calls) (parametersInForce calls) = some (p, ps) →
      P (.behaviorName p ps)) ∧
    ∀ m ∈ calls.filterMap Call.criterion?, P m := by
  rw [ofCalls_fields, criteria]
  simp only [List.forall_mem_append, Option.mem_toList, Option.map_eq_some_iff, and_assoc]
  refine and_congr ⟨fun h p hp => h _ ⟨p, hp, rfl⟩, fun h m ⟨p, hp, e⟩ => e ▸ h p hp⟩
    (and_congr_left fun _ => ⟨fun h p ps hps => h _ ⟨(p, ps), hps, rfl⟩, ?_⟩)
  rintro h _ ⟨⟨p, ps⟩, hps, rfl⟩
  exact h p ps hps

theorem mem_typeName_codes {pattern : NamePattern} {subtypes : Bool} {c : String} :
    c ∈ (Matcher.typeName pattern subtypes).codes t ↔
      Matcher.acceptsType pattern subtypes t = true ∧ c ∈ codesOf t.behaviors := by
  rw [Matcher.codes]
  split
  · rename_i h
    exact ⟨fun hc => ⟨h, hc⟩, And.right⟩
  · rename_i h
    exact ⟨False.elim, fun hc => absurd hc.1 h⟩

/-- What the criteria of calls choose, by behaviors. -/
theorem criteria_choose_iff (hE : E.Documented) {c : String} :
    (c ∈ codesOf t.behaviors ∧
        ∀ m ∈ (ofCalls E calls).criteria, ∃ s, m.choose t = .ok s ∧ s.contains c = true) ↔
      ∃ x ∈ t.behaviors, x.signCode = c ∧ Accepts calls t x := by
  rw [forall_mem_criteria]
  have htype (p : NamePattern) (subtypes : Bool) := exists_contains_iff (t := t)
    (m := .typeName p subtypes) trivial (c := c)
  have hname (p : NamePattern) (ps : Option (List String)) := exists_contains_iff (t := t)
    (m := .behaviorName p ps) trivial (c := c)
  simp only [htype, hname, mem_typeName_codes]
  constructor
  · rintro ⟨hc, htype, hname, hfurther⟩
    obtain ⟨x, hx, rfl, hbehavior⟩ := exists_acceptsBehavior.1 ⟨hc, hname⟩
    obtain ⟨hpattern, hline, hparameters⟩ := (behaviorCriterion_accepts_iff hE).1 hbehavior
    exact ⟨x, hx, rfl, fun p hp => (htype p hp).1, hpattern, hline, hparameters, hfurther⟩
  · rintro ⟨x, hx, rfl, h⟩
    obtain ⟨hc, hname⟩ := exists_acceptsBehavior.2
      ⟨x, hx, rfl, (behaviorCriterion_accepts_iff hE).2 ⟨h.name, h.unnamed, h.parameters⟩⟩
    exact ⟨hc, fun p hp => ⟨h.type p hp, hc⟩, hname, h.further⟩

/-- The built matcher chooses the signature codes of the behaviors that meet all that was asked for. -/
def Fulfils (E : RegexEngine) (calls : List Call) (t : StructuralType) : Prop :=
  ∃ s, (ofCalls E calls).build.choose t = .ok s ∧
    s.signCodes.Sublist (StructuralType.distinct (t.behaviors.map Behavior.signCode)) ∧
    ∀ c, c ∈ s.signCodes ↔ ∃ x ∈ t.behaviors, x.signCode = c ∧ Meets calls t x

/-- If the engine keeps to its manual and no criterion fails, the built matcher chooses the signature codes of
the behaviors that it accepts, in the order of the type. It chooses all that was asked for if the last parameter
types were given behind the last pattern for behaviors and, where there are parameter types without a pattern,
no name has a line feed. -/
theorem build_selects (hE : E.Documented) (calls : List Call) (t : StructuralType)
    (heval : ∀ m ∈ calls.filterMap Call.criterion?, ∃ s, m.choose t = .ok s) :
    (∃ s, (ofCalls E calls).build.choose t = .ok s ∧
      s.signCodes.Sublist (StructuralType.distinct (t.behaviors.map Behavior.signCode)) ∧
      ∀ c, c ∈ s.signCodes ↔ ∃ x ∈ t.behaviors, x.signCode = c ∧ Accepts calls t x) ∧
    (parametersInForce calls = last Call.parameters? calls →
      (last Call.behaviorPattern? calls = none → (last Call.parameters? calls).isSome = true →
        ∀ x ∈ t.behaviors, '\n' ∉ x.name.toList) → Fulfils E calls t) := by
  have hcriteria : ∀ m ∈ (ofCalls E calls).criteria, ∃ s, m.choose t = .ok s :=
    forall_mem_criteria.2 ⟨fun _ _ => ⟨_, rfl⟩, fun _ _ _ => ⟨_, rfl⟩, heval⟩
  obtain ⟨s, hs, hsub, hcodes⟩ := choose_build hcriteria
  have haccepts (c : String) := (hcodes c).trans (criteria_choose_iff hE)
  refine ⟨⟨s, hs, hsub, haccepts⟩, fun hlast hline => ⟨s, hs, hsub, fun c => (haccepts c).trans ?_⟩⟩
  refine exists_congr fun x => and_congr_right fun hx => and_congr_right fun _ =>
    ⟨fun h => ⟨h.type, h.name, hlast ▸ h.parameters, h.further⟩, fun h => ?_⟩
  exact ⟨h.type, h.name, fun hnone hsome => hline hnone (hlast ▸ hsome) x hx,
    hlast.symm ▸ h.parameters, h.further⟩

/-- A type with overloads, and with a method that has a line feed in its name. -/
def overloads : StructuralType where
  javaName := "demo.Sample"
  superName := some "demo.Base"
  interfaces := []
  access := 0
  annotations := []
  behaviors :=
    [{ declaringType := "demo.Sample", name := "compute", descriptor := "(I)I", access := 0,
       parameters := ["int"], returns := "int", annotations := ["demo.Timed"] },
     { declaringType := "demo.Sample", name := "compute", descriptor := "(JJ)J", access := 0,
       parameters := ["long", "long"], returns := "long", annotations := ["demo.Timed"] },
     { declaringType := "demo.Sample", name := "a\nb", descriptor := "(I)I", access := 0,
       parameters := ["int"], returns := "int" }]
  boundary := .application 1

/-- Patterns that replace each other, and parameter types behind the last one. -/
def replacing : List Call :=
  [.onBehavior (.exact "a"), .includeSubtypes, .withParameters [],
    .behaviorAnnotated (.ofWildcard Regex.engine "*.Timed"), .onType (.ofWildcard Regex.engine "demo.B?se"),
    .onBehavior (.ofWildcard Regex.engine "comp*"), .withParameters ["int"]]

theorem build_selects_replacing :
    Regex.engine.Documented ∧ (∀ m ∈ replacing.filterMap Call.criterion?, ∃ s, m.choose overloads = .ok s) ∧
      parametersInForce replacing = last Call.parameters? replacing ∧
      last Call.behaviorPattern? replacing ≠ none ∧ Fulfils Regex.engine replacing overloads ∧
      ((ofCalls Regex.engine replacing).build.choose overloads).toOption.any
        (fun s => s.signCodes = ["demo.Sample#compute(int)"]) := by
  have heval : ∀ m ∈ replacing.filterMap Call.criterion?, ∃ s, m.choose overloads = .ok s := by
    intro m hm
    cases List.mem_singleton.1 hm
    exact ⟨_, rfl⟩
  have hlast : parametersInForce replacing = last Call.parameters? replacing := by decide
  have hname : last Call.behaviorPattern? replacing ≠ none := by decide
  refine ⟨Regex.engine_documented, heval, hlast, hname, ?_, by decide +kernel⟩
  exact (build_selects Regex.engine_documented replacing overloads heval).2 hlast fun hnone => absurd hnone hname

/-- Parameter types before the pattern for behaviors. -/
def tooEarly : List Call :=
  [.withParameters ["int"], .onBehavior (.ofWildcard Regex.engine "compute")]

/-- A pattern for behaviors drops the parameter types that were given before it; and parameter types alone
leave out a behavior with a line feed in its name. -/
theorem build_not_fulfils :
    ¬ Fulfils Regex.engine tooEarly overloads ∧
      ¬ Fulfils Regex.engine [.withParameters ["int"]] overloads := by
  constructor
  · rintro ⟨s, hs, -, hcodes⟩
    have hchosen : ((ofCalls Regex.engine tooEarly).build.choose overloads).toOption.any
        (fun s => s.signCodes.contains "demo.Sample#compute(long,long)") := by decide +kernel
    obtain ⟨s', hs', hmem⟩ := any_toOption.1 hchosen
    cases hs.symm.trans hs'
    obtain ⟨x, hx, hcode, hmeets⟩ := (hcodes _).1 (List.contains_iff_mem.1 hmem)
    have hother : ∀ x ∈ overloads.behaviors, x.signCode = "demo.Sample#compute(long,long)" →
        x.parameters ≠ ["int"] := by decide +kernel
    exact hother x hx hcode (hmeets.parameters _ rfl)
  · rintro ⟨s, hs, -, hcodes⟩
    have hleft : ((ofCalls Regex.engine [.withParameters ["int"]]).build.choose overloads).toOption.any
        (fun s => !s.signCodes.contains "demo.Sample#a\nb(int)") := by decide +kernel
    obtain ⟨s', hs', hmem⟩ := any_toOption.1 hleft
    cases hs.symm.trans hs'
    have hmeets : ∃ x ∈ overloads.behaviors, x.signCode = "demo.Sample#a\nb(int)" ∧
        Meets [.withParameters ["int"]] overloads x :=
      ⟨_, .tail _ (.tail _ (.head _)), by decide +kernel, ⟨nofun, nofun, fun _ h => Option.some.inj h, nofun⟩⟩
    rw [List.contains_iff_mem.2 ((hcodes _).2 hmeets)] at hmem
    cases hmem

end MatcherBuilder

end Interpose
