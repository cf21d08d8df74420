import Mathlib.Algebra.BigOperators.Group.List.Basic
import Mathlib.Data.Prod.Lex
import Mathlib.Data.String.Basic
import Interpose.Proofs.Tables
import Interpose.Proofs.Transform.History
/-!
# What a record was made of

Statistics grow in two ways, by the methods of one class and by all that another statistic holds. However
they grow, no class is held twice and the codes of a class ascend (`Affected.Proper`), so statistics of the
same codes differ in nothing but the order of their classes. A report sorts the classes, and with that it
tells the same of all histories that mention the same codes.

Classes are told apart by the scope that loads them, reports by the name of the scope. The names are all
different (`Boundary.name_injective`), which keeps the classes of two scopes apart in reports too.

A history does not return if it merges a statistic that holds a class into itself, and only then.

Results:
* `Affected.report_congr`: statistics that hold the same make the same report, whatever their order is.
* `Affected.report_tells`: the numbers and lines of a report agree with each other and with the statistic.
* `Statistics.Reflects.apply`: one call, and what it adds to what was mentioned.
* `reports_recorded`: what any history leaves, and when it returns.
* `after_selfMerging`: one that does not.
-/

namespace Interpose

/-! ## Names of scopes -/

theorem digitChar_injective {m n : Nat} (hm : m < 16) (hn : n < 16) (h : m.digitChar = n.digitChar) :
    m = n := by
  have hinj : ∀ m n : Fin 16, m.1.digitChar = n.1.digitChar → m = n := by decide
  exact Fin.mk.inj (hinj ⟨m, hm⟩ ⟨n, hn⟩ h)

theorem toDigits_injective {m n : Nat} (h : Nat.toDigits 16 m = Nat.toDigits 16 n) : m = n := by
  induction m using Nat.strongRecOn generalizing n with
  | ind m ih =>
    rw [Nat.toDigits_eq_if (by decide), Nat.toDigits_eq_if (n := n) (by decide)] at h
    have longer (k d : Nat) : Nat.toDigits 16 k ++ [d.digitChar] ≠ [m.digitChar] ∧
        Nat.toDigits 16 k ++ [d.digitChar] ≠ [n.digitChar] := by
      simp [List.append_eq_singleton_iff]
    split at h <;> split at h
    case isTrue.isTrue hm hn => exact digitChar_injective hm hn (List.singleton_inj.1 h)
    case isTrue.isFalse => exact absurd h.symm (longer _ _).1
    case isFalse.isTrue => exact absurd h (longer _ _).2
    case isFalse.isFalse hm hn =>
      obtain ⟨hinit, hlast⟩ := List.append_inj' h rfl
      have hdiv := ih (m / 16) (by omega) hinit
      have hmod := digitChar_injective (Nat.mod_lt m (by decide)) (Nat.mod_lt n (by decide))
        (List.singleton_inj.1 hlast)
      omega

theorem hexDigits_injective {m n : Nat} (h : hexDigits m = hexDigits n) : m = n :=
  toDigits_injective (String.ofList_injective h)

/-- Scopes of one name are one scope. -/
theorem Boundary.name_injective {b c : Boundary} (h : b.name = c.name) : b = c := by
  have hhead := congrArg (·.toList.head?) h
  cases b with
  | bootstrap =>
    cases c with
    | bootstrap => rfl
    | engine t => simp [name] at hhead
    | application j => simp [name] at hhead
  | engine s =>
    cases c with
    | bootstrap => simp [name] at hhead
    | engine t =>
      rw [name, name] at h
      exact congrArg engine (String.append_right_inj _ |>.1 h)
    | application j => simp [name] at hhead
  | application i =>
    cases c with
    | bootstrap => simp [name] at hhead
    | engine t => simp [name] at hhead
    | application j =>
      rw [name, name] at h
      have hnat := hexDigits_injective ((String.append_right_inj _).1 h)
      exact congrArg (application ·.toInt32) (UInt32.toNat_inj.1 hnat)

/-! ## Both orders -/

theorem ClassReport.upTo_iff {a b : ClassReport} :
    a.upTo b ↔ toLex (a.scope, a.className) ≤ toLex (b.scope, b.className) := by
  simp only [upTo, Bool.or_eq_true, Bool.and_eq_true, decide_eq_true_eq, beq_iff_eq,
    Prod.Lex.toLex_le_toLex]

theorem pairwise_insertName {name : String} {names : List String} (h : names.Pairwise (· < ·)) :
    (insertName name names).Pairwise (· < ·) := by
  induction names with
  | nil => exact List.pairwise_singleton ..
  | cons n names ih =>
    obtain ⟨hn, hnames⟩ := List.pairwise_cons.1 h
    unfold insertName
    split
    case isTrue => exact h
    case isFalse hne =>
      split
      case isTrue hlt => exact h.cons (List.forall_mem_cons.2 ⟨hlt, fun x hx => hlt.trans (hn x hx)⟩)
      case isFalse hge =>
        refine (ih hnames).cons fun x hx => ?_
        obtain rfl | hx := (mem_insertName name x names).1 hx
        · exact lt_of_le_of_ne (not_lt.1 hge) (Ne.symm hne)
        · exact hn x hx

theorem pairwise_foldl_insertName (names : List String) {sorted : List String}
    (h : sorted.Pairwise (· < ·)) :
    (names.foldl (fun set n => insertName n set) sorted).Pairwise (· < ·) := by
  induction names generalizing sorted with
  | nil => exact h
  | cons n names ih => exact ih (pairwise_insertName h)

/-- Ascending lists of the same names are the same. -/
theorem eq_of_ascending {names others : List String} (h : names.Pairwise (· < ·))
    (h' : others.Pairwise (· < ·)) (hmem : ∀ x, x ∈ names ↔ x ∈ others) : names = others :=
  ((List.perm_ext_iff_of_nodup h.nodup h'.nodup).2 hmem).eq_of_pairwise
    (fun _ _ _ _ hlt hgt => absurd hlt hgt.asymm) h h'

/-! ## Statistics -/

namespace Affected

variable {a b : Affected} {c d : LoadedClass} {codes : List String} {order : Iteration}

/-- No class is held twice, and the codes of each ascend. -/
structure Proper (a : Affected) : Prop where
  classes : a.classes.keys.Nodup
  codes : ∀ c held, a.classes.find? c = some held → held.Pairwise (· < ·)

/-- No class is held without a code. -/
def Full (a : Affected) : Prop :=
  ∀ c held, a.classes.find? c = some held → held ≠ []

theorem Proper.pairwise_codes (h : a.Proper) (c : LoadedClass) : (a.codes c).Pairwise (· < ·) := by
  unfold Affected.codes
  cases hfound : a.classes.find? c with
  | none => exact .nil
  | some held => exact h.codes c held hfound

theorem Proper.empty : ({} : Affected).Proper where
  classes := .nil
  codes _ _ h := nomatch h

theorem Proper.record (h : a.Proper) : (a.record c codes).Proper where
  classes := Table.nodup_keys_insertBy h.classes
  codes d held hfound := by
    rw [Affected.record, Table.find?_put] at hfound
    split at hfound
    · obtain rfl := Option.some.inj hfound
      exact pairwise_foldl_insertName codes (h.pairwise_codes c)
    · exact h.codes d held hfound

theorem Full.record (h : a.Full) (hcodes : codes ≠ []) : (a.record c codes).Full := by
  intro d held hfound
  by_cases hd : d = c
  · subst hd
    obtain ⟨held', hheld, hmem⟩ := (a.record_gains d codes).here
    obtain rfl := Option.some.inj (hfound.symm.trans hheld)
    obtain ⟨x, hx⟩ := List.exists_mem_of_ne_nil codes hcodes
    exact List.ne_nil_of_mem ((hmem x).2 (.inr hx))
  · rw [(a.record_gains c codes).elsewhere d hd] at hfound
    exact h d held hfound

def recordAll (a : Affected) (es : List (LoadedClass × List String)) : Affected :=
  es.foldl (fun a (c, codes) => a.record c codes) a

theorem merge_eq (order : Iteration) (a b : Affected) :
    a.merge order b = a.recordAll (order.visit b.classes.entries) :=
  rfl

theorem Proper.recordAll (h : a.Proper) (es : List (LoadedClass × List String)) :
    (a.recordAll es).Proper := by
  induction es generalizing a with
  | nil => exact h
  | cons e es ih => exact ih h.record

theorem Full.recordAll (h : a.Full) {es : List (LoadedClass × List String)} (hes : ∀ e ∈ es, e.2 ≠ []) :
    (a.recordAll es).Full := by
  induction es generalizing a with
  | nil => exact h
  | cons e es ih =>
    obtain ⟨he, hes⟩ := List.forall_mem_cons.1 hes
    exact ih (h.record he) hes

theorem mem_codes_recordAll {x : String} (es : List (LoadedClass × List String)) :
    x ∈ (a.recordAll es).codes c ↔ x ∈ a.codes c ∨ ∃ e ∈ es, e.1 = c ∧ x ∈ e.2 := by
  induction es generalizing a with
  | nil => simp [recordAll]
  | cons e es ih =>
    rw [recordAll, List.foldl_cons, ← recordAll, ih, (a.record_gains e.1 e.2).mem_codes]
    simp [or_assoc]

theorem mem_codes {x : String} : x ∈ a.codes c ↔ ∃ held, a.classes.find? c = some held ∧ x ∈ held := by
  unfold codes
  cases a.classes.find? c <;> simp

/-- Going through a statistic comes by what it holds. -/
theorem Proper.mem_visit (h : a.Proper) (order : Iteration) :
    (c, codes) ∈ order.visit a.classes.entries ↔ a.classes.find? c = some codes := by
  rw [(order.perm _).mem_iff, Table.mem_entries h.classes]

theorem Full.merge (ha : a.Full) (hb : b.Full) (h : b.Proper) : (a.merge order b).Full :=
  ha.recordAll fun e he => hb e.1 e.2 ((h.mem_visit order).1 he)

/-- Merging adds the codes of the other statistic. -/
theorem mem_codes_merge {x : String} (h : b.Proper) :
    x ∈ (a.merge order b).codes c ↔ x ∈ a.codes c ∨ x ∈ b.codes c := by
  rw [merge_eq, mem_codes_recordAll, mem_codes (a := b)]
  refine or_congr_right ⟨?_, ?_⟩
  · rintro ⟨e, he, rfl, hx⟩
    exact ⟨e.2, (h.mem_visit order).1 he, hx⟩
  · rintro ⟨held, hheld, hx⟩
    exact ⟨(c, held), (h.mem_visit order).2 hheld, rfl, hx⟩

/-- Statistics of the same codes hold the same, if each class has one. -/
theorem Proper.find?_congr (ha : a.Proper) (hb : b.Proper) (fa : a.Full) (fb : b.Full)
    (h : ∀ c x, x ∈ a.codes c ↔ x ∈ b.codes c) (c : LoadedClass) :
    a.classes.find? c = b.classes.find? c := by
  have hc : a.codes c = b.codes c := eq_of_ascending (ha.pairwise_codes c) (hb.pairwise_codes c) (h c)
  unfold Affected.codes at hc
  cases hfa : a.classes.find? c with
  | none =>
    cases hfb : b.classes.find? c with
    | none => rfl
    | some held =>
      rw [hfa, hfb] at hc
      exact absurd hc.symm (fb c held hfb)
  | some held =>
    cases hfb : b.classes.find? c with
    | none =>
      rw [hfa, hfb] at hc
      exact absurd hc (fa c held hfa)
    | some held' =>
      rw [hfa, hfb] at hc
      exact congrArg some hc

end Affected

/-! ## Reports -/

/-- The sum of some weights is the sum over the groups of a key, each of the keys taken once. -/
theorem sum_groups {α κ : Type} [DecidableEq κ] (key : α → κ) (weight : α → Nat) {keys : List κ}
    (hkeys : keys.Nodup) (xs : List α) (covered : ∀ x ∈ xs, key x ∈ keys) :
    (keys.map fun k => ((xs.filter (key · = k)).map weight).sum).sum = (xs.map weight).sum := by
  induction xs with
  | nil => simp
  | cons x xs ih =>
    obtain ⟨hx, hxs⟩ := List.forall_mem_cons.1 covered
    have hgroup (k : κ) : (((x :: xs).filter (key · = k)).map weight).sum =
        (if k = key x then weight x else 0) + ((xs.filter (key · = k)).map weight).sum := by
      by_cases hk : key x = k
      · simp [hk]
      · simp [hk, Ne.symm hk]
    simp only [hgroup, List.sum_map_add, ih hxs, List.map_cons, List.sum_cons]
    rw [List.sum_map_eq_nsmul_single (key x) _ fun k hk _ => if_neg hk, List.count_eq_one_of_mem hkeys hx,
      one_nsmul, if_pos rfl]

theorem foldl_add_eq_sum {α : Type} (weight : α → Nat) (xs : List α) :
    xs.foldl (fun n x => n + weight x) 0 = (xs.map weight).sum := by
  rw [List.sum_eq_foldl, List.foldl_map]

theorem mem_sortedNames {x : String} {names : List String} : x ∈ sortedNames names ↔ x ∈ names := by
  simp [sortedNames, mem_foldl_insertName]

theorem pairwise_sortedNames (names : List String) : (sortedNames names).Pairwise (· < ·) :=
  pairwise_foldl_insertName names .nil

namespace Affected

def within (a : Affected) (b : Boundary) : List (LoadedClass × List String) :=
  a.classes.entries.filter (·.1.1 = b)

/-- What a report tells of a statistic. A line is about one class of one scope, and the line of a scope counts
the classes and codes of that scope alone, since scopes of one name are one scope. -/
structure Tells (a : Affected) (r : AffectedReport) : Prop where
  /-- The lines of the classes, each with all its codes. -/
  line : ∀ l, l ∈ r.classes ↔
    ∃ b : Boundary, l.scope = b.name ∧ a.classes.find? (b, l.className) = some l.behaviors
  ascending : r.classes.Pairwise fun l m =>
    l.scope < m.scope ∨ l.scope = m.scope ∧ l.className < m.className
  behaviors : ∀ l ∈ r.classes, l.behaviors.Pairwise (· < ·)
  /-- The lines of the scopes, one for each scope that has a class. -/
  scope : ∀ s, s ∈ r.scopes ↔ ∃ b, a.within b ≠ [] ∧
    s = ⟨b.name, (a.within b).length, ((a.within b).map (·.2.length)).sum⟩
  scopes_ascending : (r.scopes.map (·.scope)).Pairwise (· < ·)
  apart : ∀ b c : Boundary, b.name = c.name → b = c
  /-- A line of a scope counts the lines of its classes, and all of them add up. -/
  counts : ∀ s ∈ r.scopes, s.classes = (r.classes.filter (·.scope = s.scope)).length ∧
    s.methods = ((r.classes.filter (·.scope = s.scope)).map (·.behaviors.length)).sum
  scope_classes : (r.scopes.map (·.classes)).sum = r.classCount
  scope_methods : (r.scopes.map (·.methods)).sum = r.methodCount
  class_count : r.classCount = a.classCount
  method_count : ∀ order, r.methodCount = a.methodCount order

variable {a b : Affected} {order order' : Iteration}

/-- The lines are those of the entries. -/
theorem perm_reports (order : Iteration) (a : Affected) :
    (a.reports order).Perm (a.classes.entries.map .ofEntry) :=
  (List.mergeSort_perm ..).trans ((order.perm _).map _)

/-- Sorting leaves one order, since no two lines have the same scope and class. -/
theorem Proper.ascending_reports (h : a.Proper) (order : Iteration) : (a.reports order).Pairwise fun l m =>
    toLex (l.scope, l.className) < toLex (m.scope, m.className) := by
  have hsorted : (a.reports order).Pairwise (ClassReport.upTo · ·) := by
    refine List.pairwise_mergeSort (fun l m n hlm hmn => ?_) (fun l m => ?_) _
    · rw [ClassReport.upTo_iff] at hlm hmn ⊢
      exact hlm.trans hmn
    · rw [Bool.or_eq_true, ClassReport.upTo_iff, ClassReport.upTo_iff]
      exact le_total _ _
  have hkeys : ((a.reports order).map fun l => (l.scope, l.className)).Nodup := by
    refine ((perm_reports order a).map _).nodup_iff.2 ?_
    have hinj : (fun c : LoadedClass => (c.1.name, c.2)).Injective := fun c d hcd =>
      Prod.ext (Boundary.name_injective (Prod.mk.inj hcd).1) (Prod.mk.inj hcd).2
    have hentries := h.classes.map hinj
    rw [Table.keys, List.map_map] at hentries
    rwa [List.map_map]
  refine (hsorted.and (List.pairwise_map.1 hkeys)).imp fun {l m} hlm => ?_
  exact lt_of_le_of_ne (ClassReport.upTo_iff.1 hlm.1) fun e => hlm.2 (toLex_inj.1 e)

/-- Statistics that hold the same make the same report, in whatever order they are gone through. -/
theorem report_congr (ha : a.Proper) (hb : b.Proper)
    (h : ∀ c, a.classes.find? c = b.classes.find? c) : a.report order = b.report order' := by
  have hreports : a.reports order = b.reports order' := by
    have hperm : (a.reports order).Perm (b.reports order') :=
      (perm_reports order a).trans
        (((Table.perm_entries ha.classes hb.classes h).map _).trans (perm_reports order' b).symm)
    exact hperm.eq_of_pairwise (fun _ _ _ _ hlt hgt => absurd hlt hgt.asymm) (ha.ascending_reports order)
      (hb.ascending_reports order')
  rw [report, report, hreports]

theorem countOf_eq (rs : List ClassReport) (scope : String) : countOf rs scope =
    ⟨scope, (rs.filter (·.scope = scope)).length,
      ((rs.filter (·.scope = scope)).map (·.behaviors.length)).sum⟩ := by
  rw [countOf, foldl_add_eq_sum fun c : ClassReport => c.behaviors.length]

/-- The lines of a scope's name are those of the scope. -/
theorem filter_reports (order : Iteration) (a : Affected) (b : Boundary) :
    ((a.reports order).filter (·.scope = b.name)).Perm ((a.within b).map .ofEntry) := by
  refine ((perm_reports order a).filter _).trans (.of_eq ?_)
  rw [List.filter_map, within]
  refine congrArg _ (List.filter_congr fun e _ => ?_)
  exact decide_eq_decide.2 ⟨Boundary.name_injective, congrArg Boundary.name⟩

theorem countOf_name (order : Iteration) (a : Affected) (b : Boundary) : countOf (a.reports order) b.name =
    ⟨b.name, (a.within b).length, ((a.within b).map (·.2.length)).sum⟩ := by
  have hperm := filter_reports order a b
  rw [countOf_eq, hperm.length_eq, (hperm.map _).sum_eq, List.length_map, List.map_map]
  rfl

theorem mem_scopes {n : String} : n ∈ sortedNames ((a.reports order).map (·.scope)) ↔
    ∃ b : Boundary, n = b.name ∧ a.within b ≠ [] := by
  rw [mem_sortedNames, ((perm_reports order a).map _).mem_iff, List.map_map, List.mem_map]
  constructor
  · rintro ⟨e, he, rfl⟩
    exact ⟨e.1.1, rfl, List.ne_nil_of_mem (List.mem_filter.2 ⟨he, by simp⟩)⟩
  · rintro ⟨b, rfl, hb⟩
    obtain ⟨e, he⟩ := List.exists_mem_of_ne_nil _ hb
    obtain ⟨he, hscope⟩ := List.mem_filter.1 he
    exact ⟨e, he, congrArg Boundary.name (by simpa using hscope)⟩

/-- A report tells what is recorded, and its numbers agree. -/
theorem report_tells (h : a.Proper) (order : Iteration) : a.Tells (a.report order) where
  line l := by
    have hentry := fun b => Table.mem_entries (k := (b, l.className)) (v := l.behaviors) h.classes
    simp only [report, (perm_reports order a).mem_iff, List.mem_map, ← hentry]
    constructor
    · rintro ⟨e, he, rfl⟩
      exact ⟨e.1.1, rfl, he⟩
    · rintro ⟨b, hb, he⟩
      exact ⟨_, he, by rw [ClassReport.ofEntry, ← hb]⟩
  ascending := (h.ascending_reports order).imp fun hless => Prod.Lex.toLex_lt_toLex.1 hless
  behaviors l hl := by
    obtain ⟨e, he, rfl⟩ := List.mem_map.1 ((perm_reports order a).mem_iff.1 hl)
    exact h.codes e.1 e.2 ((Table.mem_entries h.classes).1 he)
  scope s := by
    simp only [report, List.mem_map, mem_scopes]
    constructor
    · rintro ⟨n, ⟨b, rfl, hb⟩, rfl⟩
      exact ⟨b, hb, countOf_name order a b⟩
    · rintro ⟨b, hb, rfl⟩
      exact ⟨b.name, ⟨b, rfl, hb⟩, countOf_name order a b⟩
  scopes_ascending := by
    rw [report, List.map_map]
    simpa only [Function.comp_def, countOf, List.map_id'] using pairwise_sortedNames _
  apart _ _ := Boundary.name_injective
  counts s hs := by
    obtain ⟨n, -, rfl⟩ := List.mem_map.1 hs
    rw [countOf_eq]
    exact ⟨rfl, rfl⟩
  scope_classes := by
    have covered : ∀ l ∈ a.reports order, l.scope ∈ sortedNames ((a.reports order).map (·.scope)) :=
      fun l hl => mem_sortedNames.2 (List.mem_map_of_mem hl)
    have hsum := sum_groups ClassReport.scope (fun _ => 1) (pairwise_sortedNames _).nodup (a.reports order)
      covered
    simpa [report, countOf_eq, Function.comp_def, AffectedReport.classCount] using hsum
  scope_methods := by
    have covered : ∀ l ∈ a.reports order, l.scope ∈ sortedNames ((a.reports order).map (·.scope)) :=
      fun l hl => mem_sortedNames.2 (List.mem_map_of_mem hl)
    have hsum := sum_groups ClassReport.scope (·.behaviors.length) (pairwise_sortedNames _).nodup
      (a.reports order) covered
    rw [AffectedReport.methodCount, foldl_add_eq_sum fun c : ClassReport => c.behaviors.length]
    simpa only [report, List.map_map, Function.comp_def, countOf_eq] using hsum
  class_count := (perm_reports order a).length_eq.trans (List.length_map ..)
  method_count order' := by
    rw [AffectedReport.methodCount, methodCount, foldl_add_eq_sum fun c : ClassReport => c.behaviors.length,
      foldl_add_eq_sum fun e : LoadedClass × List String => e.2.length, report,
      ((perm_reports order a).map _).sum_eq, ((order'.perm _).map _).sum_eq, List.map_map]
    rfl

end Affected

/-! ## Histories -/

/-- A call that makes a statistic grow. A merge comes with the order in which it goes through the other. -/
inductive StatisticCall where
  | record (name : String) (c : LoadedClass) (codes : List String)
  | merge (into source : String) (order : Iteration)

/-- What was mentioned so far: which codes of which classes, for each statistic. -/
abbrev Mentioned := String → LoadedClass → String → Prop

namespace StatisticCall

def apply (s : Statistics) : StatisticCall → Option Statistics
  | record name c codes => some (s.record name c codes)
  | merge into source order => s.merge order into source

/-- What was mentioned once the call was made. -/
def mention (m : Mentioned) : StatisticCall → Mentioned
  | record name d codes, n, c, x => m n c x ∨ (n = name ∧ c = d ∧ x ∈ codes)
  | merge into source _, n, c, x => m n c x ∨ (n = into ∧ m source c x)

end StatisticCall

/-- The statistics after calls, if all of them return. -/
def Statistics.after (calls : List StatisticCall) : Option Statistics :=
  calls.foldlM StatisticCall.apply {}

/-- What calls record in a statistic, or in others before they are merged into it. -/
def Mentions (calls : List StatisticCall) : Mentioned :=
  calls.foldl StatisticCall.mention fun _ _ _ => False

def RecordsCodes (calls : List StatisticCall) : Prop :=
  ∀ name c codes, .record name c codes ∈ calls → codes ≠ []

/-- At some time a statistic that holds a class is merged into itself. -/
def SelfMerging (calls : List StatisticCall) : Prop :=
  ∃ before name order rest s, calls = before ++ .merge name name order :: rest ∧
    Statistics.after before = some s ∧ (s.named name).classCount ≠ 0

variable {calls : List StatisticCall} {call : StatisticCall} {s s' : Statistics} {m : Mentioned}
  {into source name : String} {order : Iteration}

namespace Statistics

theorem named_record {c : LoadedClass} {codes : List String} (n : String) :
    (s.record name c codes).named n = if n = name then (s.named name).record c codes else s.named n := by
  rw [named, record, Table.find?_insert]
  split
  · rfl
  · rfl

/-- Merging a statistic into another one changes that one alone. -/
theorem merge_of_ne (s : Statistics) (order : Iteration) (h : into ≠ source) : ∃ s', s.merge order into source = some s' ∧
    ∀ n, s'.named n = if n = into then (s.named into).merge order (s.named source) else s.named n := by
  rw [merge, Affected.merge]
  generalize order.visit (s.named source).classes.entries = es
  induction es generalizing s with
  | nil => exact ⟨s, rfl, fun n => by split <;> simp_all⟩
  | cons e es ih =>
    obtain ⟨s', hs', hnamed⟩ := ih (s := s.record into e.1 e.2)
    refine ⟨s', ?_, fun n => ?_⟩
    · rw [List.foldlM_cons, recordFrom, if_neg h]
      exact hs'
    · rw [hnamed, named_record, named_record, if_pos rfl]
      split
      · rfl
      · rfl

/-- Merging a statistic into itself returns only if there is nothing to record. -/
theorem merge_self : s.merge order name name = if (s.named name).classCount = 0 then some s else none := by
  have hlen := (order.perm (s.named name).classes.entries).length_eq
  rw [merge, Affected.classCount, Table.size, ← hlen]
  cases order.visit (s.named name).classes.entries with
  | nil => rfl
  | cons e es =>
    rw [List.foldlM_cons, recordFrom, if_pos rfl]
    rfl

/-- The statistics hold what was mentioned. -/
structure Reflects (s : Statistics) (m : Mentioned) : Prop where
  proper : ∀ n, (s.named n).Proper
  codes : ∀ n c x, x ∈ (s.named n).codes c ↔ m n c x

theorem Reflects.empty : Reflects {} fun _ _ _ => False where
  proper _ := .empty
  codes _ _ _ := iff_of_false List.not_mem_nil id

/-- A call that returns leaves what it mentions. -/
theorem Reflects.apply (h : s.Reflects m) (hcall : call.apply s = some s') :
    s'.Reflects (call.mention m) := by
  cases call with
  | record name d codes =>
    cases hcall
    constructor
    · intro n
      rw [named_record]
      split
      · exact (h.proper name).record
      · exact h.proper n
    · intro n c x
      rw [named_record, StatisticCall.mention, ← h.codes]
      split
      · rename_i hn
        rw [((s.named name).record_gains d codes).mem_codes, hn]
        simp [eq_comm]
      · rename_i hn
        simp [hn]
  | merge into source order =>
    rw [StatisticCall.apply] at hcall
    by_cases hself : into = source
    · subst hself
      rw [merge_self] at hcall
      split at hcall
      · cases hcall
        refine ⟨h.proper, fun n c x => ?_⟩
        rw [StatisticCall.mention, h.codes]
        refine ⟨.inl, ?_⟩
        rintro (hm | ⟨rfl, hm⟩)
        · exact hm
        · exact hm
      · cases hcall
    · obtain ⟨s'', hs'', hnamed⟩ := merge_of_ne s order hself
      cases hs''.symm.trans hcall
      constructor
      · intro n
        rw [hnamed]
        split
        · exact (h.proper into).recordAll _
        · exact h.proper n
      · intro n c x
        rw [hnamed, StatisticCall.mention, ← h.codes, ← h.codes]
        split
        · rename_i hn
          rw [Affected.mem_codes_merge (h.proper source), hn]
          simp
        · rename_i hn
          simp [hn]

/-- Without empty lists of codes no class is held without a code. -/
theorem full_apply (hproper : ∀ n, (s.named n).Proper) (hfull : ∀ n, (s.named n).Full)
    (hcodes : ∀ name c codes, call = .record name c codes → codes ≠ []) (hcall : call.apply s = some s')
    (n : String) : (s'.named n).Full := by
  cases call with
  | record name c codes =>
    cases hcall
    rw [named_record]
    split
    · exact (hfull name).record (hcodes name c codes rfl)
    · exact hfull n
  | merge into source order =>
    rw [StatisticCall.apply] at hcall
    by_cases hself : into = source
    · subst hself
      rw [merge_self] at hcall
      split at hcall
      · cases hcall
        exact hfull n
      · cases hcall
    · obtain ⟨s'', hs'', hnamed⟩ := merge_of_ne s order hself
      cases hs''.symm.trans hcall
      rw [hnamed]
      split
      · exact (hfull into).merge (hfull source) (hproper source)
      · exact hfull n

theorem apply_eq_none_iff : call.apply s = none ↔
    ∃ name order, call = .merge name name order ∧ (s.named name).classCount ≠ 0 := by
  cases call with
  | record name c codes => simp [StatisticCall.apply]
  | merge into source order =>
    rw [StatisticCall.apply]
    by_cases hself : into = source
    · subst hself
      rw [merge_self]
      simp
    · obtain ⟨s', hs', -⟩ := merge_of_ne s order hself
      simp only [hs', reduceCtorEq, StatisticCall.merge.injEq, false_iff]
      rintro ⟨name, _, ⟨rfl, rfl, -⟩, -⟩
      exact hself rfl

theorem after_concat : after (calls ++ [call]) = (after calls).bind (StatisticCall.apply · call) := by
  rw [after, List.foldlM_append, ← after]
  cases after calls with
  | none => rfl
  | some s => exact bind_pure (StatisticCall.apply s call)

theorem selfMerging_concat : SelfMerging (calls ++ [call]) ↔
    SelfMerging calls ∨ ∃ s, after calls = some s ∧ call.apply s = none := by
  simp only [apply_eq_none_iff]
  constructor
  · rintro ⟨before, name, order, rest, s, hcalls, hs, hheld⟩
    obtain rfl | ⟨rest, last, rfl⟩ := rest.eq_nil_or_concat
    · obtain ⟨rfl, hlast⟩ := List.append_inj' hcalls rfl
      exact .inr ⟨s, hs, name, order, List.singleton_inj.1 hlast, hheld⟩
    · rw [List.concat_eq_append, ← List.cons_append, ← List.append_assoc] at hcalls
      exact .inl ⟨before, name, order, rest, s, (List.append_inj' hcalls rfl).1, hs, hheld⟩
  · rintro (⟨before, name, order, rest, s, rfl, hs, hheld⟩ | ⟨s, hs, name, order, rfl, hheld⟩)
    · exact ⟨before, name, order, rest ++ [call], s, by simp, hs, hheld⟩
    · exact ⟨calls, name, order, [], s, rfl, hs, hheld⟩

/-- A history returns unless it merges a statistic that holds a class into itself. -/
theorem after_eq_none_iff : after calls = none ↔ SelfMerging calls := by
  induction calls using List.reverseRecOn with
  | nil =>
    refine iff_of_false nofun ?_
    rintro ⟨before, _, _, _, _, h, -⟩
    exact List.append_ne_nil_of_right_ne_nil before (List.cons_ne_nil _ _) h.symm
  | append_singleton calls call ih =>
    rw [after_concat, selfMerging_concat, ← ih]
    cases after calls <;> simp

theorem reflects_after (h : after calls = some s) : s.Reflects (Mentions calls) := by
  induction calls using List.reverseRecOn generalizing s with
  | nil =>
    cases h
    exact .empty
  | append_singleton calls call ih =>
    rw [after_concat] at h
    obtain ⟨s', hs', hcall⟩ := Option.bind_eq_some_iff.1 h
    rw [Mentions, List.foldl_append]
    exact (ih hs').apply hcall

theorem full_after (hcodes : RecordsCodes calls) (h : after calls = some s) (n : String) :
    (s.named n).Full := by
  induction calls using List.reverseRecOn generalizing s n with
  | nil =>
    cases h
    exact fun _ _ h => nomatch h
  | append_singleton calls call ih =>
    rw [after_concat] at h
    obtain ⟨s', hs', hcall⟩ := Option.bind_eq_some_iff.1 h
    refine full_apply (reflects_after hs').proper (ih (fun name c codes hmem => ?_) hs') ?_ hcall n
    · exact hcodes name c codes (List.mem_append_left _ hmem)
    · rintro name c codes rfl
      exact hcodes name c codes (List.mem_append_right _ (List.mem_singleton.2 rfl))

end Statistics

/-- Statistics depend on nothing but what was recorded. A history returns unless it merges a statistic that
holds a class into itself. Whatever it leaves, in whatever order the classes are gone through, a report tells
what the statistic holds and that is what was mentioned for it; and statistics of two histories for which the
same codes of the same classes were mentioned make the same report, if no class was recorded without a code. -/
theorem reports_recorded (calls : List StatisticCall) :
    (Statistics.after calls = none ↔ SelfMerging calls) ∧
      ∀ s, Statistics.after calls = some s → ∀ name order,
        (s.named name).Tells ((s.named name).report order) ∧
        (∀ c x, Mentions calls name c x ↔ ∃ l ∈ ((s.named name).report order).classes,
          l.scope = c.1.name ∧ l.className = c.2 ∧ x ∈ l.behaviors) ∧
        ∀ calls' s' name' order', RecordsCodes calls → RecordsCodes calls' →
          Statistics.after calls' = some s' → (∀ c x, Mentions calls name c x ↔ Mentions calls' name' c x) →
          (s.named name).report order = (s'.named name').report order' := by
  refine ⟨Statistics.after_eq_none_iff, fun s hs name order => ?_⟩
  have hreflects := Statistics.reflects_after hs
  have hproper := hreflects.proper name
  have tells := Affected.report_tells hproper order
  refine ⟨tells, fun c x => ?_, fun calls' s' name' order' hcodes hcodes' hs' same => ?_⟩
  · rw [← hreflects.codes, Affected.mem_codes]
    constructor
    · rintro ⟨held, hheld, hx⟩
      exact ⟨⟨c.1.name, c.2, held⟩, (tells.line _).2 ⟨c.1, rfl, hheld⟩, rfl, rfl, hx⟩
    · rintro ⟨l, hl, hscope, hclass, hx⟩
      obtain ⟨b, hb, hfound⟩ := (tells.line l).1 hl
      obtain rfl : b = c.1 := Boundary.name_injective (hb.symm.trans hscope)
      rw [hclass] at hfound
      exact ⟨_, hfound, hx⟩
  · have hreflects' := Statistics.reflects_after hs'
    refine Affected.report_congr hproper (hreflects'.proper name') (hproper.find?_congr
      (hreflects'.proper name') (Statistics.full_after hcodes hs name)
      (Statistics.full_after hcodes' hs' name') fun c x => ?_)
    rw [hreflects.codes, hreflects'.codes, same]

/-- Two classes of one name and a third one, recorded class by class. -/
def classByClass : List StatisticCall :=
  [.record "a" (.application (-1), "A") ["m()V", "n()V"], .record "a" (.engine "x", "B") ["k()V"],
    .record "a" (.bootstrap, "A") ["m()V"]]

def backwards : Iteration where
  visit entries := entries.reverse
  perm entries := entries.reverse_perm

/-- The same in other portions and through other statistics, some of it twice. -/
def inPortions : List StatisticCall :=
  [.record "b" (.engine "x", "B") ["k()V", "k()V"], .record "c" (.application (-1), "A") ["n()V", "m()V"],
    .merge "b" "c" .asHeld, .record "d" (.bootstrap, "A") ["m()V"],
    .record "d" (.application (-1), "A") ["n()V"], .merge "d" "b" backwards, .merge "e" "e" .asHeld]

theorem reports_recorded_portions :
    RecordsCodes classByClass ∧ RecordsCodes inPortions ∧
      (∀ c x, Mentions classByClass "a" c x ↔ Mentions inPortions "d" c x) ∧
      ∃ s s', Statistics.after classByClass = some s ∧ Statistics.after inPortions = some s' ∧
        (s.named "a").report .asHeld = (s'.named "d").report backwards ∧
        ((s.named "a").report .asHeld).classCount = 3 ∧ ((s.named "a").report .asHeld).methodCount = 4 := by
  have hcodes : RecordsCodes classByClass := by
    rintro name c codes hmem rfl
    simp [classByClass] at hmem
  have hcodes' : RecordsCodes inPortions := by
    rintro name c codes hmem rfl
    simp [inPortions] at hmem
  have same (c : LoadedClass) (x : String) :
      Mentions classByClass "a" c x ↔ Mentions inPortions "d" c x := by
    simp [classByClass, inPortions, Mentions, StatisticCall.mention]
    tauto
  have hafter : (Statistics.after classByClass).any fun s =>
      (s.named "a").classCount = 3 ∧ (s.named "a").methodCount .asHeld = 4 := by decide +kernel
  have hafter' : (Statistics.after inPortions).isSome := by decide +kernel
  obtain ⟨s, hs, hcounts⟩ := (Option.any_eq_true _ _).1 hafter
  obtain ⟨s', hs'⟩ := Option.isSome_iff_exists.1 hafter'
  obtain ⟨hclasses, hmethods⟩ := of_decide_eq_true hcounts
  obtain ⟨tells, -, hsame⟩ := (reports_recorded classByClass).2 s hs "a" .asHeld
  refine ⟨hcodes, hcodes', same, s, s', hs, hs', hsame _ _ _ backwards hcodes hcodes' hs' same, ?_, ?_⟩
  · rw [tells.class_count, hclasses]
  · rw [tells.method_count .asHeld, hmethods]

def recordedOnce : List StatisticCall :=
  [.record "a" (.application 1, "demo.A") ["demo.A#f()"]]

/-- Merging a statistic into itself mentions nothing new, and does not return. -/
theorem after_selfMerging :
    RecordsCodes (recordedOnce ++ [.merge "a" "a" .asHeld]) ∧
      (∀ c x, Mentions recordedOnce "a" c x ↔ Mentions (recordedOnce ++ [.merge "a" "a" .asHeld]) "a" c x) ∧
      (Statistics.after recordedOnce).isSome ∧
      Statistics.after (recordedOnce ++ [.merge "a" "a" .asHeld]) = none := by
  refine ⟨?_, fun c x => ?_, rfl, rfl⟩
  · rintro name c codes hmem rfl
    simp [recordedOnce] at hmem
  · simp [recordedOnce, Mentions, StatisticCall.mention]

end Interpose
