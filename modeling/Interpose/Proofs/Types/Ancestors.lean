import Mathlib.Data.List.Chain
import Interpose.Proofs.Types.Grading
/-!
# The nearest common superclass

The chain of a class is found by following links upwards until there is no further link or the next
class is on the chain already. Which chain that is, `Climbs` says without a bound on the links followed.
Where no class is above itself, being below is an order with the root class on top, and two classes
have a least class above both.

Results:
* `climbs_iff`: for all links the climb from a class ends, and it comes to the chain of the class.
* `mem_ancestry_iff`: the chain lists the class itself and everything above it.
* `common_isNearest`: the common superclass is the least class above both.
* `Sound.common_comm`, `Sound.common_self`, `Sound.common_assoc`: the laws of a least upper bound.
* `ancestries_and_commons`: what holds of the links after any sequence of inserts.
-/

namespace Interpose.SuperclassLinks

open Relation

variable {l : SuperclassLinks} {a b c m x y current parent : String} {chain r : List String}

theorem Link.unique (h : l.Link c x) (h' : l.Link c y) : x = y :=
  Option.some.inj (h.symm.trans h')

/-- A class has the superclass that was inserted for it last. -/
theorem supers_ofList (pairs : List (String × String)) (c : String) :
    (ofList pairs).supers[c]? = (pairs.reverse.find? (·.1 = c)).map (·.2) := by
  induction pairs using List.reverseRecOn with
  | nil => rfl
  | append_singleton pairs p ih =>
    have hlast : ofList (pairs ++ [p]) = (ofList pairs).insert p.1 p.2 := by
      simp only [ofList, List.foldl_append, List.foldl_cons, List.foldl_nil]
    rw [hlast, List.reverse_concat, List.find?_cons]
    unfold insert
    rw [Std.TreeMap.getElem?_insert, ih]
    by_cases hp : p.1 = c
    · simp [hp]
    · simp [hp]

/-! ## The climb -/

/-- The chain (latest class first) that a climb from the current class comes to. -/
inductive Climbs (l : SuperclassLinks) : String → List String → List String → Prop
  | ends {current : String} {chain : List String} : l.supers[current]? = none →
    Climbs l current chain chain
  | closes {current parent : String} {chain : List String} : l.Link current parent →
    parent ∈ chain → Climbs l current chain chain
  | goesUp {current parent : String} {chain r : List String} : l.Link current parent →
    parent ∉ chain → Climbs l parent (parent :: chain) r → Climbs l current chain r

theorem Climbs.unique {r' : List String} (h : l.Climbs current chain r)
    (h' : l.Climbs current chain r') : r = r' := by
  induction h with
  | ends hnone =>
    cases h' with
    | ends => rfl
    | closes => rfl
    | goesUp hlink => exact absurd (hnone.symm.trans hlink) nofun
  | closes hlink hmem =>
    cases h' with
    | ends => rfl
    | closes => rfl
    | goesUp hlink' hout => exact absurd (hlink.unique hlink' ▸ hmem) hout
  | goesUp hlink hout _ ih =>
    cases h' with
    | ends hnone => exact absurd (hnone.symm.trans hlink) nofun
    | closes hlink' hmem => exact absurd (hlink'.unique hlink ▸ hmem) hout
    | goesUp hlink' _ hrest =>
      cases hlink.unique hlink'
      exact ih hrest

/-- Different classes of which each has a link are no more than there are links. -/
theorem length_le_size (hnodup : chain.Nodup) (hkeys : chain ⊆ l.supers.keys) :
    chain.length ≤ l.supers.size := by
  rw [← Std.TreeMap.length_keys]
  exact (hnodup.subperm hkeys).length_le

theorem Link.mem_keys (h : l.Link c x) : c ∈ l.supers.keys := by
  rw [Std.TreeMap.mem_keys, Std.TreeMap.mem_iff_isSome_getElem?, h]
  rfl

/-- A climb that may follow as many links as there are comes to its end: the classes behind the current
one are different, and each has a link. -/
theorem climbs_climb {limit : Nat} {older : List String} (hnodup : (current :: older).Nodup)
    (hkeys : older ⊆ l.supers.keys) (hlimit : l.supers.size ≤ limit + older.length) :
    l.Climbs current (current :: older) (l.climb limit current (current :: older)) := by
  induction limit generalizing current older with
  | zero =>
    cases hlink : l.supers[current]? with
    | none => exact .ends hlink
    | some parent =>
      have := length_le_size hnodup (List.cons_subset.2 ⟨Link.mem_keys hlink, hkeys⟩)
      rw [List.length_cons] at this
      omega
  | succ limit ih =>
    unfold climb
    split
    · exact .ends ‹_›
    · rename_i parent hlink
      split
      · exact .closes hlink ‹_›
      · rename_i hout
        refine .goesUp hlink hout (ih (List.nodup_cons.2 ⟨hout, hnodup⟩)
          (List.cons_subset.2 ⟨Link.mem_keys hlink, hkeys⟩) ?_)
        rw [List.length_cons]
        omega

theorem climbs_ancestry (l : SuperclassLinks) (c : String) :
    l.Climbs c [c] (l.ancestry c).reverse := by
  unfold ancestry
  rw [List.reverse_reverse]
  exact climbs_climb (List.nodup_singleton c) (List.nil_subset _) (by omega)

/-- For all links, with and without cycles, the climb from a class ends, and it comes to the chain of
the class. -/
theorem climbs_iff : l.Climbs c [c] r ↔ r.reverse = l.ancestry c := by
  refine ⟨fun h => ?_, fun h => ?_⟩
  · rw [h.unique (l.climbs_ancestry c), List.reverse_reverse]
  · rw [← r.reverse_reverse, h]
    exact l.climbs_ancestry c

/-! ## What is on a chain -/

namespace Climbs

theorem nodup (h : l.Climbs current chain r) (hchain : chain.Nodup) : r.Nodup := by
  induction h with
  | ends => exact hchain
  | closes => exact hchain
  | goesUp _ hout _ ih => exact ih (List.nodup_cons.2 ⟨hout, hchain⟩)

theorem suffix (h : l.Climbs current chain r) : chain <:+ r := by
  induction h with
  | ends => exact List.suffix_refl _
  | closes => exact List.suffix_refl _
  | goesUp _ _ _ ih => exact (List.suffix_cons _ _).trans ih

/-- Each class on the chain is followed by its superclass. -/
theorem isChain {older : List String} (h : l.Climbs current (current :: older) r)
    (hchain : (current :: older).IsChain (flip l.Link)) : r.IsChain (flip l.Link) := by
  generalize hall : current :: older = all at h hchain
  induction h generalizing older with
  | ends => exact hchain
  | closes => exact hchain
  | goesUp hlink _ _ ih =>
    subst hall
    exact ih rfl (List.isChain_cons_cons.2 ⟨hlink, hchain⟩)

/-- The chain goes on until it has the superclass of every class on it. -/
theorem closed (h : l.Climbs current chain r)
    (hchain : ∀ x ∈ chain, ∀ y, l.Link x y → x = current ∨ y ∈ chain) :
    ∀ x ∈ r, ∀ y, l.Link x y → y ∈ r := by
  induction h with
  | ends hnone =>
    intro x hx y hy
    rcases hchain x hx y hy with rfl | hmem
    · exact absurd (hnone.symm.trans hy) nofun
    · exact hmem
  | closes hlink hmem =>
    intro x hx y hy
    rcases hchain x hx y hy with rfl | hmem'
    · exact hlink.unique hy ▸ hmem
    · exact hmem'
  | goesUp hlink hout _ ih =>
    refine ih fun x hx y hy => ?_
    rcases List.mem_cons.1 hx with rfl | hx
    · exact .inl rfl
    · rcases hchain x hx y hy with rfl | hmem
      · exact .inr (hlink.unique hy ▸ List.mem_cons_self)
      · exact .inr (List.mem_cons_of_mem _ hmem)

end Climbs

theorem ancestry_nodup (l : SuperclassLinks) (c : String) : (l.ancestry c).Nodup :=
  List.nodup_reverse.1 ((l.climbs_ancestry c).nodup (List.nodup_singleton c))

theorem ancestry_head (l : SuperclassLinks) (c : String) : (l.ancestry c).head? = some c := by
  obtain ⟨newer, h⟩ := (l.climbs_ancestry c).suffix
  rw [← List.reverse_reverse (l.ancestry c), ← h, List.reverse_append]
  rfl

theorem ancestry_isChain (l : SuperclassLinks) (c : String) : (l.ancestry c).IsChain l.Link := by
  have h := (l.climbs_ancestry c).isChain (List.isChain_singleton c)
  rwa [List.isChain_reverse] at h

/-- The chain lists the class itself and everything above it. -/
theorem mem_ancestry_iff : x ∈ l.ancestry c ↔ ReflTransGen l.Link c x := by
  refine ⟨mem_ancestry, fun h => ?_⟩
  induction h with
  | refl => exact List.mem_of_mem_head? (l.ancestry_head c)
  | tail _ hlink ih =>
    refine List.mem_reverse.1 ((l.climbs_ancestry c).closed (fun x hx y _ => ?_) _
      (List.mem_reverse.2 ih) _ hlink)
    exact .inl (List.mem_singleton.1 hx)

/-- What stands later on the chain is above what stands earlier. -/
theorem ancestry_pairwise (l : SuperclassLinks) (c : String) :
    (l.ancestry c).Pairwise (ReflTransGen l.Link) :=
  ((l.ancestry_isChain c).imp fun _ _ h => .single h).pairwise

/-! ## The order -/

/-- The second class is the first one, one of its ancestors, or the root class. -/
def Below (l : SuperclassLinks) (x y : String) : Prop :=
  y = objectClass ∨ ReflTransGen l.Link x y

theorem Below.refl (x : String) : l.Below x x := .inr .refl

/-- Links that lower a rank close no cycle. -/
theorem acyclic_of_rank (rank : String → Nat) (h : ∀ {c s}, l.Link c s → rank s < rank c)
    (c : String) : ¬ TransGen l.Link c c := by
  have lower : ∀ {x y}, TransGen l.Link x y → rank y < rank x := by
    intro x y hxy
    induction hxy with
    | single hlink => exact h hlink
    | tail _ hlink ih => exact Nat.lt_trans (h hlink) ih
  exact fun hc => Nat.lt_irrefl _ (lower hc)

namespace Sound

variable (hl : l.Sound)

include hl

theorem eq_root (h : ReflTransGen l.Link objectClass x) : x = objectClass := by
  rcases ReflTransGen.cases_head_iff.1 h with e | ⟨y, hlink, -⟩
  · exact e.symm
  · exact absurd (hlink.symm.trans hl.root) nofun

theorem below_trans (hxy : l.Below x y) (hym : l.Below y m) : l.Below x m := by
  rcases hym with rfl | hym
  · exact .inl rfl
  · rcases hxy with rfl | hxy
    · exact .inl (hl.eq_root hym)
    · exact .inr (hxy.trans hym)

theorem below_antisymm (hxy : l.Below x y) (hyx : l.Below y x) : x = y := by
  rcases hxy with rfl | hxy
  · rcases hyx with rfl | hyx
    · rfl
    · exact hl.eq_root hyx
  · rcases hyx with rfl | hyx
    · exact (hl.eq_root hxy).symm
    · rcases reflTransGen_iff_eq_or_transGen.1 hxy with e | hxy
      · exact e.symm
      · exact absurd (hxy.trans_left hyx) (hl.acyclic x)

end Sound

/-! ## The least class above two -/

/-- The class is above both, and it is below every other class that is. -/
structure IsNearest (l : SuperclassLinks) (a b m : String) : Prop where
  left : l.Below a m
  right : l.Below b m
  least : ∀ x, l.Below a x → l.Below b x → l.Below m x

/-- The common superclass is the first class on the chain of the second class that is on the chain of
the first one too. What else is on both chains comes later, and so it is above. No cycle and no link of
the root class can change that. -/
theorem common_isNearest (l : SuperclassLinks) (a b : String) : l.IsNearest a b (l.common a b) := by
  have answer : l.common a b =
      ((l.ancestry b).find? fun c => (l.ancestry a).contains c).getD objectClass := rfl
  refine ⟨l.common_above a b, ?_, fun x hax hbx => ?_⟩
  · rw [answer]
    cases hfind : (l.ancestry b).find? fun c => (l.ancestry a).contains c with
    | none => exact .inl rfl
    | some c => exact .inr (mem_ancestry (List.mem_of_find?_eq_some hfind))
  · rcases hax with rfl | hax
    · exact .inl rfl
    rcases hbx with rfl | hbx
    · exact .inl rfl
    rw [← mem_ancestry_iff] at hax hbx
    rw [answer]
    cases hfind : (l.ancestry b).find? fun c => (l.ancestry a).contains c with
    | none => exact absurd (List.contains_iff_mem.2 hax) (List.find?_eq_none.1 hfind x hbx)
    | some c =>
      obtain ⟨-, nearer, further, hsplit, hbefore⟩ := List.find?_eq_some_iff_append.1 hfind
      have hpairwise := l.ancestry_pairwise b
      rw [hsplit] at hbx hpairwise
      rcases List.mem_append.1 hbx with hbx | hbx
      · have := hbefore x hbx
        simp [hax] at this
      · rcases List.mem_cons.1 hbx with rfl | hbx
        · exact .refl x
        · exact .inr ((List.pairwise_cons.1 (List.pairwise_append.1 hpairwise).2.1).1 x hbx)

theorem IsNearest.symm (h : l.IsNearest a b m) : l.IsNearest b a m :=
  ⟨h.right, h.left, fun x hb ha => h.least x ha hb⟩

namespace Sound

variable (hl : l.Sound)

include hl

theorem isNearest_unique (hx : l.IsNearest a b x) (hy : l.IsNearest a b y) : x = y :=
  hl.below_antisymm (hx.least y hy.left hy.right) (hy.least x hx.left hx.right)

theorem common_comm (a b : String) : l.common a b = l.common b a :=
  hl.isNearest_unique (l.common_isNearest a b) (l.common_isNearest b a).symm

theorem common_self (a : String) : l.common a a = a :=
  hl.isNearest_unique (l.common_isNearest a a) ⟨.refl a, .refl a, fun _ h _ => h⟩

theorem common_assoc (a b c : String) :
    l.common (l.common a b) c = l.common a (l.common b c) := by
  have hab := l.common_isNearest a b
  have hbc := l.common_isNearest b c
  have habc := l.common_isNearest a (l.common b c)
  refine hl.isNearest_unique (l.common_isNearest (l.common a b) c) ⟨?_, ?_, fun x habx hcx => ?_⟩
  · exact hab.least _ habc.left (hl.below_trans hbc.left habc.right)
  · exact hl.below_trans hbc.right habc.right
  · have hax := hl.below_trans hab.left habx
    have hbx := hl.below_trans hab.right habx
    exact habc.least x hax (hbc.least x hbx hcx)

end Sound

/-! ## Any sequence of inserts -/

/-- After every sequence of inserts, also one that closes a cycle: a class has the superclass that was
inserted for it last; following the links from a class ends, with the class and everything above it, each
once and each followed by its superclass. If no class is above itself and the root class has no
superclass, two classes have a least class above both, which does not depend on their order, is the class
itself for a class with itself, and can be found for three classes in either order. -/
theorem ancestries_and_commons (pairs : List (String × String)) :
    (∀ c, (ofList pairs).supers[c]? = (pairs.reverse.find? (·.1 = c)).map (·.2)) ∧
    (∀ c, (∀ r, (ofList pairs).Climbs c [c] r ↔ r.reverse = (ofList pairs).ancestry c) ∧
      ((ofList pairs).ancestry c).Nodup ∧
      ((ofList pairs).ancestry c).head? = some c ∧
      ((ofList pairs).ancestry c).IsChain (ofList pairs).Link ∧
      ∀ x, x ∈ (ofList pairs).ancestry c ↔ ReflTransGen (ofList pairs).Link c x) ∧
    ((ofList pairs).Sound → ∀ a b,
      (ofList pairs).IsNearest a b ((ofList pairs).common a b) ∧
      (ofList pairs).common a b = (ofList pairs).common b a ∧
      (ofList pairs).common a a = a ∧
      ∀ c, (ofList pairs).common ((ofList pairs).common a b) c =
        (ofList pairs).common a ((ofList pairs).common b c)) := by
  refine ⟨supers_ofList pairs, fun c => ?_, fun hl a b => ?_⟩
  · exact ⟨fun _ => climbs_iff, ancestry_nodup _ c, ancestry_head _ c, ancestry_isChain _ c,
      fun _ => mem_ancestry_iff⟩
  · exact ⟨common_isNearest _ a b, hl.common_comm a b, hl.common_self a, hl.common_assoc a b⟩

/-- Two classes that have a superclass below the root class in common. -/
def demoPairs : List (String × String) :=
  [("demo/B", "demo/A"), ("demo/C", "demo/A"), ("demo/A", objectClass)]

theorem ancestries_and_commons_demo :
    (ofList demoPairs).Sound ∧
    (ofList demoPairs).common "demo/B" "demo/C" = "demo/A" ∧
    (ofList demoPairs).IsNearest "demo/B" "demo/C" "demo/A" ∧
    (ofList demoPairs).IsNearest "demo/B" "demo/X" objectClass := by
  obtain ⟨hsupers, -, hcommon⟩ := ancestries_and_commons demoPairs
  have link : ∀ {c s}, (ofList demoPairs).Link c s →
      ((c = "demo/B" ∨ c = "demo/C") ∧ s = "demo/A") ∨ (c = "demo/A" ∧ s = objectClass) := by
    intro c s h
    rw [Link, hsupers] at h
    simp only [demoPairs, List.reverse_cons, List.reverse_nil, List.nil_append, List.cons_append,
      List.find?_cons, List.find?_nil] at h
    grind
  let rank (c : String) : Nat := if c = objectClass then 0 else if c = "demo/A" then 1 else 2
  have hl : (ofList demoPairs).Sound := by
    refine ⟨acyclic_of_rank rank fun h => ?_, by decide +kernel⟩
    rcases link h with ⟨rfl | rfl, rfl⟩ | ⟨rfl, rfl⟩
    · decide
    · decide
    · decide
  have hnear : (ofList demoPairs).common "demo/B" "demo/C" = "demo/A" := by decide +kernel
  have hfar : (ofList demoPairs).common "demo/B" "demo/X" = objectClass := by decide +kernel
  exact ⟨hl, hnear, hnear ▸ (hcommon hl _ _).1, hfar ▸ (hcommon hl _ _).1⟩

end Interpose.SuperclassLinks
