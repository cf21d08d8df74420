import Mathlib.Data.Finset.Card
import Mathlib.Logic.Relation
import Interpose.Weave.Weaver
import Interpose.Proofs.Types.Declared
/-!
# How often a type can change

Links without cycles grade the classes: each class is higher than its superclass, and the root class
is lowest. A merge of two objects keeps the first class or goes to a lower one, so the rank of a slot
goes down with every change: null is above all objects, objects are ranked by their height, the open
type is below everything. Where a class is declared, an object takes it at its first merge and keeps it.

* `SuperclassLinks.height_lt`: a class is higher than its superclass.
* `Hierarchy.Known.graded`: merging goes down in the hierarchies that are known by links.
* `Frame.Meets.rank_lt`: a frame that changes where a path arrives has lost rank.
-/

namespace Interpose

open Relation

/-! ## Links -/

namespace SuperclassLinks

variable {l : SuperclassLinks} {a b c s : String}

/-- The second class is the superclass of the first. -/
def Link (l : SuperclassLinks) (c s : String) : Prop :=
  l.supers[c]? = some s

/-- No class is above itself. A class without a known superclass counts as one below the root class, so
that a link from the root class would close a cycle too. -/
structure Sound (l : SuperclassLinks) : Prop where
  acyclic : ∀ c, ¬ TransGen l.Link c c
  root : l.supers[objectClass]? = none

theorem mem_climb {limit : Nat} {chain : List String} (hb : ReflTransGen l.Link a b)
    (hchain : ∀ x ∈ chain, ReflTransGen l.Link a x) :
    ∀ x ∈ l.climb limit b chain, ReflTransGen l.Link a x := by
  induction limit generalizing b chain with
  | zero => exact hchain
  | succ limit ih =>
    unfold climb
    split
    · exact hchain
    · rename_i parent hparent
      split
      · exact hchain
      · have hup := hb.tail hparent
        refine ih hup fun x hx => ?_
        rcases List.mem_cons.1 hx with rfl | hx
        · exact hup
        · exact hchain x hx

theorem mem_ancestry (hc : c ∈ l.ancestry a) : ReflTransGen l.Link a c := by
  refine mem_climb .refl (fun x hx => ?_) c (List.mem_reverse.1 hc)
  rw [List.mem_singleton.1 hx]

/-- The common superclass is above the first class, or it is the root class. -/
theorem common_above (l : SuperclassLinks) (a b : String) :
    l.common a b = objectClass ∨ ReflTransGen l.Link a (l.common a b) := by
  have answer : l.common a b =
      ((l.ancestry b).find? fun c => (l.ancestry a).contains c).getD objectClass := rfl
  rw [answer]
  cases hfind : (l.ancestry b).find? fun c => (l.ancestry a).contains c with
  | none => exact .inl rfl
  | some c =>
    have hc := List.find?_some hfind
    exact .inr (mem_ancestry (List.contains_iff_mem.1 hc))

open scoped Classical in
/-- The classes with a known superclass from a class on upwards. -/
noncomputable def above (l : SuperclassLinks) (c : String) : Finset String :=
  l.supers.keys.toFinset.filter (ReflTransGen l.Link c)

theorem mem_above {x : String} :
    x ∈ l.above c ↔ x ∈ l.supers.keys.toFinset ∧ ReflTransGen l.Link c x := by
  classical
  unfold above
  rw [Finset.mem_filter]

/-- How many links lead from a class to the root class, at most. -/
noncomputable def height (l : SuperclassLinks) (c : String) : Nat :=
  if c = objectClass then 0 else 1 + (l.above c).card

theorem mem_above_self (h : l.Link c s) : c ∈ l.above c := by
  refine mem_above.2 ⟨?_, .refl⟩
  rw [List.mem_toFinset, Std.TreeMap.mem_keys, Std.TreeMap.mem_iff_isSome_getElem?, h]
  rfl

/-- A class is higher than its superclass. -/
theorem Link.height_lt (hl : l.Sound) (h : l.Link c s) : l.height s < l.height c := by
  have hc : c ≠ objectClass := by
    rintro rfl
    exact Option.some_ne_none s (h.symm.trans hl.root)
  unfold height
  rw [if_neg hc]
  split
  · omega
  · have hsub : l.above s ⊂ l.above c := by
      refine Finset.ssubset_iff_subset_ne.2 ⟨fun x hx => ?_, fun e => ?_⟩
      · obtain ⟨hkey, hsx⟩ := mem_above.1 hx
        exact mem_above.2 ⟨hkey, .head h hsx⟩
      · have hmem := mem_above_self h
        rw [← e] at hmem
        exact hl.acyclic c (.head' h (mem_above.1 hmem).2)
    exact Nat.add_lt_add_left (Finset.card_lt_card hsub) 1

theorem height_lt_of_above (hl : l.Sound) (h : TransGen l.Link a b) : l.height b < l.height a := by
  induction h with
  | single h => exact h.height_lt hl
  | tail _ h ih => exact Nat.lt_trans (h.height_lt hl) ih

theorem height_le (l : SuperclassLinks) (c : String) :
    l.height c ≤ 1 + l.supers.keys.toFinset.card := by
  unfold height
  split
  · exact Nat.zero_le _
  · exact Nat.add_le_add_left (Finset.card_le_card fun x hx => (mem_above.1 hx).1) 1

/-- A further link that agrees with the known ones. -/
theorem Link.insert (h : l.Link a b) (hc : l.supers[c]? = none ∨ l.supers[c]? = some s) :
    (l.insert c s).Link a b := by
  unfold Link SuperclassLinks.insert
  rw [Std.TreeMap.getElem?_insert]
  split
  · rename_i e
    rw [Std.compare_eq_iff_eq] at e
    subst e
    rcases hc with hc | hc
    · exact absurd (h.symm.trans hc) (Option.some_ne_none b)
    · exact hc.symm.trans h
  · exact h

theorem link_insert (l : SuperclassLinks) (c s : String) : (l.insert c s).Link c s := by
  unfold Link SuperclassLinks.insert
  rw [Std.TreeMap.getElem?_insert_self]

end SuperclassLinks

/-! ## Hierarchies -/

namespace Hierarchy

/-- Hierarchies that answer by links: the one in which everything meets in the root class, those of
known links, and those in which one class, of which the links know no other superclass, stands for its
own. -/
inductive Known : Hierarchy → SuperclassLinks → Prop
  | rootOnly : Known rootOnly {}
  | links (l : SuperclassLinks) : Known l.hierarchy l
  | bare {outer : Hierarchy} {l : SuperclassLinks} (owner : String) : Known outer l →
    Known (outer.lifting owner none) l
  | lifting {outer : Hierarchy} {l : SuperclassLinks} {owner superName : String} : Known outer l →
    l.supers[owner]? = none ∨ l.supers[owner]? = some superName →
    Known (outer.lifting owner (some superName)) (l.insert owner superName)

/-- The common superclass is above the first class, or it is the root class. -/
theorem Known.common_above {h : Hierarchy} {l : SuperclassLinks} (hk : h.Known l) (a b : String) :
    h.common a b = objectClass ∨ ReflTransGen l.Link a (h.common a b) := by
  induction hk generalizing a b with
  | rootOnly => exact .inl rfl
  | links l => exact l.common_above a b
  | bare owner _ ih =>
    simp only [Hierarchy.lifting, Option.getD_none, ite_self]
    split
    · exact .inr .refl
    · exact ih a b
  | @lifting outer l owner superName _ hagree ih =>
    have hlink := l.link_insert owner superName
    -- a class is below what it stands for
    let lift (x : String) : String := if x = owner then superName else x
    have lifted : ∀ x, ReflTransGen (l.insert owner superName).Link x (lift x) := by
      intro x
      unfold lift
      split
      · rename_i e
        rw [e]
        exact .single hlink
      · exact .refl
    have answer : (outer.lifting owner (some superName)).common a b =
        if a = b then a
        else if lift a = lift b then lift a else outer.common (lift a) (lift b) := rfl
    rw [answer]
    split
    · exact .inr .refl
    · split
      · exact .inr (lifted a)
      · rcases ih (lift a) (lift b) with e | habove
        · exact .inl e
        · exact .inr ((lifted a).trans (habove.lift id fun _ _ h => h.insert hagree))

/-- Merging keeps a class or goes to a lower one. -/
structure Graded (h : Hierarchy) (height : String → Nat) (bound : Nat) : Prop where
  le : ∀ x, height x ≤ bound
  join : ∀ x y, h.join x y = x ∨ height (h.join x y) < height x

theorem Known.graded {h : Hierarchy} {l : SuperclassLinks} (hk : h.Known l) (hl : l.Sound) :
    h.Graded l.height (1 + l.supers.keys.toFinset.card) where
  le := l.height_le
  join x y := by
    have root : x = objectClass ∨ l.height objectClass < l.height x := by
      unfold SuperclassLinks.height
      by_cases hx : x = objectClass
      · exact .inl hx
      · rw [if_pos rfl, if_neg hx]
        exact .inr (by omega)
    unfold Hierarchy.join
    split
    · exact .inl rfl
    · split
      · exact root.imp Eq.symm id
      · rcases hk.common_above x y with e | habove
        · rw [e]
          exact root.imp Eq.symm id
        · rcases reflTransGen_iff_eq_or_transGen.1 habove with e | habove
          · exact .inl e
          · exact .inr (SuperclassLinks.height_lt_of_above hl habove)

end Hierarchy

/-! ## Ranks of slots -/

namespace Frame

variable {h : Hierarchy} {height : String → Nat} {bound : Nat}

/-- The rank of a type in a slot that is declared to be `x`. -/
def slotRank (height : String → Nat) (bound : Nat) (x : VType) : VType → Nat
  | .top => 0
  | .null =>
    match x with
    | .object _ => 2
    | _ => 2 + bound
  | .object name =>
    match x with
    | .object declared => if name = declared then 1 else 2
    | _ => 1 + height name
  | _ => 1

theorem slotRank_pos {x w : VType} (hw : w ≠ .top) : 0 < slotRank height bound x w := by
  unfold slotRank
  split
  · exact absurd rfl hw
  · split <;> omega
  · split
    · split <;> omega
    · omega
  · omega

/-- An object that takes the declared class had it before or loses rank. -/
theorem slotRank_object (n : String) {w : VType} (hw : w.isObject = true) :
    .object n = w ∨ slotRank height bound (.object n) (.object n) <
      slotRank height bound (.object n) w := by
  cases w with
  | null => exact .inr (by simp [slotRank])
  | object name =>
    by_cases e : name = n
    · exact .inl (by rw [e])
    · exact .inr (by simp [slotRank, e])
  | _ => cases hw

/-- A slot that changes loses rank. -/
theorem slotRank_lt (hg : h.Graded height bound) {x w v c : VType} (hm : mergeSlot h w v = some c) :
    refineSlot c x = w ∨
      slotRank height bound x (refineSlot c x) < slotRank height bound x w := by
  have hobject := (mergeSlot_isObject hm).1
  rcases silent_or x c with ⟨n, rfl, hc⟩ | hs
  · rw [refineSlot_object n hc]
    exact slotRank_object n (hobject.trans hc)
  · rw [hs.refineSlot]
    rcases mergeSlot_cases h hm with ⟨-, rfl⟩ | ⟨rfl, rfl, y, rfl⟩ | ⟨rfl, rfl, y, rfl⟩ |
      ⟨y, z, rfl, rfl, rfl⟩
    · exact .inl rfl
    · have hx : ∀ n, x ≠ .object n := fun n e => nomatch hs n e
      have := hg.le y
      right
      cases x with
      | object n => exact (hx n rfl).elim
      | _ => simp only [slotRank]; omega
    · exact .inl rfl
    · have hx : ∀ n, x ≠ .object n := fun n e => nomatch hs n e
      rcases hg.join y z with e | hlt
      · exact .inl (by rw [e])
      · right
        cases x with
        | object n => exact (hx n rfl).elim
        | _ => simp only [slotRank]; omega

/-! ## Ranks of frames -/

def slotsRank (height : String → Nat) (bound : Nat) : List VType → List VType → Nat
  | _, [] => 0
  | hints, v :: vs =>
    1 + slotRank height bound (hints.head?.getD .top) v + slotsRank height bound hints.tail vs

/-- A row of slots each of which has changed downwards if at all has done so as a whole. -/
theorem slotsRank_lt {hints ws ks : List VType}
    (hall : ∀ (j : Nat) (k : VType), ks[j]? = some k → ∃ w, ws[j]? = some w ∧
      (k = w ∨ slotRank height bound (hints[j]?.getD .top) k <
        slotRank height bound (hints[j]?.getD .top) w)) :
    ks = ws ∨ slotsRank height bound hints ks < slotsRank height bound hints ws := by
  induction ks generalizing hints ws with
  | nil =>
    cases ws with
    | nil => exact .inl rfl
    | cons w ws => exact .inr (by simp only [slotsRank]; omega)
  | cons k ks ih =>
    obtain ⟨w, hw, hk⟩ := hall 0 k rfl
    cases ws with
    | nil => cases hw
    | cons w' ws =>
      cases hw
      have hrest : ks = ws ∨
          slotsRank height bound hints.tail ks < slotsRank height bound hints.tail ws := by
        refine ih fun j k hk => ?_
        rw [List.getElem?_tail]
        exact hall (j + 1) k hk
      rw [← List.head?_eq_getElem?] at hk
      simp only [slotsRank]
      rcases hk with rfl | hk
      · rcases hrest with rfl | hrest
        · exact .inl rfl
        · exact .inr (by omega)
      · rcases hrest with rfl | hrest
        · exact .inr (by omega)
        · exact .inr (by omega)

/-- The rank of a frame, given what is declared in front of the instruction. -/
def rank (height : String → Nat) (bound : Nat) (f declared : Frame) : Nat :=
  slotsRank height bound declared.locals f.locals +
    slotsRank height bound (declared.operandHints f.stack.length) f.stack

/-- A frame that changes where a path arrives has lost rank. -/
theorem Meets.rank_lt (hg : h.Graded height bound) {f g declared k : Frame}
    (hk : Meets h f g declared k) :
    k = f ∨ k.rank height bound declared < f.rank height bound declared := by
  have hlocals : k.locals = f.locals ∨ slotsRank height bound declared.locals k.locals <
      slotsRank height bound declared.locals f.locals := by
    refine slotsRank_lt fun j c hc => ?_
    obtain ⟨w, v, hw, -, rfl⟩ := (hk.locals j c).1 hc
    refine ⟨w, hw, ?_⟩
    cases hm : mergeSlot h w v with
    | some c => exact slotRank_lt hg hm
    | none =>
      rw [Option.getD_none, (silent_of_not_isObject rfl).refineSlot]
      by_cases hw : w = .top
      · exact .inl hw.symm
      · exact .inr (slotRank_pos hw)
  have hstack : k.stack = f.stack ∨
      slotsRank height bound (declared.operandHints k.stack.length) k.stack <
        slotsRank height bound (declared.operandHints k.stack.length) f.stack := by
    refine slotsRank_lt fun j c hc => ?_
    obtain ⟨w, v, c', hw, -, hm, rfl⟩ := hk.slot hc
    exact ⟨w, hw, slotRank_lt hg hm⟩
  unfold rank
  rw [← hk.same]
  cases k with
  | mk ls ss =>
    cases f with
    | mk fls fss =>
      rcases hlocals with e | hlocals
      · rcases hstack with e' | hstack
        · exact .inl (by rw [mk.injEq]; exact ⟨e, e'⟩)
        · exact .inr (by rw [e]; exact Nat.add_lt_add_left hstack _)
      · rcases hstack with e' | hstack
        · exact .inr (by rw [e']; exact Nat.add_lt_add_right hlocals _)
        · exact .inr (Nat.add_lt_add hlocals hstack)

end Frame

end Interpose
