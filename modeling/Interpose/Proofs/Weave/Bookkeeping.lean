import Interpose.Proofs.Weave.Untouched
/-!
# The listeners of a class

A method lists the listeners that were woven into it, and a pass over the class weaves the methods that it
selects and that do not list its listener yet. So the lists tell what all passes together have done, in
whatever order the listeners came and whatever each pass selected.

Results:
* `Weaver.weave_again`: a second pass with the same selection leaves the bytes as they are.
* `Listed.pass`: what one pass adds to the lists.
* `Passes.bookkeeping`: the lists after any number of passes, and what each of the passes has done.
-/

namespace Interpose

/-! ## Lists without repetitions -/

section EraseDups

variable {α : Type} [BEq α] [LawfulBEq α] {as : List α} {a : α}

theorem eraseDups_concat_of_mem (h : a ∈ as) : (as ++ [a]).eraseDups = as.eraseDups := by
  have hnone : [a].removeAll as = [] := by
    simpa [List.removeAll] using h
  rw [List.eraseDups_append, hnone, List.eraseDups_nil, List.append_nil]

theorem eraseDups_concat_of_not_mem (h : a ∉ as) : (as ++ [a]).eraseDups = as.eraseDups ++ [a] := by
  have hkept : [a].removeAll as = [a] := by
    simpa [List.removeAll] using h
  rw [List.eraseDups_append, hkept, List.eraseDups_cons]
  rfl

theorem length_eraseDups_le (as : List α) : as.eraseDups.length ≤ as.length := by
  induction as using List.reverseRecOn with
  | nil => exact Nat.le_refl _
  | append_singleton as a ih =>
    rw [List.length_append]
    by_cases h : a ∈ as
    · rw [eraseDups_concat_of_mem h]
      exact Nat.le_add_right_of_le ih
    · rw [eraseDups_concat_of_not_mem h, List.length_append]
      exact Nat.add_le_add_right ih _

end EraseDups

/-! ## Signature codes in a class -/

def ClassFile.signCodeOf (c : ClassFile) (m : Member) : Except FormatError String := do
  m.signCodeIn (toJavaName (← c.thisClassName)) c.pool

theorem ClassFile.signCodeOf_eq_ok {c : ClassFile} {m : Member} {code : String} :
    c.signCodeOf m = .ok code ↔
      ∃ owner, c.thisClassName = .ok owner ∧ m.signCodeIn (toJavaName owner) c.pool = .ok code :=
  bind_eq_ok

theorem ClassFile.thisClassName_within {c d : ClassFile} (hclass : d.thisClass = c.thisClass)
    (hpool : c.pool.Within d.pool) {owner : String} (h : c.thisClassName = .ok owner) :
    d.thisClassName = .ok owner := by
  rw [thisClassName, hclass]
  exact hpool.className h

theorem ClassFile.superClassName_within {c d : ClassFile} (hclass : d.superClass = c.superClass)
    (hpool : c.pool.Within d.pool) {superName : Option String}
    (h : c.superClassName = .ok superName) : d.superClassName = .ok superName := by
  unfold superClassName at h ⊢
  rw [hclass]
  split
  case isTrue hroot => rwa [if_pos hroot] at h
  case isFalse hsome =>
    rw [if_neg hsome] at h
    obtain ⟨name, hname, rfl⟩ := map_eq_ok.1 h
    exact map_eq_ok.2 ⟨name, hpool.className hname, rfl⟩

namespace Weaver

variable {w : Weaver} {loader : Int32} {bytes : Bytes} {selected : List String} {c d : ClassFile}
  {listener : Int32}

/-! ## One pass -/

/-- What is known of the methods is known of what they became. -/
theorem Rewoven.became {behaviors : List String} (h : Rewoven selected listener c d behaviors)
    {m' : Member} (hm' : m' ∈ d.methods) : ∃ owner m r, c.thisClassName = .ok owner ∧ m ∈ c.methods ∧
      Became (toJavaName owner) d.pool selected listener m r ∧ r.1 = m' := by
  obtain ⟨owner, members, howner, hmethods, -, hbecame⟩ := h.methods
  rw [hmethods] at hm'
  obtain ⟨r, hr, hrm⟩ := List.mem_map.1 hm'
  obtain ⟨m, hm, hbecame⟩ := (mem_forall₂ hbecame).2 r hr
  exact ⟨owner, m, r, howner, hm, hbecame, hrm⟩

theorem Rewoven.thisClass {behaviors : List String} (h : Rewoven selected listener c d behaviors) :
    d.thisClass = c.thisClass := by
  rw [h.rest]

theorem Rewoven.superClass {behaviors : List String} (h : Rewoven selected listener c d behaviors) :
    d.superClass = c.superClass := by
  rw [h.rest]

/-- A class none of whose methods is due stays as it is. -/
theorem weave_of_none_due (hc : ClassFile.parse bytes = .ok c) {owner : String}
    (howner : c.thisClassName = .ok owner) {superName : Option String}
    (hsuper : c.superClassName = .ok superName)
    (h : ∀ m ∈ c.methods, ∃ code, m.signCodeIn (toJavaName owner) c.pool = .ok code ∧
      ¬ Due selected w.listener m code) :
    w.weave loader bytes selected = .ok { bytes, behaviors := [] } := by
  have hkept := methods_kept (s := w.site loader c owner superName selected) h
  have hrewrite := rewrite_eq_ok.2 ⟨owner, superName, howner, hsuper, hkept⟩
  rw [weave_eq]
  refine bind_eq_ok.2 ⟨c, mapError_eq_ok.2 hc, bind_eq_ok.2 ⟨_, hrewrite, ?_⟩⟩
  have hnone : (c.methods.map fun m => (m, (none : Option String))).filterMap (·.2) = [] := by
    rw [List.filterMap_map]
    exact List.filterMap_eq_nil_iff.2 fun _ _ => rfl
  dsimp only
  rw [hnone]
  rfl

/-- A second pass with the same selection finds nothing to weave. -/
theorem weave_again {out : Woven} (hc : ClassFile.parse bytes = .ok c)
    (hcount : c.pool.count < 0x10000) (h : w.weave loader bytes selected = .ok out)
    (hroom : w.RoomFor loader c selected)
    (hlists : ∀ m ∈ c.methods, (wovenListeners m).length < 0xFFFF) (loader' : Int32) :
    w.weave loader' out.bytes selected = .ok { bytes := out.bytes, behaviors := [] } := by
  obtain ⟨d, hd, -, hrewoven⟩ := weave_yields hc hcount h hroom
  obtain ⟨pool, members, hrewrite, -⟩ := weave_eq_ok hc h
  obtain ⟨owner, superName, howner, hsuper, -⟩ := rewrite_eq_ok.1 hrewrite
  have hwithin := Pool.within_of_isPrefix hrewoven.slots
  refine weave_of_none_due hd (ClassFile.thisClassName_within hrewoven.thisClass hwithin howner)
    (ClassFile.superClassName_within hrewoven.superClass hwithin hsuper) fun m' hm' => ?_
  obtain ⟨owner', m, r, howner', hm, hbecame, rfl⟩ := hrewoven.became hm'
  obtain rfl := Except.ok.inj (howner.symm.trans howner')
  cases hbecame with
  | kept hcode hdue => exact ⟨_, hcode, hdue⟩
  | woven new hcode hdue =>
    refine ⟨_, hcode, fun hagain => hagain.fresh ?_⟩
    have := hlists m hm
    rw [Member.wovenListeners_withListeners (by rw [List.length_append]; exact Nat.succ_lt_succ this)]
    exact List.mem_append_right _ (List.mem_singleton_self _)

/-- Where nothing is woven, there is room. -/
theorem roomFor_of_unmodified {out : Woven} (hc : ClassFile.parse bytes = .ok c)
    (h : w.weave loader bytes selected = .ok out) (hnone : out.behaviors = []) :
    w.RoomFor loader c selected := by
  intro pool members hrewrite r hr hsome
  obtain ⟨pool', members', hrewrite', hbehaviors, -⟩ := weave_eq_ok hc h
  cases hrewrite.symm.trans hrewrite'
  rw [hnone, eq_comm, List.filterMap_eq_nil_iff] at hbehaviors
  rw [hbehaviors r hr] at hsome
  cases hsome

end Weaver

/-! ## Many passes -/

/-- A pass over a class: what it weaves and where, the bytes before it, and what it gave. -/
structure Pass where
  weaver : Weaver
  loader : Int32
  codes : List String
  before : Bytes
  out : Woven

namespace Pass

/-- What the pass weaves can be counted. -/
def HasRoom (x : Pass) : Prop :=
  ∀ c, ClassFile.parse x.before = .ok c → x.weaver.RoomFor x.loader c x.codes

/-- The pass has woven and reported the methods that were due, in the order of the class, and left the
bytes as they were if none was. -/
def WeavesDue (x : Pass) : Prop :=
  ∃ c d, ClassFile.parse x.before = .ok c ∧ ClassFile.parse x.out.bytes = .ok d ∧
    Weaver.Rewoven x.codes x.weaver.listener c d x.out.behaviors ∧
    ((∀ m ∈ c.methods, ∀ code, d.signCodeOf m = .ok code →
      ¬ Weaver.Due x.codes x.weaver.listener m code) → x.out.bytes = x.before)

end Pass

/-- Passes one after the other, each over the bytes that the one before it has left. -/
inductive Passes (bytes : Bytes) : List Pass → Bytes → Prop
  | start : Passes bytes [] bytes
  | next {passes : List Pass} {x : Pass} : Passes bytes passes x.before →
    x.weaver.weave x.loader x.before x.codes = .ok x.out → Passes bytes (passes ++ [x]) x.out.bytes

/-- The listeners of the passes that have selected a signature code, each once, in the order in which they
came first. -/
def listenersOf (passes : List Pass) (code : String) : List Int32 :=
  ((passes.filter (code ∈ ·.codes)).map (·.weaver.listener)).eraseDups

section Listeners

variable {passes : List Pass} {x : Pass} {code : String}

theorem length_listenersOf_le (passes : List Pass) (code : String) :
    (listenersOf passes code).length ≤ passes.length := by
  refine Nat.le_trans (length_eraseDups_le _) ?_
  rw [List.length_map]
  exact List.length_filter_le ..

theorem listenersOf_unselected (h : code ∉ x.codes) :
    listenersOf (passes ++ [x]) code = listenersOf passes code := by
  have hnone : [x].filter (code ∈ ·.codes) = [] := by
    simpa using h
  rw [listenersOf, List.filter_append, hnone, List.append_nil, listenersOf]

theorem listenersOf_selected (h : code ∈ x.codes) : listenersOf (passes ++ [x]) code =
    ((passes.filter (code ∈ ·.codes)).map (·.weaver.listener) ++ [x.weaver.listener]).eraseDups := by
  have hkept : [x].filter (code ∈ ·.codes) = [x] := by
    simpa using h
  rw [listenersOf, List.filter_append, hkept, List.map_append]
  rfl

/-- A pass that finds its listener, or does not select the code, adds nothing. -/
theorem listenersOf_of_not_due (h : code ∈ x.codes → x.weaver.listener ∈ listenersOf passes code) :
    listenersOf (passes ++ [x]) code = listenersOf passes code := by
  by_cases hcode : code ∈ x.codes
  · rw [listenersOf_selected hcode, eraseDups_concat_of_mem (List.mem_eraseDups.1 (h hcode))]
    rfl
  · exact listenersOf_unselected hcode

theorem listenersOf_of_due (hcode : code ∈ x.codes)
    (h : x.weaver.listener ∉ listenersOf passes code) :
    listenersOf (passes ++ [x]) code = listenersOf passes code ++ [x.weaver.listener] := by
  rw [listenersOf_selected hcode,
    eraseDups_concat_of_not_mem fun hmem => h (List.mem_eraseDups.2 hmem)]
  rfl

end Listeners

/-- The methods of a class list the listeners of the passes. The signature codes are also those that a pool
with more constants tells: the names of a class may be told only by constants that its first pass adds. -/
def Listed (passes : List Pass) (c : ClassFile) : Prop :=
  ∀ m ∈ c.methods, m.code?.isSome → ∀ q code, c.pool.Within q →
    ({ c with pool := q } : ClassFile).signCodeOf m = .ok code →
    wovenListeners m = listenersOf passes code

variable {passes : List Pass} {x : Pass} {c d : ClassFile} {behaviors : List String}

/-- A pass adds its listener to the methods that it weaves, and to no others. -/
theorem Listed.pass (h : Listed passes c) (hlength : passes.length < 0xFFFF)
    (hrewoven : Weaver.Rewoven x.codes x.weaver.listener c d behaviors) :
    Listed (passes ++ [x]) d := by
  intro m' hm' hsome q code hq hcode
  obtain ⟨owner, m, r, howner, hm, hbecame, rfl⟩ := hrewoven.became hm'
  have hcq : c.pool.Within q := (Pool.within_of_isPrefix hrewoven.slots).trans hq
  have hownerq : q.className d.thisClass = .ok owner := by
    rw [hrewoven.thisClass]
    exact hcq.className howner
  obtain ⟨owner', howner', hcode⟩ := ClassFile.signCodeOf_eq_ok.1 hcode
  obtain rfl := Except.ok.inj (hownerq.symm.trans howner')
  rw [hbecame.signCodeIn] at hcode
  -- the list that the method had before the pass
  have hlist : wovenListeners m = listenersOf passes code := by
    refine h m hm (hbecame.hasCode ▸ hsome) q code hcq ?_
    exact ClassFile.signCodeOf_eq_ok.2 ⟨owner, hrewoven.thisClass ▸ hownerq, hcode⟩
  have hcodes {code' : String} (h' : m.signCodeIn (toJavaName owner) d.pool = .ok code') :
      code = code' :=
    Except.ok.inj (hcode.symm.trans (Member.signCodeIn_within hq h'))
  cases hbecame with
  | kept hcode' hdue =>
    obtain rfl := hcodes hcode'
    rw [listenersOf_of_not_due, hlist]
    intro hselected
    by_contra hfresh
    exact hdue ⟨hselected, hlist ▸ hfresh, hsome⟩
  | woven new hcode' hdue =>
    obtain rfl := hcodes hcode'
    have hroom : (wovenListeners m ++ [x.weaver.listener]).length < 0x10000 := by
      have := length_listenersOf_le passes code
      rw [List.length_append, hlist, List.length_singleton]
      omega
    rw [Member.wovenListeners_withListeners hroom, listenersOf_of_due hdue.selected (hlist ▸ hdue.fresh),
      hlist]

/-- What one pass does. -/
theorem Pass.weavesDue (hc : ClassFile.parse x.before = .ok c) (hd : ClassFile.parse x.out.bytes = .ok d)
    (hweave : x.weaver.weave x.loader x.before x.codes = .ok x.out)
    (hrewoven : Weaver.Rewoven x.codes x.weaver.listener c d x.out.behaviors) : x.WeavesDue := by
  refine ⟨c, d, hc, hd, hrewoven, fun hnone => ?_⟩
  obtain ⟨-, -, -, -, hunmodified, -⟩ := Weaver.weave_eq_ok hc hweave
  refine hunmodified ?_
  obtain ⟨owner, members, howner, -, hbehaviors, hbecame⟩ := hrewoven.methods
  rw [Woven.isModified, Bool.not_eq_false', List.isEmpty_iff, hbehaviors, List.filterMap_eq_nil_iff]
  intro r hr
  obtain ⟨m, hm, hbecame⟩ := (mem_forall₂ hbecame).2 r hr
  cases hbecame with
  | kept => rfl
  | woven new hcode hdue =>
    have hclass := ClassFile.thisClassName_within hrewoven.thisClass
      (Pool.within_of_isPrefix hrewoven.slots) howner
    exact absurd hdue (hnone m hm _ (ClassFile.signCodeOf_eq_ok.2 ⟨owner, hclass, hcode⟩))

variable {bytes after : Bytes}

/-- What any number of passes does, one by one and all together. -/
theorem Passes.listed (h : Passes bytes passes after) (hc : ClassFile.parse bytes = .ok c)
    (hcount : c.pool.count < 0x10000)
    (hunlisted : ∀ m ∈ c.methods, m.rawAttribute? Listeners.attributeName = none)
    (hlength : passes.length ≤ 0xFFFF) (hroom : ∀ x ∈ passes, x.HasRoom) :
    (∃ d, ClassFile.parse after = .ok d ∧ d.pool.count < 0x10000 ∧ Listed passes d ∧
      (passes ≠ [] → ∀ m ∈ d.methods, ∃ code, d.signCodeOf m = .ok code)) ∧
      ∀ x ∈ passes, x.WeavesDue := by
  induction h with
  | start =>
    refine ⟨⟨c, hc, hcount, fun m hm _ q code _ _ => ?_, nofun⟩, nofun⟩
    rw [wovenListeners, hunlisted m hm]
    rfl
  | @next passes x _ hweave ih =>
    rw [List.length_append, List.length_singleton] at hlength
    have hlast : x ∈ passes ++ [x] := List.mem_append_right _ (List.mem_singleton_self x)
    obtain ⟨⟨d, hd, hcount, hlisted, -⟩, hearlier⟩ := ih (by omega)
      fun y hy => hroom y (List.mem_append_left _ hy)
    obtain ⟨e, he, hcount', hrewoven⟩ := Weaver.weave_yields hd hcount hweave (hroom x hlast d hd)
    refine ⟨⟨e, he, hcount', hlisted.pass (by omega) hrewoven, fun _ m' hm' => ?_⟩, fun y hy => ?_⟩
    · obtain ⟨owner, m, r, howner, -, hbecame, rfl⟩ := hrewoven.became hm'
      obtain ⟨code, hcode⟩ := hbecame.coded
      exact ⟨code, ClassFile.signCodeOf_eq_ok.2 ⟨owner, ClassFile.thisClassName_within
        hrewoven.thisClass (Pool.within_of_isPrefix hrewoven.slots) howner,
        (hbecame.signCodeIn _ _).trans hcode⟩⟩
    · rcases List.mem_append.1 hy with hy | hy
      · exact hearlier y hy
      · obtain rfl := List.mem_singleton.1 hy
        exact Pass.weavesDue hd he hweave hrewoven

/-- At most 65535 passes over a class whose methods list no listeners at first. In the end each method with
code lists the listeners of the passes that have selected its signature code, and each pass has woven the
methods that it selects and that did not list its listener. -/
theorem Passes.bookkeeping (h : Passes bytes passes after) (hc : ClassFile.parse bytes = .ok c)
    (hwhole : c.PoolWhole bytes)
    (hunlisted : ∀ m ∈ c.methods, m.rawAttribute? Listeners.attributeName = none)
    (hlength : passes.length ≤ 0xFFFF) (hroom : ∀ x ∈ passes, x.HasRoom) :
    (∃ d, ClassFile.parse after = .ok d ∧
      (passes ≠ [] → ∀ m ∈ d.methods, ∃ code, d.signCodeOf m = .ok code) ∧
      ∀ m ∈ d.methods, m.code?.isSome → ∀ code, d.signCodeOf m = .ok code →
        wovenListeners m = listenersOf passes code) ∧
      ∀ x ∈ passes, x.WeavesDue := by
  obtain ⟨⟨d, hd, -, hlisted, hcoded⟩, hpasses⟩ :=
    h.listed hc (hwhole.count_lt hc) hunlisted hlength hroom
  exact ⟨⟨d, hd, hcoded, fun m hm hsome code hcode => hlisted m hm hsome d.pool code (.refl _) hcode⟩,
    hpasses⟩

/-- A pass over the class with two methods and then another with the same selection. -/
theorem passes_bookkeeping_twice : ∃ first second c d, first.weaver.listener = 7 ∧
    second.weaver.listener = 7 ∧ Passes Weaver.twoMethods [first, second] first.out.bytes ∧
    ClassFile.parse Weaver.twoMethods = .ok c ∧ c.PoolWhole Weaver.twoMethods ∧
    (∀ m ∈ c.methods, m.rawAttribute? Listeners.attributeName = none) ∧
    (∀ x ∈ [first, second], x.HasRoom) ∧ first.out.behaviors = ["A#m()"] ∧
    second.out.behaviors = [] ∧ (∀ x ∈ [first, second], x.WeavesDue) ∧
    ClassFile.parse first.out.bytes = .ok d ∧ ∀ m ∈ d.methods, m.code?.isSome →
      ∀ code, d.signCodeOf m = .ok code → wovenListeners m = listenersOf [first, second] code := by
  obtain ⟨c, out, hc, hwhole, hunlisted, hroom, hout, hbehaviors⟩ := Weaver.twoMethods_weaves
  have hcount := hwhole.count_lt hc
  have hlists : ∀ m ∈ c.methods, (wovenListeners m).length < 0xFFFF := by
    intro m hm
    rw [wovenListeners, hunlisted m hm]
    exact Nat.zero_lt_succ _
  have hagain := Weaver.weave_again hc hcount hout hroom hlists 1
  let first : Pass := { weaver := Weaver.startWeaver, loader := 0, codes := ["A#m()"],
                        before := Weaver.twoMethods, out }
  let second : Pass := { weaver := Weaver.startWeaver, loader := 1, codes := ["A#m()"],
                         before := out.bytes, out := { bytes := out.bytes, behaviors := [] } }
  have hfirst : Passes Weaver.twoMethods ([] ++ [first]) first.out.bytes := .next .start hout
  have hpasses : Passes Weaver.twoMethods ([first] ++ [second]) second.out.bytes := .next hfirst hagain
  have hrooms : ∀ x ∈ [first, second], x.HasRoom := by
    intro x hx
    rcases List.mem_pair.1 hx with rfl | rfl
    · intro c' hc'
      cases hc.symm.trans hc'
      exact hroom
    · exact fun d hd => Weaver.roomFor_of_unmodified hd hagain rfl
  obtain ⟨⟨d, hd, -, hlists⟩, hdue⟩ :=
    Passes.bookkeeping hpasses hc hwhole hunlisted (Nat.le_of_ble_eq_true rfl) hrooms
  exact ⟨first, second, c, d, rfl, rfl, hpasses, hc, hwhole, hunlisted, hrooms, hbehaviors, rfl, hdue,
    hd, hlists⟩

end Interpose
