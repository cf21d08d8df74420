import Interpose.Matching.Selection
import Interpose.Proofs.Structure.SignatureCode
import Interpose.Proofs.Weave.Untouched
/-!
# Weaving what was selected

A matcher selects behaviors of a type, and the weaver is given their signature codes. The two sides
read the methods of the class on their own: the type has a behavior for every method but the static
initialiser, the weaver knows methods by their codes only. Both compute the same code
(`behaviorOf_signCode`), so the weaver rewrites exactly what was selected of the methods that have a
behavior. A static initialiser has none, and no code of its own is ever selected; but the weaver does
not know that, and rewrites it when its code is that of a selected method.

Results:
* `weave_selection`: which methods are rewritten for a selection.
* `WovenFor.exact_iff`, `WovenFor.exact_of_names`: when they are those that were selected. Of methods
  with names that the class-file format allows, they are.
* `weave_selection_initialiser`: a static initialiser that is rewritten.
-/

namespace Interpose

namespace StructuralType

/-- The signature code of a behavior is that of the method it was made from. -/
theorem behaviorOf_signCode {pool : Pool} {javaName : String} {m : Member} {b : Behavior}
    (h : behaviorOf pool javaName m = .ok (some b)) :
    m.signCodeIn javaName pool = .ok b.signCode ∧ pool.getUtf8 m.name = .ok b.name ∧
      b.name ≠ staticInitializerName := by
  obtain ⟨name, hname, h⟩ := bind_eq_ok.1 h
  split at h
  · cases h
  case isFalse hother =>
  obtain ⟨spelled, hspelled, h⟩ := bind_eq_ok.1 h
  obtain ⟨b', hb', h⟩ := bind_eq_ok.1 h
  obtain ⟨exceptions, -, h⟩ := bind_eq_ok.1 h
  obtain ⟨annotations, -, h⟩ := bind_eq_ok.1 h
  cases h
  obtain ⟨descriptor, hdescriptor, hb'⟩ := bind_eq_ok.1 hb'
  cases hb'
  exact ⟨Member.signCodeIn_eq_ok.2 ⟨name, spelled, descriptor, hname, hspelled, hdescriptor, rfl⟩,
    hname, hother⟩

/-- Only a static initialiser has no behavior. -/
theorem behaviorOf_eq_none {pool : Pool} {javaName : String} {m : Member}
    (h : behaviorOf pool javaName m = .ok none) :
    pool.getUtf8 m.name = .ok staticInitializerName := by
  obtain ⟨name, hname, h⟩ := bind_eq_ok.1 h
  split at h
  case isTrue hinit => rw [hname, hinit]
  case isFalse =>
    obtain ⟨spelled, -, h⟩ := bind_eq_ok.1 h
    obtain ⟨b', -, h⟩ := bind_eq_ok.1 h
    obtain ⟨exceptions, -, h⟩ := bind_eq_ok.1 h
    obtain ⟨annotations, -, h⟩ := bind_eq_ok.1 h
    cases h

/-- A type is named after its class, and has the behaviors of its methods. -/
theorem ofClassFile_eq_ok {c : ClassFile} {boundary : Boundary} {t : StructuralType}
    (h : ofClassFile c boundary = .ok t) :
    (∃ owner, c.thisClassName = .ok owner ∧ t.javaName = toJavaName owner) ∧
      ∃ found, List.Forall₂ (fun m b => behaviorOf c.pool t.javaName m = .ok b) c.methods found ∧
        t.behaviors = found.filterMap id := by
  obtain ⟨owner, howner, h⟩ := bind_eq_ok.1 h
  obtain ⟨superName, -, h⟩ := bind_eq_ok.1 h
  obtain ⟨interfaces, -, h⟩ := bind_eq_ok.1 h
  obtain ⟨found, hfound, h⟩ := bind_eq_ok.1 h
  obtain ⟨annotations, -, h⟩ := bind_eq_ok.1 h
  cases h
  exact ⟨⟨owner, howner, rfl⟩, found, mapM_eq_ok.1 hfound, rfl⟩

end StructuralType

/-- Texts of which the first, up to a separator that it does not hold, begins another text: the second
begins with all of it, or is the same. -/
theorem eq_or_isPrefix_of_append {α : Type} {sep : α} {xs ys xs' ys' : List α} (hx : sep ∉ xs)
    (h : xs ++ sep :: ys = xs' ++ sep :: ys') : xs' = xs ∨ xs ++ [sep] <+: xs' := by
  obtain ⟨between, rfl, htail⟩ | ⟨between, rfl, htail⟩ := List.append_eq_append_iff.1 h
  · cases between with
    | nil => exact .inl (by simp)
    | cons b between =>
      rw [List.cons_append, List.cons.injEq] at htail
      exact .inr ⟨between, by simp [htail.1]⟩
  · cases between with
    | nil => exact .inl (by simp)
    | cons b between =>
      rw [List.cons_append, List.cons.injEq] at htail
      refine absurd ?_ hx
      simp [htail.1]

/-- A method with the code of a static initialiser is one, or its name begins like that code. -/
theorem name_of_signCode_eq {className name : String} {parameters parameters' : List String}
    (h : signCode className staticInitializerName parameters = signCode className name parameters') :
    name = staticInitializerName ∨
      (staticInitializerName ++ "(").toList <+: name.toList := by
  rw [signCode, signCode, ← String.toList_inj] at h
  simp only [String.toList_append, List.append_assoc] at h
  have hcodes := List.append_cancel_left (List.append_cancel_left h)
  obtain heq | hprefix := eq_or_isPrefix_of_append (by decide) hcodes
  · exact .inl (String.toList_inj.1 heq)
  · rw [String.toList_append]
    exact .inr hprefix

namespace Weaver

variable {w : Weaver} {loader listener : Int32} {bytes : Bytes} {c : ClassFile} {t : StructuralType}
  {chosen : Selection} {m : Member} {x : Member × Option String} {p q : Pool} {javaName : String}

/-- The code with which a selection asks for a method: that of its behavior, if the method has code and
the listener is not yet woven into it. -/
def asked (p : Pool) (javaName : String) (chosen : Selection) (listener : Int32) (m : Member) :
    Option String :=
  match StructuralType.behaviorOf p javaName m with
  | .ok (some b) =>
    if b.signCode ∈ chosen.signCodes ∧ m.code?.isSome ∧ listener ∉ wovenListeners m then
      some b.signCode
    else none
  | _ => none

/-- A method with a behavior is rewritten exactly if it was asked for. -/
theorem Became.eq_asked (h : Became javaName q chosen.signCodes listener m x) (hpq : p.Within q)
    {b : Behavior} (hb : StructuralType.behaviorOf p javaName m = .ok (some b)) :
    x.2 = asked p javaName chosen listener m := by
  have hcode := Member.signCodeIn_within hpq (StructuralType.behaviorOf_signCode hb).1
  have hdue : Due chosen.signCodes listener m b.signCode ↔
      b.signCode ∈ chosen.signCodes ∧ m.code?.isSome ∧ listener ∉ wovenListeners m :=
    ⟨fun h => ⟨h.selected, h.hasCode, h.fresh⟩, fun h => ⟨h.1, h.2.2, h.2.1⟩⟩
  unfold asked
  rw [hb]
  cases h with
  | kept hcode' hnot =>
    cases hcode.symm.trans hcode'
    exact (if_neg (hdue.not.1 hnot)).symm
  | woven new hcode' hyes =>
    cases hcode.symm.trans hcode'
    exact (if_pos (hdue.1 hyes)).symm

/-- What weaving for a selection of behaviors makes of the methods of a class, in their order. -/
structure WovenFor (t : StructuralType) (chosen : Selection) (listener : Int32) (c : ClassFile)
    (q : Pool) (members : List (Member × Option String)) : Prop where
  became : List.Forall₂ (Became t.javaName q chosen.signCodes listener) c.methods members
  /-- Of the methods other than a static initialiser, those are rewritten that were asked for. -/
  exact_elsewhere : List.Forall₂ (fun m x => c.pool.getUtf8 m.name ≠ .ok staticInitializerName →
    x.2 = asked c.pool t.javaName chosen listener m) c.methods members
  /-- Nothing else is rewritten unless a static initialiser has a selected code. -/
  exact_iff : members.map (·.2) = c.methods.map (asked c.pool t.javaName chosen listener) ↔
    ∀ m ∈ c.methods, c.pool.getUtf8 m.name = .ok staticInitializerName →
      ∀ code, m.signCodeIn t.javaName q = .ok code → ¬ Due chosen.signCodes listener m code
  /-- A static initialiser can have the code only of a method whose name begins with its own and a
  parenthesis. -/
  exact_of_names : (∀ b ∈ chosen.behaviors, ¬ (staticInitializerName ++ "(").toList <+: b.name.toList) →
    members.map (·.2) = c.methods.map (asked c.pool t.javaName chosen listener)

/-- A static initialiser is not due for a selection of other methods, unless a name begins with its own
and a parenthesis. -/
theorem not_due_of_names (hpq : p.Within q) (hinit : p.getUtf8 m.name = .ok staticInitializerName)
    (hchosen : ∀ b ∈ chosen.behaviors, b.declaringType = javaName ∧ b.name ≠ staticInitializerName)
    (hnames : ∀ b ∈ chosen.behaviors, ¬ (staticInitializerName ++ "(").toList <+: b.name.toList)
    {code : String} (hcode : m.signCodeIn javaName q = .ok code) :
    ¬ Due chosen.signCodes listener m code := by
  intro hdue
  obtain ⟨b, hb, hsign⟩ := List.mem_map.1 hdue.selected
  obtain ⟨hdeclaring, hother⟩ := hchosen b hb
  obtain ⟨name, spelled, descriptor, hname, -, -, rfl⟩ := Member.signCodeIn_eq_ok.1 hcode
  obtain rfl := Except.ok.inj ((hpq.getUtf8 hinit).symm.trans hname)
  rw [Behavior.signCode, hdeclaring] at hsign
  exact (name_of_signCode_eq hsign.symm).elim hother (hnames b hb)

theorem Became.eq_none_iff (h : Became javaName q chosen.signCodes listener m x) :
    x.2 = none ↔
      ∀ code, m.signCodeIn javaName q = .ok code → ¬ Due chosen.signCodes listener m code := by
  cases h with
  | kept hcode hnot =>
    refine iff_of_true rfl fun code hcode' => ?_
    cases hcode.symm.trans hcode'
    exact hnot
  | woven new hcode hdue => exact iff_of_false nofun fun h => h _ hcode hdue

/-- What a type knows of a method, and what weaving makes of the method: they agree, unless it is a static
initialiser that is due. -/
theorem Became.asked_iff (h : Became javaName q chosen.signCodes listener m x) (hpq : p.Within q)
    {found : Option Behavior} (hfound : StructuralType.behaviorOf p javaName m = .ok found) :
    x.2 = asked p javaName chosen listener m ↔
      (p.getUtf8 m.name = .ok staticInitializerName →
        ∀ code, m.signCodeIn javaName q = .ok code → ¬ Due chosen.signCodes listener m code) := by
  cases found with
  | some b =>
    obtain ⟨-, hname, hother⟩ := StructuralType.behaviorOf_signCode hfound
    refine iff_of_true (h.eq_asked hpq hfound) fun hinit => ?_
    exact absurd (Except.ok.inj (hname.symm.trans hinit)) hother
  | none =>
    have hnone : asked p javaName chosen listener m = none := by
      unfold asked
      rw [hfound]
    rw [hnone, h.eq_none_iff]
    exact ⟨fun hdue _ => hdue, fun hdue => hdue (StructuralType.behaviorOf_eq_none hfound)⟩

/-- A property of the elements of a list that holds exactly where a relation to a second list does. -/
theorem forall₂_iff_of_agree {α β : Type} {R : α → β → Prop} {P : α → Prop} {as : List α} {bs : List β}
    (h : List.Forall₂ (fun a b => R a b ↔ P a) as bs) : List.Forall₂ R as bs ↔ ∀ a ∈ as, P a := by
  induction h with
  | nil => simp
  | cons hab _ ih => rw [List.forall₂_cons, hab, ih, List.forall_mem_cons]

theorem wovenFor_of_became {boundary : Boundary} {members : List (Member × Option String)}
    (ht : StructuralType.ofClassFile c boundary = .ok t)
    (hchosen : ∀ b ∈ chosen.behaviors, b ∈ t.behaviors) (hpq : c.pool.Within q)
    (hbecame : List.Forall₂ (Became t.javaName q chosen.signCodes listener) c.methods members) :
    WovenFor t chosen listener c q members := by
  obtain ⟨-, found, hfound, hbehaviors⟩ := StructuralType.ofClassFile_eq_ok ht
  have agree : List.Forall₂ (fun m x => x.2 = asked c.pool t.javaName chosen listener m ↔
      (c.pool.getUtf8 m.name = .ok staticInitializerName →
        ∀ code, m.signCodeIn t.javaName q = .ok code → ¬ Due chosen.signCodes listener m code))
      c.methods members := by
    refine forall₂_imp_of_mem hbecame fun m hm x _ hx => ?_
    obtain ⟨b, -, hb⟩ := (mem_forall₂ hfound).1 m hm
    exact hx.asked_iff hpq hb
  have exact_iff : members.map (·.2) = c.methods.map (asked c.pool t.javaName chosen listener) ↔
      ∀ m ∈ c.methods, c.pool.getUtf8 m.name = .ok staticInitializerName →
        ∀ code, m.signCodeIn t.javaName q = .ok code → ¬ Due chosen.signCodes listener m code := by
    rw [← forall₂_iff_of_agree agree, eq_comm, ← List.forall₂_eq_eq_eq, List.forall₂_map_left_iff,
      List.forall₂_map_right_iff]
    simp only [eq_comm]
  refine ⟨hbecame, agree.imp fun m x hx hother => hx.2 fun hinit => absurd hinit hother, exact_iff,
    fun hnames => exact_iff.2 fun m _ hinit code hcode => ?_⟩
  refine not_due_of_names hpq hinit (fun b hb => ?_) hnames hcode
  have hb := hchosen b hb
  refine ⟨(StructuralType.behaviors_of_ofClassFile ht hb).1, ?_⟩
  rw [hbehaviors] at hb
  obtain ⟨_, hmem, rfl⟩ := List.mem_filterMap.1 hb
  obtain ⟨m', -, hm'⟩ := (mem_forall₂ hfound).2 _ hmem
  exact (StructuralType.behaviorOf_signCode hm').2.2

/-- What weaving for a selection of behaviors of the type does when it succeeds: the methods are rewritten
as `WovenFor` says, and what was rewritten is what is reported and written. -/
theorem weave_selection {boundary : Boundary} (ht : StructuralType.ofBytes bytes boundary = .ok t)
    (hchosen : ∀ b ∈ chosen.behaviors, b ∈ t.behaviors) {out : Woven}
    (h : w.weave loader bytes chosen.signCodes = .ok out) :
    ∃ c q members, ClassFile.parse bytes = .ok c ∧ WovenFor t chosen w.listener c q members ∧
      out.behaviors = members.filterMap (·.2) ∧ (out.isModified = false → out.bytes = bytes) ∧
      (out.isModified = true →
        ({ c with pool := q, methods := members.map (·.1) } : ClassFile).toBytes = .ok out.bytes) := by
  obtain ⟨c, hc, ht⟩ := bind_eq_ok.1 ht
  obtain ⟨q, members, hrewrite, hbehaviors, hsame, hbytes⟩ := weave_eq_ok hc h
  obtain ⟨owner, superName, howner, -, hrun⟩ := rewrite_eq_ok.1 hrewrite
  obtain ⟨hgrows, -, hbecame⟩ := methods_became (ClassFile.pool_sound hc) hrun
  obtain ⟨⟨owner', howner', hname⟩, -⟩ := StructuralType.ofClassFile_eq_ok ht
  cases howner.symm.trans howner'
  have hbecame : List.Forall₂ (Became t.javaName q chosen.signCodes w.listener) c.methods members := by
    rw [hname]
    exact hbecame.imp fun _ _ h => h.1
  exact ⟨c, q, members, hc, wovenFor_of_became ht hchosen hgrows.within hbecame, hbehaviors, hsame,
    hbytes⟩

/-- One of two methods is selected, and is what is woven. -/
theorem weave_selection_twoMethods : ∃ t chosen out c q members,
    StructuralType.ofBytes twoMethods .bootstrap = .ok t ∧ t.behaviors.length = 2 ∧
    (∀ b ∈ chosen.behaviors, b ∈ t.behaviors) ∧ chosen.signCodes = ["A#m()"] ∧
    startWeaver.weave 0 twoMethods chosen.signCodes = .ok out ∧ out.behaviors = ["A#m()"] ∧
    ClassFile.parse twoMethods = .ok c ∧ WovenFor t chosen 7 c q members := by
  have hcheck : (StructuralType.ofBytes twoMethods .bootstrap).toOption.any (fun t =>
      t.behaviors.length == 2 &&
      (Selection.filter t (·.name == "m")).behaviors.all (t.behaviors.contains ·) &&
      (Selection.filter t (·.name == "m")).signCodes == ["A#m()"]) := by
    decide +kernel
  obtain ⟨t, ht, hcheck⟩ := any_toOption.1 hcheck
  simp only [Bool.and_eq_true, beq_iff_eq, List.all_eq_true, List.contains_iff_mem] at hcheck
  obtain ⟨⟨hlength, hchosen⟩, hcodes⟩ := hcheck
  obtain ⟨_, out, -, -, -, -, hout, hbehaviors⟩ := twoMethods_weaves
  rw [← hcodes] at hout
  obtain ⟨c, q, members, hc, hwoven, -⟩ := weave_selection ht hchosen hout
  exact ⟨t, _, out, c, q, members, ht, hlength, hchosen, hcodes, hout, hbehaviors, hc, hwoven⟩

/-- A class with a static initialiser that takes an argument, and a method whose name begins like the
signature code of the initialiser. -/
def initialiserClass : Bytes :=
  [0xCA, 0xFE, 0xBA, 0xBE, 0, 0, 0, 49, 0, 10,
    1, 0, 11, 0x64, 0x65, 0x6D, 0x6F, 0x2F, 0x53, 0x61, 0x6D, 0x70, 0x6C, 0x65, 7, 0, 1,
    1, 0, 16, 0x6A, 0x61, 0x76, 0x61, 0x2F, 0x6C, 0x61, 0x6E, 0x67, 0x2F,
      0x4F, 0x62, 0x6A, 0x65, 0x63, 0x74, 7, 0, 3,
    1, 0, 8, 0x3C, 0x63, 0x6C, 0x69, 0x6E, 0x69, 0x74, 0x3E,
    1, 0, 9, 0x28, 0x4C, 0x61, 0x29, 0x28, 0x62, 0x3B, 0x29, 0x56,
    1, 0, 11, 0x3C, 0x63, 0x6C, 0x69, 0x6E, 0x69, 0x74, 0x3E, 0x28, 0x61, 0x29,
    1, 0, 6, 0x28, 0x4C, 0x62, 0x3B, 0x29, 0x56, 1, 0, 4, 0x43, 0x6F, 0x64, 0x65,
    0, 0x21, 0, 2, 0, 4, 0, 0, 0, 0, 0, 2,
    0, 9, 0, 5, 0, 6, 0, 1, 0, 9, 0, 0, 0, 13, 0, 0, 0, 1, 0, 0, 0, 1, 177, 0, 0, 0, 0,
    0, 9, 0, 7, 0, 8, 0, 1, 0, 9, 0, 0, 0, 13, 0, 0, 0, 1, 0, 0, 0, 1, 177, 0, 0, 0, 0, 0, 0]

/-- Both methods become short code, and what they need to be written is there. -/
def bothWoven (code : String) (q : Pool) (members : List (Member × Option String)) : Bool :=
  members.map (·.2) == [some code, some code] && members.all (fun x => isPlain x.1) &&
    q.write.toOption.any (fun _ => true) &&
    (attributeNameSlot q "Code").toOption.any (fun _ => true) &&
    (attributeNameSlot q Listeners.attributeName).toOption.any (fun _ => true)

/-- Only the method is selected, and the static initialiser is woven with it. -/
theorem weave_selection_initialiser : ∃ t chosen out c,
    StructuralType.ofBytes initialiserClass .bootstrap = .ok t ∧
    (∀ b ∈ chosen.behaviors, b ∈ t.behaviors) ∧
    startWeaver.weave 7 initialiserClass chosen.signCodes = .ok out ∧
    ClassFile.parse initialiserClass = .ok c ∧
    c.methods.filterMap (asked c.pool t.javaName chosen startWeaver.listener)
      = ["demo.Sample#<clinit>(a)(b)"] ∧
    out.behaviors = ["demo.Sample#<clinit>(a)(b)", "demo.Sample#<clinit>(a)(b)"] := by
  have hmodel : (StructuralType.ofBytes initialiserClass .bootstrap).toOption.any (fun t =>
      (Selection.all t).behaviors.all (t.behaviors.contains ·) &&
      (Selection.all t).signCodes == ["demo.Sample#<clinit>(a)(b)"] &&
      (ClassFile.parse initialiserClass).toOption.any fun c =>
        c.fields.isEmpty && c.attributes.isEmpty &&
        c.methods.filterMap (asked c.pool t.javaName (Selection.all t) startWeaver.listener)
          == ["demo.Sample#<clinit>(a)(b)"] &&
        (startWeaver.rewrite 7 c ["demo.Sample#<clinit>(a)(b)"]).toOption.any
          fun x => bothWoven "demo.Sample#<clinit>(a)(b)" x.1 x.2) := by
    decide +kernel
  obtain ⟨t, ht, hmodel⟩ := any_toOption.1 hmodel
  simp only [Bool.and_eq_true, beq_iff_eq, List.all_eq_true, List.contains_iff_mem] at hmodel
  obtain ⟨⟨hchosen, hcodes⟩, hclass⟩ := hmodel
  obtain ⟨c, hc, hclass⟩ := any_toOption.1 hclass
  simp only [Bool.and_eq_true, beq_iff_eq, List.isEmpty_iff] at hclass
  obtain ⟨⟨⟨hfields, hattributes⟩, hasked⟩, hrewrite⟩ := hclass
  obtain ⟨⟨q, members⟩, hrewrite, hboth⟩ := any_toOption.1 hrewrite
  simp only [bothWoven, Bool.and_eq_true, beq_iff_eq, List.all_eq_true, any_toOption, and_true]
    at hboth
  obtain ⟨⟨⟨⟨hmembers, hplain⟩, hpool⟩, hcode⟩, hlisteners⟩ := hboth
  have hbehaviors : members.filterMap (·.2)
      = ["demo.Sample#<clinit>(a)(b)", "demo.Sample#<clinit>(a)(b)"] := by
    have hfilter : members.filterMap (·.2) = (members.map (·.2)).filterMap id := by
      rw [List.filterMap_map]
      rfl
    rw [hfilter, hmembers]
    rfl
  obtain ⟨out, hout⟩ := toBytes_of_methods (c := { c with pool := q, methods := members.map (·.1) })
    hfields hattributes hpool (List.forall_mem_map.2 fun x hx =>
      written_of_isPlain (hplain x hx) hcode hlisteners)
  refine ⟨t, .all t, { bytes := out, behaviors := members.filterMap (·.2) }, c, ht, hchosen, ?_, hc,
    hasked, hbehaviors⟩
  rw [hcodes]
  exact weave_of_rewrite hc hrewrite (by rw [hbehaviors]; rfl) hout

end Weaver

end Interpose
