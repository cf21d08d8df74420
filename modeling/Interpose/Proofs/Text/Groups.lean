import Mathlib.Data.List.Forall2
import Interpose.Proofs.Text.ShortestForm
/-!
# What bytes encode

Bytes encode a text if they can be cut into groups for its code units, and no other bytes encode
anything. Which sequences of code units belong to a text is said by `Paired`, without the reader.

Results:
* `exists_units_iff`: code units belong to a text exactly if no surrogate among them stands alone.
* `decode_iff_groups`: every text comes back from its encoding, bytes are read as a text exactly if
  they are groups for its code units, and they are its encoding exactly if no group is too long.
-/

namespace Interpose.ModifiedUtf8

variable {us : List Nat} {u : Nat} {groups : List Bytes}

/-! ## Surrogates -/

/-- No surrogate stands alone: the first half of a pair is directly followed by a second half, and a
second half stands directly behind a first. -/
def Paired (us : List Nat) : Prop :=
  ∀ i u, us[i]? = some u →
    (isHighSurrogate u → ∃ v, us[i + 1]? = some v ∧ isLowSurrogate v) ∧
    (isLowSurrogate u → ∃ j v, i = j + 1 ∧ us[j]? = some v ∧ isHighSurrogate v)

theorem not_isLowSurrogate_of_isHighSurrogate (h : isHighSurrogate u) : ¬ isLowSurrogate u := by
  rw [isHighSurrogate_iff] at h
  rw [isLowSurrogate_iff]
  omega

theorem paired_nil : Paired [] := nofun

/-- A unit that is no surrogate does not matter. -/
theorem paired_cons_plain (hhigh : ¬ isHighSurrogate u) (hlow : ¬ isLowSurrogate u) :
    Paired (u :: us) ↔ Paired us := by
  constructor
  · intro h i v hv
    obtain ⟨hfirst, hsecond⟩ := h (i + 1) v hv
    refine ⟨hfirst, fun hl => ?_⟩
    obtain ⟨j, w, hj, hw, hwhigh⟩ := hsecond hl
    cases Nat.succ.inj hj
    cases i with
    | zero =>
      cases hw
      exact absurd hwhigh hhigh
    | succ i => exact ⟨i, w, rfl, hw, hwhigh⟩
  · intro h i v hv
    cases i with
    | zero =>
      cases hv
      exact ⟨fun hh => absurd hh hhigh, fun hl => absurd hl hlow⟩
    | succ i =>
      obtain ⟨hfirst, hsecond⟩ := h i v hv
      refine ⟨hfirst, fun hl => ?_⟩
      obtain ⟨j, w, rfl, hw, hwhigh⟩ := hsecond hl
      exact ⟨j + 1, w, rfl, hw, hwhigh⟩

/-- Neither does a pair. -/
theorem paired_cons_pair {v : Nat} (hu : isHighSurrogate u) (hv : isLowSurrogate v) :
    Paired (u :: v :: us) ↔ Paired us := by
  constructor
  · intro h i w hw
    obtain ⟨hfirst, hsecond⟩ := h (i + 2) w hw
    refine ⟨hfirst, fun hl => ?_⟩
    obtain ⟨j, x, hj, hx, hxhigh⟩ := hsecond hl
    cases Nat.succ.inj hj
    cases i with
    | zero =>
      cases hx
      exact absurd hv (not_isLowSurrogate_of_isHighSurrogate hxhigh)
    | succ i => exact ⟨i, x, rfl, hx, hxhigh⟩
  · intro h i w hw
    match i with
    | 0 =>
      cases hw
      exact ⟨fun _ => ⟨v, rfl, hv⟩, fun hl => absurd hl (not_isLowSurrogate_of_isHighSurrogate hu)⟩
    | 1 =>
      cases hw
      exact ⟨fun hh => absurd hv (not_isLowSurrogate_of_isHighSurrogate hh), fun _ => ⟨0, u, rfl, rfl, hu⟩⟩
    | i + 2 =>
      obtain ⟨hfirst, hsecond⟩ := h i w hw
      refine ⟨hfirst, fun hl => ?_⟩
      obtain ⟨j, x, rfl, hx, hxhigh⟩ := hsecond hl
      exact ⟨j + 2, x, rfl, hx, hxhigh⟩

/-- A first half that no second half follows stands alone. -/
theorem not_paired_high (hu : isHighSurrogate u) (hnext : ∀ v, us.head? = some v → ¬ isLowSurrogate v) :
    ¬ Paired (u :: us) := by
  intro h
  obtain ⟨v, hv, hlow⟩ := (h 0 u rfl).1 hu
  rw [List.getElem?_cons_succ, ← List.head?_eq_getElem?] at hv
  exact hnext v hv hlow

/-- So does a second half that comes first. -/
theorem not_paired_low (hu : isLowSurrogate u) : ¬ Paired (u :: us) := by
  intro h
  obtain ⟨j, v, hj, -⟩ := (h 0 u rfl).2 hu
  cases hj

/-- The characters of code units can be read exactly if no surrogate stands alone. -/
theorem charsOnto_isSome_iff (done : List Char) : (charsOnto done us).isSome ↔ Paired us := by
  fun_induction charsOnto done us with
  | case1 done => exact iff_of_true rfl paired_nil
  | case2 done u hu v rest hv ih => rw [ih, paired_cons_pair hu hv]
  | case3 done u hu v rest hv =>
    refine iff_of_false (by simp) (not_paired_high hu fun w hw => ?_)
    cases hw
    exact hv
  | case4 done u hu =>
    refine iff_of_false (by simp) (not_paired_high hu fun w hw => ?_)
    cases hw
  | case5 done u rest hhigh hlow => exact iff_of_false (by simp) (not_paired_low hlow)
  | case6 done u rest hhigh hlow ih => rw [ih, paired_cons_plain hhigh hlow]

theorem units_lt (text : String) : ∀ u ∈ units text, u < 0x10000 := by
  intro u hu
  obtain ⟨c, -, hc⟩ := List.mem_flatMap.1 hu
  exact unit_lt hc

/-- The text with given code units is the one that has them. -/
theorem ofUnits_eq_some {text : String} (hus : ∀ u ∈ us, u < 0x10000) :
    ofUnits us = some text ↔ units text = us := by
  constructor
  · intro h
    obtain ⟨cs, hcs, rfl⟩ := Option.map_eq_some_iff.1 h
    obtain ⟨new, rfl, rfl⟩ := units_of_charsOnto hus hcs
    exact units_ofList _
  · rintro rfl
    rw [ofUnits, units, charsOnto_units]
    simp

/-- Code units belong to a text exactly if no surrogate among them stands alone. -/
theorem exists_units_iff : (∃ text, units text = us) ↔ (∀ u ∈ us, u < 0x10000) ∧ Paired us := by
  constructor
  · rintro ⟨text, rfl⟩
    refine ⟨units_lt text, (charsOnto_isSome_iff []).1 ?_⟩
    rw [units, charsOnto_units]
    rfl
  · rintro ⟨hus, hpaired⟩
    obtain ⟨cs, hcs⟩ := Option.isSome_iff_exists.1 ((charsOnto_isSome_iff []).2 hpaired)
    exact ⟨String.ofList cs, (ofUnits_eq_some hus).1 (by rw [ofUnits, hcs]; rfl)⟩

/-! ## Groups -/

/-- The bytes that a code unit needs. NUL needs two. -/
def groupSize (u : Nat) : Nat :=
  if u = 0 then 2 else if u < 0x80 then 1 else if u < 0x800 then 2 else 3

theorem length_encodeUnit (u : Nat) : (encodeUnit u).length = groupSize u := by
  unfold encodeUnit groupSize
  split
  · rw [if_neg (by omega), if_pos (by omega)]
    rfl
  · split
    · split
      · rfl
      · rw [if_neg (by omega)]
        rfl
    · rw [if_neg (by omega), if_neg (by omega)]
      rfl

/-- Bytes are read as code units exactly if they are groups for them. -/
theorem decodeUnits_eq_some {bytes : Bytes} :
    decodeUnits bytes = some us ↔ ∃ groups, List.Forall₂ Group us groups ∧ bytes = groups.flatten := by
  constructor
  · intro h
    obtain ⟨pairs, hg, rfl, rfl⟩ := groups_of_decodeUnitsOnto h
    refine ⟨pairs.map Prod.snd, ?_, List.flatMap_def⟩
    rw [List.reverse_nil, List.nil_append]
    exact List.forall₂_map_left_iff.2 (List.forall₂_map_right_iff.2 (List.forall₂_same.2 hg))
  · rintro ⟨groups, hg, rfl⟩
    have onto : ∀ done, decodeUnitsOnto done groups.flatten = some (done.reverse ++ us) := by
      induction hg with
      | nil => intro done; simp [decodeUnitsOnto.eq_def]
      | cons h _ ih =>
        intro done
        rw [List.flatten_cons, decodeUnitsOnto_group h, ih, List.reverse_cons, List.append_assoc,
          List.singleton_append]
    exact onto []

/-- Groups are those that are written exactly if none of them is longer than its unit needs. -/
theorem encodeUnits_eq_flatten (h : List.Forall₂ Group us groups) :
    us.flatMap encodeUnit = groups.flatten ↔
      List.Forall₂ (fun u g => g.length ≤ groupSize u) us groups := by
  have shorter : ∀ {us groups}, List.Forall₂ Group us groups →
      (us.flatMap encodeUnit).length ≤ groups.flatten.length := by
    intro us groups h
    induction h with
    | nil => exact Nat.le_refl _
    | cons hg _ ih =>
      rw [List.flatMap_cons, List.flatten_cons, List.length_append, List.length_append]
      exact Nat.add_le_add hg.rewrites.length_le ih
  induction h with
  | nil => exact iff_of_true rfl .nil
  | @cons u g us groups hg hrest ih =>
    have hfirst := hg.rewrites.length_le
    have hlast := shorter hrest
    rw [List.flatMap_cons, List.flatten_cons]
    refine Iff.trans ?_ (List.forall₂_cons.trans (and_congr_right fun _ => ih.symm)).symm
    rw [← length_encodeUnit]
    constructor
    · intro he
      have hlen := congrArg List.length he
      rw [List.length_append, List.length_append] at hlen
      obtain ⟨he, he'⟩ := List.append_inj he (by omega)
      exact ⟨Nat.le_of_eq (congrArg List.length he.symm), he'⟩
    · rintro ⟨hle, he⟩
      rw [he, hg.rewrites.eq_iff.2 (Nat.le_antisymm hfirst hle)]

/-! ## Texts -/

/-- Every text comes back from its encoding. Bytes are read as a text exactly if they can be cut into
groups that stand for its code units, among which no surrogate is alone; and however they are cut, they
are the encoding of the text exactly if no group is longer than its unit needs. -/
theorem decode_iff_groups :
    (∀ text, decode (encode text) = .ok text) ∧
    (∀ bytes text, decode bytes = .ok text ↔
      ∃ groups, List.Forall₂ Group (units text) groups ∧ bytes = groups.flatten) ∧
    (∀ us, (∃ text, units text = us) ↔ (∀ u ∈ us, u < 0x10000) ∧ Paired us) ∧
    ∀ text groups, List.Forall₂ Group (units text) groups →
      (encode text = groups.flatten ↔
        List.Forall₂ (fun u g => g.length ≤ groupSize u) (units text) groups) := by
  refine ⟨decode_encode, fun bytes text => ?_, fun us => exists_units_iff,
    fun text groups h => encodeUnits_eq_flatten h⟩
  rw [decode_eq_ok]
  constructor
  · rintro ⟨us, hus, htext⟩
    obtain ⟨groups, hg, rfl⟩ := decodeUnits_eq_some.1 hus
    have hlt : ∀ u ∈ us, u < 0x10000 := (encodeUnits_rewrites hus).2
    rw [(ofUnits_eq_some hlt).1 htext]
    exact ⟨groups, hg, rfl⟩
  · rintro ⟨groups, hg, rfl⟩
    exact ⟨units text, decodeUnits_eq_some.2 ⟨groups, hg, rfl⟩, (ofUnits_eq_some (units_lt text)).2 rfl⟩

/-- NUL in three bytes is read, but it is not what NUL is written in. A pair of surrogates in two groups
is one character. -/
theorem decode_iff_groups_overlong :
    decode [0xE0, 0x80, 0x80, 0xED, 0xA0, 0xBD, 0xED, 0xB8, 0x80] = .ok "\x00😀" ∧
      encode "\x00😀" ≠ [0xE0, 0x80, 0x80, 0xED, 0xA0, 0xBD, 0xED, 0xB8, 0x80] := by
  have hunits : units "\x00😀" = [0, 0xD83D, 0xDE00] := by decide +kernel
  have hgroups : List.Forall₂ Group (units "\x00😀")
      [[0xE0, 0x80, 0x80], [0xED, 0xA0, 0xBD], [0xED, 0xB8, 0x80]] := by
    rw [hunits]
    exact .cons (.three 0xE0 0x80 0x80 (by decide) (by decide) rfl rfl)
      (.cons (.three 0xED 0xA0 0xBD (by decide) (by decide) rfl rfl)
        (.cons (.three 0xED 0xB8 0x80 (by decide) (by decide) rfl rfl) .nil))
  obtain ⟨-, hdecode, -, hencode⟩ := decode_iff_groups
  refine ⟨(hdecode _ _).2 ⟨_, hgroups, rfl⟩, fun he => ?_⟩
  have hshort := (hencode _ _ hgroups).1 he
  rw [hunits, List.forall₂_cons] at hshort
  exact absurd hshort.1 (by decide)

end Interpose.ModifiedUtf8
