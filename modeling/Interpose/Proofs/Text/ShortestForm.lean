import Interpose.Proofs.ClassFile.Reading
/-!
# Shortest forms

Modified UTF-8 has several forms for one text: a code unit may stand in a longer group than it needs.
A form is shortest if no other form of the same text has fewer bytes. There is one shortest form of
every text, and it is what `encode` gives.

Results:
* `decode_encode`: every text comes back from its encoding.
* `encode_rewrites`: encoding a decoded text never gives more bytes, and gives the same bytes exactly
  if they were a shortest form.
-/

namespace Interpose.ModifiedUtf8

/-- No bytes with the same text are fewer. -/
def IsShortest (bytes : Bytes) : Prop :=
  ∀ other, decode other = decode bytes → bytes.length ≤ other.length

/-! ## Groups -/

variable {us vs : List Nat} {u : Nat} {rest bs : Bytes}

/-- A group of one, two or three bytes and the code unit it stands for. -/
inductive Group : Nat → Bytes → Prop where
  | one (a : UInt8) (low : 0 < a.toNat) (high : a.toNat < 0x80) : Group a.toNat [a]
  | two (a b : UInt8) (low : 0xC0 ≤ a.toNat) (high : a.toNat < 0xE0) (hb : isContinuation b) :
      Group ((a.toNat - 0xC0) * 0x40 + (b.toNat - 0x80)) [a, b]
  | three (a b c : UInt8) (low : 0xE0 ≤ a.toNat) (high : a.toNat < 0xF0) (hb : isContinuation b)
      (hc : isContinuation c) :
      Group ((a.toNat - 0xE0) * 0x1000 + (b.toNat - 0x80) * 0x40 + (c.toNat - 0x80)) [a, b, c]

theorem isContinuation_iff {b : UInt8} : isContinuation b ↔ 0x80 ≤ b.toNat ∧ b.toNat < 0xC0 := by
  simp [isContinuation]

theorem Group.lt {g : Bytes} (h : Group u g) : u < 0x10000 := by
  cases h with
  | one a low high => omega
  | two a b low high hb =>
    have := isContinuation_iff.1 hb
    omega
  | three a b c low high hb hc =>
    have := isContinuation_iff.1 hb
    have := isContinuation_iff.1 hc
    omega

/-- A code unit is written in a group no longer than any it is read from; of one length there is one. -/
theorem Group.rewrites {g : Bytes} (h : Group u g) :
    Rewrites g (encodeUnit u) ((encodeUnit u).length = g.length) := by
  suffices (encodeUnit u).length ≤ g.length ∧
      ((encodeUnit u).length = g.length → encodeUnit u = g) from
    ⟨this.1, congrArg List.length, this.2⟩
  cases h with
  | one a low high =>
    rw [encodeUnit, if_pos ⟨low, high⟩, UInt8.ofNat_toNat]
    simp
  | two a b low high hb =>
    obtain ⟨hb, hb'⟩ := isContinuation_iff.1 hb
    unfold encodeUnit
    split
    · simp
    rw [if_pos (by omega)]
    refine ⟨by simp, fun _ => ?_⟩
    simp only [List.cons.injEq, ← UInt8.toNat_inj, UInt8.toNat_ofNat', and_true]
    omega
  | three a b c low high hb hc =>
    obtain ⟨hb, hb'⟩ := isContinuation_iff.1 hb
    obtain ⟨hc, hc'⟩ := isContinuation_iff.1 hc
    unfold encodeUnit
    split
    · simp
    split
    · simp
    refine ⟨by simp, fun _ => ?_⟩
    simp only [List.cons.injEq, ← UInt8.toNat_inj, UInt8.toNat_ofNat', and_true]
    omega

theorem group_encodeUnit (h : u < 0x10000) : Group u (encodeUnit u) := by
  have hmod (n : Nat) (hn : n < 0x100) : (UInt8.ofNat n).toNat = n := by
    rw [UInt8.toNat_ofNat']
    omega
  have hcont (n : Nat) (hn : 0x80 ≤ n) (hn' : n < 0xC0) : isContinuation (UInt8.ofNat n) := by
    rw [isContinuation_iff, hmod n (by omega)]
    exact ⟨hn, hn'⟩
  unfold encodeUnit
  split
  case isTrue hu =>
    have := Group.one (UInt8.ofNat u) (by rw [hmod u (by omega)]; omega)
      (by rw [hmod u (by omega)]; omega)
    rwa [hmod u (by omega)] at this
  split
  case isTrue hu =>
    have := Group.two (UInt8.ofNat (0xC0 + u / 0x40)) (UInt8.ofNat (0x80 + u % 0x40))
      (by rw [hmod _ (by omega)]; omega) (by rw [hmod _ (by omega)]; omega)
      (hcont _ (by omega) (by omega))
    rw [hmod _ (by omega), hmod _ (by omega)] at this
    convert this using 1
    omega
  case isFalse hu =>
    have := Group.three (UInt8.ofNat (0xE0 + u / 0x1000)) (UInt8.ofNat (0x80 + u / 0x40 % 0x40))
      (UInt8.ofNat (0x80 + u % 0x40)) (by rw [hmod _ (by omega)]; omega)
      (by rw [hmod _ (by omega)]; omega) (hcont _ (by omega) (by omega))
      (hcont _ (by omega) (by omega))
    rw [hmod _ (by omega), hmod _ (by omega), hmod _ (by omega)] at this
    convert this using 1
    omega

theorem decodeUnitsOnto_group {g : Bytes} (h : Group u g) (done : List Nat) :
    decodeUnitsOnto done (g ++ rest) = decodeUnitsOnto (u :: done) rest := by
  cases h with
  | one a low high =>
    rw [List.singleton_append, decodeUnitsOnto.eq_def]
    simp only
    rw [if_pos ⟨low, high⟩]
  | two a b low high hb =>
    rw [List.cons_append, List.singleton_append, decodeUnitsOnto.eq_def]
    simp only
    rw [if_neg (by omega), if_pos ⟨low, high⟩]
    simp only [hb, if_true]
  | three a b c low high hb hc =>
    rw [List.cons_append, List.cons_append, List.singleton_append, decodeUnitsOnto.eq_def]
    simp only
    rw [if_neg (by omega), if_neg (by omega), if_pos ⟨low, high⟩]
    simp only [hb, hc, Bool.and_self, if_true]

/-- Bytes that can be read are a sequence of groups. -/
theorem groups_of_decodeUnitsOnto {done : List Nat} (h : decodeUnitsOnto done bs = some us) :
    ∃ groups : List (Nat × Bytes), (∀ g ∈ groups, Group g.1 g.2) ∧ bs = groups.flatMap Prod.snd ∧
      us = done.reverse ++ groups.map Prod.fst := by
  fun_induction decodeUnitsOnto done bs with
  | case1 done =>
    cases h
    exact ⟨[], nofun, rfl, by simp⟩
  | case2 done a rest hlow ih =>
    obtain ⟨groups, hg, rfl, rfl⟩ := ih h
    exact ⟨(_, [a]) :: groups, List.forall_mem_cons.2 ⟨.one a hlow.1 hlow.2, hg⟩, rfl, by simp⟩
  | case3 done a _ htwo b rest hb ih =>
    obtain ⟨groups, hg, rfl, rfl⟩ := ih h
    exact ⟨(_, [a, b]) :: groups, List.forall_mem_cons.2 ⟨.two a b htwo.1 htwo.2 hb, hg⟩, rfl,
      by simp⟩
  | case6 done a _ _ hthree b c rest hbc ih =>
    obtain ⟨groups, hg, rfl, rfl⟩ := ih h
    rw [Bool.and_eq_true] at hbc
    exact ⟨(_, [a, b, c]) :: groups,
      List.forall_mem_cons.2 ⟨.three a b c hthree.1 hthree.2 hbc.1 hbc.2, hg⟩, rfl, by simp⟩
  | _ => cases h

theorem decodeUnitsOnto_encodeUnits (hus : ∀ u ∈ us, u < 0x10000) (done : List Nat) :
    decodeUnitsOnto done (us.flatMap encodeUnit) = some (done.reverse ++ us) := by
  induction us generalizing done with
  | nil => simp [decodeUnitsOnto.eq_def]
  | cons u us ih =>
    obtain ⟨hu, hus⟩ := List.forall_mem_cons.1 hus
    rw [List.flatMap_cons, decodeUnitsOnto_group (group_encodeUnit hu), ih hus, List.reverse_cons,
      List.append_assoc, List.singleton_append]

theorem encodeUnits_rewrites (h : decodeUnits bs = some us) :
    Rewrites bs (us.flatMap encodeUnit) ((us.flatMap encodeUnit).length = bs.length) ∧
      ∀ u ∈ us, u < 0x10000 := by
  obtain ⟨groups, hg, rfl, rfl⟩ := groups_of_decodeUnitsOnto h
  clear h
  rw [List.reverse_nil, List.nil_append]
  induction groups with
  | nil => exact ⟨.congr .rfl (by simp), nofun⟩
  | cons g groups ih =>
    obtain ⟨hg, hgroups⟩ := List.forall_mem_cons.1 hg
    obtain ⟨ih, hlt⟩ := ih hgroups
    refine ⟨(hg.rewrites.append ih).congr ?_, List.forall_mem_cons.2 ⟨hg.lt, hlt⟩⟩
    have := hg.rewrites.length_le
    have := ih.length_le
    simp only [List.flatMap_cons, List.map_cons, List.length_append]
    omega

/-! ## Characters -/

theorem units_ofList (cs : List Char) : units (String.ofList cs) = cs.flatMap unitsOfChar := by
  simp [units]

theorem toNat_ofNat {n : Nat} (h : n.isValidChar) : (Char.ofNat n).toNat = n := by
  rw [Char.ofNat, dif_pos h]
  rfl

theorem toNat_valid (c : Char) : c.toNat < 0xD800 ∨ 0xDFFF < c.toNat ∧ c.toNat < 0x110000 :=
  c.valid

theorem unit_lt {c : Char} (h : u ∈ unitsOfChar c) : u < 0x10000 := by
  have := toNat_valid c
  unfold unitsOfChar at h
  split at h
  · rw [List.mem_singleton] at h
    omega
  · simp only [List.mem_cons, List.not_mem_nil, or_false] at h
    omega

theorem isHighSurrogate_iff : isHighSurrogate u ↔ 0xD800 ≤ u ∧ u < 0xDC00 := by
  simp [isHighSurrogate]

theorem isLowSurrogate_iff : isLowSurrogate u ↔ 0xDC00 ≤ u ∧ u < 0xE000 := by
  simp [isLowSurrogate]

theorem charsOnto_unitsOfChar (c : Char) (done : List Char) :
    charsOnto done (unitsOfChar c ++ us) = charsOnto (c :: done) us := by
  have hc := toNat_valid c
  unfold unitsOfChar
  split
  case isTrue hlow =>
    rw [List.singleton_append, charsOnto.eq_def]
    simp only
    rw [if_neg (by rw [isHighSurrogate_iff]; omega), if_neg (by rw [isLowSurrogate_iff]; omega),
      Char.ofNat_toNat]
  case isFalse hhigh =>
    have hvalue : 0x10000 + (0xD800 + (c.toNat - 0x10000) / 0x400 - 0xD800) * 0x400
        + (0xDC00 + (c.toNat - 0x10000) % 0x400 - 0xDC00) = c.toNat := by omega
    rw [List.cons_append, List.singleton_append, charsOnto.eq_def]
    simp only
    rw [if_pos (by rw [isHighSurrogate_iff]; omega), if_pos (by rw [isLowSurrogate_iff]; omega),
      hvalue, Char.ofNat_toNat]

theorem charsOnto_units (cs done : List Char) :
    charsOnto done (cs.flatMap unitsOfChar) = some (done.reverse ++ cs) := by
  induction cs generalizing done with
  | nil => simp [charsOnto.eq_def]
  | cons c cs ih =>
    rw [List.flatMap_cons, charsOnto_unitsOfChar, ih, List.reverse_cons, List.append_assoc,
      List.singleton_append]

/-- Characters read from code units have these code units. -/
theorem units_of_charsOnto {done cs : List Char} (hus : ∀ u ∈ us, u < 0x10000)
    (h : charsOnto done us = some cs) :
    ∃ new, cs = done.reverse ++ new ∧ new.flatMap unitsOfChar = us := by
  fun_induction charsOnto done us with
  | case1 done =>
    cases h
    exact ⟨[], by simp, rfl⟩
  | case2 done u hu v rest hv ih =>
    rw [isHighSurrogate_iff] at hu
    rw [isLowSurrogate_iff] at hv
    obtain ⟨new, rfl, rfl⟩ := ih (fun w hw => hus w (by simp [hw])) h
    refine ⟨_ :: new, by rw [List.reverse_cons, List.append_assoc, List.singleton_append], ?_⟩
    have hfirst : 0xD800 + (0x10000 + (u - 0xD800) * 0x400 + (v - 0xDC00) - 0x10000) / 0x400 = u := by
      omega
    have hsecond : 0xDC00 + (0x10000 + (u - 0xD800) * 0x400 + (v - 0xDC00) - 0x10000) % 0x400 = v := by
      omega
    rw [List.flatMap_cons, unitsOfChar, toNat_ofNat (by simp only [Nat.isValidChar]; omega),
      if_neg (by omega), hfirst, hsecond, List.cons_append, List.singleton_append]
  | case6 done u rest hhigh hlow ih =>
    rw [isHighSurrogate_iff] at hhigh
    rw [isLowSurrogate_iff] at hlow
    have hu := hus u (by simp)
    obtain ⟨new, rfl, rfl⟩ := ih (fun w hw => hus w (by simp [hw])) h
    refine ⟨_ :: new, by rw [List.reverse_cons, List.append_assoc, List.singleton_append], ?_⟩
    rw [List.flatMap_cons, unitsOfChar, toNat_ofNat (by simp only [Nat.isValidChar]; omega),
      if_pos (by omega), List.singleton_append]
  | _ => cases h

/-! ## Texts -/

/-- Bytes that are characters by themselves are groups of one byte each. -/
theorem decodeUnitsOnto_plain (h : bs.all isPlain = true) (done : List Nat) :
    decodeUnitsOnto done bs = some (done.reverse ++ bs.map UInt8.toNat) := by
  induction bs generalizing done with
  | nil => simp [decodeUnitsOnto.eq_def]
  | cons b bs ih =>
    rw [List.all_cons, Bool.and_eq_true, isPlain, Bool.and_eq_true, decide_eq_true_iff,
      decide_eq_true_iff] at h
    rw [decodeUnitsOnto.eq_def]
    dsimp only
    rw [if_pos h.1, ih h.2]
    simp

/-- None of their code units is a surrogate. -/
theorem charsOnto_plain (h : bs.all isPlain = true) (done : List Char) :
    charsOnto done (bs.map UInt8.toNat) = some (done.reverse ++ bs.map fun b => Char.ofNat b.toNat) := by
  induction bs generalizing done with
  | nil => simp [charsOnto.eq_def]
  | cons b bs ih =>
    rw [List.all_cons, Bool.and_eq_true, isPlain, Bool.and_eq_true, decide_eq_true_iff,
      decide_eq_true_iff] at h
    have hhigh : ¬ isHighSurrogate b.toNat := by rw [isHighSurrogate_iff]; omega
    have hlow : ¬ isLowSurrogate b.toNat := by rw [isLowSurrogate_iff]; omega
    rw [List.map_cons, charsOnto.eq_def]
    dsimp only
    rw [if_neg hhigh, if_neg hlow, ih h.2]
    simp

/-- What is read without groups is what would be read with them. -/
theorem ofUnits_plain (h : bs.all isPlain = true) : (decodeUnits bs).bind ofUnits =
    some (String.ofList (bs.map fun b => Char.ofNat b.toNat)) := by
  rw [decodeUnits, decodeUnitsOnto_plain h, Option.bind_some, ofUnits, List.reverse_nil, List.nil_append,
    charsOnto_plain h]
  rfl

theorem decode_eq_ok {text : String} :
    decode bs = .ok text ↔ ∃ us, decodeUnits bs = some us ∧ ofUnits us = some text := by
  rw [decode, ← Option.bind_eq_some_iff]
  split
  case isTrue h => rw [ofUnits_plain h, Except.ok.injEq, Option.some.injEq]
  case isFalse =>
    cases (decodeUnits bs).bind ofUnits with
    | none => simp
    | some found => simp

theorem decode_encode (text : String) : decode (encode text) = .ok text := by
  refine decode_eq_ok.2 ⟨units text, decodeUnitsOnto_encodeUnits (fun u hu => ?_) [], ?_⟩
  · obtain ⟨c, -, hc⟩ := List.mem_flatMap.1 hu
    exact unit_lt hc
  · rw [ofUnits, units, charsOnto_units]
    simp

/-- Encoding a decoded text gives the same bytes exactly if they were a shortest form of it. -/
theorem encode_rewrites {text : String} (h : decode bs = .ok text) :
    Rewrites bs (encode text) (IsShortest bs) := by
  have shortens {bytes : Bytes} (h : decode bytes = .ok text) :
      Rewrites bytes (encode text) ((encode text).length = bytes.length) := by
    obtain ⟨us, hus, htext⟩ := decode_eq_ok.1 h
    obtain ⟨hrewrites, hlt⟩ := encodeUnits_rewrites hus
    obtain ⟨cs, hcs, rfl⟩ := Option.map_eq_some_iff.1 htext
    obtain ⟨new, rfl, rfl⟩ := units_of_charsOnto hlt hcs
    rwa [encode, units_ofList]
  refine (shortens h).congr ⟨fun hlen other hother => ?_, fun hshort => ?_⟩
  · rw [← hlen]
    exact (shortens (hother.trans h)).length_le
  · exact Nat.le_antisymm (shortens h).length_le (hshort _ ((decode_encode text).trans h.symm))

/-- NUL takes two bytes; the group of three that also stands for it is not a shortest form. -/
example : encode "\x00" = [0xC0, 0x80] ∧ decode [0xE0, 0x80, 0x80] = .ok "\x00" := by
  decide +kernel

end Interpose.ModifiedUtf8
