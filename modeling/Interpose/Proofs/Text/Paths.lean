import Interpose.Text.Path
/-!
# What a path shows

A path that a text names is shown as that text: the bytes of a character are read back as the character,
whatever was read before. So exactly the paths that some text names can be told from what they show.

Results:
* `Utf8Reader.foldl_utf8EncodeChar`: reading the bytes of one character.
* `Path.display_ofText`: a path that a text names is shown as that text.
* `Path.ofText_display_iff`: which paths are named by what they show.
-/

namespace Interpose

/-! ## First bytes -/

namespace Utf8Begun

variable {v : Nat}

theorem ofFirst_two (hlo : 2 ≤ v) (hhi : v < 0x20) : ofFirst (UInt8.ofNat (v + 0xC0)) =
    some { bytes := [UInt8.ofNat (v + 0xC0)], value := v, more := 0 } := by
  have hb : (UInt8.ofNat (v + 0xC0)).toNat = v + 0xC0 :=
    UInt8.toNat_ofNat_of_lt' (show _ < 256 by omega)
  simp only [ofFirst, hb, Nat.add_sub_cancel]
  rw [if_pos (by omega)]

theorem ofFirst_three (hhi : v < 0x10) : ofFirst (UInt8.ofNat (v + 0xE0)) =
    some { bytes := [UInt8.ofNat (v + 0xE0)], value := v, more := 1
           lo := if v = 0 then 0xA0 else 0x80
           hi := if v = 0xD then 0x9F else 0xBF } := by
  have hb : (UInt8.ofNat (v + 0xE0)).toNat = v + 0xE0 :=
    UInt8.toNat_ofNat_of_lt' (show _ < 256 by omega)
  simp only [ofFirst, hb, Nat.add_sub_cancel, Nat.add_eq_right, Nat.reduceEqDiff]
  rw [if_neg (by omega), if_pos (by omega)]

theorem ofFirst_four (hhi : v < 5) : ofFirst (UInt8.ofNat (v + 0xF0)) =
    some { bytes := [UInt8.ofNat (v + 0xF0)], value := v, more := 2
           lo := if v = 0 then 0x90 else 0x80
           hi := if v = 4 then 0x8F else 0xBF } := by
  have hb : (UInt8.ofNat (v + 0xF0)).toNat = v + 0xF0 :=
    UInt8.toNat_ofNat_of_lt' (show _ < 256 by omega)
  simp only [ofFirst, hb, Nat.add_sub_cancel, Nat.add_eq_right, Nat.reduceEqDiff]
  rw [if_neg (by omega), if_neg (by omega), if_pos (by omega)]

end Utf8Begun

/-! ## Reading a character -/

namespace Utf8Reader

variable {done : List Utf8Piece} {u : Utf8Begun} {bytes : Bytes} {n v value lo hi more : Nat}

theorem next_ascii (h : n < 0x80) :
    next { done } (UInt8.ofNat n) = { done := .char (Char.ofNat n) :: done } := by
  have hb : (UInt8.ofNat n).toNat = n := UInt8.toNat_ofNat_of_lt' (show _ < 256 by omega)
  simp only [next, start, hb]
  rw [if_pos h]

theorem next_first (hlo : 0x80 ≤ n) (hhi : n < 0x100) (h : Utf8Begun.ofFirst (UInt8.ofNat n) = some u) :
    next { done } (UInt8.ofNat n) = { done, begun := some u } := by
  have hb : (UInt8.ofNat n).toNat = n := UInt8.toNat_ofNat_of_lt' hhi
  simp only [next, start, hb, h]
  rw [if_neg (Nat.not_lt.2 hlo)]

/-- A byte that goes on with a character brings six bits of it. -/
theorem next_more (hlo : lo ≤ v + 0x80) (hhi : v + 0x80 ≤ hi) (hv : v < 0x40) :
    next { done, begun := some ⟨bytes, value, lo, hi, more + 1⟩ } (UInt8.ofNat (v + 0x80)) =
      { done, begun := some ⟨bytes ++ [UInt8.ofNat (v + 0x80)], value * 0x40 + v, 0x80, 0xBF, more⟩ } := by
  have hb : (UInt8.ofNat (v + 0x80)).toNat = v + 0x80 :=
    UInt8.toNat_ofNat_of_lt' (show _ < 256 by omega)
  simp only [next, hb, Nat.add_sub_cancel]
  rw [if_pos ⟨hlo, hhi⟩, if_neg (Nat.succ_ne_zero more)]

theorem next_last (hlo : lo ≤ v + 0x80) (hhi : v + 0x80 ≤ hi) (hv : v < 0x40) :
    next { done, begun := some ⟨bytes, value, lo, hi, 0⟩ } (UInt8.ofNat (v + 0x80)) =
      { done := .char (Char.ofNat (value * 0x40 + v)) :: done } := by
  have hb : (UInt8.ofNat (v + 0x80)).toNat = v + 0x80 :=
    UInt8.toNat_ofNat_of_lt' (show _ < 256 by omega)
  simp only [next, hb, Nat.add_sub_cancel]
  rw [if_pos ⟨hlo, hhi⟩, if_pos trivial]

theorem foldl_utf8EncodeChar (c : Char) (done : List Utf8Piece) :
    (String.utf8EncodeChar c).foldl next { done } = { done := .char c :: done } := by
  have hvalid : c.val.toNat < 0xD800 ∨ 0xDFFF < c.val.toNat ∧ c.val.toNat < 0x110000 := c.valid
  have hself : Char.ofNat c.val.toNat = c := Char.ofNat_toNat c
  rw [String.utf8EncodeChar]
  generalize c.val.toNat = n at hvalid hself ⊢
  subst hself
  -- by the number of bytes
  split
  · exact next_ascii (by omega)
  split
  · have hvalue : n / 64 % 32 * 64 + n % 64 = n := by omega
    rw [List.foldl_cons, next_first (by omega) (by omega) (Utf8Begun.ofFirst_two (by omega) (by omega)),
      List.foldl_cons, next_last (by omega) (by omega) (by omega), List.foldl_nil, hvalue]
  split
  · have hvalue : (n / 4096 % 16 * 64 + n / 64 % 64) * 64 + n % 64 = n := by omega
    rw [List.foldl_cons, next_first (by omega) (by omega) (Utf8Begun.ofFirst_three (by omega)),
      List.foldl_cons, next_more (by split <;> omega) (by split <;> omega) (by omega),
      List.foldl_cons, next_last (by omega) (by omega) (by omega), List.foldl_nil, hvalue]
  · have hvalue : ((n / 262144 % 8 * 64 + n / 4096 % 64) * 64 + n / 64 % 64) * 64 + n % 64 = n := by omega
    rw [List.foldl_cons, next_first (by omega) (by omega) (Utf8Begun.ofFirst_four (by omega)),
      List.foldl_cons, next_more (by split <;> omega) (by split <;> omega) (by omega),
      List.foldl_cons, next_more (by omega) (by omega) (by omega),
      List.foldl_cons, next_last (by omega) (by omega) (by omega), List.foldl_nil, hvalue]

theorem foldl_utf8EncodeChars (text : List Char) (done : List Utf8Piece) :
    (text.flatMap String.utf8EncodeChar).foldl next { done } =
      { done := (text.map Utf8Piece.char).reverse ++ done } := by
  induction text generalizing done with
  | nil => rfl
  | cons c text ih =>
    rw [List.flatMap_cons, List.foldl_append, foldl_utf8EncodeChar, ih, List.map_cons, List.reverse_cons,
      List.append_assoc]
    rfl

end Utf8Reader

/-! ## Paths and texts -/

namespace Path

theorem pieces_ofText (text : String) : (ofText text).pieces = text.toList.map .char := by
  rw [pieces, ofText, Utf8Reader.foldl_utf8EncodeChars, Utf8Reader.flush, List.append_nil,
    List.reverse_reverse]

theorem display_ofText (text : String) : (ofText text).display = text := by
  rw [display, pieces_ofText, List.map_map]
  exact (congrArg String.ofList (List.map_id _)).trans (String.ofList_toList)

/-- Only a path that some text names comes back from what it shows. -/
theorem ofText_display_iff {p : Path} : ofText p.display = p ↔ ∃ text, p = ofText text := by
  constructor
  · intro h
    exact ⟨_, h.symm⟩
  · rintro ⟨text, rfl⟩
    rw [display_ofText]

end Path

end Interpose
