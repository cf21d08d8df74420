import Interpose.ClassFile.Bytes
/-!
# Modified UTF-8

The encoding of text constants. A text is cut into 16-bit code units as in UTF-16, and every unit
becomes a group of one, two or three bytes by its size; NUL takes the two-byte form, so no zero
byte occurs, and a character outside the basic plane becomes two groups of three. Reading accepts
groups that are longer than their unit needs, but no unpaired surrogate.

`encode` and `decode` are stated over `units`, the code units of a text.
-/

namespace Interpose.ModifiedUtf8

/-- The 16-bit code units of one character. -/
def unitsOfChar (c : Char) : List Nat :=
  if c.toNat < 0x10000 then [c.toNat]
  else [0xD800 + (c.toNat - 0x10000) / 0x400, 0xDC00 + (c.toNat - 0x10000) % 0x400]

/-- The 16-bit code units of a text. -/
def units (text : String) : List Nat :=
  text.toList.flatMap unitsOfChar

/-- The shortest group of bytes for one code unit; NUL takes two bytes. -/
def encodeUnit (u : Nat) : Bytes :=
  if 0 < u ∧ u < 0x80 then [UInt8.ofNat u]
  else if u < 0x800 then [UInt8.ofNat (0xC0 + u / 0x40), UInt8.ofNat (0x80 + u % 0x40)]
  else [UInt8.ofNat (0xE0 + u / 0x1000), UInt8.ofNat (0x80 + u / 0x40 % 0x40),
    UInt8.ofNat (0x80 + u % 0x40)]

/-- The bytes of a text. -/
def encode (text : String) : Bytes :=
  (units text).flatMap encodeUnit

/-- Whether a byte continues a group. -/
def isContinuation (b : UInt8) : Bool :=
  0x80 ≤ b.toNat && b.toNat < 0xC0

/-- The code units of a sequence of groups, put behind the units read so far (latest first). -/
def decodeUnitsOnto (done : List Nat) : Bytes → Option (List Nat)
  | [] => some done.reverse
  | a :: rest =>
    if 0 < a.toNat ∧ a.toNat < 0x80 then decodeUnitsOnto (a.toNat :: done) rest
    else if 0xC0 ≤ a.toNat ∧ a.toNat < 0xE0 then
      match rest with
      | b :: rest =>
        if isContinuation b then
          decodeUnitsOnto (((a.toNat - 0xC0) * 0x40 + (b.toNat - 0x80)) :: done) rest
        else none
      | [] => none
    else if 0xE0 ≤ a.toNat ∧ a.toNat < 0xF0 then
      match rest with
      | b :: c :: rest =>
        if isContinuation b && isContinuation c then
          decodeUnitsOnto
            (((a.toNat - 0xE0) * 0x1000 + (b.toNat - 0x80) * 0x40 + (c.toNat - 0x80)) :: done) rest
        else none
      | _ => none
    else none

/-- The code units of a sequence of groups of bytes. -/
def decodeUnits (bytes : Bytes) : Option (List Nat) :=
  decodeUnitsOnto [] bytes

/-- Whether a code unit is the first half of a surrogate pair. -/
def isHighSurrogate (u : Nat) : Bool :=
  0xD800 ≤ u && u < 0xDC00

/-- Whether a code unit is the second half of a surrogate pair. -/
def isLowSurrogate (u : Nat) : Bool :=
  0xDC00 ≤ u && u < 0xE000

/-- The characters of a sequence of code units, put behind the characters read so far (latest first). -/
def charsOnto (done : List Char) : List Nat → Option (List Char)
  | [] => some done.reverse
  | u :: rest =>
    if isHighSurrogate u then
      match rest with
      | v :: rest =>
        if isLowSurrogate v then
          charsOnto (Char.ofNat (0x10000 + (u - 0xD800) * 0x400 + (v - 0xDC00)) :: done) rest
        else none
      | [] => none
    else if isLowSurrogate u then none
    else charsOnto (Char.ofNat u :: done) rest

/-- The text with the given code units; there is none when a surrogate stands alone. -/
def ofUnits (us : List Nat) : Option String :=
  (charsOnto [] us).map String.ofList

/-- Whether a byte is a character by itself. -/
def isPlain (b : UInt8) : Bool :=
  0 < b.toNat && b.toNat < 0x80

/-- The text that bytes encode. If each of them is a character, these are the text; only otherwise are
they read as groups. -/
def decode (bytes : Bytes) : Except FormatError String :=
  if bytes.all isPlain then .ok (String.ofList (bytes.map fun b => Char.ofNat b.toNat))
  else
    match (decodeUnits bytes).bind ofUnits with
    | some text => .ok text
    | none => .error .invalidUtf8

end Interpose.ModifiedUtf8
