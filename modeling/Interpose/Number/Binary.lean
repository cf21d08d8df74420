/-!
# Binary floating point numbers

A floating point number is kept as its bits, so that every bit of it survives. What the bits stand for
is decided by the widths of their fields: a sign, an exponent and a fraction.
-/

namespace Interpose

/-- The widths of the fields of a floating point number. -/
structure BinaryFormat where
  exponentBits : Nat
  fractionBits : Nat

namespace BinaryFormat

/-- Numbers of 32 bits. -/
def single : BinaryFormat := ⟨8, 23⟩

/-- Numbers of 64 bits. -/
def double : BinaryFormat := ⟨11, 52⟩

/-- The fraction field. -/
def fraction (f : BinaryFormat) (bits : Nat) : Nat :=
  bits % Nat.pow 2 f.fractionBits

/-- The exponent field. -/
def exponent (f : BinaryFormat) (bits : Nat) : Nat :=
  bits / Nat.pow 2 f.fractionBits % Nat.pow 2 f.exponentBits

/-- Whether the sign bit is set. -/
def isNegative (f : BinaryFormat) (bits : Nat) : Bool :=
  bits / Nat.pow 2 (f.fractionBits + f.exponentBits) % 2 == 1

/-- Whether the exponent field is that of the values that are not finite. -/
def isSpecial (f : BinaryFormat) (bits : Nat) : Bool :=
  f.exponent bits == Nat.pow 2 f.exponentBits - 1

/-- Whether the bits are no number. -/
def isNaN (f : BinaryFormat) (bits : Nat) : Bool :=
  f.isSpecial bits && f.fraction bits != 0

/-- Whether the bits are a zero of either sign. -/
def isZero (f : BinaryFormat) (bits : Nat) : Bool :=
  f.exponent bits == 0 && f.fraction bits == 0

/-- Numeric equality: no NaN equals anything, and the two zeros are equal. -/
def equal (f : BinaryFormat) (a b : Nat) : Bool :=
  !f.isNaN a && !f.isNaN b && (a == b || f.isZero a && f.isZero b)

end BinaryFormat

end Interpose
