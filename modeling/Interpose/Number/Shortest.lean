import Interpose.Number.Binary
/-!
# The shortest decimal text of a floating point number

Of the decimals that are nearer to the number than to any other number of its format, the one with
the fewest digits is written; of two such the nearer one, and of two equally near ones the larger.
Everything is decided in exact arithmetic.
-/

namespace Interpose

/-- A positive finite number: `m * 2 ^ q`. -/
structure Magnitude where
  m : Nat
  q : Int
  /-- The gap to the next smaller number is half the gap to the next larger one. -/
  narrowBelow : Bool

/-- A decimal: `digits * 10 ^ exponent`. -/
structure Decimal where
  digits : Nat
  exponent : Int
deriving DecidableEq

namespace BinaryFormat

/-- The magnitude of a finite number. -/
def magnitude (f : BinaryFormat) (bits : Nat) : Magnitude :=
  let bias : Int := Int.pow 2 (f.exponentBits - 1) - 1 + f.fractionBits
  let e := f.exponent bits
  let fraction := f.fraction bits
  if e = 0 then ⟨fraction, 1 - bias, false⟩
  else ⟨Nat.pow 2 f.fractionBits + fraction, e - bias, fraction == 0 && 1 < e⟩

end BinaryFormat

namespace Magnitude

/-- What a decimal with exponent `k` is multiplied by to compare it with `m * 2 ^ q`, and what the
latter is multiplied by. -/
def scales (x : Magnitude) (k : Int) : Nat × Nat :=
  (Nat.pow 10 k.toNat * Nat.pow 2 (-x.q).toNat, Nat.pow 2 x.q.toNat * Nat.pow 10 (-k).toNat)

/-- Whether a decimal lies among the reals that round to the number, the ends of the interval being
half way to its neighbours. The ends belong to it when `m` is even. -/
def covers (x : Magnitude) (d : Decimal) : Bool :=
  let (ofDecimal, ofBinary) := x.scales d.exponent
  let point := 4 * d.digits * ofDecimal
  let lower := (if x.narrowBelow then 4 * x.m - 1 else 4 * x.m - 2) * ofBinary
  let upper := (4 * x.m + 2) * ofBinary
  if x.m % 2 = 0 then lower ≤ point && point ≤ upper else lower < point && point < upper

/-- The nearer of the number's two neighbours with exponent `k`, of those that round to it. -/
def onGrid (x : Magnitude) (k : Int) : Option Decimal :=
  let (ofDecimal, ofBinary) := x.scales k
  let below := x.m * ofBinary / ofDecimal
  let down : Decimal := ⟨below, k⟩
  let up : Decimal := ⟨below + 1, k⟩
  let upIsNearer := (2 * below + 1) * ofDecimal ≤ 2 * x.m * ofBinary
  match x.covers down, x.covers up with
  | true, true => if upIsNearer then some up else some down
  | true, false => some down
  | false, true => some up
  | false, false => none

/-- The first hit on ever finer grids, from exponent `k` on; the number itself, as a last resort, is
`m` with a negative power of two written out. -/
def search (x : Magnitude) : (fuel : Nat) → (k : Int) → Decimal
  | 0, _ => ⟨x.m * Nat.pow 2 x.q.toNat * Nat.pow 5 (-x.q).toNat, -(-x.q).toNat⟩
  | fuel + 1, k =>
    match x.onGrid k with
    | some d => d
    | none => search x fuel (k - 1)

/-- The shortest decimal that stands for the number. No number of up to 64 bits has a leading digit
above exponent 309, and below exponent -343 every grid has a hit. -/
def shortest (x : Magnitude) : Decimal :=
  x.search 660 310

end Magnitude

namespace Decimal

/-- The digits, as text. -/
def text (d : Decimal) : String :=
  toString d.digits

/-- The exponent of the leading digit. -/
def leading (d : Decimal) : Int :=
  d.exponent + d.text.length - 1

/-- So many zeros. -/
def zeros (n : Nat) : String :=
  "".pushn '0' n

/-- With a point inside or beside the digits. -/
def positional (d : Decimal) : String :=
  let digits := d.text.toList
  let e := d.leading
  if e < 0 then "0." ++ zeros (-e - 1).toNat ++ d.text
  else if 0 ≤ d.exponent then d.text ++ zeros d.exponent.toNat ++ ".0"
  else
    String.ofList (digits.take (e.toNat + 1)) ++ "." ++ String.ofList (digits.drop (e.toNat + 1))

/-- One digit before the point, the rest behind it, and a power of ten. -/
def scientific (d : Decimal) : String :=
  let e := "e" ++ toString d.leading
  match d.text.toList with
  | [] => e
  | [c] => c.toString ++ e
  | c :: rest => c.toString ++ "." ++ String.ofList rest ++ e

/-- Powers of ten from -4 to 15 are written with a point, all others scientifically. -/
def render (d : Decimal) : String :=
  if -4 ≤ d.leading ∧ d.leading < 16 then d.positional else d.scientific

end Decimal

namespace BinaryFormat

/-- The text of a floating point number. -/
def render (f : BinaryFormat) (bits : Nat) : String :=
  if f.isNaN bits then "NaN"
  else
    let sign := if f.isNegative bits then "-" else ""
    if f.isSpecial bits then sign ++ "inf"
    else if f.isZero bits then sign ++ "0.0"
    else sign ++ (f.magnitude bits).shortest.render

end BinaryFormat

end Interpose
