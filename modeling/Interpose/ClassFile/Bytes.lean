import Interpose.ClassFile.Error
/-!
# Big-endian bytes

The primitive readers and writers of the class file format. A reader takes a value off the front
of a byte list and hands on the rest; a writer gives the bytes of a value. Numbers are big-endian,
and a list is preceded by its length in two bytes.

Results:
* `Reader.u2_bytesOfU2`, `Reader.u4_bytesOfU4`: the readers undo the writers, whatever follows.
-/

namespace Interpose

/-- A byte list. -/
abbrev Bytes := List UInt8

/-- Takes a value off the front of a byte list. -/
abbrev Reader := StateT Bytes (Except FormatError)

/-- A number in two bytes, high byte first. -/
def bytesOfU2 (v : UInt16) : Bytes :=
  [UInt8.ofNat (v.toNat / 0x100), UInt8.ofNat (v.toNat % 0x100)]

/-- A number in four bytes, high byte first. -/
def bytesOfU4 (v : UInt32) : Bytes :=
  [UInt8.ofNat (v.toNat / 0x1000000), UInt8.ofNat (v.toNat / 0x10000 % 0x100),
    UInt8.ofNat (v.toNat / 0x100 % 0x100), UInt8.ofNat (v.toNat % 0x100)]

/-- A number in eight bytes, high byte first. -/
def bytesOfU8 (v : UInt64) : Bytes :=
  bytesOfU4 (UInt32.ofNat (v.toNat / 0x100000000)) ++ bytesOfU4 (UInt32.ofNat (v.toNat % 0x100000000))

/-- A list of two-byte numbers behind its length. -/
def bytesOfU2List (vs : List UInt16) : Bytes :=
  bytesOfU2 (UInt16.ofNat vs.length) ++ vs.flatMap bytesOfU2

/-- The number that two bytes spell. -/
def u2OfBytes (a b : UInt8) : UInt16 :=
  UInt16.ofNat (a.toNat * 0x100 + b.toNat)

/-- The number that four bytes spell. -/
def u4OfBytes (a b c d : UInt8) : UInt32 :=
  UInt32.ofNat (((a.toNat * 0x100 + b.toNat) * 0x100 + c.toNat) * 0x100 + d.toNat)

namespace Reader

/-- Stops reading. -/
def fail {α : Type} (e : FormatError) : Reader α :=
  fun _ => .error e

/-- One byte. -/
def u1 : Reader UInt8
  | a :: rest => .ok (a, rest)
  | _ => .error .unexpectedEof

/-- A number in two bytes. -/
def u2 : Reader UInt16
  | a :: b :: rest => .ok (u2OfBytes a b, rest)
  | _ => .error .unexpectedEof

/-- A number in four bytes. -/
def u4 : Reader UInt32
  | a :: b :: c :: d :: rest => .ok (u4OfBytes a b c d, rest)
  | _ => .error .unexpectedEof

/-- The next `n` bytes. -/
def take (n : Nat) : Reader Bytes := fun s =>
  let (taken, rest) := s.splitAt n
  if taken.length = n then .ok (taken, rest) else .error .unexpectedEof

/-- `n` values one after the other, put behind the values read so far (latest first). -/
def manyOnto {α : Type} (item : Reader α) : Nat → List α → Reader (List α)
  | 0, done, s => .ok (done.reverse, s)
  | n + 1, done, s =>
    match item s with
    | .error e => .error e
    | .ok (a, rest) => manyOnto item n (a :: done) rest

/-- `n` values one after the other. -/
def many {α : Type} (n : Nat) (item : Reader α) : Reader (List α) :=
  manyOnto item n []

/-- Values behind their number. -/
def counted {α : Type} (item : Reader α) : Reader (List α) := do
  let n ← u2
  many n.toNat item

theorem u2OfBytes_toNat (v : UInt16) :
    u2OfBytes (UInt8.ofNat (v.toNat / 0x100)) (UInt8.ofNat (v.toNat % 0x100)) = v := by
  have := v.toNat_lt
  apply UInt16.toNat_inj.mp
  simp only [u2OfBytes, UInt16.toNat_ofNat', UInt8.toNat_ofNat']
  omega

theorem u4OfBytes_toNat (v : UInt32) :
    u4OfBytes (UInt8.ofNat (v.toNat / 0x1000000)) (UInt8.ofNat (v.toNat / 0x10000 % 0x100))
      (UInt8.ofNat (v.toNat / 0x100 % 0x100)) (UInt8.ofNat (v.toNat % 0x100)) = v := by
  have := v.toNat_lt
  apply UInt32.toNat_inj.mp
  simp only [u4OfBytes, UInt32.toNat_ofNat', UInt8.toNat_ofNat']
  omega

@[simp] theorem u2_bytesOfU2 (v : UInt16) (rest : Bytes) : u2 (bytesOfU2 v ++ rest) = .ok (v, rest) := by
  simp [u2, bytesOfU2, u2OfBytes_toNat]

@[simp] theorem u4_bytesOfU4 (v : UInt32) (rest : Bytes) : u4 (bytesOfU4 v ++ rest) = .ok (v, rest) := by
  simp [u4, bytesOfU4, u4OfBytes_toNat]

end Reader

end Interpose
