import Interpose.ClassFile.Bytes
import Interpose.Text.Described
/-!
# Paths

A path of the file system is any sequence of bytes. Where it is shown, its bytes are read as UTF-8. Bytes
that make no character are shown as one replacement character for every character that they begin without
ending it, and for every byte that begins none; a byte that does not go on with a character begins the next.
-/

namespace Interpose

/-- A piece of bytes that are read as UTF-8. -/
inductive Utf8Piece where
  | char (c : Char)
  | broken (bytes : Bytes)

/-- A character that was begun: its bytes so far and what they amount to, the bounds of the byte that goes
on with it, and how many more come behind that one. -/
structure Utf8Begun where
  bytes : Bytes
  value : Nat
  lo : Nat := 0x80
  hi : Nat := 0xBF
  more : Nat

/-- What a byte begins that is no character by itself. The bounds leave out what is longer than need be,
surrogates and what is beyond the last character. -/
def Utf8Begun.ofFirst (b : UInt8) : Option Utf8Begun :=
  let n := b.toNat
  if 0xC2 ≤ n ∧ n < 0xE0 then some { bytes := [b], value := n - 0xC0, more := 0 }
  else if 0xE0 ≤ n ∧ n < 0xF0 then
    some { bytes := [b], value := n - 0xE0, more := 1
           lo := if n = 0xE0 then 0xA0 else 0x80
           hi := if n = 0xED then 0x9F else 0xBF }
  else if 0xF0 ≤ n ∧ n < 0xF5 then
    some { bytes := [b], value := n - 0xF0, more := 2
           lo := if n = 0xF0 then 0x90 else 0x80
           hi := if n = 0xF4 then 0x8F else 0xBF }
  else none

/-- The pieces read so far, latest first, and the character that was begun behind them. -/
structure Utf8Reader where
  done : List Utf8Piece := []
  begun : Option Utf8Begun := none

namespace Utf8Reader

/-- Gives up the character that was begun. -/
def flush (r : Utf8Reader) : Utf8Reader :=
  match r.begun with
  | some u => { done := .broken u.bytes :: r.done }
  | none => r

/-- Takes a byte as the first one of a character. -/
def start (r : Utf8Reader) (b : UInt8) : Utf8Reader :=
  if b.toNat < 0x80 then { done := .char (Char.ofNat b.toNat) :: r.done }
  else match Utf8Begun.ofFirst b with
    | some u => { done := r.done, begun := some u }
    | none => { done := .broken [b] :: r.done }

/-- Takes one more byte. -/
def next (r : Utf8Reader) (b : UInt8) : Utf8Reader :=
  match r.begun with
  | none => r.start b
  | some u =>
    if u.lo ≤ b.toNat ∧ b.toNat ≤ u.hi then
      let value := u.value * 0x40 + (b.toNat - 0x80)
      if u.more = 0 then { done := .char (Char.ofNat value) :: r.done }
      else { done := r.done, begun := some { bytes := u.bytes ++ [b], value, more := u.more - 1 } }
    else r.flush.start b

end Utf8Reader

/-- A path. -/
structure Path where
  bytes : Bytes
deriving DecidableEq

namespace Path

/-- The path that a text names. -/
def ofText (text : String) : Path :=
  ⟨text.toList.flatMap String.utf8EncodeChar⟩

/-- The characters of a path, and the bytes that are in none. -/
def pieces (p : Path) : List Utf8Piece :=
  (p.bytes.foldl Utf8Reader.next {}).flush.done.reverse

/-- A path as it is shown. -/
def display (p : Path) : String :=
  String.ofList (p.pieces.map fun
    | .char c => c
    | .broken _ => '\uFFFD')

/-- The description of a path: between quotes, with the bytes that are in no character. -/
def describe (p : Path) : String :=
  "\"" ++ String.join (p.pieces.map fun
    | .char c => quotedChar c
    | .broken bytes => String.join (bytes.map fun b => "\\x" ++ (hexDigits b.toNat).toUpper)) ++ "\""

end Path

end Interpose
