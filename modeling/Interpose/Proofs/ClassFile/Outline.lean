import Interpose.Proofs.Text.ShortestForm
/-!
# The outline of a class file

What decides whether a class file is written in one form only: the number of constants it declares,
the bytes of every constant, through which constant every attribute names itself, and the bytes that
follow the class. `Outline.ofBytes` finds these in the bytes. Texts of names are looked up in the pool,
since the attributes inside a code attribute can only be found through its name.

`Outline.Canonical` says that the file could not have been written in another way.
-/

namespace Interpose

/-- A constant as it stands in a class file: its slot, what it is, and its bytes with their tag. -/
structure PoolEntry where
  slot : Nat
  constant : Constant
  bytes : Bytes

/-- If the constant is a text, its bytes behind tag and length are the fewest that stand for it. -/
def PoolEntry.Shortest (e : PoolEntry) : Prop :=
  ∀ text, e.constant = .utf8 text → ModifiedUtf8.IsShortest (e.bytes.drop 3)

/-- The slot through which an attribute names itself, and the name. -/
structure AttributeName where
  slot : UInt16
  text : String

/-- What can be written in more than one way in a class file. -/
structure Outline where
  /-- The constant pool count. -/
  declared : UInt16
  /-- The constants in order. -/
  entries : List PoolEntry
  /-- The names of the attributes at all levels; an attribute stands before those inside it. -/
  names : List AttributeName
  /-- What follows the class. -/
  rest : Bytes

namespace Outline

open Reader

/-- The constants from a slot on, up to the declared count. -/
def entriesFrom (slot declared : Nat) : Reader (List PoolEntry) := fun s =>
  if declared ≤ slot then .ok ([], s)
  else
    match constant s with
    | .error e => .error e
    | .ok (c, mid) =>
      match entriesFrom (slot + c.width) declared mid with
      | .error e => .error e
      | .ok (entries, rest) => .ok (⟨slot, c, s.take (s.length - mid.length)⟩ :: entries, rest)
termination_by declared - slot
decreasing_by
  have : 0 < c.width := by unfold Constant.width; split <;> decide
  omega

/-- The names of the attributes inside a code attribute, each read with the names inside it. -/
def codeNames (names : Reader (List AttributeName)) : Reader (List AttributeName) := do
  let _maxStack ← u2
  let _maxLocals ← u2
  let length ← u4
  let _code ← take length.toNat
  let _exceptions ← counted exceptionEntry
  return (← counted names).flatten

/-- The name of an attribute nested at most `depth` deep, and the names inside it. -/
def attributeNames (p : Pool) : (depth : Nat) → Reader (List AttributeName)
  | 0 => fail .unexpectedEof
  | depth + 1 => do
    let slot ← u2
    let length ← u4
    let text ← p.getUtf8 slot
    let info ← take length.toNat
    if text = "Code" then
      let (inner, _) ← codeNames (attributeNames p depth) info
      return ⟨slot, text⟩ :: inner
    else return [⟨slot, text⟩]

def attributesNames (p : Pool) : Reader (List AttributeName) := fun s =>
  (List.flatten <$> counted (attributeNames p (s.length + 1))) s

def memberNames (p : Pool) : Reader (List AttributeName) := do
  let _access ← u2
  let _name ← u2
  let _descriptor ← u2
  attributesNames p

/-- The names of the attributes of fields or methods behind their number. -/
def membersNames (p : Pool) : Reader (List AttributeName) :=
  List.flatten <$> counted (memberNames p)

/-- The declared count, the constants and the names of a class file with the given pool. -/
def parts (p : Pool) : Reader (UInt16 × List PoolEntry × List AttributeName) := do
  let _magic ← u4
  let _minorVersion ← u2
  let _majorVersion ← u2
  let declared ← u2
  let entries ← entriesFrom 1 declared.toNat
  let _access ← u2
  let _thisClass ← u2
  let _superClass ← u2
  let _interfaces ← counted u2
  let fields ← membersNames p
  let methods ← membersNames p
  let attributes ← attributesNames p
  return (declared, entries, fields ++ methods ++ attributes)

/-- The outline of the class file at the front of a byte list, whose pool is given. -/
def ofBytes (p : Pool) (bytes : Bytes) : Except FormatError Outline :=
  (parts p bytes).map fun ((declared, entries, names), rest) => ⟨declared, entries, names, rest⟩

/-- The pool stands in its one form: its count covers all slots, and texts are in shortest form. -/
structure PoolCanonical (declared : UInt16) (entries : List PoolEntry) : Prop where
  count_pos : 0 < declared
  /-- The second slot of a wide constant is below the count. -/
  wide_lt : ∀ e ∈ entries, e.constant.isWide → e.slot + 1 < declared.toNat
  shortest : ∀ e ∈ entries, e.Shortest

/-- The attribute names itself through the lowest constant with its name. -/
def Lowest (entries : List PoolEntry) (n : AttributeName) : Prop :=
  ∀ e ∈ entries, e.constant = .utf8 n.text → n.slot.toNat ≤ e.slot

/-- The class file stands in its one form, and nothing follows it. -/
structure Canonical (o : Outline) : Prop where
  rest_empty : o.rest = []
  pool : PoolCanonical o.declared o.entries
  names : ∀ n ∈ o.names, Lowest o.entries n

end Outline

end Interpose
