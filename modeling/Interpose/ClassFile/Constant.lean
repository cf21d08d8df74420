import Std.Data.TreeMap
import Interpose.ClassFile.Error
import Interpose.Text.ModifiedUtf8
/-!
# The constant pool

Constants are numbered from 1; a `long` or `double` also takes the number behind its own. The pool
is therefore a list of slots in which slot 0 and the second slot of a wide constant are empty.

The first addition to a pool builds a lookup from constants to slots, and later ones keep it; a pool
that is only read has none, and searches its slots. That the lookup knows the lowest slot of every
constant is part of the type: `Pool.position_eq` holds of every pool however it was made. Adding is
done through `Pool.intern`, which answers the slot of an equal constant when there is one.

An operation that adds several constants keeps those it added when a later one fails, so the
additions run in `Interning`, whose failures still carry the pool.
-/

namespace Interpose

/-- One constant. Floating-point numbers are kept as their bits. -/
inductive Constant where
  | utf8 (text : String)
  | integer (value : Int32)
  | float (bits : UInt32)
  | long (value : Int64)
  | double (bits : UInt64)
  | classRef (name : UInt16)
  | stringRef (text : UInt16)
  | fieldRef (owner nameAndType : UInt16)
  | methodRef (owner nameAndType : UInt16)
  | interfaceMethodRef (owner nameAndType : UInt16)
  | nameAndType (name descriptor : UInt16)
  | methodHandle (kind : UInt8) (reference : UInt16)
  | methodType (descriptor : UInt16)
  | dynamic (bootstrap nameAndType : UInt16)
  | invokeDynamic (bootstrap nameAndType : UInt16)
  | moduleRef (name : UInt16)
  | packageRef (name : UInt16)
deriving DecidableEq

namespace Constant

/-- The kind of a constant, as a number. -/
def kind : Constant → Nat
  | utf8 _ => 0
  | integer _ => 1
  | float _ => 2
  | long _ => 3
  | double _ => 4
  | classRef _ => 5
  | stringRef _ => 6
  | fieldRef _ _ => 7
  | methodRef _ _ => 8
  | interfaceMethodRef _ _ => 9
  | nameAndType _ _ => 10
  | methodHandle _ _ => 11
  | methodType _ => 12
  | dynamic _ _ => 13
  | invokeDynamic _ _ => 14
  | moduleRef _ => 15
  | packageRef _ => 16

/-- The numbers in a constant. -/
def numbers : Constant → List Nat
  | utf8 _ => []
  | integer value => [value.toUInt32.toNat]
  | float bits => [bits.toNat]
  | long value => [value.toUInt64.toNat]
  | double bits => [bits.toNat]
  | classRef a | stringRef a | methodType a | moduleRef a | packageRef a => [a.toNat]
  | fieldRef a b | methodRef a b | interfaceMethodRef a b | nameAndType a b | dynamic a b
  | invokeDynamic a b => [a.toNat, b.toNat]
  | methodHandle kind reference => [kind.toNat, reference.toNat]

/-- The text in a constant. -/
def text : Constant → String
  | utf8 text => text
  | _ => ""

/-- Constants by kind, then by their numbers, then by their text. -/
instance : Ord Constant :=
  ⟨compareLex (compareOn kind) (compareLex (compareOn numbers) (compareOn text))⟩

instance : Std.TransOrd Constant :=
  inferInstanceAs (Std.TransCmp (compareLex (compareOn kind)
    (compareLex (compareOn numbers) (compareOn text))))

/-- Only a constant itself has its kind, its numbers and its text. -/
theorem eq_of_parts {c d : Constant} (hk : c.kind = d.kind) (hn : c.numbers = d.numbers)
    (ht : c.text = d.text) : c = d := by
  cases c <;> cases d <;> try cases hk
  all_goals
    simp only [numbers, text, List.cons.injEq, and_true] at hn ht
    simp_all [UInt32.toNat_inj, UInt64.toNat_inj, UInt16.toNat_inj, UInt8.toNat_inj]
  · exact congrArg Int32.ofUInt32 hn
  · exact congrArg Int64.ofUInt64 hn

theorem compare_eq_eq {c d : Constant} : compare c d = .eq ↔ c = d := by
  have parts : compare c d = (compare c.kind d.kind).then
      ((compare c.numbers d.numbers).then (compare c.text d.text)) := rfl
  rw [parts, Ordering.then_eq_eq, Ordering.then_eq_eq, Std.compare_eq_iff_eq,
    Std.compare_eq_iff_eq, Std.compare_eq_iff_eq]
  exact ⟨fun h => eq_of_parts h.1 h.2.1 h.2.2, fun h => by simp [h]⟩

/-- Whether the constant takes two slots. -/
def isWide : Constant → Bool
  | long _ | double _ => true
  | _ => false

/-- Slots the constant takes. -/
def width (c : Constant) : Nat :=
  if c.isWide then 2 else 1

/-- Whether an equal constant is looked for before one is added; constants of the other kinds are
never added. -/
def isShared : Constant → Bool
  | methodHandle _ _ | methodType _ | dynamic _ _ | invokeDynamic _ _ | moduleRef _ | packageRef _ =>
    false
  | _ => true

end Constant

/-- The lowest slot that holds a constant. -/
def lowestSlot (slots : Array (Option Constant)) (c : Constant) : Option Nat :=
  slots.findIdx? (· == some c)

theorem lowestSlot_push (slots : Array (Option Constant)) (slot : Option Constant) (c : Constant) :
    lowestSlot (slots.push slot) c
      = (lowestSlot slots c).or (if slot = some c then some slots.size else none) := by
  simp [lowestSlot, Array.findIdx?_push]

/-- Slots by the constant they hold. -/
abbrev SlotLookup := Std.TreeMap Constant Nat

namespace SlotLookup

/-- One slot more; a constant that has a slot keeps it. -/
def enter (l : SlotLookup) (slot : Option Constant) (i : Nat) : SlotLookup :=
  match slot with
  | some c => if c.isShared then l.insertIfNew c i else l
  | none => l

/-- All slots of a pool, entered in order. -/
def ofSlots (slots : Array (Option Constant)) : SlotLookup :=
  slots.toList.zipIdx.foldl (fun l (slot, i) => l.enter slot i) ∅

/-- The lookup knows the lowest slot of every constant that may be looked for. -/
def Agrees (l : SlotLookup) (slots : Array (Option Constant)) : Prop :=
  ∀ c, l[c]? = if c.isShared then lowestSlot slots c else none

theorem Agrees.enter {l : SlotLookup} {slots : Array (Option Constant)} (h : l.Agrees slots)
    (slot : Option Constant) : (l.enter slot slots.size).Agrees (slots.push slot) := by
  intro c
  rw [lowestSlot_push]
  cases slot with
  | none => simpa [SlotLookup.enter] using h c
  | some new =>
    simp only [SlotLookup.enter]
    split
    case isFalse hnew =>
      rw [h c]
      by_cases hc : new = c
      · simp [← hc, hnew]
      · simp [hc]
    case isTrue hnew =>
      rw [Std.TreeMap.getElem?_insertIfNew, h c]
      by_cases hc : new = c
      · subst hc
        have hold := h new
        rw [if_pos hnew] at hold
        have hmem : new ∈ l ↔ (lowestSlot slots new).isSome := by
          rw [← hold, Std.TreeMap.isSome_getElem?_iff_mem]
        cases hslot : lowestSlot slots new <;> simp_all
      · simp [hc, Constant.compare_eq_eq]

theorem ofSlots_agrees (slots : Array (Option Constant)) : (ofSlots slots).Agrees slots := by
  -- entering the rest of the slots behind those that a lookup agrees with
  suffices h : ∀ (rest : List (Option Constant)) (seen : Array (Option Constant)) (l : SlotLookup),
      l.Agrees seen → ((rest.zipIdx seen.size).foldl (fun l (slot, i) => l.enter slot i) l).Agrees
        (seen ++ rest.toArray) by
    have hall := h slots.toList #[] ∅ (by intro c; simp [lowestSlot])
    simpa [ofSlots] using hall
  intro rest
  induction rest with
  | nil => intro seen l hl; simpa using hl
  | cons slot rest ih =>
    intro seen l hl
    have hrest := ih (seen.push slot) (l.enter slot seen.size) (hl.enter slot)
    simpa [List.zipIdx_cons] using hrest

end SlotLookup

/-- A field or method: its class, its name and its descriptor. -/
structure MemberRef where
  owner : String
  name : String
  descriptor : String
deriving DecidableEq

/-- What a member reference refers to. -/
inductive MemberKind where
  | field
  | method
  | interfaceMethod
deriving DecidableEq

/-- The constant that refers to a member of a class, by the slots of the class and of its name and
descriptor. -/
def MemberKind.constant : MemberKind → (owner nameAndType : UInt16) → Constant
  | field => .fieldRef
  | method => .methodRef
  | interfaceMethod => .interfaceMethodRef

/-- The constants of a class, by slot. -/
structure Pool where
  slots : Array (Option Constant)
  /-- Missing until a constant is added. -/
  lookup : Option SlotLookup
  agrees : ∀ l, lookup = some l → l.Agrees slots

namespace Pool

/-- No slot at all. -/
def bare : Pool where
  slots := #[]
  lookup := none
  agrees := nofun

/-- One slot more. -/
def append (p : Pool) (slot : Option Constant) : Pool where
  slots := p.slots.push slot
  lookup := p.lookup.map (·.enter slot p.slots.size)
  agrees l h := by
    obtain ⟨l', hl', rfl⟩ := Option.map_eq_some_iff.1 h
    exact (p.agrees l' hl').enter slot

/-- The pool with its lookup, which is built from the slots if it is missing. -/
def indexed (p : Pool) : Pool where
  slots := p.slots
  lookup := some (p.lookup.getD (.ofSlots p.slots))
  agrees l h := by
    obtain rfl := Option.some.inj h
    cases hl : p.lookup with
    | none => exact SlotLookup.ofSlots_agrees p.slots
    | some l => exact p.agrees l hl

/-- The pool with the given slots behind the empty slot 0. -/
def ofSlots (slots : List (Option Constant)) : Pool :=
  slots.foldl append (bare.append none)

/-- The pool without constants. -/
def empty : Pool := ofSlots []

instance : Inhabited Pool := ⟨empty⟩

/-- One more than the highest slot. -/
def count (p : Pool) : Nat := p.slots.size

/-- The constants with their slots, in order. -/
def constants (p : Pool) : List (Nat × Constant) :=
  p.slots.toList.zipIdx.filterMap fun (slot, i) => slot.map (i, ·)

/-- The lowest slot that holds a constant, by the lookup or, as long as there is none, by a search. -/
def position? (p : Pool) (c : Constant) : Option Nat :=
  match p.lookup with
  | some l => l[c]?
  | none => lowestSlot p.slots c

theorem position_eq (p : Pool) {c : Constant} (hc : c.isShared) :
    p.position? c = lowestSlot p.slots c := by
  unfold position?
  split
  case h_1 l hl => rw [p.agrees l hl c, if_pos hc]
  case h_2 => rfl

/-- The constant at a slot; slot 0 and the second slot of a wide constant hold none. -/
def get (p : Pool) (i : UInt16) : Except FormatError Constant :=
  if i = 0 then .error (.invalidConstantPoolIndex i)
  else
    match p.slots[i.toNat]? with
    | some (some c) => .ok c
    | _ => .error (.invalidConstantPoolIndex i)

/-- The text at a slot. -/
def getUtf8 (p : Pool) (i : UInt16) : Except FormatError String := do
  match ← p.get i with
  | .utf8 text => .ok text
  | _ => .error (.invalidConstantPoolIndex i)

/-- The class name, in class-file spelling, of the class constant at a slot. -/
def className (p : Pool) (i : UInt16) : Except FormatError String := do
  match ← p.get i with
  | .classRef name => p.getUtf8 name
  | _ => .error (.invalidConstantPoolIndex i)

/-- The two texts of the name-and-type constant at a slot. -/
def nameAndType (p : Pool) (i : UInt16) : Except FormatError (String × String) := do
  match ← p.get i with
  | .nameAndType name descriptor =>
    let name ← p.getUtf8 name
    let descriptor ← p.getUtf8 descriptor
    .ok (name, descriptor)
  | _ => .error (.invalidConstantPoolIndex i)

/-- The field or method that the constant at a slot refers to. -/
def memberRef (p : Pool) (i : UInt16) : Except FormatError MemberRef := do
  match ← p.get i with
  | .fieldRef owner nat | .methodRef owner nat | .interfaceMethodRef owner nat =>
    let owner ← p.className owner
    let (name, descriptor) ← p.nameAndType nat
    .ok ⟨owner, name, descriptor⟩
  | _ => .error (.invalidConstantPoolIndex i)

/-- The lowest slot that holds a text. -/
def findUtf8 (p : Pool) (text : String) : Option UInt16 :=
  (p.position? (.utf8 text)).map UInt16.ofNat

theorem findUtf8_eq (p : Pool) (text : String) :
    p.findUtf8 text = (lowestSlot p.slots (.utf8 text)).map UInt16.ofNat := by
  rw [findUtf8, position_eq p rfl]

/-- Whether the constant at a slot takes two slots. -/
def isWideAt (p : Pool) (i : UInt16) : Bool :=
  match p.get i with
  | .ok c => c.isWide
  | .error _ => false

/-- A constant behind all others, with its second slot if it takes one. -/
def appendConstant (p : Pool) (c : Constant) : Pool :=
  if c.isWide then (p.append (some c)).append none else p.append (some c)

/-- A computation that may add constants; what it added stays when it fails. -/
abbrev Interning := ExceptT FormatError (StateM Pool)

/-- The slot of a constant, which is added when the pool does not hold it; no slot goes past 65534. -/
def intern (c : Constant) : Interning UInt16 := fun p =>
  let p := p.indexed
  match p.position? c with
  | some i => (.ok (UInt16.ofNat i), p)
  | none =>
    if p.count + c.width > 0xFFFF then (.error .constantPoolOverflow, p)
    else
      let i := p.count
      (.ok (UInt16.ofNat i), p.appendConstant c)

/-- The slot of a text of at most 65535 encoded bytes. -/
def addUtf8 (text : String) : Interning UInt16 :=
  let size := (ModifiedUtf8.encode text).length
  if size > 0xFFFF then throw (.utf8TooLong size) else intern (.utf8 text)

/-- The slot of a class constant. -/
def addClass (name : String) : Interning UInt16 := do
  intern (.classRef (← addUtf8 name))

/-- The slot of a string constant. -/
def addString (text : String) : Interning UInt16 := do
  intern (.stringRef (← addUtf8 text))

/-- The slot of an integer constant. -/
def addInteger (value : Int32) : Interning UInt16 :=
  intern (.integer value)

/-- The slot of a name-and-type constant. -/
def addNameAndType (name descriptor : String) : Interning UInt16 := do
  let name ← addUtf8 name
  let descriptor ← addUtf8 descriptor
  intern (.nameAndType name descriptor)

/-- The slot of a reference to a field or method. -/
def addMember (kind : MemberKind) (owner name descriptor : String) : Interning UInt16 := do
  let owner ← addClass owner
  let nat ← addNameAndType name descriptor
  intern (kind.constant owner nat)

/-- The slot of a field reference. -/
def addFieldRef : String → String → String → Interning UInt16 :=
  addMember .field

/-- The slot of a method reference. -/
def addMethodRef : String → String → String → Interning UInt16 :=
  addMember .method

/-- The slot of an interface method reference. -/
def addInterfaceMethodRef : String → String → String → Interning UInt16 :=
  addMember .interfaceMethod

end Pool

end Interpose
