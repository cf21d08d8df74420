import Interpose.ClassFile.Write
import Interpose.ClassFile.Read
import Interpose.Proofs.Pool.Slots
/-!
# Class files that fit the format

A class file can hold more than its format can write: counts are written in two bytes, lengths of
attributes in four, and the short forms of stack map frames leave only a few bits to their numbers.
`ClassFile.Fits` says that nothing is too large, that the slots of the constants are those the format
gives them, and that no attribute is kept as bytes although it has a form of its own. What is required
of an attribute is required of those inside it too (`Attribute.Throughout`).
-/

namespace Interpose

/-- A list whose length can be written in two bytes. -/
abbrev Countable {α : Type} (items : List α) : Prop :=
  items.length < 0x10000

def StackMapFrame.Fits : StackMapFrame → Prop
  | same delta | sameStack delta _ => delta.toNat ≤ 63
  | chop _ k => 1 ≤ k.toNat ∧ k.toNat ≤ 3
  | append _ locals => 1 ≤ locals.length ∧ locals.length ≤ 3
  | full _ locals stack => Countable locals ∧ Countable stack
  | sameStackExtended _ _ | sameExtended _ => True

/-- Constants in an annotation value have the tag of a constant, and no list is too long. -/
inductive ElementValue.Fits : ElementValue → Prop where
  | const {tag : UInt8} {index : UInt16} (htag : Reader.isConstTag tag) : Fits (.const tag index)
  | enumConst {typeName constName : UInt16} : Fits (.enumConst typeName constName)
  | classInfo {index : UInt16} : Fits (.classInfo index)
  | nested {type : UInt16} {pairs : List (UInt16 × ElementValue)} (count : Countable pairs)
      (values : ∀ pair ∈ pairs, Fits pair.2) : Fits (.nested type pairs)
  | array {values : List ElementValue} (count : Countable values) (each : ∀ v ∈ values, Fits v) :
      Fits (.array values)

structure AnnotationEntry.Fits (a : AnnotationEntry) : Prop where
  count : Countable a.pairs
  values : ∀ pair ∈ a.pairs, pair.2.Fits

/-- The attributes that have a form of their own. -/
def modelledNames : List String :=
  ["Code", "StackMapTable", "Exceptions", "SourceFile", "LineNumberTable", "LocalVariableTable",
    "LocalVariableTypeTable", "RuntimeVisibleAnnotations", "RuntimeInvisibleAnnotations"]

namespace Attribute

/-- The lists of an attribute, without what is inside the attributes it may hold, fit the format. -/
def ListsFit : Attribute → Prop
  | code body => Countable body.exceptions ∧ Countable body.attributes
  | stackMapTable frames => Countable frames ∧ ∀ f ∈ frames, f.Fits
  | exceptions classes => Countable classes
  | sourceFile _ => True
  | lineNumberTable entries => Countable entries
  | localVariableTable entries | localVariableTypeTable entries => Countable entries
  | runtimeVisibleAnnotations entries | runtimeInvisibleAnnotations entries =>
    Countable entries ∧ ∀ a ∈ entries, a.Fits
  | unknown name _ => name ∉ modelledNames

/-- The attribute itself fits the format: its lists, and the length of its body. -/
structure Fits (p : Pool) (a : Attribute) : Prop where
  lists : a.ListsFit
  length : ∀ body, a.writeBody p = .ok body → body.length < 0x100000000

/-- A property of an attribute and of all attributes inside it. -/
inductive Throughout (P : Attribute → Prop) : Attribute → Prop where
  | intro {a : Attribute} (here : P a)
      (inside : ∀ body, a = .code body → ∀ b ∈ body.attributes, Throughout P b) : Throughout P a

structure AllFit (p : Pool) (attributes : List Attribute) : Prop where
  count : Countable attributes
  each : ∀ a ∈ attributes, a.Throughout (Fits p)

end Attribute

def Attribute.entries : Attribute → Nat
  | code body => body.exceptions.length
  | stackMapTable frames => frames.length
  | exceptions classes => classes.length
  | lineNumberTable entries => entries.length
  | localVariableTable entries | localVariableTypeTable entries => entries.length
  | runtimeVisibleAnnotations entries | runtimeInvisibleAnnotations entries => entries.length
  | sourceFile _ | unknown _ _ => 0

/-- The attribute list and the tables of a method's code have at most 65535 entries each, and the code
attribute can tell its length. The latter does not follow: a stack map of 65535 frames with 65535 locals
each is longer than four bytes can tell. -/
structure Member.TablesFit (p : Pool) (m : Member) : Prop where
  attributes : Countable m.attributes
  exceptions : ∀ c, m.code? = some c → Countable c.exceptions
  tables : ∀ c, m.code? = some c → ∀ a ∈ c.attributes, a.entries < 0x10000
  length : ∀ c, m.code? = some c → ∀ body, c.write p = .ok body → body.length < 0x100000000

/-- Nothing in a class file is too large for the format. -/
structure ClassFile.Fits (c : ClassFile) : Prop where
  pool : c.pool.Regular
  interfaces : Countable c.interfaces
  fields : Countable c.fields
  methods : Countable c.methods
  ofFields : ∀ m ∈ c.fields, Attribute.AllFit c.pool m.attributes
  ofMethods : ∀ m ∈ c.methods, Attribute.AllFit c.pool m.attributes
  attributes : Attribute.AllFit c.pool c.attributes

/-- Two class files that differ at most in how their pools are indexed: all slots and all else agree. -/
structure ClassFile.Same (c d : ClassFile) : Prop where
  slots : d.pool.slots = c.pool.slots
  rest : d = { c with pool := d.pool }

end Interpose
