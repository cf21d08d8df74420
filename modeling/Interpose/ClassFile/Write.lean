import Interpose.ClassFile.Model
/-!
# Writing a class file

The bytes of a class file, part by part. Lengths and counts are written in two bytes (attribute
lengths and code lengths in four), so a list too long for its count is cut off in the count, not
refused; a text constant too long for its count is refused.

An attribute names itself through the lowest slot that holds its name as a text.
-/

namespace Interpose

namespace Constant

/-- The bytes of a constant behind its tag. -/
def write : Constant → Except FormatError Bytes
  | utf8 text =>
    let bytes := ModifiedUtf8.encode text
    if bytes.length > 0xFFFF then .error (.utf8TooLong bytes.length)
    else .ok (1 :: bytesOfU2 (UInt16.ofNat bytes.length) ++ bytes)
  | integer value => .ok (3 :: bytesOfU4 value.toUInt32)
  | float bits => .ok (4 :: bytesOfU4 bits)
  | long value => .ok (5 :: bytesOfU8 value.toUInt64)
  | double bits => .ok (6 :: bytesOfU8 bits)
  | classRef name => .ok (7 :: bytesOfU2 name)
  | stringRef text => .ok (8 :: bytesOfU2 text)
  | fieldRef owner nat => .ok (9 :: bytesOfU2 owner ++ bytesOfU2 nat)
  | methodRef owner nat => .ok (10 :: bytesOfU2 owner ++ bytesOfU2 nat)
  | interfaceMethodRef owner nat => .ok (11 :: bytesOfU2 owner ++ bytesOfU2 nat)
  | nameAndType name descriptor => .ok (12 :: bytesOfU2 name ++ bytesOfU2 descriptor)
  | methodHandle kind reference => .ok (15 :: kind :: bytesOfU2 reference)
  | methodType descriptor => .ok (16 :: bytesOfU2 descriptor)
  | dynamic bootstrap nat => .ok (17 :: bytesOfU2 bootstrap ++ bytesOfU2 nat)
  | invokeDynamic bootstrap nat => .ok (18 :: bytesOfU2 bootstrap ++ bytesOfU2 nat)
  | moduleRef name => .ok (19 :: bytesOfU2 name)
  | packageRef name => .ok (20 :: bytesOfU2 name)

end Constant

/-- The bytes of a constant pool behind its count. -/
def Pool.write (p : Pool) : Except FormatError Bytes := do
  let parts ← p.constants.mapM fun (_, c) => c.write
  return bytesOfU2 (UInt16.ofNat p.count) ++ parts.flatten

/-- The bytes of a type of a stack map frame. -/
def VerificationType.write : VerificationType → Bytes
  | top => [0]
  | integer => [1]
  | float => [2]
  | double => [3]
  | long => [4]
  | null => [5]
  | uninitializedThis => [6]
  | object index => 7 :: bytesOfU2 index
  | uninitialized offset => 8 :: bytesOfU2 offset

/-- Items behind their number. -/
def writeCounted {α : Type} (item : α → Bytes) (items : List α) : Bytes :=
  bytesOfU2 (UInt16.ofNat items.length) ++ items.flatMap item

/-- The bytes of a stack map frame. -/
def StackMapFrame.write : StackMapFrame → Bytes
  | same delta => [delta.toUInt8]
  | sameStack delta stack => (64 + delta.toUInt8) :: stack.write
  | sameStackExtended delta stack => 247 :: bytesOfU2 delta ++ stack.write
  | chop delta k => (251 - k) :: bytesOfU2 delta
  | sameExtended delta => 251 :: bytesOfU2 delta
  | append delta locals =>
    (251 + UInt8.ofNat locals.length) :: bytesOfU2 delta
      ++ locals.flatMap VerificationType.write
  | full delta locals stack =>
    255 :: bytesOfU2 delta ++ writeCounted VerificationType.write locals
      ++ writeCounted VerificationType.write stack

mutual

/-- The bytes of an annotation value. -/
def ElementValue.write : ElementValue → Bytes
  | .const tag index => tag :: bytesOfU2 index
  | .enumConst typeName constName =>
    UInt8.ofNat 'e'.toNat :: bytesOfU2 typeName ++ bytesOfU2 constName
  | .classInfo index => UInt8.ofNat 'c'.toNat :: bytesOfU2 index
  | .nested type pairs =>
    UInt8.ofNat '@'.toNat :: bytesOfU2 type ++ bytesOfU2 (UInt16.ofNat pairs.length)
      ++ ElementValue.writePairs pairs
  | .array values =>
    UInt8.ofNat '['.toNat :: bytesOfU2 (UInt16.ofNat values.length) ++ ElementValue.writeAll values

/-- The bytes of annotation values one after the other. -/
def ElementValue.writeAll : List ElementValue → Bytes
  | [] => []
  | v :: rest => v.write ++ ElementValue.writeAll rest

/-- The bytes of named annotation values one after the other. -/
def ElementValue.writePairs : List (UInt16 × ElementValue) → Bytes
  | [] => []
  | (name, v) :: rest => bytesOfU2 name ++ (v.write ++ ElementValue.writePairs rest)

end

/-- The bytes of an annotation. -/
def AnnotationEntry.write (a : AnnotationEntry) : Bytes :=
  bytesOfU2 a.type ++ bytesOfU2 (UInt16.ofNat a.pairs.length) ++ ElementValue.writePairs a.pairs

/-- The bytes of a line number entry. -/
def LineEntry.write (e : LineEntry) : Bytes :=
  bytesOfU2 e.startPc ++ bytesOfU2 e.line

/-- The bytes of a local variable entry. -/
def LocalEntry.write (e : LocalEntry) : Bytes :=
  bytesOfU2 e.startPc ++ bytesOfU2 e.length ++ bytesOfU2 e.name ++ bytesOfU2 e.type
    ++ bytesOfU2 e.slot

/-- The bytes of a protected range. -/
def ExceptionEntry.write (e : ExceptionEntry) : Bytes :=
  bytesOfU2 e.startPc ++ bytesOfU2 e.endPc ++ bytesOfU2 e.handlerPc ++ bytesOfU2 e.catchType

/-- An attribute around its body. -/
def framedAttribute (name : UInt16) (body : Bytes) : Bytes :=
  bytesOfU2 name ++ bytesOfU4 (UInt32.ofNat body.length) ++ body

/-- The slot that names an attribute. -/
def attributeNameSlot (p : Pool) (name : String) : Except FormatError UInt16 :=
  match p.findUtf8 name with
  | some index => .ok index
  | none => .error (.missingAttributeName name)

mutual

/-- The bytes of an attribute. -/
def Attribute.write (p : Pool) (a : Attribute) : Except FormatError Bytes := do
  let index ← attributeNameSlot p a.name
  let body ← a.writeBody p
  return framedAttribute index body

/-- The bytes of an attribute behind its name and length. -/
def Attribute.writeBody (p : Pool) : Attribute → Except FormatError Bytes
  | .code body => body.write p
  | .stackMapTable frames => .ok (writeCounted StackMapFrame.write frames)
  | .exceptions classes => .ok (bytesOfU2List classes)
  | .sourceFile index => .ok (bytesOfU2 index)
  | .lineNumberTable entries => .ok (writeCounted LineEntry.write entries)
  | .localVariableTable entries => .ok (writeCounted LocalEntry.write entries)
  | .localVariableTypeTable entries => .ok (writeCounted LocalEntry.write entries)
  | .runtimeVisibleAnnotations annotations => .ok (writeCounted AnnotationEntry.write annotations)
  | .runtimeInvisibleAnnotations annotations => .ok (writeCounted AnnotationEntry.write annotations)
  | .unknown _ info => .ok info

/-- The bytes of a code attribute behind its name and length. -/
def CodeAttribute.write (p : Pool) : CodeAttribute → Except FormatError Bytes
  | ⟨maxStack, maxLocals, code, exceptions, attributes⟩ => do
    let inner ← Attribute.writeAll p attributes
    return bytesOfU2 maxStack ++ bytesOfU2 maxLocals
      ++ (bytesOfU4 (UInt32.ofNat code.length) ++ code)
      ++ writeCounted ExceptionEntry.write exceptions
      ++ bytesOfU2 (UInt16.ofNat attributes.length) ++ inner

/-- The bytes of attributes one after the other. -/
def Attribute.writeAll (p : Pool) : List Attribute → Except FormatError Bytes
  | [] => .ok []
  | a :: rest => do
    let first ← a.write p
    let others ← Attribute.writeAll p rest
    return first ++ others

end

/-- Attributes behind their number. -/
def writeAttributes (p : Pool) (attributes : List Attribute) : Except FormatError Bytes := do
  return bytesOfU2 (UInt16.ofNat attributes.length) ++ (← Attribute.writeAll p attributes)

/-- The bytes of a field or method. -/
def Member.write (p : Pool) (m : Member) : Except FormatError Bytes := do
  return bytesOfU2 m.access ++ bytesOfU2 m.name ++ bytesOfU2 m.descriptor
    ++ (← writeAttributes p m.attributes)

/-- Fields or methods behind their number. -/
def writeMembers (p : Pool) (members : List Member) : Except FormatError Bytes := do
  let parts ← members.mapM (Member.write p)
  return bytesOfU2 (UInt16.ofNat members.length) ++ parts.flatten

/-- The bytes of a class file. Every attribute name has to be in the pool already. -/
def ClassFile.toBytes (c : ClassFile) : Except FormatError Bytes := do
  let pool ← c.pool.write
  let fields ← writeMembers c.pool c.fields
  let methods ← writeMembers c.pool c.methods
  let attributes ← writeAttributes c.pool c.attributes
  return bytesOfU4 classFileMagic ++ bytesOfU2 c.minorVersion ++ bytesOfU2 c.majorVersion ++ pool
    ++ bytesOfU2 c.access ++ bytesOfU2 c.thisClass ++ bytesOfU2 c.superClass
    ++ bytesOfU2List c.interfaces ++ fields ++ methods ++ attributes

end Interpose
