import Interpose.ClassFile.Model
/-!
# Reading a class file

`ClassFile.parse` takes a class file off the front of a byte list; what follows it is ignored.
Every attribute states its length, so the body of an attribute is read from exactly that many
bytes, and a body that does not use all of them is refused.

Attributes and annotation values nest. Each level takes bytes of its own, so the number of bytes
left bounds the depth, and the readers recurse on that number.
-/

namespace Interpose

namespace Reader

/-- A number in eight bytes. -/
def u8 : Reader UInt64 := do
  let high ← u4
  let low ← u4
  return UInt64.ofNat (high.toNat * 0x100000000 + low.toNat)

/-- One constant behind its tag. -/
def constant : Reader Constant := do
  let tag ← u1
  match tag with
  | 1 =>
    let length ← u2
    let bytes ← take length.toNat
    return .utf8 (← ModifiedUtf8.decode bytes)
  | 3 => return .integer (← u4).toInt32
  | 4 => return .float (← u4)
  | 5 => return .long (← u8).toInt64
  | 6 => return .double (← u8)
  | 7 => return .classRef (← u2)
  | 8 => return .stringRef (← u2)
  | 9 => return .fieldRef (← u2) (← u2)
  | 10 => return .methodRef (← u2) (← u2)
  | 11 => return .interfaceMethodRef (← u2) (← u2)
  | 12 => return .nameAndType (← u2) (← u2)
  | 15 => return .methodHandle (← u1) (← u2)
  | 16 => return .methodType (← u2)
  | 17 => return .dynamic (← u2) (← u2)
  | 18 => return .invokeDynamic (← u2) (← u2)
  | 19 => return .moduleRef (← u2)
  | 20 => return .packageRef (← u2)
  | _ => fail (.invalidConstantPoolTag tag)

/--
Constants behind those of a pool until the given number of slots is filled. A wide constant in the
last of them takes one slot more.
-/
def constants (remaining : Nat) (p : Pool) : Reader Pool := fun s =>
  if remaining = 0 then .ok (p, s)
  else
    match constant s with
    | .error e => .error e
    | .ok (c, rest) => constants (remaining - c.width) (p.appendConstant c) rest
termination_by remaining
decreasing_by
  have : 0 < c.width := by unfold Constant.width; split <;> decide
  omega

/-- The constant pool behind its count. -/
def pool : Reader Pool := do
  let count ← u2
  constants (count.toNat - 1) Pool.empty

/-- A type of a stack map frame. -/
def verificationType : Reader VerificationType := do
  match ← u1 with
  | 0 => return .top
  | 1 => return .integer
  | 2 => return .float
  | 3 => return .double
  | 4 => return .long
  | 5 => return .null
  | 6 => return .uninitializedThis
  | 7 => return .object (← u2)
  | 8 => return .uninitialized (← u2)
  | _ => fail (.invalidAttribute "StackMapTable")

/-- A stack map frame. Its first byte gives the form and, in the short forms, the offset too. -/
def stackMapFrame : Reader StackMapFrame := do
  let tag ← u1
  if tag ≤ 63 then return .same tag.toUInt16
  else if tag ≤ 127 then return .sameStack (tag - 64).toUInt16 (← verificationType)
  else if tag < 247 then fail (.invalidAttribute "StackMapTable")
  else if tag = 247 then return .sameStackExtended (← u2) (← verificationType)
  else if tag ≤ 250 then return .chop (← u2) (251 - tag)
  else if tag = 251 then return .sameExtended (← u2)
  else if tag ≤ 254 then return .append (← u2) (← many (tag.toNat - 251) verificationType)
  else return .full (← u2) (← counted verificationType) (← counted verificationType)

/-- An annotation whose values are read by the given reader. -/
def annotationOf (element : Reader ElementValue) : Reader AnnotationEntry := do
  let type ← u2
  let pairs ← counted (do return (← u2, ← element))
  return ⟨type, pairs⟩

/-- Whether a byte is the tag of an element value that is a constant. -/
def isConstTag (tag : UInt8) : Bool :=
  tag.toNat ∈ "BCDFIJSZs".toList.map Char.toNat

/-- An annotation value nested at most `depth` deep. -/
def elementValue : (depth : Nat) → Reader ElementValue
  | 0 => fail .unexpectedEof
  | depth + 1 => do
    let tag ← u1
    if isConstTag tag then return .const tag (← u2)
    else if tag.toNat = 'e'.toNat then return .enumConst (← u2) (← u2)
    else if tag.toNat = 'c'.toNat then return .classInfo (← u2)
    else if tag.toNat = '@'.toNat then
      let a ← annotationOf (elementValue depth)
      return .nested a.type a.pairs
    else if tag.toNat = '['.toNat then return .array (← counted (elementValue depth))
    else fail (.invalidAttribute "annotation")

/-- The annotations of an attribute body. -/
def annotations : Reader (List AnnotationEntry) := fun s =>
  counted (annotationOf (elementValue s.length)) s

/-- A line number entry. -/
def lineEntry : Reader LineEntry := do
  return ⟨← u2, ← u2⟩

/-- A local variable entry. -/
def localEntry : Reader LocalEntry := do
  return ⟨← u2, ← u2, ← u2, ← u2, ← u2⟩

/-- A protected range. -/
def exceptionEntry : Reader ExceptionEntry := do
  return ⟨← u2, ← u2, ← u2, ← u2⟩

/-- The body of a code attribute whose own attributes are read by the given reader. -/
def codeOf (attributeReader : Reader Attribute) : Reader CodeAttribute := do
  let maxStack ← u2
  let maxLocals ← u2
  let length ← u4
  let code ← take length.toNat
  let exceptions ← counted exceptionEntry
  let attributes ← counted attributeReader
  return ⟨maxStack, maxLocals, code, exceptions, attributes⟩

/-- The body of the attribute with the given name, in which a code body is read by the given reader. -/
def attributeBody (name : String) (code : Reader CodeAttribute) : Reader Attribute :=
  match name with
  | "Code" => return .code (← code)
  | "StackMapTable" => return .stackMapTable (← counted stackMapFrame)
  | "Exceptions" => return .exceptions (← counted u2)
  | "SourceFile" => return .sourceFile (← u2)
  | "LineNumberTable" => return .lineNumberTable (← counted lineEntry)
  | "LocalVariableTable" => return .localVariableTable (← counted localEntry)
  | "LocalVariableTypeTable" => return .localVariableTypeTable (← counted localEntry)
  | "RuntimeVisibleAnnotations" => return .runtimeVisibleAnnotations (← annotations)
  | "RuntimeInvisibleAnnotations" => return .runtimeInvisibleAnnotations (← annotations)
  | _ => fun s => .ok (.unknown name s, [])

/-- An attribute nested at most `depth` deep. Its name is a text of the pool. -/
def oneAttribute (p : Pool) : (depth : Nat) → Reader Attribute
  | 0 => fail .unexpectedEof
  | depth + 1 => do
    let nameIndex ← u2
    let length ← u4
    let name ← p.getUtf8 nameIndex
    let info ← take length.toNat
    let (a, unread) ← attributeBody name (codeOf (oneAttribute p depth)) info
    if unread.isEmpty then return a else fail (.invalidAttribute name)

/-- Attributes behind their number. -/
def attributes (p : Pool) : Reader (List Attribute) := fun s =>
  counted (oneAttribute p (s.length + 1)) s

/-- A field or method. -/
def member (p : Pool) : Reader Member := do
  return ⟨← u2, ← u2, ← u2, ← attributes p⟩

/-- A class file. -/
def classFile : Reader ClassFile := do
  let magic ← u4
  if magic != classFileMagic then fail (.invalidMagic magic)
  let minorVersion ← u2
  let majorVersion ← u2
  let pool ← pool
  let access ← u2
  let thisClass ← u2
  let superClass ← u2
  let interfaces ← counted u2
  let fields ← counted (member pool)
  let methods ← counted (member pool)
  let attributes ← attributes pool
  return { minorVersion, majorVersion, pool, access, thisClass, superClass, interfaces, fields,
           methods, attributes }

end Reader

/-- The class file at the front of a byte list. -/
def ClassFile.parse (bytes : Bytes) : Except FormatError ClassFile :=
  (Reader.classFile bytes).map (·.1)

end Interpose
