import Interpose.ClassFile.Constant
/-!
# Class files

What a class file holds. The attributes that weaving has to understand are taken apart; every
other attribute is kept as the bytes it came with. Constants are referred to by slot, and a slot of
0 stands for "none" where the format says so.
-/

namespace Interpose

/-- The first four bytes of every class file. -/
def classFileMagic : UInt32 := 0xCAFEBABE

/-- The first major version whose methods carry stack map frames. -/
def stackMapVersion : UInt16 := 50

/-! ## Access flags of classes, fields and methods -/
namespace Access

def publicFlag : UInt16 := 0x0001
def staticFlag : UInt16 := 0x0008
def finalFlag : UInt16 := 0x0010
def superFlag : UInt16 := 0x0020
def nativeFlag : UInt16 := 0x0100
def interfaceFlag : UInt16 := 0x0200
def abstractFlag : UInt16 := 0x0400
def annotationFlag : UInt16 := 0x2000

/-- Whether a set of flags holds a flag. -/
def has (flags flag : UInt16) : Bool :=
  flags &&& flag != 0

end Access

/-- One protected range of code, in byte offsets, and the code that handles what it throws. -/
structure ExceptionEntry where
  startPc : UInt16
  endPc : UInt16
  handlerPc : UInt16
  catchType : UInt16
deriving DecidableEq

/-- A type as stack map frames write it. -/
inductive VerificationType where
  | top | integer | float | double | long | null | uninitializedThis
  | object (index : UInt16)
  | uninitialized (offset : UInt16)
deriving DecidableEq

/-- A stack map frame. Its offset counts from the frame before it. -/
inductive StackMapFrame where
  | same (delta : UInt16)
  | sameStack (delta : UInt16) (stack : VerificationType)
  | sameStackExtended (delta : UInt16) (stack : VerificationType)
  | chop (delta : UInt16) (k : UInt8)
  | sameExtended (delta : UInt16)
  | append (delta : UInt16) (locals : List VerificationType)
  | full (delta : UInt16) (locals stack : List VerificationType)
deriving DecidableEq

/-- How far the frame lies behind the one before it. -/
def StackMapFrame.delta : StackMapFrame → UInt16
  | same d | sameStack d _ | sameStackExtended d _ | chop d _ | sameExtended d | append d _
  | full d _ _ => d

/-- The source line of the code from an offset on. -/
structure LineEntry where
  startPc : UInt16
  line : UInt16
deriving DecidableEq

/-- A named local variable over a range of code; its type is a descriptor or a signature. -/
structure LocalEntry where
  startPc : UInt16
  length : UInt16
  name : UInt16
  type : UInt16
  slot : UInt16
deriving DecidableEq

/-- The value of an annotation element. -/
inductive ElementValue where
  | const (tag : UInt8) (index : UInt16)
  | enumConst (typeName constName : UInt16)
  | classInfo (index : UInt16)
  | nested (type : UInt16) (pairs : List (UInt16 × ElementValue))
  | array (values : List ElementValue)

/-- An annotation: its type and its named elements. -/
structure AnnotationEntry where
  type : UInt16
  pairs : List (UInt16 × ElementValue)

mutual

/-- Something attached to a class, a field, a method or a method's code. -/
inductive Attribute where
  | code (body : CodeAttribute)
  | stackMapTable (frames : List StackMapFrame)
  | exceptions (classes : List UInt16)
  | sourceFile (index : UInt16)
  | lineNumberTable (entries : List LineEntry)
  | localVariableTable (entries : List LocalEntry)
  | localVariableTypeTable (entries : List LocalEntry)
  | runtimeVisibleAnnotations (annotations : List AnnotationEntry)
  | runtimeInvisibleAnnotations (annotations : List AnnotationEntry)
  | unknown (name : String) (info : Bytes)

/-- The code of a method. -/
structure CodeAttribute where
  maxStack : UInt16
  maxLocals : UInt16
  code : Bytes
  exceptions : List ExceptionEntry
  attributes : List Attribute

end

/-- The name under which an attribute is stored. -/
def Attribute.name : Attribute → String
  | code _ => "Code"
  | stackMapTable _ => "StackMapTable"
  | exceptions _ => "Exceptions"
  | sourceFile _ => "SourceFile"
  | lineNumberTable _ => "LineNumberTable"
  | localVariableTable _ => "LocalVariableTable"
  | localVariableTypeTable _ => "LocalVariableTypeTable"
  | runtimeVisibleAnnotations _ => "RuntimeVisibleAnnotations"
  | runtimeInvisibleAnnotations _ => "RuntimeInvisibleAnnotations"
  | unknown name _ => name

/-- The code an attribute holds, if it is a code attribute. -/
def Attribute.code? : Attribute → Option CodeAttribute
  | code body => some body
  | _ => none

/-- The bytes of an attribute that is kept as bytes under the given name. -/
def Attribute.raw? (wanted : String) : Attribute → Option Bytes
  | unknown name info => if name = wanted then some info else none
  | _ => none

/-- A field or method of a class. -/
structure Member where
  access : UInt16
  name : UInt16
  descriptor : UInt16
  attributes : List Attribute

namespace Member

/-- The first code attribute of a method. -/
def code? (m : Member) : Option CodeAttribute :=
  m.attributes.findSome? Attribute.code?

/-- The method with its first code attribute replaced. -/
def withCode (m : Member) (new : CodeAttribute) : Member :=
  { m with attributes := replaceFirst m.attributes }
where
  replaceFirst : List Attribute → List Attribute
    | [] => []
    | .code _ :: rest => .code new :: rest
    | a :: rest => a :: replaceFirst rest

/-- The bytes of the first attribute that is kept as bytes under the given name. -/
def rawAttribute? (m : Member) (name : String) : Option Bytes :=
  m.attributes.findSome? (Attribute.raw? name)

/-- The method with all attributes kept as bytes under a name replaced by one at the end. -/
def setRawAttribute (m : Member) (name : String) (info : Bytes) : Member :=
  { m with
    attributes := m.attributes.filter (fun a => (a.raw? name).isNone) ++ [.unknown name info] }

end Member

/-- A class file. -/
structure ClassFile where
  minorVersion : UInt16
  majorVersion : UInt16
  pool : Pool
  access : UInt16
  thisClass : UInt16
  superClass : UInt16
  interfaces : List UInt16
  fields : List Member
  methods : List Member
  attributes : List Attribute

namespace ClassFile

/-- The name of the class. -/
def thisClassName (c : ClassFile) : Except FormatError String :=
  c.pool.className c.thisClass

/-- The name of the superclass; the root class and module descriptors have none. -/
def superClassName (c : ClassFile) : Except FormatError (Option String) :=
  if c.superClass = 0 then .ok none else (c.pool.className c.superClass).map some

/-- The names of the declared interfaces. -/
def interfaceNames (c : ClassFile) : Except FormatError (List String) :=
  c.interfaces.mapM c.pool.className

/-- Whether the class is an interface. -/
def isInterface (c : ClassFile) : Bool :=
  Access.has c.access Access.interfaceFlag

end ClassFile

end Interpose
