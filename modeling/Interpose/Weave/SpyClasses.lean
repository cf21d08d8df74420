import Interpose.Weave.Spy
import Interpose.Weave.Template
import Interpose.ClassFile.Write
import Interpose.Code.Assemble
/-!
# The classes that woven code links against

The class with the dispatch methods, all of them native, and the class of verdicts, whose constructor
stores its two arguments. They are defined once, in the root scope, so that woven code in every scope
can link against them.
-/

namespace Interpose

namespace Spy

/-- The class file version of the dispatch classes. -/
def classVersion : UInt16 := 52

/-- A public final class without members. The pool holds its name and the name of the root class. -/
def emptyClass (name : String) : Assembly ClassFile := do
  let thisClass ← Assembly.adding (Pool.addClass name)
  let superClass ← Assembly.adding (Pool.addClass objectClass)
  return { minorVersion := 0, majorVersion := classVersion, pool := Pool.empty
           access := Access.publicFlag ||| Access.finalFlag ||| Access.superFlag
           thisClass, superClass, interfaces := [], fields := [], methods := [], attributes := [] }

/-- A member without attributes. -/
def member (access : UInt16) (name descriptor : String) : Assembly Member := do
  let name ← Assembly.adding (Pool.addUtf8 name)
  let descriptor ← Assembly.adding (Pool.addUtf8 descriptor)
  return { access, name, descriptor, attributes := [] }

/-- The bytes of a class that was put together from an empty pool. -/
def bytesOf (build : Assembly ClassFile) : Except CodeError Bytes := do
  let (outcome, pool) := build.run.run Pool.empty
  let c : ClassFile ← outcome
  ({ c with pool } : ClassFile).toBytes.mapError .format

/-- The class with the dispatch methods. -/
def dispatchClass : Assembly ClassFile := do
  let c ← emptyClass className
  let access := Access.publicFlag ||| Access.staticFlag ||| Access.nativeFlag
  let methods ← EventKind.all.mapM fun k => member access (methodName k) (methodDescriptor k)
  return { c with methods }

/-- The code of the constructor of verdicts: constructs the object and stores both arguments. -/
def verdictConstructor : List Template :=
  [.var Op.aload 0, .method Op.invokespecial ⟨objectClass, constructorName, "()V"⟩,
    .var Op.aload 0, .var Op.iload 1, .field Op.putfield stateField,
    .var Op.aload 0, .var Op.aload 2, .field Op.putfield valueField,
    .op Op.returnVoid]

/-- The class of verdicts. -/
def verdictClassFile : Assembly ClassFile := do
  let c ← emptyClass verdictClass
  let fields ← [stateField, valueField].mapM fun f =>
    member (Access.publicFlag ||| Access.finalFlag) f.name f.descriptor
  let insns ← Assembly.adding (verdictConstructor.mapM Template.settle)
  let descriptor : MethodDescriptor := ⟨[.int, .object objectClass], .void⟩
  let context : MethodContext :=
    { owner := verdictClass, access := Access.publicFlag, name := constructorName, descriptor }
  let _ ← Assembly.adding (Pool.addUtf8 "Code")
  let code ← assemble { insns } context Hierarchy.rootOnly classVersion
  let constructor ← member Access.publicFlag constructorName descriptor.descriptor
  return { c with fields, methods := [{ constructor with attributes := [.code code] }] }

end Spy

/-- The names and bytes of the dispatch classes, in the order in which they are to be defined. -/
def spyClasses : Except CodeError (List (String × Bytes)) := do
  return [(Spy.className, ← Spy.bytesOf Spy.dispatchClass),
    (Spy.verdictClass, ← Spy.bytesOf Spy.verdictClassFile)]

end Interpose
