import Interpose.Weave.Method
import Interpose.Weave.Error
import Interpose.ClassFile.Read
import Interpose.ClassFile.Write
import Interpose.Event.Basic
/-!
# Weaving a class

Every method with code whose signature code is selected is woven, once per listener: an attribute
of the method lists the listeners that are woven into it. A method that cannot be woven fails the
class as a whole. When no method is woven, the bytes stay as they are.

Results:
* `Listeners.decode_encode`: the attribute gives back the listeners it was made of, up to 65535.
-/

namespace Interpose

namespace Listeners

/-- The attribute that lists the listeners of a method. -/
def attributeName : String := "jvmweaver.Listeners"

/-- A listener as four bytes. -/
def encodeOne (id : Int32) : Bytes :=
  bytesOfU4 id.toUInt32

/-- The listeners as bytes, with their number before them. -/
def encode (ids : List Int32) : Bytes :=
  bytesOfU2 (UInt16.ofNat ids.length) ++ ids.flatMap encodeOne

/-- At most so many listeners; bytes that do not make up a listener are left out. -/
def decodeMany : (count : Nat) → Bytes → List Int32
  | count + 1, a :: b :: c :: d :: rest => (u4OfBytes a b c d).toInt32 :: decodeMany count rest
  | _, _ => []

/-- The listeners that bytes stand for. -/
def decode : Bytes → List Int32
  | a :: b :: rest => decodeMany (u2OfBytes a b).toNat rest
  | _ => []

theorem decodeMany_flatMap (ids : List Int32) :
    decodeMany ids.length (ids.flatMap encodeOne) = ids := by
  induction ids with
  | nil => rfl
  | cons id rest ih =>
    simp only [List.length_cons, List.flatMap_cons, encodeOne, bytesOfU4, List.cons_append,
      List.nil_append, decodeMany, Reader.u4OfBytes_toNat, ih]
    simp

theorem decode_encode (ids : List Int32) (h : ids.length < 65536) : decode (encode ids) = ids := by
  simp only [encode, bytesOfU2, List.cons_append, List.nil_append, decode,
    Reader.u2OfBytes_toNat]
  rw [UInt16.toNat_ofNat_of_lt' (by simpa using h), decodeMany_flatMap]

end Listeners

/-- The listeners woven into a method. -/
def wovenListeners (m : Member) : List Int32 :=
  ((m.rawAttribute? Listeners.attributeName).map Listeners.decode).getD []

/-- The method with other listeners. -/
def withListeners (m : Member) (ids : List Int32) : Member :=
  m.setRawAttribute Listeners.attributeName (Listeners.encode ids)

/-- The hierarchy in which a class stands for its superclass; everything else is asked of an outer
hierarchy. -/
def Hierarchy.lifting (outer : Hierarchy) (owner : String) (superName : Option String) :
    Hierarchy where
  common a b :=
    let lift (name : String) := if name = owner then superName.getD name else name
    if a = b then a
    else if lift a = lift b then lift a
    else outer.common (lift a) (lift b)

/-- What is woven into classes, and where the events are sent. -/
structure Weaver where
  space : String
  listener : Int32
  kinds : EventKinds
  /-- Knows the classes other than the woven one. -/
  hierarchy : Option Hierarchy := none

/-- A woven class. -/
structure Woven where
  bytes : Bytes
  /-- The signature codes of the methods that were woven. -/
  behaviors : List String

/-- Whether anything was woven. -/
def Woven.isModified (w : Woven) : Bool :=
  !w.behaviors.isEmpty

namespace Weaver

/-- The description of a weaver. -/
def describe (w : Weaver) : String :=
  describedRecord "Weaver"
    [("namespace", quoted w.space), ("listener_id", toString w.listener.toInt),
      ("event_types", w.kinds.describe), ("hierarchy", describedBool w.hierarchy.isSome)] false

/-- What is common to the methods of a class that is woven. -/
structure ClassSite where
  owner : String
  className : String
  hierarchy : Hierarchy
  majorVersion : UInt16
  plan : WeavePlan
  selected : List String

/-- Weaving may add constants and fails as a whole. -/
abbrev Weaving := ExceptT TransformError (StateM Pool)

/-- What the pool tells about a method. -/
def reading {α : Type} (f : Pool → Except FormatError α) : Weaving α := do
  MonadExcept.ofExcept ((f (← get)).mapError .malformed)

/-- Adds to the pool. -/
def adding {α : Type} (m : Pool.Interning α) : Weaving α :=
  ExceptT.adapt (fun e => .weaving (.pool e)) m

/-- A method whose signature code is selected, that has code, and into which the listener is not yet
woven, is woven. The signature code tells which method was. -/
def method (s : ClassSite) (m : Member) : Weaving (Member × Option String) := do
  let name ← reading (·.getUtf8 m.name)
  let descriptor ← reading fun p => do MethodDescriptor.ofDescriptor (← p.getUtf8 m.descriptor)
  let code := signCode s.className name (descriptor.parameters.map JavaType.javaName)
  let listeners := wovenListeners m
  if !s.selected.contains code || listeners.contains s.plan.listener then return (m, none)
  else match m.code? with
    | none => return (m, none)
    | some given =>
      let context : MethodContext := { owner := s.owner, access := m.access, name, descriptor }
      let woven ← ExceptT.adapt (fun e => .weaving (.method code e))
        (Weave.method s.plan context s.hierarchy s.majorVersion given)
      let _ ← adding (Pool.addUtf8 Listeners.attributeName)
      return (withListeners (m.withCode woven) (listeners ++ [s.plan.listener]), some code)

/-- The methods of a class, woven where that is due. -/
def methods (s : ClassSite) (ms : List Member) : Weaving (List (Member × Option String)) :=
  ms.mapM (method s)

/-- Weaves a class: of its methods those with a signature code in the list. -/
def weave (w : Weaver) (loader : Int32) (bytes : Bytes) (signCodes : List String) :
    Except TransformError Woven := do
  let c ← (ClassFile.parse bytes).mapError .malformed
  let owner ← c.thisClassName.mapError .malformed
  let superName ← c.superClassName.mapError .malformed
  let className := toJavaName owner
  let site : ClassSite := {
    owner, className, majorVersion := c.majorVersion, selected := signCodes
    hierarchy := (w.hierarchy.getD Hierarchy.rootOnly).lifting owner superName
    plan := { space := w.space, listener := w.listener, loader, kinds := w.kinds, className } }
  let (outcome, pool) := (methods site c.methods).run.run c.pool
  let members : List (Member × Option String) ← outcome
  let behaviors := members.filterMap (·.2)
  if behaviors.isEmpty then return { bytes, behaviors }
  else
    let woven : ClassFile := { c with pool, methods := members.map (·.1) }
    let bytes ← woven.toBytes.mapError fun e => .weaving (.pool e)
    return { bytes, behaviors }

end Weaver

end Interpose
