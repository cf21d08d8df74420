import Interpose.Code.Body
import Interpose.Code.VType
import Interpose.Code.Hierarchy
/-!
# Frames

The types of the local variables and of the operand stack at one point of a method. The stack is
listed from the top down.

`Frame.merge` is the frame where two paths meet, `Frame.refine` lets a declared frame name the
classes of references, and `declaredFrames` expands the compressed frames of a class file: each one
says how its locals differ from those of the frame before it.
-/

namespace Interpose

/-- The types of local variables and operands, slot by slot; the top of the stack comes first. -/
structure Frame where
  locals : List VType
  stack : List VType
deriving DecidableEq

/-- The frame in which a method starts. -/
def initialFrame (m : MethodContext) : Frame :=
  let receiver :=
    if m.isStatic then []
    else if m.startsUninitialized then [VType.uninitializedThis]
    else [VType.object m.owner]
  { locals := receiver ++ m.descriptor.parameters.flatMap fun t => (VType.ofJava t).slots
    stack := [] }

/-- The type of a slot where two paths meet; there is none for types with nothing in common. -/
def mergeSlot (h : Hierarchy) (a b : VType) : Option VType :=
  if a = b then some a
  else
    match a, b with
    | .null, .object _ => some b
    | .object _, .null => some a
    | .object x, .object y =>
      if isArrayName x || isArrayName y then some (.object objectClass)
      else some (.object (h.common x y))
    | _, _ => none

namespace Frame

/-- Merges stacks of equal height slot by slot. -/
def mergeStack (h : Hierarchy) : List VType → List VType → Option (List VType)
  | [], [] => some []
  | a :: as, b :: bs => do
    let v ← mergeSlot h a b
    let vs ← mergeStack h as bs
    return v :: vs
  | _, _ => none

/-- Merges locals slot by slot; a slot without a common type is `top`, and one that either side
leaves out is left out. -/
def mergeLocals (h : Hierarchy) (as bs : List VType) : List VType :=
  as.zipWith (fun a b => (mergeSlot h a b).getD .top) bs

/-- The frame at an instruction where a further path arrives. -/
def merge (h : Hierarchy) (i : Nat) (existing incoming : Frame) : Except CodeError Frame :=
  match mergeStack h existing.stack incoming.stack with
  | some stack => .ok ⟨mergeLocals h existing.locals incoming.locals, stack⟩
  | none => .error (.stackMismatch i)

/-- The class of a reference as a declared frame names it. -/
def refineSlot (v hint : VType) : VType :=
  match hint with
  | .object _ => if v.isObject then hint else v
  | _ => v

/-- Refines slot by slot as far as both lists go. -/
def refineSlots : List VType → List VType → List VType
  | v :: vs, hint :: hints => refineSlot v hint :: refineSlots vs hints
  | vs, _ => vs

/-- The frame with classes of references as a declared frame names them; a stack of another height
says nothing. -/
def refine (f declared : Frame) : Frame :=
  { locals := refineSlots f.locals declared.locals
    stack :=
      if f.stack.length = declared.stack.length then refineSlots f.stack declared.stack
      else f.stack }

end Frame

/-! ## Declared frames -/

/-- The type that a declared type stands for; what is not constructed yet is left open. -/
def VerificationType.vtype (pool : Pool) : VerificationType → Except FormatError VType
  | top | uninitialized _ | uninitializedThis => .ok .top
  | integer => .ok .int
  | float => .ok .float
  | long => .ok .long
  | double => .ok .double
  | null => .ok .null
  | object index => (pool.className index).map .object

/-- The slots of declared types, in order. -/
def declaredSlots (pool : Pool) (types : List VerificationType) : Except FormatError (List VType) := do
  let vs ← types.mapM (VerificationType.vtype pool)
  return vs.flatMap VType.slots

/-- Locals, last slot first, without their last value, which may take two slots. -/
def dropLastValue : List VType → List VType
  | .top :: v :: rest => if v.isWide then rest else v :: rest
  | _ :: rest => rest
  | [] => []

/-- Locals without their last `k` values. -/
def chopLocals (k : Nat) (locals : List VType) : List VType :=
  (k.repeat dropLastValue locals.reverse).reverse

/-- The frame that a declared frame describes, given the locals of the one before it. -/
def expandFrame (pool : Pool) (locals : List VType) : StackMapFrame → Except FormatError Frame
  | .same _ | .sameExtended _ => .ok ⟨locals, []⟩
  | .sameStack _ v | .sameStackExtended _ v => do
    return ⟨locals, (← declaredSlots pool [v]).reverse⟩
  | .chop _ k => .ok ⟨chopLocals k.toNat locals, []⟩
  | .append _ added => do
    return ⟨locals ++ (← declaredSlots pool added), []⟩
  | .full _ all stack => do
    let locals ← declaredSlots pool all
    let stack ← declaredSlots pool stack
    return ⟨locals, stack.reverse⟩

/-- Expands declared frames in table order, from the locals in front of the first. -/
def expandFrames (pool : Pool) (locals : List VType) :
    List (Label × StackMapFrame) → Except FormatError (List (Label × Frame))
  | [] => .ok []
  | (l, f) :: rest => do
    let frame ← expandFrame pool locals f
    let others ← expandFrames pool frame.locals rest
    return (l, frame) :: others

/-- The declared frames by instruction. A table that cannot be resolved declares nothing. -/
def declaredFrames (pool : Pool) (m : MethodContext) (body : Body)
    (positions : Std.TreeMap Label Nat) : Std.TreeMap Nat Frame :=
  match expandFrames pool (initialFrame m).locals body.declaredFrames with
  | .error _ => ∅
  | .ok frames =>
    frames.foldl (fun hints (l, f) =>
      match positions[l]? with
      | some i => hints.insert i f
      | none => hints) ∅

end Interpose
