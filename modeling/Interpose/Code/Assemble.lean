import Interpose.Code.DeadCode
import Interpose.Code.StackMap
/-!
# Assembling

From a symbolic body back to a complete code attribute: type inference, removal of code that is
never reached, layout, and the tables for source lines, local variables and stack maps. The name of
each table is added to the pool when the table is not empty.
-/

namespace Interpose

namespace Assemble

/-- A local variable table entry; a variable whose range is gone has none. -/
def localEntry (e : Encoded) (v : LocalVar) : Option LocalEntry := do
  let (start, length) ← e.range v.start v.stop
  return ⟨start, length, v.name, v.type, v.slot⟩

/-- A table as an attribute under its name; an empty table gives none. -/
def tableAttribute {α : Type} (make : List α → Attribute) (entries : List α) :
    Assembly (List Attribute) :=
  if entries.isEmpty then return []
  else do
    let _ ← Assembly.adding (Pool.addUtf8 (make entries).name)
    return [make entries]

/-- The attributes of assembled code. -/
def tables (body : Body) (a : Analysis) (e : Encoded) (majorVersion : UInt16) :
    Assembly (List Attribute) := do
  let lines ← tableAttribute .lineNumberTable
    (e.lines.map fun (pc, line) => { startPc := UInt16.ofNat pc, line : LineEntry })
  let locals ← tableAttribute .localVariableTable (body.locals.filterMap (localEntry e))
  let localTypes ←
    tableAttribute .localVariableTypeTable (body.localTypes.filterMap (localEntry e))
  let frames ←
    if stackMapVersion ≤ majorVersion then do
      tableAttribute .stackMapTable (← StackMap.table a e)
    else pure []
  return lines ++ locals ++ localTypes ++ frames

/-- A body without dead code, and its analysis. -/
def live (body : Body) (context : MethodContext) (pool : Pool) (hierarchy : Hierarchy) :
    Except CodeError (Body × Analysis) := do
  let a ← analyze body context pool hierarchy
  if (a.deadCode body).isEmpty then return (body, a)
  else
    let pruned := withoutDeadCode body a
    return (pruned, ← analyze pruned context pool hierarchy)

end Assemble

/-- The code attribute of a body. -/
def assemble (body : Body) (context : MethodContext) (hierarchy : Hierarchy)
    (majorVersion : UInt16) : Assembly CodeAttribute := do
  let pool ← get
  let (body, a) ← Assembly.ofExcept (Assemble.live body context pool hierarchy)
  let e ← Assembly.ofExcept (encode body pool)
  let attributes ← Assemble.tables body a e majorVersion
  return { maxStack := a.maxStack, maxLocals := a.maxLocals, code := e.code,
           exceptions := e.exceptions, attributes }

end Interpose
