import Interpose.Structure.Boundary
import Interpose.Structure.Behavior
import Interpose.Table
/-!
# What was woven

The signature codes of the woven methods, per class and the scope that loaded it. The classes are kept in a
map that tells nothing of its order: whoever goes through it, to merge or to count, goes in an order of the
map's own. A snapshot collects what is there, sorts it and counts it, in full and per scope.

A statistic is shared, and whoever goes through its map holds a lock on it meanwhile. So a statistic can be
merged into another one, but not into itself: the first class that is recorded waits for the lock for ever.
-/

namespace Interpose

/-- A class in the scope that loaded it. -/
abbrev LoadedClass := Boundary × String

/-- A way to go through the entries of a map: each once, in some order. -/
structure Iteration where
  visit : List (LoadedClass × List String) → List (LoadedClass × List String)
  perm : ∀ entries, (visit entries).Perm entries

/-- The order in which the entries are held. -/
def Iteration.asHeld : Iteration where
  visit entries := entries
  perm _ := .refl _

/-- Signature codes of woven methods, in ascending order, by class. -/
structure Affected where
  classes : Table LoadedClass (List String) := {}

/-- How much of a scope was woven. -/
structure ScopeCount where
  scope : String
  classes : Nat
  methods : Nat
deriving DecidableEq

/-- What was woven in a class. -/
structure ClassReport where
  scope : String
  className : String
  behaviors : List String
deriving DecidableEq

/-- What an entry of a map says. -/
def ClassReport.ofEntry (e : LoadedClass × List String) : ClassReport :=
  ⟨e.1.1.name, e.1.2, e.2⟩

/-- Whether a class may stand before another in a report: by the name of the scope, then by its own. -/
def ClassReport.upTo (a b : ClassReport) : Bool :=
  a.scope < b.scope || a.scope == b.scope && a.className ≤ b.className

/-- A report of everything that was woven. -/
structure AffectedReport where
  classes : List ClassReport
  /-- The scopes in ascending order of their names. -/
  scopes : List ScopeCount
deriving DecidableEq

/-- The number of classes in a report. -/
def AffectedReport.classCount (r : AffectedReport) : Nat :=
  r.classes.length

/-- The number of methods in a report. -/
def AffectedReport.methodCount (r : AffectedReport) : Nat :=
  r.classes.foldl (fun n c => n + c.behaviors.length) 0

namespace Affected

/-- The codes recorded for a class. -/
def codes (a : Affected) (c : LoadedClass) : List String :=
  (a.classes.find? c).getD []

/-- Records woven methods. The class is recorded even without any. -/
def record (a : Affected) (c : LoadedClass) (codes : List String) : Affected :=
  ⟨a.classes.put c (codes.foldl (fun set n => insertName n set) (a.codes c))⟩

variable (order : Iteration)

/-- Records everything that another one holds. -/
def merge (a b : Affected) : Affected :=
  (order.visit b.classes.entries).foldl (fun a (c, codes) => a.record c codes) a

/-- The number of classes. -/
def classCount (a : Affected) : Nat :=
  a.classes.size

/-- The number of methods. -/
def methodCount (a : Affected) : Nat :=
  (order.visit a.classes.entries).foldl (fun n (_, codes) => n + codes.length) 0

/-- What was woven in each class, in the order of reports. -/
def reports (a : Affected) : List ClassReport :=
  ((order.visit a.classes.entries).map ClassReport.ofEntry).mergeSort ClassReport.upTo

/-- The counts of one scope. -/
def countOf (rs : List ClassReport) (scope : String) : ScopeCount :=
  let mine := rs.filter (·.scope = scope)
  ⟨scope, mine.length, mine.foldl (fun n c => n + c.behaviors.length) 0⟩

/-- A report of everything. -/
def report (a : Affected) : AffectedReport :=
  let classes := a.reports order
  { classes, scopes := (sortedNames (classes.map (·.scope))).map (countOf classes) }

end Affected

/-- Statistics by their names; one that was not mentioned yet is empty. -/
structure Statistics where
  byName : Table String Affected := {}

namespace Statistics

/-- The statistic of a name. -/
def named (s : Statistics) (name : String) : Affected :=
  (s.byName.find? name).getD {}

/-- Records woven methods in a statistic. -/
def record (s : Statistics) (name : String) (c : LoadedClass) (codes : List String) : Statistics :=
  ⟨s.byName.insert name ((s.named name).record c codes)⟩

/-- Records an entry of a statistic whose map is being gone through in another one. If they are the same,
this never returns. -/
def recordFrom (source into : String) (s : Statistics) (e : LoadedClass × List String) : Option Statistics :=
  if into = source then none else some (s.record into e.1 e.2)

/-- Records in one statistic everything that another one holds, class by class. -/
def merge (order : Iteration) (s : Statistics) (into source : String) : Option Statistics :=
  (order.visit (s.named source).classes.entries).foldlM (recordFrom source into) s

/-- Forgets what a statistic holds. -/
def clear (s : Statistics) (name : String) : Statistics :=
  ⟨s.byName.insert name {}⟩

end Statistics

end Interpose
