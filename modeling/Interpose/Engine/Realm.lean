import Interpose.Dispatch.Registry
import Interpose.Engine.Config
/-!
# Realms

A realm is a namespace that was installed: its configuration, its listeners, and the transformers that
weave classes for them. A realm that was uninstalled is inactive for ever, and installing its namespace
again makes a new realm with another number.
-/

namespace Interpose

/-- A namespace and the number of its realm. -/
structure RealmAddress where
  space : String
  number : UInt32
deriving DecidableEq

/-- The text of an address. -/
def RealmAddress.text (a : RealmAddress) : String :=
  a.space ++ "#" ++ toString a.number

/-- The description of an address. -/
def RealmAddress.describe (a : RealmAddress) : String :=
  describedRecord "BoundaryAddress"
    [("namespace", quoted a.space), ("boundary_id", toString a.number)] false

/-- An installed namespace. -/
structure Realm where
  address : RealmAddress
  config : EngineConfig
  registry : Registry := {}
  /-- The transformers that weave classes, by the listener they weave them for. -/
  coordinators : Table Int32 Nat := {}
  active : Bool := true

/-- The listeners for which classes are woven, in ascending order. -/
def Realm.watched (r : Realm) : List Int32 :=
  r.coordinators.keys

/-- The description of a realm. -/
def Realm.describe (r : Realm) : String :=
  describedRecord "IsolationBoundary"
    [("address", r.address.describe), ("config", r.config.describe),
      ("active", describedBool r.active)] true

end Interpose
