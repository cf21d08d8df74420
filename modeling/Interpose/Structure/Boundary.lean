import Interpose.ClassFile.Error
/-!
# Loading boundaries

A class is defined in one loading scope: the root scope, a scope of the engine itself, or a scope
that the host knows by the number of its loader object. The name of a scope tells the three kinds
apart, and within a kind it tells the scopes apart.
-/

namespace Interpose

/-- The loading scope that defines a class. -/
inductive Boundary where
  | bootstrap
  | engine (space : String)
  | application (id : Int32)
deriving DecidableEq, Hashable

namespace Boundary

/-- The number by which woven code reports the scope. -/
def objectId : Boundary → Int32
  | bootstrap => 0
  | engine _ => -1
  | application id => id

/-- Whether this is the root scope. -/
def isBootstrap : Boundary → Bool
  | bootstrap => true
  | _ => false

/-- Whether the scope belongs to the engine. -/
def isEngine : Boundary → Bool
  | engine _ => true
  | _ => false

/-- The name of the scope. The number of a loader is shown as 32 bits in hexadecimal. -/
def name : Boundary → String
  | bootstrap => "bootstrap"
  | engine space => "engine:" ++ space
  | application id => "loader@" ++ hexDigits id.toUInt32.toNat

end Boundary

end Interpose
