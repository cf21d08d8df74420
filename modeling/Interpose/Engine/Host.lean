import Interpose.Transform.Coordinator
/-!
# The host

The process whose classes are woven. It may refuse to define a class, and to add or remove a
transformer; what it accepts, it does.
-/

namespace Interpose

/-- A refusal of the host. -/
structure HostError where
  operation : String
  reason : String
deriving DecidableEq

/-- What is said about a refusal. -/
def HostError.message (e : HostError) : String :=
  "host rejected " ++ e.operation ++ ": " ++ e.reason

/-- How the host answers requests: with a refusal or by doing what is asked. -/
structure HostPolicy where
  define : String → Option HostError := fun _ => none
  add : Int32 → Option HostError := fun _ => none
  remove : Int32 → Option HostError := fun _ => none
  /-- What the host knows of common superclasses. -/
  supers : KnownSupers := fun _ _ _ => none

/-- A host that refuses every request of some kinds. -/
def HostPolicy.refusing (define add remove : Bool) (supers : KnownSupers) : HostPolicy :=
  let refusal (refused : Bool) (operation : String) : Option HostError :=
    if refused then some ⟨operation, "refused"⟩ else none
  { define := fun _ => refusal define "define"
    add := fun _ => refusal add "add"
    remove := fun _ => refusal remove "remove"
    supers }

/-- What the host has done so far. -/
structure Host where
  /-- The classes defined in the root scope, in order. -/
  defined : List (String × Bytes) := []
  /-- The transformers that get every class, in order. -/
  transformers : List Nat := []

namespace Host

/-- Defines a class. -/
def define (name : String) (bytes : Bytes) (h : Host) : Host :=
  { h with defined := h.defined ++ [(name, bytes)] }

/-- Adds a transformer behind all others. -/
def add (transformer : Nat) (h : Host) : Host :=
  { h with transformers := h.transformers ++ [transformer] }

/-- Removes a transformer. -/
def remove (transformer : Nat) (h : Host) : Host :=
  { h with transformers := h.transformers.filter (· ≠ transformer) }

end Host

/-- Why the life of a realm did not go as asked. -/
inductive LifecycleError where
  | notInstalled (space : String)
  | inactive (space : String)
  | unknownListener (id : Int32)
  | spyClasses (cause : CodeError)
  | host (cause : HostError)
deriving DecidableEq

/-- What is said about the fault. -/
def LifecycleError.message : LifecycleError → String
  | notInstalled space => "namespace " ++ space ++ " is not installed"
  | inactive space => "boundary for namespace " ++ space ++ " has been uninstalled"
  | unknownListener id => "listener " ++ toString id.toInt ++ " is not registered"
  | spyClasses cause => "failed to generate dispatch classes: " ++ cause.message
  | host cause => cause.message

end Interpose
