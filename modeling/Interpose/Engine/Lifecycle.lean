import Interpose.Engine.Host
import Interpose.Engine.Realm
import Interpose.Dispatch.Bridge
import Interpose.Weave.SpyClasses
/-!
# The life of realms

Namespaces are installed and uninstalled, and listeners watch and stop watching. Realms and transformers
are objects, which are known by keys; the numbers that realms and listeners are given are of 32 bits.
What a request has changed before it fails stays changed: a listener's number is used up even if the
host refuses its transformer, and a realm or a listener is gone even if the host refuses to remove a
transformer.
-/

namespace Interpose

/-- The engine and its host. -/
structure Engine where
  /-- Every realm there ever was, by key. -/
  realms : Table Nat Realm := {}
  /-- The realms of the installed namespaces. -/
  installed : Table String Nat := {}
  /-- The realms that answer for namespaces. -/
  bridge : Bridge Nat := {}
  /-- The transformers the host was given, by key. -/
  coordinators : Table Nat Coordinator := {}
  /-- Whether the classes that woven code links against are defined. -/
  spyDefined : Bool := false
  realmCount : Nat := 0
  coordinatorCount : Nat := 0
  /-- The number of the last realm. -/
  lastRealm : UInt32 := 0
  /-- The number of the next listener. -/
  nextListener : Int32 := 1000
  host : Host := {}
  /-- The thread that events are sent from. -/
  thread : Thread := {}

/-- A request to the engine. -/
abbrev Lifecycle := ExceptT LifecycleError (StateM Engine)

namespace Engine

/-- Passes a refusal of the host on. -/
def obeying (refusal : Option HostError) : Lifecycle Unit :=
  match refusal with
  | some e => throw (.host e)
  | none => pure ()

/-- The realm with a key. -/
def realm (e : Engine) (key : Nat) : Option Realm :=
  e.realms.find? key

/-- The engine with a realm changed. -/
def withRealm (key : Nat) (f : Realm → Realm) (e : Engine) : Engine :=
  { e with realms := e.realms.modify key f }

/-- The engine with its host changed. -/
def withHost (f : Host → Host) (e : Engine) : Engine :=
  { e with host := f e.host }

/-- The engine without an installed namespace. -/
def without (space : String) (e : Engine) : Engine :=
  { e with installed := e.installed.erase space, bridge := e.bridge.erase space }

/-- The realm of an installed namespace. -/
def realmOf (space : String) : Lifecycle Realm := do
  let e ← get
  match (e.installed.find? space).bind e.realm with
  | some r => return r
  | none => throw (.notInstalled space)

/-- Has the host define a class in the root scope. -/
def define (policy : HostPolicy) (name : String) (bytes : Bytes) : Lifecycle Unit := do
  obeying (policy.define name)
  modify (withHost (·.define name bytes))

/-- Has the classes that woven code links against defined, unless they are. -/
def defineSpy (policy : HostPolicy) : Lifecycle Unit := do
  if (← get).spyDefined then return
  else
    let classes ← MonadExcept.ofExcept (spyClasses.mapError .spyClasses)
    classes.forM fun (name, bytes) => define policy name bytes
    modify fun e => { e with spyDefined := true }

/-- Makes a new realm and lets it answer for its namespace. -/
def establish (config : EngineConfig) (e : Engine) : RealmAddress × Engine :=
  let key := e.realmCount + 1
  let address : RealmAddress := ⟨config.space, e.lastRealm + 1⟩
  (address, { e with
    realmCount := key
    lastRealm := address.number
    realms := e.realms.insert key { address, config }
    bridge := e.bridge.insert config.space key
    installed := e.installed.insert config.space key })

/-- Installs a namespace. If it is installed already, that realm stays with its configuration. -/
def install (policy : HostPolicy) (config : EngineConfig) : Lifecycle RealmAddress := do
  let e ← get
  match (e.installed.find? config.space).bind e.realm with
  | some r => return r.address
  | none =>
    defineSpy policy
    modifyGet (establish config)

/-- Has the host call a transformer for every class. -/
def attach (c : Coordinator) (e : Engine) : Nat × Engine :=
  let key := e.coordinatorCount + 1
  (key, { e with
    coordinatorCount := key
    coordinators := e.coordinators.insert key c
    host := e.host.add key })

/-- Has the host remove the transformer of a listener, which it may refuse. -/
def detach (policy : HostPolicy) (id : Int32) (key : Nat) : Lifecycle (Option HostError) := do
  match policy.remove id with
  | some refusal => return some refusal
  | none =>
    modify (withHost (·.remove key))
    return none

/-- Has the host remove the transformers of listeners one by one, and tells the first refusal. -/
def detachAll (policy : HostPolicy) : List (Int32 × Nat) → Lifecycle (Option HostError)
  | [] => return none
  | (id, key) :: rest => do
    let first ← detach policy id key
    let others ← detachAll policy rest
    return first.or others

/-- Ends the life of a realm. It is inactive and empty afterwards even if the host refuses to remove a
transformer; the first refusal is reported. -/
def shutdown (policy : HostPolicy) (key : Nat) : Lifecycle Unit := do
  let drained := ((← get).realm key).elim [] (·.coordinators.entries)
  modify (withRealm key fun r => { r with active := false, coordinators := {} })
  let refusal ← detachAll policy drained
  modify (withRealm key fun r => { r with registry := {} })
  obeying refusal

/-- Uninstalls a namespace. -/
def uninstall (policy : HostPolicy) (space : String) : Lifecycle Unit := do
  match (← get).installed.find? space with
  | none => throw (.notInstalled space)
  | some key =>
    modify (without space)
    shutdown policy key

/-- The number of a new listener. -/
def draw (e : Engine) : Int32 × Engine :=
  (e.nextListener, { e with nextListener := e.nextListener + 1 })

/-- Registers a listener in a realm and transforms classes for it. If the host refuses the transformer,
the listener is not registered any more. -/
def watch (policy : HostPolicy) (key : Nat) (matcher : Matcher) (listener : Listener)
    (kinds : EventKinds) : Lifecycle Int32 := do
  match (← get).realm key with
  | none => throw (.inactive "")
  | some r =>
    if !r.active then throw (.inactive r.address.space)
    else
      let id ← modifyGet draw
      let space := r.address.space
      let enableUnsafe := r.config.enableUnsafe
      modify (withRealm key fun r =>
        { r with registry := r.registry.register { id, kinds, space, enableUnsafe, listener } })
      match policy.add id with
      | some refusal =>
        modify (withRealm key fun r => { r with registry := r.registry.erase id })
        throw (.host refusal)
      | none =>
        let transformer ← modifyGet (attach
          { space, listener := id, kinds, enableUnsafe, matcher, dumpPath := r.config.dumpPath })
        modify (withRealm key fun r =>
          { r with coordinators := r.coordinators.insert id transformer })
        return id

/-- Forgets a listener of a realm. It is gone even if the host refuses to remove its transformer. -/
def unwatch (policy : HostPolicy) (key : Nat) (id : Int32) : Lifecycle Unit := do
  match ((← get).realm key).bind (·.coordinators.find? id) with
  | none => throw (.unknownListener id)
  | some transformer =>
    modify (withRealm key fun r => { r with coordinators := r.coordinators.erase id })
    let refusal ← detach policy id transformer
    modify (withRealm key fun r => { r with registry := r.registry.erase id })
    obeying refusal

/-- The installed namespaces in ascending order. -/
def namespaces (e : Engine) : List String :=
  e.installed.keys

/-- What all watches of a realm have woven so far. -/
def affected (order : Iteration) (e : Engine) (r : Realm) : AffectedReport :=
  let watching := r.coordinators.values.filterMap e.coordinators.find?
  (watching.foldl (fun (a : Affected) c => a.merge order c.affected) {}).report order

/-- The listeners of a realm. -/
def registryOf (e : Engine) (key : Nat) : Registry :=
  ((e.realm key).map (·.registry)).getD {}

/-- Sends an event to the realm that answers for its namespace. -/
def send (d : Dispatch) (e : Engine) : Dispatched × Engine :=
  let (sent, thread) := (e.bridge.send e.registryOf d).run e.thread
  (sent, { e with thread })

/-- What becomes of an event. -/
def dispatch (e : Engine) (d : Dispatch) : Dispatched :=
  (e.send d).1

/-- Lets a transformer have a class that is loaded: counts the change it makes. -/
def loadStep (policy : HostPolicy) (r : LoadRequest) (s : Engine × Nat × Bytes) (key : Nat) :
    Engine × Nat × Bytes :=
  let (e, changes, bytes) := s
  match e.coordinators.find? key with
  | none => s
  | some c =>
    let (result, c) := c.transform (some policy.supers) { r with bytes }
    let e := { e with coordinators := e.coordinators.insert key c }
    match result with
    | some bytes => (e, changes + 1, bytes)
    | none => (e, changes, bytes)

/-- Loads a class: every transformer of the host gets it in turn. Gives the number of changes and the
bytes after them. -/
def load (policy : HostPolicy) (r : LoadRequest) (e : Engine) : (Nat × Bytes) × Engine :=
  let (e, changes, bytes) := e.host.transformers.foldl (loadStep policy r) (e, 0, r.bytes)
  ((changes, bytes), e)

end Engine

end Interpose
