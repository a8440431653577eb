import Barnabas.Client.Transport

/-!
Connections to brokers, and the routing that decides which one to use
(`barnabas-client/src/cluster.rs`).

A cluster owns one connection per broker, a second pool for coordinator traffic,
and the metadata that says which broker leads which partition. Reads that the
source runs concurrently on several connections (`recv_many`) are run one after
another: they touch different connections, and the transport is free to answer
each of them in any way.
-/

namespace Barnabas.Client

open Barnabas.Lib Barnabas.Core

/-- `conns` or `coordinator_conns`. -/
inductive Pool
  | data
  | coordinator
  deriving DecidableEq, Repr

/-- Connections plus the cluster map. -/
structure Cluster (ω : Type) where
  wire : Wire ω
  clientId : String
  bootstrap : List String
  allowAutoTopicCreation : Bool
  conns : Std.TreeMap String Broker
  coordinatorConns : Std.TreeMap String Broker
  metadata : Metadata
  refreshedAt : Std.TreeMap String ℕ
  metadataMaxAge : ℕ
  requestTimeout : ℕ
  credentials : Option Credentials

namespace Cluster

variable {ω ε α : Type}

def pool (c : Cluster ω) : Pool → Std.TreeMap String Broker
  | .data => c.conns
  | .coordinator => c.coordinatorConns

def setPool (c : Cluster ω) (pool : Pool) (brokers : Std.TreeMap String Broker) : Cluster ω :=
  match pool with
  | .data => { c with conns := brokers }
  | .coordinator => { c with coordinatorConns := brokers }

/-- Put a connection into a pool. -/
def keep (c : Cluster ω) (pool : Pool) (addr : String) (broker : Broker) : Cluster ω :=
  c.setPool pool ((c.pool pool).insert addr broker)

/-- Drop a connection from a pool. -/
def drop (c : Cluster ω) (pool : Pool) (addr : String) : Cluster ω :=
  c.setPool pool ((c.pool pool).erase addr)

def onWire (m : Act (Wire ω) ε α) : Act (Cluster ω) ε α :=
  Act.zoom (·.wire) (fun c wire => { c with wire }) m

/-- Run an operation of a connection, keep the connection in its pool as the
operation left it, and hand the outcome on. -/
def onBroker {ε' : Type} (pool : Pool) (addr : String) (broker : Broker)
    (m : Act (Link ω) ε' α) : Act (Cluster ω) ε (Except ε' α) := fun c =>
  let (outcome, link) := m ⟨c.wire, broker⟩
  (.ok outcome, { c with wire := link.wire }.keep pool addr link.broker)

variable (T : Transport ω)

/-- Run a step of the transport that cannot fail. -/
def onEnv (f : ω → α × ω) : Act (Cluster ω) ε α :=
  Act.lift (·.wire.env) (fun c env => { c with wire := { c.wire with env } }) f

/-- The clock. -/
def now : Act (Cluster ω) ε ℕ := onEnv T.now

def sleep (duration : ℕ) : Act (Cluster ω) ε Unit := onEnv fun env => ((), T.sleep duration env)

/-- 30 seconds; durations are in milliseconds. -/
def defaultRequestTimeout : ℕ := 30000

/-- A cluster with no connection yet. -/
def new (env : ω) (bootstrap : List String) (clientId : String) : Cluster ω where
  wire := ⟨env, []⟩
  clientId := clientId
  bootstrap := bootstrap
  allowAutoTopicCreation := true
  conns := ∅
  coordinatorConns := ∅
  metadata := .new
  refreshedAt := ∅
  metadataMaxAge := 300000
  requestTimeout := defaultRequestTimeout
  credentials := none

/-- The connection to `addr`, opened if the pool has none. -/
def brokerIn (pool : Pool) (addr : String) : Act (Cluster ω) Error Broker := do
  let c ← get
  match (c.pool pool)[addr]? with
  | some broker => pure broker
  | none =>
      let broker ← onWire (Broker.connect T addr c.clientId c.credentials)
      modify fun c => c.keep pool addr broker
      pure broker

def brokerAt (addr : String) : Act (Cluster ω) Error Broker := brokerIn T .data addr

/-- What follows a call under a deadline: a dead connection is dropped and
`retry` decides, a deadline drops the connection too. -/
def settle (pool : Pool) (op : ApiKey) (addr : String)
    (retry : IoError → Act (Cluster ω) Error α) :
    Except (Option Error) α → Act (Cluster ω) Error α
  | .ok resp => pure resp
  | .error (some (.io e)) => do
      modify fun c => c.drop pool addr
      retry e
  | .error (some e) => throw e
  | .error none => do
      modify fun c => c.drop pool addr
      throw (.timeout op addr)

/-- One attempt of `callAtWithTimeout`. -/
def callOnce (as : Body → Option α) (addr : String) (version : ℤ) (req : Request) (timeout : ℕ)
    (retry : IoError → Act (Cluster ω) Error α) : Act (Cluster ω) Error α := do
  let broker ← brokerAt T addr
  if broker.conn.inFlight.length ≠ 0 then
    throw (.connectionBusy req.apiKey addr broker.conn.inFlight.length)
  else do
    let outcome ← onBroker .data addr broker (Broker.call T (T.within timeout) as version req)
    settle .data req.apiKey addr retry outcome

/-- Send a request to a specific broker, reconnecting once if the connection
turns out to be dead. -/
def callAtWithTimeout (as : Body → Option α) (addr : String) (version : ℤ) (req : Request)
    (timeout : ℕ) : Act (Cluster ω) Error α :=
  callOnce T as addr version req timeout fun _ =>
    callOnce T as addr version req timeout fun e => throw (.io e)

def callAt (as : Body → Option α) (addr : String) (version : ℤ) (req : Request) :
    Act (Cluster ω) Error α := do
  let c ← get
  callAtWithTimeout T as addr version req c.requestTimeout

/-- One attempt of `callCoordinator`. -/
def callCoordinatorOnce (as : Body → Option α) (addr : String) (version : ℤ) (req : Request)
    (timeout : ℕ) (retry : IoError → Act (Cluster ω) Error α) : Act (Cluster ω) Error α := do
  let broker ← brokerIn T .coordinator addr
  let outcome ← onBroker .coordinator addr broker
    (Broker.call T (T.within timeout) as version req)
  settle .coordinator req.apiKey addr retry outcome

/-- As `callAt`, on the connection reserved for coordinator traffic. -/
def callCoordinator (as : Body → Option α) (addr : String) (version : ℤ) (req : Request)
    (timeout : ℕ) : Act (Cluster ω) Error α :=
  callCoordinatorOnce T as addr version req timeout fun _ =>
    callCoordinatorOnce T as addr version req timeout fun e => throw (.io e)

/-- One attempt of `sendAt`. -/
def sendOnce (addr : String) (version : ℤ) (req : Request)
    (retry : IoError → Act (Cluster ω) Error Unit) : Act (Cluster ω) Error Unit := do
  let broker ← brokerAt T addr
  match ← onBroker .data addr broker (Broker.send T T.unhurried version req) with
  | .ok () => pure ()
  | .error (.io e) => do
      modify fun c => c.drop .data addr
      retry e
  | .error e => throw e

/-- Write a request to `addr` and leave it outstanding. -/
def sendAt (addr : String) (version : ℤ) (req : Request) : Act (Cluster ω) Error Unit :=
  sendOnce T addr version req fun _ => sendOnce T addr version req fun e => throw (.io e)

/-- Take the connections out of the pool. -/
def takeConns : List String → Cluster ω → List (String × Option Broker) × Cluster ω
  | [], c => ([], c)
  | addr :: addrs, c =>
      let (taken, c') := takeConns addrs (c.drop .data addr)
      ((addr, c.conns[addr]?) :: taken, c')

/-- Read from one connection taken out of the pool. It goes back unless its read
failed or timed out, which leaves its stream position unknown. -/
def recvOne (op : ApiKey) (as : Body → Option α) :
    String × Option Broker → Cluster ω → Except Error α × Cluster ω
  | (_, none), c =>
      (.error (.io ⟨.notConnected, "connection dropped before its response was read"⟩), c)
  | (addr, some broker), c =>
      let (outcome, link) := Broker.recv (T.within c.requestTimeout) as ⟨c.wire, broker⟩
      let c := { c with wire := link.wire }
      match outcome with
      | .ok resp => (.ok resp, c.keep .data addr link.broker)
      | .error (some (.io e)) => (.error (.io e), c)
      | .error (some e) => (.error e, c.keep .data addr link.broker)
      | .error none => (.error (.timeout op addr), c)

def recvTaken (op : ApiKey) (as : Body → Option α) :
    List (String × Option Broker) → Cluster ω → List (Except Error α) × Cluster ω
  | [], c => ([], c)
  | taken :: rest, c =>
      let (outcome, c) := recvOne T op as taken c
      let (outcomes, c) := recvTaken op as rest c
      (outcome :: outcomes, c)

/-- Collect one outstanding answer from each of `addrs`. -/
def recvMany (op : ApiKey) (as : Body → Option α) (addrs : List String) :
    Act (Cluster ω) ε (List (Except Error α)) := fun c =>
  let (taken, c) := takeConns addrs c
  let (outcomes, c) := recvTaken T op as taken c
  (.ok outcomes, c)

/-- The first bootstrap address that answers. -/
def connectBootstrap : List String → Option Error → Act (Cluster ω) Error String
  | [], lastErr => throw (lastErr.getD (.missing "bootstrap address"))
  | addr :: addrs, _ => do
      let c ← get
      match ← Act.attempt (onWire (Broker.connect T addr c.clientId c.credentials)) with
      | .ok broker => do
          modify fun c => c.keep .data addr broker
          pure addr
      | .error e => connectBootstrap addrs (some e)

/-- The address of some live-looking broker, connecting if the pool is empty.
Which key a hash map yields first is the transport's choice. -/
def anyBrokerAddr : Act (Cluster ω) Error String := do
  let c ← get
  let n ← onEnv T.pick
  match c.conns.keys[n % c.conns.keys.length]? with
  | some addr => pure addr
  | none => connectBootstrap T c.bootstrap none

/-- Connect to the first reachable bootstrap address. -/
def connect : Act (Cluster ω) Error Unit := do
  let _ ← anyBrokerAddr T

/-- As `callAt`, for requests any broker can serve. -/
def callAny (as : Body → Option α) (version : ℤ) (req : Request) : Act (Cluster ω) Error α := do
  let addr ← anyBrokerAddr T
  callAt T as addr version req

/-- An invalid-metadata code is "not yet"; any other code of a topic fails. -/
def checkTopics : List TopicMetadata → Except Error Unit
  | [] => .ok ()
  | t :: topics =>
      let code := ErrorCode.mk t.errorCode
      if !code.isOk ∧ code.disposition ≠ .refreshMetadata then
        match check "Metadata" t.errorCode with
        | .ok () => checkTopics topics
        | .error e => .error e
      else checkTopics topics

/-- Ask any broker for `topic`'s metadata and merge it in. -/
def refreshMetadata (topic : String) : Act (Cluster ω) Error Unit := do
  let c ← get
  let resp ← callAny T Body.asMetadata 12 (.metadata (some [topic]) c.allowAutoTopicCreation)
  Act.ofExcept (checkTopics resp.topics)
  modify fun c => { c with metadata := c.metadata.update resp }
  let at' ← now T
  modify fun c => { c with refreshedAt := c.refreshedAt.insert topic at' }

/-- Whether this topic's metadata is older than the maximum age. -/
def isMetadataStale (topic : String) : Act (Cluster ω) Error Bool := do
  let c ← get
  match c.refreshedAt[topic]? with
  | none => pure true
  | some at' => do
      let now ← now T
      pure (c.metadataMaxAge ≤ now - at')

/-- Re-read this topic if it is stale, and report its partition count before and
after if it grew. -/
def refreshIfStale (topic : String) : Act (Cluster ω) Error (Option (ℤ × ℤ)) := do
  if ← isMetadataStale T topic then do
    let before := (← get).metadata.partitionCount topic
    refreshMetadata T topic
    let after := (← get).metadata.partitionCount topic
    pure (if 0 < before ∧ before < after then some (before, after) else none)
  else pure none

/-- Forget a topic that has been deleted. -/
def forgetTopic (c : Cluster ω) (topic : String) : Cluster ω :=
  { c with
    metadata := c.metadata.forgetTopic topic
    refreshedAt := c.refreshedAt.erase topic }

/-- Refresh brokers and the controller without naming a topic. -/
def refreshCluster : Act (Cluster ω) Error Unit := do
  let resp ← callAny T Body.asMetadata 12 (.metadata (some []) false)
  modify fun c => { c with metadata := c.metadata.update resp }

/-- The controller's address, refreshing if it is unknown. -/
def controllerAddr : Act (Cluster ω) Error String := do
  let c ← get
  match c.metadata.controllerAddr with
  | some broker => pure broker.addr
  | none => do
      refreshCluster T
      let c ← get
      match c.metadata.controllerAddr with
      | some broker => pure broker.addr
      | none => throw (.missing "a controller")

def invalidateController (c : Cluster ω) : Cluster ω :=
  { c with metadata := c.metadata.invalidateController }

/-- The address of a partition's leader, refreshing if unknown. -/
def leaderAddr (tp : TopicPartition) : Act (Cluster ω) Error String := do
  let c ← get
  match c.metadata.leaderFor tp with
  | some broker => pure broker.addr
  | none => do
      refreshMetadata T tp.topic
      let c ← get
      match c.metadata.leaderFor tp with
      | some broker => pure broker.addr
      | none => throw (.noLeader tp.topic tp.partition)

/-- Whether the partition count has to be read again: stale counts as unknown. -/
def countIsStale (topic : String) : Act (Cluster ω) Error Bool := do
  let c ← get
  if c.metadata.partitionCount topic = 0 then pure true else isMetadataStale T topic

/-- The partition count in the metadata, if it is not zero. -/
def knownCount (topic : String) : Act (Cluster ω) Error ℤ := do
  let c ← get
  let count := c.metadata.partitionCount topic
  if count = 0 then throw (.noLeader topic (-1)) else pure count

/-- How many partitions `topic` has. -/
def partitionCount (topic : String) : Act (Cluster ω) Error ℤ := do
  if ← countIsStale T topic then do
    refreshMetadata T topic
    knownCount topic
  else knownCount topic

/-- Authenticate every connection with these credentials. -/
def setCredentials (credentials : Credentials) (c : Cluster ω) : Cluster ω :=
  { c with credentials := some credentials }

/-- How long a request may take before its connection is dropped as broken. -/
def setRequestTimeout (timeout : ℕ) (c : Cluster ω) : Cluster ω := { c with requestTimeout := timeout }

def setAllowAutoTopicCreation (allow : Bool) (c : Cluster ω) : Cluster ω :=
  { c with allowAutoTopicCreation := allow }

def setMetadataMaxAge (age : ℕ) (c : Cluster ω) : Cluster ω := { c with metadataMaxAge := age }

/-- Forget one partition's leader. -/
def invalidate (c : Cluster ω) (tp : TopicPartition) : Cluster ω :=
  { c with metadata := c.metadata.invalidatePartition tp }

end Cluster

end Barnabas.Client
