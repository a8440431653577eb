import Barnabas.Client.Message
import Barnabas.Lib.Action

/-!
What the client uses from outside: the transport (`barnabas-client/src/lib.rs`)
with the clock, and the third-party codecs; and one connection to a broker on
top of it (`barnabas-core/src/conn.rs` and the `Broker` of
`barnabas-client/src/cluster.rs`).

Everything outside the client is a parameter. The state `ω` stands for the rest
of the world, brokers and network included, and each operation of the transport
may change it in any way, so that a result about every `Transport` is a result
about every behaviour of the peers. A read is modelled a whole frame at a time.

`with_timeout` races an operation against a deadline. The operations that run
under it are the same as those that do not, over a transport whose waits can
also end by the deadline; `Patience` is what differs.
-/

namespace Barnabas.Client

open Barnabas.Lib Barnabas.Core

/-- Which SASL mechanism to use. -/
inductive SaslMechanism
  | plain
  | scramSha256
  | scramSha512
  deriving DecidableEq, Repr

/-- The name Kafka expects in `SaslHandshake`. -/
def SaslMechanism.asStr : SaslMechanism → String
  | plain => "PLAIN"
  | scramSha256 => "SCRAM-SHA-256"
  | scramSha512 => "SCRAM-SHA-512"

structure Credentials where
  mechanism : SaslMechanism
  username : String
  password : String
  deriving DecidableEq, Repr

/-- The fields of a `ConsumerProtocolSubscription` that are set or read. -/
structure SubscriptionBody where
  topics : List String
  ownedPartitions : List (String × List ℤ)
  generationId : ℤ
  deriving DecidableEq, Repr

/-- The assigned partitions of a `ConsumerProtocolAssignment`. -/
abbrev AssignmentBody := List (String × List ℤ)

/-- The pure functions the client calls and does not define: the codecs of the
protocol crate and the computations of one SASL exchange. The blobs of the group
protocol are encoded and decoded under a version. -/
structure Codec where
  encodeHeader : Frame → Except String ℕ
  encodeBody : Frame → Except String ℕ
  encodeRecords : List Record → Compression → Except String Unit
  encodeSubscription : ℤ → SubscriptionBody → Except String Bytes
  decodeSubscription : ℤ → Bytes → Except String SubscriptionBody
  encodeAssignment : ℤ → AssignmentBody → Except String Bytes
  decodeAssignment : ℤ → Bytes → Except String AssignmentBody
  plainMessage : Credentials → Bytes
  scramStart : Credentials → String → Bytes
  scramClientFinal : Credentials → String → Bytes → Except String Bytes
  scramVerify : Credentials → String → Bytes → Bytes → Except String Unit

/-- A runtime: sockets, a timer and a clock. A stream is named by a number.
`writeWithin` and `readWithin` are a write and a read under a deadline, and end
in the error `none` if the deadline comes first. `pick` is the order a hash map
happens to iterate in, `nonce` the source of SCRAM nonces. -/
structure Transport (ω : Type) where
  codec : Codec
  connect : String → Act ω IoError ℕ
  write : ℕ → Frame → Act ω IoError Unit
  read : ℕ → Act ω IoError Incoming
  writeWithin : ℕ → ℕ → Frame → Act ω (Option IoError) Unit
  readWithin : ℕ → ℕ → Act ω (Option IoError) Incoming
  sleep : ℕ → ω → ω
  now : ω → ℕ × ω
  systemTime : ω → ℤ × ω
  pick : ω → ℕ × ω
  nonce : ω → String × ω

/-- How an operation waits for its peer: without end, or under a deadline. -/
structure Patience (ω ε : Type) where
  write : ℕ → Frame → Act ω ε Unit
  read : ℕ → Act ω ε Incoming
  fail : Error → ε

/-- Wait for as long as it takes. -/
def Transport.unhurried {ω : Type} (T : Transport ω) : Patience ω Error where
  write stream frame := Act.mapError .io (T.write stream frame)
  read stream := Act.mapError .io (T.read stream)
  fail e := e

/-- Wait for at most `timeout`; the error `none` is the deadline. -/
def Transport.within {ω : Type} (T : Transport ω) (timeout : ℕ) : Patience ω (Option Error) where
  write stream frame := Act.mapError (Option.map .io) (T.writeWithin timeout stream frame)
  read stream := Act.mapError (Option.map .io) (T.readWithin timeout stream)
  fail e := some e

/-- The world, and every frame handed to the transport so far, in order. The
second is no part of the source: it is what statements about the requests of a
run are made of. -/
structure Wire (ω : Type) where
  env : ω
  sent : List Frame

/-! ### One connection's protocol state -/

/-- A request awaiting its response. -/
structure Pending where
  apiKey : ApiKey
  version : ℤ
  correlationId : ℤ
  deriving DecidableEq, Repr

/-- A response body, matched to the request that asked for it. -/
structure PendingResponse where
  apiKey : ApiKey
  version : ℤ
  correlationId : ℤ
  body : Body
  deriving DecidableEq, Repr

/-- One broker connection's protocol state. Owns no socket. -/
structure Connection where
  clientId : String
  nextCorrelationId : ℤ
  inFlight : List Pending
  deriving DecidableEq, Repr

namespace Connection

def new (clientId : String) : Connection := ⟨clientId, 0, []⟩

/-- The decoder's limit on a frame: 100 MiB. -/
def defaultMaxFrame : ℕ := 100 * 1024 * 1024

/-- Encode a request and record it as in flight. The correlation id advances
even if encoding fails; the frame's length is checked after the request was
recorded. -/
def request (codec : Codec) (version : ℤ) (req : Request) : Act Connection Core.Error Frame := do
  let conn ← get
  let correlationId := wrap 32 (conn.nextCorrelationId + 1)
  set { conn with nextCorrelationId := correlationId }
  let frame : Frame := ⟨version, correlationId, conn.clientId, req⟩
  match codec.encodeHeader frame with
  | .error e => throw (.codec ("encode header: " ++ e))
  | .ok header =>
      match codec.encodeBody frame with
      | .error e =>
          throw (.codec ("encode " ++ req.apiKey.name ++ " v" ++ toString version ++ ": " ++ e))
      | .ok body =>
          modify fun conn => { conn with
            inFlight := conn.inFlight ++ [⟨req.apiKey, version, correlationId⟩] }
          if i32Max < header + body then throw (.frameTooLarge (header + body) i32Max.toNat)
          else pure frame

/-- Match the next frame to the oldest request in flight. On a mismatch the
request is left in flight. -/
def nextResponse (incoming : Except ℕ (Except String ℤ × Body)) :
    Act Connection Core.Error PendingResponse := do
  match incoming with
  | .error len => throw (.frameTooLarge len defaultMaxFrame)
  | .ok (header, body) =>
      let conn ← get
      match conn.inFlight with
      | [] => throw .unsolicited
      | pending :: rest =>
          match header with
          | .error e => throw (.codec ("decode response header: " ++ e))
          | .ok correlationId =>
              if correlationId ≠ pending.correlationId then
                throw (.correlation correlationId pending.correlationId)
              else do
                set { conn with inFlight := rest }
                pure ⟨pending.apiKey, pending.version, correlationId, body⟩

/-- Decode a response body into its concrete type. -/
def decode {α : Type} (as : Body → Option α) (resp : PendingResponse) : Except Core.Error α :=
  match as resp.body with
  | some message => .ok message
  | none => .error (.codec ("decode " ++ resp.apiKey.name ++ " v" ++ toString resp.version ++
      " response: " ++ resp.body.refusal))

end Connection

/-! ### The types a response can be asked to decode into -/

namespace Body

def asApiVersions : Body → Option ApiVersionsResponse
  | apiVersions resp => some resp
  | _ => none

def asSaslHandshake : Body → Option SaslHandshakeResponse
  | saslHandshake resp => some resp
  | _ => none

def asSaslAuthenticate : Body → Option SaslAuthenticateResponse
  | saslAuthenticate resp => some resp
  | _ => none

def asMetadata : Body → Option MetadataResponse
  | metadata resp => some resp
  | _ => none

def asFindCoordinator : Body → Option FindCoordinatorResponse
  | findCoordinator resp => some resp
  | _ => none

def asInitProducerId : Body → Option InitProducerIdResponse
  | initProducerId resp => some resp
  | _ => none

def asAddPartitionsToTxn : Body → Option CodesByTopic
  | addPartitionsToTxn results => some results
  | _ => none

def asAddOffsetsToTxn : Body → Option ℤ
  | addOffsetsToTxn code => some code
  | _ => none

def asTxnOffsetCommit : Body → Option CodesByTopic
  | txnOffsetCommit results => some results
  | _ => none

def asEndTxn : Body → Option ℤ
  | endTxn code => some code
  | _ => none

def asProduce : Body → Option ProduceResponse
  | produce resp => some resp
  | _ => none

def asFetch : Body → Option FetchResponse
  | fetch resp => some resp
  | _ => none

def asListOffsets : Body → Option (List (String × List ListOffsetsPartitionResponse))
  | listOffsets topics => some topics
  | _ => none

def asJoinGroup : Body → Option JoinGroupResponse
  | joinGroup resp => some resp
  | _ => none

def asSyncGroup : Body → Option SyncGroupResponse
  | syncGroup resp => some resp
  | _ => none

def asHeartbeat : Body → Option ℤ
  | heartbeat code => some code
  | _ => none

def asLeaveGroup : Body → Option ℤ
  | leaveGroup code => some code
  | _ => none

def asOffsetCommit : Body → Option CodesByTopic
  | offsetCommit results => some results
  | _ => none

def asOffsetFetch : Body → Option OffsetFetchResponse
  | offsetFetch resp => some resp
  | _ => none

end Body

/-! ### One broker connection -/

/-- One broker connection. `versions` is what the broker said it speaks, per API
key. -/
structure Broker where
  stream : ℕ
  conn : Connection
  versions : Std.TreeMap ℤ (ℤ × ℤ)

/-- A connection with the wire it writes to. -/
structure Link (ω : Type) where
  wire : Wire ω
  broker : Broker

namespace Broker

variable {ω ε α : Type} (T : Transport ω) (P : Patience ω ε)

/-- Run an operation of the transport. -/
def onEnv (m : Act ω ε α) : Act (Link ω) ε α :=
  Act.zoom (·.wire.env) (fun l env => { l with wire := { l.wire with env } }) m

/-- Run an operation of the connection's protocol state. -/
def onConn (m : Act Connection Core.Error α) : Act (Link ω) ε α :=
  Act.mapError (fun e => P.fail (.core e))
    (Act.zoom (·.broker.conn) (fun l conn => { l with broker := { l.broker with conn } }) m)

/-- The version to send: the preferred one, brought into the range the broker
gave for this key. -/
def negotiated (broker : Broker) (key : ApiKey) (preferred : ℤ) : ℤ :=
  match broker.versions[key.code]? with
  | some (low, high) => max low (min preferred high)
  | none => preferred

/-- Write a request and do not wait for it. -/
def send (version : ℤ) (req : Request) : Act (Link ω) ε Unit := do
  let link ← get
  let version := link.broker.negotiated req.apiKey version
  let frame ← onConn P (Connection.request T.codec version req)
  modify fun l => { l with wire := { l.wire with sent := l.wire.sent ++ [frame] } }
  onEnv (P.write link.broker.stream frame)

/-- Read the answer to the oldest outstanding request. -/
def recv (as : Body → Option α) : Act (Link ω) ε α := do
  let link ← get
  match ← onEnv (P.read link.broker.stream) with
  | .closed => throw (P.fail (.io ⟨.unexpectedEof, "broker closed the connection"⟩))
  | .tooLarge len =>
      let resp ← onConn P (Connection.nextResponse (.error len))
      onConn P (Act.ofExcept (Connection.decode as resp))
  | .frame header body =>
      let resp ← onConn P (Connection.nextResponse (.ok (header, body)))
      onConn P (Act.ofExcept (Connection.decode as resp))

/-- Send one request and read its response, on an idle connection only. -/
def call (as : Body → Option α) (version : ℤ) (req : Request) : Act (Link ω) ε α := do
  let link ← get
  if link.broker.conn.inFlight.length ≠ 0 then
    throw (P.fail (.connectionBusy req.apiKey "" link.broker.conn.inFlight.length))
  else do
    send T P version req
    recv P as

/-- One `SaslAuthenticate` round trip. -/
def saslExchange (bytes : Bytes) : Act (Link ω) Error Bytes := do
  let resp ← call T T.unhurried Body.asSaslAuthenticate 1 (.saslAuthenticate bytes)
  if resp.errorCode ≠ 0 then throw (.sasl (resp.errorMessage.getD "authentication failed"))
  else pure resp.authBytes

/-- The round trips of the mechanism the broker accepted. -/
def exchange (credentials : Credentials) : Act (Link ω) Error Unit :=
  match credentials.mechanism with
  | .plain => do
      let _ ← saslExchange T (T.codec.plainMessage credentials)
  | .scramSha256 | .scramSha512 => do
      let nonce ← Act.lift (·.wire.env) (fun l env => { l with wire := { l.wire with env } }) T.nonce
      let serverFirst ← saslExchange T (T.codec.scramStart credentials nonce)
      match T.codec.scramClientFinal credentials nonce serverFirst with
      | .error e => throw (.sasl e)
      | .ok clientFinal =>
          let serverFinal ← saslExchange T clientFinal
          match T.codec.scramVerify credentials nonce serverFirst serverFinal with
          | .error e => throw (.sasl e)
          | .ok () => pure ()

/-- Two round trips, unless the mechanism is the plain one. -/
theorem exchange_scram {credentials : Credentials} (h : credentials.mechanism ≠ .plain) :
    exchange T credentials = (do
      let nonce ← Act.lift (·.wire.env) (fun l env => { l with wire := { l.wire with env } }) T.nonce
      let serverFirst ← saslExchange T (T.codec.scramStart credentials nonce)
      match T.codec.scramClientFinal credentials nonce serverFirst with
      | .error e => throw (.sasl e)
      | .ok clientFinal =>
          let serverFinal ← saslExchange T clientFinal
          match T.codec.scramVerify credentials nonce serverFirst serverFinal with
          | .error e => throw (.sasl e)
          | .ok () => pure () : Act (Link ω) Error Unit) := by
  rw [exchange]
  cases hmechanism : credentials.mechanism with
  | plain => exact absurd hmechanism h
  | scramSha256 => rfl
  | scramSha512 => rfl

/-- `SaslHandshake`, then one or more `SaslAuthenticate` round trips. -/
def authenticate (credentials : Credentials) : Act (Link ω) Error Unit := do
  let resp ← call T T.unhurried Body.asSaslHandshake 1
    (.saslHandshake credentials.mechanism.asStr)
  if resp.errorCode ≠ 0 then
    throw (.sasl ("broker rejected mechanism " ++ credentials.mechanism.asStr ++ "; it offers " ++
      if resp.mechanisms = [] then "nothing" else ", ".intercalate resp.mechanisms))
  else exchange T credentials

/-- What follows the opening of a stream: `ApiVersions`, then authentication. -/
def handshake (clientId : String) (credentials : Option Credentials) : Act (Link ω) Error Unit := do
  let resp ← call T T.unhurried Body.asApiVersions 3 (.apiVersions clientId "0.0.1")
  Act.ofExcept (check "ApiVersions" resp.errorCode)
  modify fun l => { l with broker := { l.broker with
    versions := resp.apiKeys.foldl (fun versions (key, low, high) => versions.insert key (low, high))
      l.broker.versions } }
  match credentials with
  | some credentials => authenticate T credentials
  | none => pure ()

/-- Open a connection to `addr`. -/
def connect (addr clientId : String) (credentials : Option Credentials) :
    Act (Wire ω) Error Broker := do
  let stream ← Act.mapError (.connect addr)
    (Act.zoom (·.env) (fun wire env => { wire with env }) (T.connect addr))
  let wire ← get
  let (outcome, link) := handshake T clientId credentials ⟨wire, ⟨stream, .new clientId, ∅⟩⟩
  set link.wire
  match outcome with
  | .ok () => pure link.broker
  | .error e => throw e

end Broker

end Barnabas.Client
