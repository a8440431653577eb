import Barnabas.Core.Error
import Barnabas.Core.Filter
import Barnabas.Core.Group
import Barnabas.Core.Metadata
import Barnabas.Core.ProducerState

/-!
The messages of the Kafka protocol that the client writes and reads, and the
client's errors (`barnabas-client/src/lib.rs`).

A message carries the fields the client sets or looks at. Encoding to bytes is
the work of a third-party crate, so a request on the wire is the request itself
with the header it was framed under, and the body of a response is either a
message or something that crate refuses to decode.
-/

namespace Barnabas.Client

open Barnabas.Lib Barnabas.Core

/-- The requests this client knows. -/
inductive ApiKey
  | produce
  | fetch
  | listOffsets
  | metadata
  | offsetCommit
  | offsetFetch
  | findCoordinator
  | joinGroup
  | heartbeat
  | leaveGroup
  | syncGroup
  | saslHandshake
  | apiVersions
  | initProducerId
  | addPartitionsToTxn
  | addOffsetsToTxn
  | endTxn
  | txnOffsetCommit
  | saslAuthenticate
  deriving DecidableEq, Repr

namespace ApiKey

/-- The key on the wire: `api_key as i16`. -/
def code : ApiKey → ℤ
  | produce => 0
  | fetch => 1
  | listOffsets => 2
  | metadata => 3
  | offsetCommit => 8
  | offsetFetch => 9
  | findCoordinator => 10
  | joinGroup => 11
  | heartbeat => 12
  | leaveGroup => 13
  | syncGroup => 14
  | saslHandshake => 17
  | apiVersions => 18
  | initProducerId => 22
  | addPartitionsToTxn => 24
  | addOffsetsToTxn => 25
  | endTxn => 26
  | txnOffsetCommit => 28
  | saslAuthenticate => 36

/-- The key as the error texts print it. -/
def name : ApiKey → String
  | produce => "Produce"
  | fetch => "Fetch"
  | listOffsets => "ListOffsets"
  | metadata => "Metadata"
  | offsetCommit => "OffsetCommit"
  | offsetFetch => "OffsetFetch"
  | findCoordinator => "FindCoordinator"
  | joinGroup => "JoinGroup"
  | heartbeat => "Heartbeat"
  | leaveGroup => "LeaveGroup"
  | syncGroup => "SyncGroup"
  | saslHandshake => "SaslHandshake"
  | apiVersions => "ApiVersions"
  | initProducerId => "InitProducerId"
  | addPartitionsToTxn => "AddPartitionsToTxn"
  | addOffsetsToTxn => "AddOffsetsToTxn"
  | endTxn => "EndTxn"
  | txnOffsetCommit => "TxnOffsetCommit"
  | saslAuthenticate => "SaslAuthenticate"

end ApiKey

/-! ### Records on their way out -/

inductive Compression
  | none
  | gzip
  | snappy
  | lz4
  | zstd
  deriving DecidableEq, Repr

/-- A record to produce. `ticket` is no part of the source: it names the record
in the statements about it, and no function reads it. -/
structure ProducerRecord where
  key : Option Bytes
  value : Option Bytes
  timestamp : Option ℤ
  ticket : ℕ
  deriving DecidableEq, Repr

/-- A batch as `encode_batch` hands it to the encoder: the caller's records and
what is stamped on every one of them. -/
structure Batch where
  records : List ProducerRecord
  range : SequenceRange
  identity : ProducerIdentity
  transactional : Bool
  now : ℤ
  compression : Compression
  deriving DecidableEq, Repr

/-- The records the encoder is given. The sequence of a record is an `i32`
addition; offsets within a batch are relative. -/
def Batch.encoded (batch : Batch) : List Record :=
  batch.records.zipIdx.map fun (r, i) =>
    { transactional := batch.transactional
      control := false
      partitionLeaderEpoch := 0
      producerId := batch.identity.id
      producerEpoch := batch.identity.epoch
      timestampType := .creation
      offset := i
      sequence := wrap 32 (batch.range.base + min (i : ℤ) i32Max)
      timestamp := r.timestamp.getD batch.now
      key := r.key
      value := r.value
      headers := [] }

/-! ### Requests -/

/-- The fields of an `InitProducerIdRequest`. -/
structure InitProducerIdRequest where
  transactionalId : Option String
  transactionTimeoutMs : ℤ
  producerId : ℤ
  producerEpoch : ℤ
  deriving DecidableEq, Repr

structure EndTxnRequest where
  transactionalId : String
  identity : ProducerIdentity
  committed : Bool
  deriving DecidableEq, Repr

structure AddOffsetsToTxnRequest where
  transactionalId : String
  identity : ProducerIdentity
  groupId : String
  deriving DecidableEq, Repr

structure AddPartitionsToTxnRequest where
  transactionalId : String
  identity : ProducerIdentity
  topics : List (String × List ℤ)
  deriving DecidableEq, Repr

/-- Partitions with an offset each, by topic. The leader epoch of every entry is
`-1`. -/
abbrev OffsetsByTopic := List (String × List (ℤ × ℤ))

structure TxnOffsetCommitRequest where
  transactionalId : String
  groupId : String
  identity : ProducerIdentity
  generationId : ℤ
  memberId : String
  groupInstanceId : Option String
  topics : OffsetsByTopic
  deriving DecidableEq, Repr

structure ProduceRequest where
  acks : ℤ
  timeoutMs : ℤ
  topicData : List (String × List (ℤ × Batch))
  transactionalId : Option String
  deriving DecidableEq, Repr

structure FetchPartition where
  partition : ℤ
  currentLeaderEpoch : ℤ
  fetchOffset : ℤ
  logStartOffset : ℤ
  partitionMaxBytes : ℤ
  deriving DecidableEq, Repr

structure FetchRequest where
  replicaId : ℤ
  maxWaitMs : ℤ
  minBytes : ℤ
  maxBytes : ℤ
  isolationLevel : ℤ
  sessionId : ℤ
  sessionEpoch : ℤ
  topics : List (String × List FetchPartition)
  deriving DecidableEq, Repr

/-- `topics` gives each partition the timestamp it asks for. -/
structure ListOffsetsRequest where
  replicaId : ℤ
  isolationLevel : ℤ
  topics : List (String × List (ℤ × ℤ))
  deriving DecidableEq, Repr

/-- `protocols` holds the name and the encoded subscription of the one protocol
offered. -/
structure JoinGroupRequest where
  groupId : String
  sessionTimeoutMs : ℤ
  rebalanceTimeoutMs : ℤ
  memberId : String
  protocolType : String
  protocols : List (String × Bytes)
  deriving DecidableEq, Repr

structure SyncGroupRequest where
  groupId : String
  generationId : ℤ
  memberId : String
  protocolType : Option String
  protocolName : Option String
  assignments : List (String × Bytes)
  deriving DecidableEq, Repr

structure OffsetCommitRequest where
  groupId : String
  generationId : ℤ
  memberId : String
  topics : OffsetsByTopic
  deriving DecidableEq, Repr

/-- A request body. -/
inductive Request
  | apiVersions (clientSoftwareName clientSoftwareVersion : String)
  | saslHandshake (mechanism : String)
  | saslAuthenticate (authBytes : Bytes)
  | metadata (topics : Option (List String)) (allowAutoTopicCreation : Bool)
  | findCoordinator (key : String) (keyType : ℤ)
  | initProducerId (req : InitProducerIdRequest)
  | addPartitionsToTxn (req : AddPartitionsToTxnRequest)
  | addOffsetsToTxn (req : AddOffsetsToTxnRequest)
  | txnOffsetCommit (req : TxnOffsetCommitRequest)
  | endTxn (req : EndTxnRequest)
  | produce (req : ProduceRequest)
  | fetch (req : FetchRequest)
  | listOffsets (req : ListOffsetsRequest)
  | joinGroup (req : JoinGroupRequest)
  | syncGroup (req : SyncGroupRequest)
  | heartbeat (groupId : String) (generationId : ℤ) (memberId : String)
  | leaveGroup (groupId : String) (memberId : String)
  | offsetCommit (req : OffsetCommitRequest)
  | offsetFetch (groupId : String) (topics : Option (List (String × List ℤ)))
  deriving DecidableEq, Repr

/-- The key every call site passes along with the request. -/
def Request.apiKey : Request → ApiKey
  | apiVersions .. => .apiVersions
  | saslHandshake .. => .saslHandshake
  | saslAuthenticate .. => .saslAuthenticate
  | metadata .. => .metadata
  | findCoordinator .. => .findCoordinator
  | initProducerId .. => .initProducerId
  | addPartitionsToTxn .. => .addPartitionsToTxn
  | addOffsetsToTxn .. => .addOffsetsToTxn
  | txnOffsetCommit .. => .txnOffsetCommit
  | endTxn .. => .endTxn
  | produce .. => .produce
  | fetch .. => .fetch
  | listOffsets .. => .listOffsets
  | joinGroup .. => .joinGroup
  | syncGroup .. => .syncGroup
  | heartbeat .. => .heartbeat
  | leaveGroup .. => .leaveGroup
  | offsetCommit .. => .offsetCommit
  | offsetFetch .. => .offsetFetch

/-- A request with its header, as it is written to a connection. -/
structure Frame where
  apiVersion : ℤ
  correlationId : ℤ
  clientId : String
  request : Request
  deriving DecidableEq, Repr

/-! ### Responses -/

structure ApiVersionsResponse where
  errorCode : ℤ
  apiKeys : List (ℤ × ℤ × ℤ)
  deriving DecidableEq, Repr

structure SaslHandshakeResponse where
  errorCode : ℤ
  mechanisms : List String
  deriving DecidableEq, Repr

structure SaslAuthenticateResponse where
  errorCode : ℤ
  errorMessage : Option String
  authBytes : Bytes
  deriving DecidableEq, Repr

structure FindCoordinatorResponse where
  errorCode : ℤ
  host : String
  port : ℤ
  deriving DecidableEq, Repr

structure InitProducerIdResponse where
  errorCode : ℤ
  producerId : ℤ
  producerEpoch : ℤ
  deriving DecidableEq, Repr

/-- One error code for each partition, by topic. -/
abbrev CodesByTopic := List (String × List (ℤ × ℤ))

structure PartitionProduceResponse where
  index : ℤ
  errorCode : ℤ
  baseOffset : ℤ
  deriving DecidableEq, Repr

abbrev ProduceResponse := List (String × List PartitionProduceResponse)

/-- What a fetch brought back for one partition. -/
structure PartitionData where
  partitionIndex : ℤ
  errorCode : ℤ
  lastStableOffset : ℤ
  abortedTransactions : Option (List AbortedTransaction)
  records : Option Bytes
  deriving DecidableEq, Repr

structure FetchResponse where
  errorCode : ℤ
  sessionId : ℤ
  responses : List (String × List PartitionData)
  deriving DecidableEq, Repr

structure ListOffsetsPartitionResponse where
  partitionIndex : ℤ
  errorCode : ℤ
  timestamp : ℤ
  offset : ℤ
  deriving DecidableEq, Repr

structure JoinGroupResponse where
  errorCode : ℤ
  generationId : ℤ
  leader : String
  memberId : String
  members : List (String × Bytes)
  deriving DecidableEq, Repr

structure SyncGroupResponse where
  errorCode : ℤ
  assignment : Bytes
  deriving DecidableEq, Repr

structure OffsetFetchPartition where
  partitionIndex : ℤ
  committedOffset : ℤ
  errorCode : ℤ
  deriving DecidableEq, Repr

structure OffsetFetchResponse where
  errorCode : ℤ
  topics : List (String × List OffsetFetchPartition)
  deriving DecidableEq, Repr

/-- The body of a response frame, read as the message its request asked for. -/
inductive Body
  | apiVersions (resp : ApiVersionsResponse)
  | saslHandshake (resp : SaslHandshakeResponse)
  | saslAuthenticate (resp : SaslAuthenticateResponse)
  | metadata (resp : MetadataResponse)
  | findCoordinator (resp : FindCoordinatorResponse)
  | initProducerId (resp : InitProducerIdResponse)
  | addPartitionsToTxn (results : CodesByTopic)
  | addOffsetsToTxn (errorCode : ℤ)
  | txnOffsetCommit (results : CodesByTopic)
  | endTxn (errorCode : ℤ)
  | produce (resp : ProduceResponse)
  | fetch (resp : FetchResponse)
  | listOffsets (topics : List (String × List ListOffsetsPartitionResponse))
  | joinGroup (resp : JoinGroupResponse)
  | syncGroup (resp : SyncGroupResponse)
  | heartbeat (errorCode : ℤ)
  | leaveGroup (errorCode : ℤ)
  | offsetCommit (results : CodesByTopic)
  | offsetFetch (resp : OffsetFetchResponse)
  | malformed (reason : String)
  deriving DecidableEq, Repr

/-- The reason a body is refused: it is not a message of the type asked for. -/
def Body.refusal : Body → String
  | malformed reason => reason
  | _ => "unexpected message"

/-- What a read from a connection yields, a frame at a time: the peer closed it,
the length prefix exceeds the decoder's limit, or a frame whose header may or may
not decode. -/
inductive Incoming
  | closed
  | tooLarge (len : ℕ)
  | frame (header : Except String ℤ) (body : Body)

/-! ### Errors -/

inductive IoKind
  | unexpectedEof
  | notConnected
  | other
  deriving DecidableEq, Repr

structure IoError where
  kind : IoKind
  message : String
  deriving DecidableEq, Repr

/-- Everything that can go wrong in the client. -/
inductive Error
  | core (e : Core.Error)
  | io (e : IoError)
  | connect (addr : String) (source : IoError)
  | broker (op : String) (code : ℤ) (disposition : Disposition)
  | noLeader (topic : String) (partition : ℤ)
  | producer (e : ProducerError)
  | timeout (op : ApiKey) (addr : String)
  | sasl (message : String)
  | missing (what : String)
  | connectionBusy (op : ApiKey) (addr : String) (inFlight : ℕ)
  deriving DecidableEq, Repr

/-- Turn a response's error code into an error. -/
def check (op : String) (code : ℤ) : Except Error Unit :=
  if (ErrorCode.mk code).isOk then .ok ()
  else .error (.broker op code (ErrorCode.mk code).disposition)

/-- The first error code of a list that is not zero. -/
def firstFailure (results : CodesByTopic) : ℤ :=
  ((results.flatMap (·.2)).map (·.2) |>.find? (· ≠ 0)).getD 0

end Barnabas.Client
