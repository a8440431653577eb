import Barnabas.Client.Cluster
import Barnabas.Core.Partitioner
import Barnabas.Lib.Grouping
import Mathlib.Data.List.Sort

/-!
The transactional producer: requests, routing and retries
(`barnabas-client/src/producer.rs`).

The rules are in `ProducerState`; this module is what talks to brokers. A
method is an action on the whole producer. `flush` is cut at the points where
the source has its own phases: route, send the window, collect it, judge the
answers, retire the leading run of successes.
-/

namespace Barnabas.Client

open Barnabas.Lib Barnabas.Core

/-- Records waiting to be encoded, for one partition. -/
structure Staged where
  records : List ProducerRecord
  bytes : ℕ
  since : ℕ
  deriving DecidableEq, Repr

/-- One broker's address and the partitions its request carried. -/
abbrev RoundTarget := String × List TopicPartition

/-- What each round sent, in the order the rounds went out. -/
abbrev Window := List (List RoundTarget)

/-- The partitions each broker leads. -/
abbrev ByBroker := Std.TreeMap String (List TopicPartition)

/-- A consumer group member's identity and fencing token. -/
structure GroupMetadata where
  groupId : String
  generationId : ℤ
  memberId : String
  groupInstanceId : Option String
  deriving DecidableEq, Repr

/-- An idempotent, optionally transactional producer. `pending` holds encoded
batches in sequence order, `staged` records not yet encoded, and `offsets` the
base offsets of the window being processed, newest first. The last two fields are
no part of the source: `dropped` collects the staged records that the source loses
when their batch cannot be queued, and `numbered` every batch that was queued. -/
structure Producer (ω : Type) where
  cluster : Cluster ω
  state : ProducerState
  transactionalId : Option String
  coordinator : Option String
  acks : ℤ
  timeoutMs : ℤ
  compression : Compression
  partitioner : Partitioner
  roundRobin : ℕ
  pending : PartitionMap (List Batch)
  maxInFlight : ℕ
  staged : PartitionMap Staged
  linger : ℕ
  batchSize : ℕ
  offsets : List ((TopicPartition × ℕ) × ℤ)
  dropped : List ProducerRecord
  numbered : List (TopicPartition × Batch)

namespace Producer

variable {ω α : Type} {ε : Type}

/-- Attempts for a request whose disposition says "retry" or "re-discover". -/
def maxRetries : ℕ := 40

def retryBackoff : ℕ := 5

def retryBackoffMax : ℕ := 250

def defaultMaxInFlight : ℕ := 5

def defaultBatchSize : ℕ := 16 * 1024

/-- Roughly what one record costs on the wire beyond its key and value. -/
def recordOverhead : ℕ := 16

def onCluster (m : Act (Cluster ω) ε α) : Act (Producer ω) ε α :=
  Act.zoom (·.cluster) (fun p cluster => { p with cluster }) m

def onState (m : Act ProducerState ProducerError α) : Act (Producer ω) Error α :=
  Act.mapError .producer (Act.zoom (·.state) (fun p state => { p with state }) m)

/-- `ok_or(Error::Missing(what))`. -/
def required (what : String) (value : Option α) : Act (Producer ω) Error α :=
  Act.ofExcept (match value with
    | some a => .ok a
    | none => .error (.missing what))

def fence : Act (Producer ω) Error Unit := modify fun p => { p with state := p.state.fence }

variable (T : Transport ω)

/-! ### Coordinator routing -/

/-- Exponential, capped: 5 ms, 10, 20, … 250, 250, … -/
def backoff (attempt : ℕ) : Act (Producer ω) Error Unit :=
  onCluster (Cluster.sleep T (min (retryBackoff * 2 ^ min attempt 16) retryBackoffMax))

/-- One attempt at finding the transaction coordinator. -/
def findCoordinatorOnce (txnId : String) (attempt : ℕ) (_ : Unit) :
    Act (Producer ω) Error (Unit ⊕ String) := do
  let resp ← onCluster (Cluster.callAny T Body.asFindCoordinator 3 (.findCoordinator txnId 1))
  let code := ErrorCode.mk resp.errorCode
  if code.isOk then do
    let addr := resp.host ++ ":" ++ toString resp.port
    modify fun p => { p with coordinator := some addr }
    pure (.inr addr)
  else
    match code.disposition with
    | .retry | .findCoordinator => do
        backoff T attempt
        pure (.inl ())
    | _ => throw (.broker "FindCoordinator" code.code code.disposition)

/-- Find the transaction coordinator for this producer's transactional id. An
idempotent producer has none, which is the empty address. -/
def findCoordinator : Act (Producer ω) Error String := do
  let p ← get
  match p.transactionalId with
  | none => pure ""
  | some txnId =>
      Act.attempts (findCoordinatorOnce T txnId)
        (fun _ => throw (.broker "FindCoordinator" ErrorCode.coordinatorNotAvailable.code .retry))
        maxRetries 0 ()

/-- The coordinator's address, discovering it if unknown. -/
def coordinatorAddr : Act (Producer ω) Error String := do
  let p ← get
  match p.coordinator with
  | some addr => pure addr
  | none => findCoordinator T

/-- Send a request to the address `coordinatorAddr` gave; the empty one stands
for any broker. -/
def callCoordinatorAt (as : Body → Option α) (addr : String) (version : ℤ) (req : Request) :
    Act (Producer ω) Error α :=
  if addr = "" then onCluster (Cluster.callAny T as version req)
  else onCluster (Cluster.callAt T as addr version req)

/-- One attempt at a coordinator request. -/
def coordinatorCallOnce (op : String) (as : Body → Option α) (version : ℤ) (req : Request)
    (errorOf : α → ℤ) (attempt : ℕ) (_ : Unit) : Act (Producer ω) Error (Unit ⊕ α) := do
  let addr ← coordinatorAddr T
  let resp ← callCoordinatorAt T as addr version req
  let code := ErrorCode.mk (errorOf resp)
  if code.isOk then pure (.inr resp)
  else
    match code.disposition with
    | .retry => do
        backoff T attempt
        pure (.inl ())
    | .findCoordinator => do
        modify fun p => { p with coordinator := none }
        backoff T attempt
        pure (.inl ())
    | .fatal => do
        fence
        throw (.broker op code.code .fatal)
    | _ => throw (.broker op code.code code.disposition)

/-- Send a coordinator request, honouring the disposition of whatever comes
back: retry in place, re-discover, or fail. -/
def coordinatorCall (op : String) (as : Body → Option α) (version : ℤ) (req : Request)
    (errorOf : α → ℤ) : Act (Producer ω) Error α :=
  Act.attempts (coordinatorCallOnce T op as version req errorOf)
    (fun _ => throw (.broker op ErrorCode.coordinatorNotAvailable.code .retry)) maxRetries 0 ()

def initProducerId : Act (Producer ω) Error Unit := do
  let p ← get
  let resp ← coordinatorCall T "InitProducerId" Body.asInitProducerId 4
    (.initProducerId ⟨p.transactionalId, p.timeoutMs, -1, -1⟩) (·.errorCode)
  modify fun p => { p with
    state := p.state.onInitProducerId ⟨resp.producerId, resp.producerEpoch⟩ }

/-- The producer the two constructors start from. -/
def new (cluster : Cluster ω) (state : ProducerState) (transactionalId : Option String) :
    Producer ω where
  cluster := cluster
  state := state
  transactionalId := transactionalId
  coordinator := none
  acks := -1
  timeoutMs := 30000
  compression := .none
  partitioner := .crc32
  roundRobin := 0
  pending := ∅
  maxInFlight := defaultMaxInFlight
  staged := ∅
  linger := 0
  batchSize := defaultBatchSize
  offsets := []
  dropped := []
  numbered := []

/-- What both constructors do with it: touch one bootstrap address, and ask for
a producer id. -/
def construct : Act (Producer ω) Error Unit := do
  onCluster (Cluster.connect T)
  initProducerId T

/-- A transactional producer, from the world the transport starts in: the
outcome of the constructor and the producer it made. -/
def transactional (env : ω) (bootstrap : List String) (clientId transactionalId : String) :
    Except Error Unit × Producer ω :=
  construct T (new (.new env bootstrap clientId) .transactional (some transactionalId))

/-- An idempotent, non-transactional producer. -/
def idempotent (env : ω) (bootstrap : List String) (clientId : String) :
    Except Error Unit × Producer ω :=
  construct T (new (.new env bootstrap clientId) .idempotent none)

/-! ### Transactions -/

/-- Open a transaction. -/
def beginTransaction : Act (Producer ω) Error Unit := onState ProducerState.beginTransaction

/-- `EndTxn`, once the state machine let it through. -/
def endTransaction (committed : Bool) : Act (Producer ω) Error Unit := do
  onState ProducerState.endTransaction
  let p ← get
  let identity ← required "producer id" p.state.identity
  let txnId ← required "transactional id" p.transactionalId
  let _ ← coordinatorCall T "EndTxn" Body.asEndTxn 3 (.endTxn ⟨txnId, identity, committed⟩) id
  modify fun p => { p with state := p.state.onEndTransaction }

def commitTransaction : Act (Producer ω) Error Unit := endTransaction T true

def abortTransaction : Act (Producer ω) Error Unit := endTransaction T false

/-- The group coordinator's address, or `none` if it should be asked for again. -/
def locateGroup (groupId : String) (attempt : ℕ) :
    Option String → Act (Producer ω) Error (Option String)
  | some addr => pure (some addr)
  | none => do
      let resp ← onCluster (Cluster.callAny T Body.asFindCoordinator 3 (.findCoordinator groupId 0))
      let code := ErrorCode.mk resp.errorCode
      if code.isOk then pure (some (resp.host ++ ":" ++ toString resp.port))
      else
        match code.disposition with
        | .retry | .findCoordinator => do
            backoff T attempt
            pure none
        | _ => throw (.broker "FindCoordinator" code.code code.disposition)

/-- One attempt of `groupCoordinatorCall`; the address found is carried along. -/
def groupCoordinatorCallOnce (groupId : String) (req : TxnOffsetCommitRequest) (attempt : ℕ)
    (addr : Option String) : Act (Producer ω) Error (Option String ⊕ Unit) := do
  match ← locateGroup T groupId attempt addr with
  | none => pure (.inl none)
  | some addr => do
      let results ← onCluster (Cluster.callAt T Body.asTxnOffsetCommit addr 3 (.txnOffsetCommit req))
      let code := ErrorCode.mk (firstFailure results)
      if code.isOk then pure (.inr ())
      else
        match code.disposition with
        | .retry => do
            backoff T attempt
            pure (.inl (some addr))
        | .findCoordinator => do
            backoff T attempt
            pure (.inl none)
        | .fatal => do
            fence
            throw (.broker "TxnOffsetCommit" code.code .fatal)
        | _ => throw (.broker "TxnOffsetCommit" code.code code.disposition)

/-- Send `TxnOffsetCommit` to the group coordinator. -/
def groupCoordinatorCall (groupId : String) (req : TxnOffsetCommitRequest) :
    Act (Producer ω) Error Unit :=
  Act.attempts (groupCoordinatorCallOnce T groupId req)
    (fun _ => throw (.broker "TxnOffsetCommit" ErrorCode.coordinatorNotAvailable.code .retry))
    maxRetries 0 none

/-- Gather the partitions of a map by topic, in the map's order. -/
def byTopic (entries : List (TopicPartition × α)) : List (String × List (ℤ × α)) :=
  (entries.foldl (fun topics (tp, a) =>
    topics.insert tp.topic (topics.getD tp.topic [] ++ [(tp.partition, a)]))
    (∅ : Std.TreeMap String (List (ℤ × α)))).toList

/-- Commit a consumer group's offsets as part of this transaction. -/
def sendOffsetsToTransaction (offsets : PartitionMap ℤ) (metadata : GroupMetadata) :
    Act (Producer ω) Error Unit := do
  let p ← get
  if p.state.txn ≠ .inTransaction then throw (.producer .noTransaction)
  else if offsets.isEmpty then pure ()
  else do
    let identity ← required "producer id" p.state.identity
    let txnId ← required "transactional id" p.transactionalId
    let _ ← coordinatorCall T "AddOffsetsToTxn" Body.asAddOffsetsToTxn 3
      (.addOffsetsToTxn ⟨txnId, identity, metadata.groupId⟩) id
    groupCoordinatorCall T metadata.groupId
      { transactionalId := txnId
        groupId := metadata.groupId
        identity := identity
        generationId := metadata.generationId
        memberId := metadata.memberId
        groupInstanceId := metadata.groupInstanceId
        topics := byTopic offsets.toList }

/-- Enroll partitions in the open transaction, in one request. -/
def enrollAll (topic : String) (partitions : List ℤ) : Act (Producer ω) Error Unit := do
  let p ← get
  let needed := partitions.filter fun partition => p.state.needsEnrollment ⟨topic, partition⟩
  if needed = [] then pure ()
  else do
    let identity ← required "producer id" p.state.identity
    let txnId ← required "transactional id" p.transactionalId
    let _ ← coordinatorCall T "AddPartitionsToTxn" Body.asAddPartitionsToTxn 3
      (.addPartitionsToTxn ⟨txnId, identity, [(topic, needed)]⟩) firstFailure
    modify fun p => { p with
      state := needed.foldl (fun state partition => state.onEnrolled ⟨topic, partition⟩) p.state }

/-! ### Queueing -/

/-- Stamp the records of a batch and hand them to the encoder. -/
def encodeBatch (records : List ProducerRecord) (range : SequenceRange) :
    Act (Producer ω) Error Batch := do
  let p ← get
  let identity ← required "producer id" p.state.identity
  let now ← onCluster (Cluster.onEnv T.systemTime)
  let batch : Batch := ⟨records, range, identity, p.transactionalId.isSome, now, p.compression⟩
  match T.codec.encodeRecords batch.encoded p.compression with
  | .error e => throw (.core (.codec ("encode record batch: " ++ e)))
  | .ok () => pure batch

/-- Allocate this batch's sequence numbers and encode it once. -/
def encodeFor (tp : TopicPartition) (records : List ProducerRecord) :
    Act (Producer ω) Error Batch := do
  if i32Max < records.length then throw (.missing "batch size")
  else do
    let range ← onState (ProducerState.allocate tp records.length)
    encodeBatch T records range

/-- Queue a batch for a partition without sending anything. -/
def enqueue (tp : TopicPartition) (records : List ProducerRecord) :
    Act (Producer ω) Error Unit := do
  if records.isEmpty then pure ()
  else do
    enrollAll T tp.topic [tp.partition]
    let batch ← encodeFor T tp records
    modify fun p => { p with
      pending := p.pending.insert tp (p.pending.getD tp [] ++ [batch])
      numbered := p.numbered ++ [(tp, batch)] }

/-- Queue the records a partition had staged, after they were taken out of the
stage. If that fails they are lost. -/
def enqueueTaken (tp : TopicPartition) (records : List ProducerRecord) :
    Act (Producer ω) Error Unit := do
  match ← Act.attempt (enqueue T tp records) with
  | .ok () => pure ()
  | .error e => do
      modify fun p => { p with dropped := p.dropped ++ records }
      throw e

/-- Move the staged records of these partitions into the pending queues. -/
def enqueueStaged : List TopicPartition → Act (Producer ω) Error Unit
  | [] => pure ()
  | tp :: rest => do
      let p ← get
      match p.staged[tp]? with
      | none => enqueueStaged rest
      | some staged => do
          set { p with staged := p.staged.erase tp }
          enqueueTaken T tp staged.records
          enqueueStaged rest

/-- Move every staged record into the pending queue, however recent. -/
def drainStaged : Act (Producer ω) Error Unit := do
  let p ← get
  enqueueStaged T p.staged.keys

/-- How many batches are queued and not yet acknowledged, staged ones included. -/
def queued (p : Producer ω) : ℕ :=
  (p.pending.toList.map fun (_, queue) => queue.length).sum + p.staged.size

/-! ### The window -/

/-- Which broker leads each partition that still has work, and whether some
partition has no leader yet. -/
def route : List TopicPartition → ByBroker × Bool → Act (Producer ω) Error (ByBroker × Bool)
  | [], routes => pure routes
  | tp :: rest, (byBroker, unroutable) => do
      match ← Act.attempt (onCluster (Cluster.leaderAddr T tp)) with
      | .ok addr => route rest (byBroker.insert addr (byBroker.getD addr [] ++ [tp]), unroutable)
      | .error (.noLeader _ _) => route rest (byBroker, true)
      | .error e => throw e

/-- How many rounds this window will have: the longest queue, capped. -/
def windowDepth (p : Producer ω) (byBroker : ByBroker) : ℕ :=
  let keys := byBroker.toList.flatMap (·.2)
  min ((keys.filterMap fun tp => (p.pending[tp]?).map List.length).foldl max 0) p.maxInFlight

/-- One request carrying each partition's `round`-th queued batch. -/
def produceRequest (p : Producer ω) (keys : List TopicPartition) (round : ℕ) : ProduceRequest where
  acks := p.acks
  timeoutMs := p.timeoutMs
  topicData := byTopic (keys.filterMap fun tp =>
    ((p.pending.getD tp [])[round]?).map fun batch => (tp, batch))
  transactionalId := p.transactionalId

/-- Write one round. A failed write ends it, and is returned with what already
went out. -/
def sendRound (round : ℕ) : List RoundTarget → List RoundTarget →
    Act (Producer ω) Error (List RoundTarget × Option Error)
  | [], sent => pure (sent, none)
  | (addr, keys) :: rest, sent => do
      let p ← get
      let taking := keys.filter fun tp => round < (p.pending.getD tp []).length
      if taking = [] then sendRound round rest sent
      else
        match ← Act.attempt (onCluster (Cluster.sendAt T addr 9
          (.produce (p.produceRequest taking round)))) with
        | .ok () => sendRound round rest (sent ++ [(addr, taking)])
        | .error e => pure (sent, some e)

/-- The codes one broker's answer gives to the partitions of its request. A lost
answer says nothing about which partition is at fault. -/
def answerCodes : RoundTarget × Except Error ProduceResponse → List (TopicPartition × ErrorCode)
  | (_, .ok resp) => resp.flatMap fun (topic, parts) =>
      parts.map fun part => (⟨topic, part.index⟩, ⟨part.errorCode⟩)
  | ((_, keys), .error _) => keys.map fun tp => (tp, ErrorCode.requestTimedOut)

/-- The base offsets of the partitions an answer accepted, in answer order. -/
def answerOffsets (round : ℕ) :
    RoundTarget × Except Error ProduceResponse → List ((TopicPartition × ℕ) × ℤ)
  | (_, .ok resp) => resp.flatMap fun (topic, parts) =>
      (parts.filter fun part => (ErrorCode.mk part.errorCode).isOk).map fun part =>
        ((⟨topic, part.index⟩, round), part.baseOffset)
  | (_, .error _) => []

def answerError : RoundTarget × Except Error ProduceResponse → Option Error
  | (_, .ok _) => none
  | (_, .error e) => some e

/-- Read every round's answers, in the order they were sent: per round, the code
each partition came back with, and the first transport failure. -/
def collectWindow : ℕ → Window →
    Act (Producer ω) Error (List (List (TopicPartition × ErrorCode)) × Option Error)
  | _, [] => pure ([], none)
  | round, sent :: rest => do
      let responses ← onCluster (Cluster.recvMany T .produce Body.asProduce (sent.map (·.1)))
      let answers := sent.zip responses
      modify fun p => { p with
        offsets := (answers.flatMap (answerOffsets round)).reverse ++ p.offsets }
      let (codes, failure) ← collectWindow (round + 1) rest
      pure (answers.flatMap answerCodes :: codes, (answers.findSome? answerError).or failure)

/-- Write every round of the window without waiting for any of it. If a write
fails, what already went out is collected before the error is returned. -/
def sendWindow (byBroker : ByBroker) : ℕ → ℕ → Window → Act (Producer ω) Error Window
  | 0, _, rounds => pure rounds
  | left + 1, round, rounds => do
      match ← sendRound T round byBroker.toList [] with
      | (sent, some e) => do
          let _ ← collectWindow T 0 (rounds ++ [sent])
          throw e
      | (sent, none) =>
          if sent = [] then pure rounds
          else sendWindow byBroker left (round + 1) (rounds ++ [sent])

/-- The earliest round that failed for each partition, and whether some leader
was wrong. -/
structure Verdict where
  failedAt : PartitionMap ℕ
  needsRefresh : Bool

/-- The answers of a window, round by round. -/
def inOrder (outcomes : List (List (TopicPartition × ErrorCode))) :
    List (ℕ × TopicPartition × ErrorCode) :=
  outcomes.zipIdx.flatMap fun (results, round) => results.map fun result => (round, result)

/-- Classify the failures of a window. Only a partition's first failure counts:
what follows it is a consequence. -/
def judge : List (ℕ × TopicPartition × ErrorCode) → Verdict → Act (Producer ω) Error Verdict
  | [], verdict => pure verdict
  | (round, tp, code) :: rest, verdict =>
      if code.isOk then judge rest verdict
      else if verdict.failedAt.contains tp then judge rest verdict
      else
        match code.disposition with
        | .refreshMetadata => do
            modify fun p => { p with cluster := p.cluster.invalidate tp }
            judge rest ⟨verdict.failedAt.insert tp round, true⟩
        | .retry => judge rest ⟨verdict.failedAt.insert tp round, verdict.needsRefresh⟩
        | _ => do
            fence
            throw (.broker "Produce" code.code code.disposition)

/-- Retire the batch one answer accepts, unless its partition failed before. -/
def retireOne (failedAt : PartitionMap ℕ) (offsets : List ((TopicPartition × ℕ) × ℤ)) :
    PartitionMap (List Batch) × List (TopicPartition × ℤ) → ℕ × TopicPartition × ErrorCode →
      PartitionMap (List Batch) × List (TopicPartition × ℤ)
  | (pending, written), (round, tp, _) =>
      if (failedAt[tp]?).any (· ≤ round) then (pending, written)
      else
        match pending[tp]? with
        | some (_ :: queue) =>
            (pending.insert tp queue, written ++ [(tp, (offsets.lookup (tp, round)).getD (-1))])
        | _ => (pending, written)

/-- Retire the contiguous leading run of successes per partition. -/
def retire (failedAt : PartitionMap ℕ) (answers : List (ℕ × TopicPartition × ErrorCode))
    (p : Producer ω) : List (TopicPartition × ℤ) × Producer ω :=
  let (pending, written) := answers.foldl (retireOne failedAt p.offsets) (p.pending, [])
  (written, { p with pending, offsets := [] })

/-- `self.pending.retain(|_, queue| !queue.is_empty())`. -/
def retainQueued : Act (Producer ω) Error Unit :=
  modify fun p => { p with pending := p.pending.filter fun _ queue => !queue.isEmpty }

/-- The order of `sort_unstable` on the triples `flush` returns. -/
def writtenLe (a b : TopicPartition × ℤ) : Prop :=
  ((compare a.1 b.1).then (compare a.2 b.2)).isLE

instance : DecidableRel writtenLe := fun a b =>
  inferInstanceAs (Decidable (((compare a.1 b.1).then (compare a.2 b.2)).isLE = true))

def sortWritten (written : List (TopicPartition × ℤ)) : List (TopicPartition × ℤ) :=
  written.insertionSort writtenLe

/-- The error for the first partition that is still pending; the caller has
checked that there is one. -/
def stillPending (p : Producer ω) : Error :=
  let tp := p.pending.keys.headD default
  .noLeader tp.topic tp.partition

def refreshTopics : List String → Act (Producer ω) Error Unit
  | [] => pure ()
  | topic :: rest => do
      onCluster (Cluster.refreshMetadata T topic)
      refreshTopics rest

/-- The topics with work left, sorted and without repetition. -/
def pendingTopics (p : Producer ω) : List String :=
  ((p.pending.keys.map (·.topic)).insertionSort fun a b => (compare a b).isLE).dedup

/-- What a round of `flush` does with a fully answered window. -/
def settleWindow (attempt : ℕ) (written : List (TopicPartition × ℤ))
    (outcomes : List (List (TopicPartition × ErrorCode))) :
    Act (Producer ω) Error (List (TopicPartition × ℤ) ⊕ List (TopicPartition × ℤ)) := do
  let verdict ← judge (inOrder outcomes) ⟨∅, false⟩
  let more ← modifyGet (retire verdict.failedAt (inOrder outcomes))
  retainQueued
  let p ← get
  if p.pending.isEmpty then pure (.inr (sortWritten (written ++ more)))
  else do
    refreshTopics T (if verdict.needsRefresh then p.pendingTopics else [])
    backoff T attempt
    pure (.inl (written ++ more))

/-- What a round of `flush` does after a transport failure: nothing is retired,
and only a dead connection is worth another attempt. -/
def abandonWindow (attempt : ℕ) (written : List (TopicPartition × ℤ)) (e : Error) :
    Act (Producer ω) Error (List (TopicPartition × ℤ) ⊕ List (TopicPartition × ℤ)) := do
  modify fun p => { p with offsets := [] }
  match e with
  | .io e =>
      if attempt + 1 < maxRetries then do
        backoff T attempt
        pure (.inl written)
      else throw (.io e)
  | e => throw e

/-- One attempt of `flush`, from the batches written so far. -/
def flushOnce (attempt : ℕ) (written : List (TopicPartition × ℤ)) :
    Act (Producer ω) Error (List (TopicPartition × ℤ) ⊕ List (TopicPartition × ℤ)) := do
  retainQueued
  let p ← get
  if p.pending.isEmpty then pure (.inr (sortWritten written))
  else do
    let (byBroker, unroutable) ← route T p.pending.keys (∅, false)
    if byBroker.isEmpty then
      if !unroutable ∨ attempt + 1 = maxRetries then throw p.stillPending
      else do
        backoff T attempt
        pure (.inl written)
    else do
      let rounds ← sendWindow T byBroker (p.windowDepth byBroker) 0 []
      match ← collectWindow T 0 rounds with
      | (_, some e) => abandonWindow T attempt written e
      | (outcomes, none) => settleWindow T attempt written outcomes

/-- Send every queued batch, pipelining up to `max_in_flight` requests per
connection, and return the base offset each partition was written at. -/
def flush : Act (Producer ω) Error (List (TopicPartition × ℤ)) := do
  drainStaged T
  Act.attempts (flushOnce T) (fun _ => do throw (← get).stillPending) maxRetries 0 []

/-! ### Producing -/

/-- Produce records to one partition, returning the base offset the broker
assigned. -/
def send (tp : TopicPartition) (records : List ProducerRecord) : Act (Producer ω) Error ℤ := do
  if records.isEmpty then pure (-1)
  else do
    enqueue T tp records
    let written ← flush T
    pure ((written.head?.map (·.2)).getD (-1))

/-- The partitions whose staged batch is full or overdue. -/
def ready (p : Producer ω) (now : ℕ) : List TopicPartition :=
  (p.staged.toList.filter fun (_, staged) =>
    p.batchSize ≤ staged.bytes ∨ p.linger ≤ now - staged.since).map (·.1)

/-- Encode and send whatever is full or overdue. -/
def sendReady : Act (Producer ω) Error Unit := do
  let now ← onCluster (Cluster.now T)
  let p ← get
  if p.ready now = [] then pure ()
  else do
    enqueueStaged T (p.ready now)
    let _ ← flush T

/-- Send every staged batch whose linger has expired. -/
def tick : Act (Producer ω) Error Unit := sendReady T

/-- What a record counts for against the batch size. -/
def recordBytes (record : ProducerRecord) : ℕ :=
  (record.key.map List.length).getD 0 + (record.value.map List.length).getD 0 + recordOverhead

/-- The staged records of a partition, or a new and empty stage. -/
def stageFor (tp : TopicPartition) : Act (Producer ω) Error Staged := do
  let p ← get
  match p.staged[tp]? with
  | some staged => pure staged
  | none => do
      let now ← onCluster (Cluster.now T)
      pure ⟨[], 0, now⟩

/-- Accumulate one record for a partition the caller chose, and send whatever
became ready. -/
def produceTo (tp : TopicPartition) (record : ProducerRecord) : Act (Producer ω) Error Unit := do
  let staged ← stageFor T tp
  let staged : Staged :=
    ⟨staged.records ++ [record], staged.bytes + recordBytes record, staged.since⟩
  modify fun p => { p with staged := p.staged.insert tp staged }
  sendReady T

/-- One attempt of `partitionCountWaiting`. -/
def partitionCountOnce (topic : String) (attempt : ℕ) (_ : Unit) :
    Act (Producer ω) Error (Unit ⊕ ℤ) := do
  match ← Act.attempt (onCluster (Cluster.partitionCount T topic)) with
  | .ok count =>
      if 0 < count then pure (.inr count)
      else if attempt + 1 < maxRetries then do
        backoff T attempt
        pure (.inl ())
      else throw (.noLeader topic (-1))
  | .error (.noLeader t partition) =>
      if attempt + 1 < maxRetries then do
        backoff T attempt
        pure (.inl ())
      else throw (.noLeader t partition)
  | .error e => throw e

/-- The topic's partition count, waiting for a topic that is still
materialising. -/
def partitionCountWaiting (topic : String) : Act (Producer ω) Error ℤ :=
  Act.attempts (partitionCountOnce T topic) (fun _ => throw (.noLeader topic (-1))) maxRetries 0 ()

/-- Which partition a key would go to. The round-robin counter is not advanced. -/
def partitionFor (topic : String) (key : Option Bytes) : Act (Producer ω) Error ℤ := do
  let count ← partitionCountWaiting T topic
  let p ← get
  match (p.partitioner.partitionFor key count p.roundRobin).1 with
  | some partition => pure partition
  | none => throw (.noLeader topic (-1))

/-- Produce one record, letting the client choose the partition and the batch. -/
def produce (topic : String) (record : ProducerRecord) : Act (Producer ω) Error Unit := do
  let partition ← partitionFor T topic record.key
  produceTo T ⟨topic, partition⟩ record

/-- Group records by the partition their keys hash to. -/
def groupByPartition (topic : String) (count : ℤ) : List ProducerRecord →
    Std.TreeMap ℤ (List ProducerRecord) →
    Act (Producer ω) Error (Std.TreeMap ℤ (List ProducerRecord))
  | [], groups => pure groups
  | record :: rest, groups => do
      let p ← get
      let (partition, next) := p.partitioner.partitionFor record.key count p.roundRobin
      set { p with roundRobin := next }
      match partition with
      | none => throw (.noLeader topic (-1))
      | some partition =>
          groupByPartition topic count rest
            (groups.insert partition (groups.getD partition [] ++ [record]))

def enqueueGroups (topic : String) : List (ℤ × List ProducerRecord) → Act (Producer ω) Error Unit
  | [] => pure ()
  | (partition, records) :: rest => do
      enqueue T ⟨topic, partition⟩ records
      enqueueGroups topic rest

/-- Produce records to whichever partitions their keys hash to. -/
def sendKeyed (topic : String) (records : List ProducerRecord) :
    Act (Producer ω) Error (List (ℤ × ℤ)) := do
  if records.isEmpty then pure []
  else do
    let count ← partitionCountWaiting T topic
    let groups ← groupByPartition topic count records ∅
    enrollAll T topic groups.keys
    enqueueGroups T topic groups.toList
    let written ← flush T
    pure (written.map fun (tp, offset) => (tp.partition, offset))

end Producer

/-! ### Gathering by topic loses nothing -/

section ByTopic

variable {α : Type}

/-- The entries of a map of topics, one by one. -/
def flatten (topics : List (String × List (ℤ × α))) : List (TopicPartition × α) :=
  topics.flatMap fun (topic, parts) => parts.map fun (index, a) => (⟨topic, index⟩, a)

theorem flatten_byTopic_perm (entries : List (TopicPartition × α)) :
    (flatten (Producer.byTopic entries)).Perm entries := by
  let entry (topic : String) (part : ℤ × α) : TopicPartition × α := (⟨topic, part.1⟩, part.2)
  have hfold : ∀ (entries : List (TopicPartition × α)) (m : Std.TreeMap String (List (ℤ × α))),
      (gathered entry (entries.foldl (fun topics (tp, a) =>
        topics.insert tp.topic (topics.getD tp.topic [] ++ [(tp.partition, a)])) m)).Perm
          (gathered entry m ++ entries) := by
    intro entries
    induction entries with
    | nil => simp
    | cons e entries ih =>
        intro m
        refine (ih _).trans ?_
        refine ((gathered_insert_perm entry m e.1.topic (e.1.partition, e.2)).append_right
          entries).trans ?_
        simp [entry]
  have hall := hfold entries ∅
  rwa [gathered_empty] at hall

/-- What is gathered by topic is what was given. -/
theorem mem_byTopic {entries : List (TopicPartition × α)} {topic : String × List (ℤ × α)}
    (htopic : topic ∈ Producer.byTopic entries) {part : ℤ × α} (hpart : part ∈ topic.2) :
    (⟨topic.1, part.1⟩, part.2) ∈ entries := by
  apply (flatten_byTopic_perm entries).mem_iff.mp
  exact List.mem_flatMap.mpr ⟨topic, htopic, List.mem_map.mpr ⟨part, hpart, rfl⟩⟩

end ByTopic

end Barnabas.Client
