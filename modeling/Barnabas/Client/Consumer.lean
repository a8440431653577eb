import Barnabas.Client.Classic

/-!
The consumer (`barnabas-client/src/consumer.rs`).

Partitions are assigned by hand or by a group, and fetched together, one request
for each broker that leads some of them. A fetch may be left outstanding when
`poll` returns, to be collected by the next one; whoever needs a connection in
between has to read its answer away first.

The rebalance listener is only told what happens, and is left out.
-/

namespace Barnabas.Client

open Barnabas.Lib Barnabas.Core

/-- Per-broker fetch session state (KIP-227). The id is 0 until the broker assigns
one; `known` is what the broker believes our offsets are. -/
structure Consumer.Session where
  id : ℤ
  epoch : ℤ
  known : PartitionMap ℤ

/-- A fetch that has been sent and not yet collected. -/
structure Outstanding where
  groups : List (String × List TopicPartition)
  generation : ℕ
  deriving DecidableEq, Repr

/-- What one partition yielded: batches of the lean reader, or records of the full
decoder. -/
structure ConsumerRecords where
  topic : String
  partition : ℤ
  batches : List LeanBatch
  fallback : List Record
  deriving DecidableEq, Repr

/-- The data of a partition that was read from `fetchOffset` on, and where that moved
the position. -/
structure Reading where
  tp : TopicPartition
  isolation : IsolationLevel
  fetchOffset : ℤ
  part : PartitionData
  bytes : Bytes
  nextOffset : ℤ
  deriving DecidableEq, Repr

/-- A consumer over any number of partitions. `positions` holds the offset the next
fetch of a partition asks for; `generation` moves whenever the assignment or a
position changes for a reason other than consuming records. The last two fields are
no part of the source: what was read, and what polls have returned. -/
structure Consumer (ω : Type) where
  cluster : Cluster ω
  positions : PartitionMap ℤ
  isolation : IsolationLevel
  maxWait : ℕ
  maxBytes : ℤ
  maxResponseBytes : ℤ
  sessions : Std.TreeMap String Consumer.Session
  incremental : Bool
  outstanding : Option Outstanding
  prefetch : Bool
  group : Option ClassicProtocol
  reset : ℤ
  autoCommit : Option ℕ
  lastAutoCommit : Option ℕ
  groupTimeouts : Option (ℕ × ℕ)
  paused : Std.TreeSet TopicPartition
  expansions : Std.TreeMap String (ℤ × ℤ)
  generation : ℕ
  readings : List Reading
  returned : List ConsumerRecords

/-- The third-party decoders: those of the lean reader, and the one that takes a
record set off the front of a buffer. -/
structure Decoders extends Codecs where
  recordBatchDecoder : Bytes → Except String (List Record × Bytes)

namespace Consumer

variable {ω ε α : Type}

/-- The timestamps `ListOffsets` understands. -/
def earliest : ℤ := -2

def latest : ℤ := -1

def maxLeaderRetries : ℕ := 5

def leaderBackoff : ℕ := 100

def fetchSessionIdNotFound : ℤ := 70

def invalidFetchSessionEpoch : ℤ := 71

/-- Forget everything and ask for a full fetch next time. A session that has never
been used is in this state too. -/
def Session.reset : Session := ⟨0, 0, ∅⟩

def onCluster (m : Act (Cluster ω) ε α) : Act (Consumer ω) ε α :=
  Act.zoom (·.cluster) (fun c cluster => { c with cluster }) m

/-- Run an operation of the group protocol on a group taken out of the consumer. -/
def onTaken (group : ClassicProtocol) (m : Act (Grouped ω) Error α) :
    Act (Consumer ω) ε (Except Error α × ClassicProtocol) := fun c =>
  let (outcome, grouped) := m ⟨group, c.cluster⟩
  (.ok (outcome, grouped.group), { c with cluster := grouped.cluster })

/-- Run an operation of the group protocol where the group is, if there is one. -/
def onGroup (what : String) (m : Act (Grouped ω) Error α) : Act (Consumer ω) Error α := fun c =>
  match c.group with
  | none => (.error (.missing what), c)
  | some group =>
      let (outcome, grouped) := m ⟨group, c.cluster⟩
      (outcome, { c with group := some grouped.group, cluster := grouped.cluster })

/-! ### Local state -/

def fromCluster (cluster : Cluster ω) (isolation : IsolationLevel) : Consumer ω where
  cluster := cluster
  positions := ∅
  isolation := isolation
  maxWait := 500
  maxBytes := 10 * 1024 * 1024
  maxResponseBytes := 64 * 1024 * 1024
  sessions := ∅
  incremental := true
  outstanding := none
  prefetch := true
  group := none
  reset := earliest
  autoCommit := none
  lastAutoCommit := none
  groupTimeouts := none
  paused := ∅
  expansions := ∅
  generation := 0
  readings := []
  returned := []

def resetSessions (c : Consumer ω) : Consumer ω :=
  { c with sessions := c.sessions.map fun _ _ => .reset }

def setPosition (tp : TopicPartition) (offset : ℤ) (c : Consumer ω) : Consumer ω :=
  { c with positions := c.positions.insert tp offset }

/-- A prefetch in flight asked about a set that no longer applies, and the broker's
session remembers that set too. -/
def onFetchSetChanged (c : Consumer ω) : Consumer ω :=
  { c with generation := c.generation + 1 }.resetSessions

/-- Stop fetching a partition. -/
def remove (tp : TopicPartition) (c : Consumer ω) : Consumer ω :=
  { c with
    positions := c.positions.erase tp
    paused := c.paused.erase tp
    generation := c.generation + 1 }.resetSessions

/-- Stop fetching these partitions without giving them up. -/
def pause (partitions : List TopicPartition) (c : Consumer ω) : Consumer ω :=
  { c with paused := partitions.foldl (fun paused tp => paused.insert tp) c.paused }.onFetchSetChanged

/-- Fetch these partitions again, from wherever they stopped. -/
def resume (partitions : List TopicPartition) (c : Consumer ω) : Consumer ω :=
  { c with paused := partitions.foldl (fun paused tp => paused.erase tp) c.paused }.onFetchSetChanged

/-- Assigned and not paused: what a fetch may ask about. -/
def fetchable (c : Consumer ω) : List TopicPartition :=
  c.positions.keys.filter fun tp => !c.paused.contains tp

/-- Seek one partition. -/
def seekTo (tp : TopicPartition) (offset : ℤ) (c : Consumer ω) : Consumer ω :=
  { c.setPosition tp offset with generation := c.generation + 1 }

/-- Use incremental fetch sessions. -/
def setIncrementalFetch (incremental : Bool) (c : Consumer ω) : Consumer ω :=
  { c with
    incremental := incremental
    sessions := if incremental then c.sessions else ∅
    generation := c.generation + 1 }

/-- Keep a fetch permanently in flight. -/
def setPrefetch (prefetch : Bool) (c : Consumer ω) : Consumer ω :=
  { c with prefetch, generation := c.generation + 1 }

/-- How long a fetch waits for data before returning empty. -/
def setMaxWait (maxWait : ℕ) (c : Consumer ω) : Consumer ω :=
  { c with maxWait, generation := c.generation + 1 }

/-- Commit positions on a timer, without the caller asking. -/
def setAutoCommit (interval : Option ℕ) (c : Consumer ω) : Consumer ω :=
  { c with autoCommit := interval, lastAutoCommit := none }

def setGroupTimeouts (session rebalance : ℕ) (c : Consumer ω) : Consumer ω :=
  { c with groupTimeouts := some (session, rebalance) }

def setMetadataMaxAge (age : ℕ) (c : Consumer ω) : Consumer ω :=
  { c with cluster := { c.cluster with metadataMaxAge := age } }

/-- Topics that have grown partitions since this was last called. -/
def takeExpansions (c : Consumer ω) : List (String × ℤ × ℤ) × Consumer ω :=
  (c.expansions.toList, { c with expansions := ∅ })

def groupMetadata (c : Consumer ω) : Option GroupMetadata :=
  c.group.bind ClassicProtocol.groupMetadata

/-! ### Fetch requests -/

/-- The entry of one partition. -/
def fetchPartition (c : Consumer ω) (tp : TopicPartition) : FetchPartition where
  partition := tp.partition
  currentLeaderEpoch := -1
  fetchOffset := c.positions.getD tp 0
  logStartOffset := -1
  partitionMaxBytes := c.maxBytes

/-- The broker of this session already knows where we are on this partition. -/
def isKnown (c : Consumer ω) (session : Session) (tp : TopicPartition) : Bool :=
  c.incremental && session.id != 0 && session.known[tp]? == c.positions[tp]?

/-- One `Fetch` for this broker. With a session open only the partitions whose
position moved are named; the epoch `-1` asks for no session at all. -/
def fetchRequest (c : Consumer ω) (addr : String) (partitions : List TopicPartition) :
    FetchRequest :=
  let session := c.sessions.getD addr .reset
  let named := partitions.filter fun tp => !c.isKnown session tp
  { replicaId := -1
    maxWaitMs := min c.maxWait i32Max
    minBytes := 1
    maxBytes := c.maxResponseBytes
    isolationLevel := c.isolation.asI8
    sessionId := if c.incremental then session.id else 0
    sessionEpoch := if c.incremental then session.epoch else -1
    topics := (Producer.byTopic (named.map fun tp => (tp, c.fetchPartition tp))).map
      fun (topic, parts) => (topic, parts.map (·.2)) }

variable (T : Transport ω)

/-- Connect with no assignments. -/
def new (env : ω) (bootstrap : List String) (clientId : String) (isolation : IsolationLevel) :
    Except Error Unit × Consumer ω :=
  let (outcome, cluster) := Cluster.connect T (.new env bootstrap clientId)
  (outcome, fromCluster cluster isolation)

/-- Read and throw away an outstanding fetch whose question is stale. The next
request has to be a full fetch, since the broker advanced its own view. -/
def discardOutstanding : Act (Consumer ω) Error Unit := do
  let c ← get
  match c.outstanding with
  | none => pure ()
  | some outstanding => do
      set { c with outstanding := none }
      let _ ← onCluster (Cluster.recvMany T .fetch Body.asFetch (outstanding.groups.map (·.1)))
      modify resetSessions

/-! ### Looking offsets up -/

/-- One attempt of `listOffset`. -/
def listOffsetOnce (tp : TopicPartition) (timestamp : ℤ) (attempt : ℕ) (_ : Unit) :
    Act (Consumer ω) Error (Unit ⊕ ℤ) := do
  let c ← get
  match ← Act.attempt (onCluster (Cluster.leaderAddr T tp)) with
  | .error (.noLeader topic partition) =>
      -- A partition mid-election has no leader yet, which is a wait.
      if attempt = maxLeaderRetries then throw (.noLeader topic partition)
      else do
        onCluster (Cluster.sleep T leaderBackoff)
        pure (.inl ())
  | .error e => throw e
  | .ok addr => do
      let topics ← onCluster (Cluster.callAt T Body.asListOffsets addr 7
        (.listOffsets ⟨-1, c.isolation.asI8, [(tp.topic, [(tp.partition, timestamp)])]⟩))
      match (topics.flatMap (·.2)).find? (·.partitionIndex = tp.partition) with
      | none => throw (.missing "partition")
      | some found =>
          let code := ErrorCode.mk found.errorCode
          if code.disposition = .refreshMetadata then do
            modify fun c => { c with cluster := c.cluster.invalidate tp }
            if attempt = maxLeaderRetries then
              throw (.broker "ListOffsets" code.code code.disposition)
            else do
              onCluster (Cluster.refreshMetadata T tp.topic)
              onCluster (Cluster.sleep T leaderBackoff)
              pure (.inl ())
          else do
            Act.ofExcept (check "ListOffsets" found.errorCode)
            pure (.inr found.offset)

/-- Resolve a timestamp to an offset for one partition. The last attempt does not
ask for another, so nothing follows it. -/
def listOffset (tp : TopicPartition) (timestamp : ℤ) : Act (Consumer ω) Error ℤ := do
  discardOutstanding T
  Act.attempts (listOffsetOnce T tp timestamp) (fun _ => throw (.noLeader tp.topic tp.partition))
    (maxLeaderRetries + 1) 0 ()

/-- How far a lookup of many offsets has come: what was found, and what to ask
again after which topics were refreshed. -/
structure Lookup where
  found : PartitionMap (ℤ × ℤ)
  retry : List (TopicPartition × ℤ)
  refresh : List String

/-- The leader of each partition asked about, and an error if one has none. -/
def leadersFor : List (TopicPartition × ℤ) → Std.TreeMap String (List (TopicPartition × ℤ)) →
    Option Error →
    Act (Consumer ω) Error (Std.TreeMap String (List (TopicPartition × ℤ)) × Option Error)
  | [], byLeader, noLeader => pure (byLeader, noLeader)
  | (tp, timestamp) :: rest, byLeader, noLeader => do
      match ← Act.attempt (onCluster (Cluster.leaderAddr T tp)) with
      | .ok addr =>
          leadersFor rest (byLeader.insert addr (byLeader.getD addr [] ++ [(tp, timestamp)])) noLeader
      | .error (.noLeader topic partition) =>
          leadersFor rest byLeader (some (.noLeader topic partition))
      | .error e => throw e

/-- The answers of one leader. An offset of `-1` is "nothing at or after that
timestamp". -/
def readOffsets (asked : List (TopicPartition × ℤ)) :
    List (TopicPartition × ListOffsetsPartitionResponse) → Lookup → Act (Consumer ω) Error Lookup
  | [], lookup => pure lookup
  | (tp, part) :: rest, lookup =>
      let code := ErrorCode.mk part.errorCode
      if code.isOk then
        readOffsets asked rest { lookup with
          found := if 0 ≤ part.offset then lookup.found.insert tp (part.offset, part.timestamp)
            else lookup.found }
      else if code.disposition = .refreshMetadata then do
        modify fun c => { c with cluster := c.cluster.invalidate tp }
        readOffsets asked rest { lookup with
          retry := lookup.retry ++ [(tp, (asked.lookup tp).getD latest)]
          refresh := lookup.refresh ++ [tp.topic] }
      else do
        Act.ofExcept (check "ListOffsets" part.errorCode)
        readOffsets asked rest lookup

/-- One request for each leader. -/
def askLeaders : List (String × List (TopicPartition × ℤ)) → Lookup → Act (Consumer ω) Error Lookup
  | [], lookup => pure lookup
  | (addr, asked) :: rest, lookup => do
      let c ← get
      let topics ← onCluster (Cluster.callAt T Body.asListOffsets addr 7
        (.listOffsets ⟨-1, c.isolation.asI8, Producer.byTopic asked⟩))
      let lookup ← readOffsets asked (topics.flatMap fun (topic, parts) =>
        parts.map fun part => (⟨topic, part.partitionIndex⟩, part)) lookup
      askLeaders rest lookup

def refreshTopics : List String → Act (Consumer ω) Error Unit
  | [] => pure ()
  | topic :: rest => do
      onCluster (Cluster.refreshMetadata T topic)
      refreshTopics rest

/-- What is neither found nor asked again yet, added to what is. -/
def addMissing (found : PartitionMap (ℤ × ℤ)) (retry : List (TopicPartition × ℤ)) :
    List (TopicPartition × ℤ) → List (TopicPartition × ℤ)
  | [] => retry
  | (tp, timestamp) :: rest =>
      addMissing found (if tp ∉ found ∧ !retry.any (·.1 = tp) then retry ++ [(tp, timestamp)]
        else retry) rest

/-- One attempt of `listOffsetsMany`. -/
def listOffsetsOnce (attempt : ℕ) :
    PartitionMap (ℤ × ℤ) × List (TopicPartition × ℤ) →
    Act (Consumer ω) Error
      ((PartitionMap (ℤ × ℤ) × List (TopicPartition × ℤ)) ⊕ PartitionMap (ℤ × ℤ))
  | (found, remaining) => do
      let (byLeader, noLeader) ← leadersFor T remaining ∅ none
      let lookup ← askLeaders T byLeader.toList ⟨found, [], []⟩
      let retry ← match noLeader with
        | none => pure lookup.retry
        | some e =>
            if lookup.retry = [] ∧ attempt = maxLeaderRetries then throw e
            else pure (addMissing lookup.found lookup.retry remaining)
      if retry = [] then pure (.inr lookup.found)
      else if attempt = maxLeaderRetries then
        throw (.broker "ListOffsets" ErrorCode.notLeaderOrFollower.code .refreshMetadata)
      else do
        refreshTopics T (Std.TreeSet.ofList lookup.refresh).toList
        onCluster (Cluster.sleep T leaderBackoff)
        pure (.inl (lookup.found, retry))

/-- `ListOffsets` for many partitions at once: offset and timestamp of each that has
one. -/
def listOffsetsMany (want : List (TopicPartition × ℤ)) :
    Act (Consumer ω) Error (PartitionMap (ℤ × ℤ)) := do
  discardOutstanding T
  if want = [] then pure ∅
  else
    Act.attempts (listOffsetsOnce T)
      (fun _ => throw (.broker "ListOffsets" ErrorCode.notLeaderOrFollower.code .refreshMetadata))
      (maxLeaderRetries + 1) 0 (∅, want)

/-- The offset after the last record of each partition. -/
def endOffsets (partitions : List TopicPartition) : Act (Consumer ω) Error (PartitionMap ℤ) := do
  let found ← listOffsetsMany T (partitions.map (·, latest))
  pure (found.map fun _ entry => entry.1)

/-- The offset of the oldest record still retained in each partition. -/
def beginningOffsets (partitions : List TopicPartition) :
    Act (Consumer ω) Error (PartitionMap ℤ) := do
  let found ← listOffsetsMany T (partitions.map (·, earliest))
  pure (found.map fun _ entry => entry.1)

/-- The first offset at or after each timestamp. -/
def offsetsForTimes (want : List (TopicPartition × ℤ)) :
    Act (Consumer ω) Error (PartitionMap (ℤ × ℤ)) :=
  listOffsetsMany T want

/-- How far each assigned partition is behind its log end. -/
def lag : Act (Consumer ω) Error (PartitionMap ℤ) := do
  let c ← get
  let ends ← endOffsets T c.positions.keys
  pure (c.positions.filterMap fun tp position =>
    (ends[tp]?).map fun logEnd => max (wrap 64 (logEnd - position)) 0)

/-- Where this consumer's group last committed, for the partitions given. -/
def committed (partitions : List TopicPartition) : Act (Consumer ω) Error (PartitionMap ℤ) := do
  discardOutstanding T
  onGroup "a group to read commits from" (ClassicProtocol.committed T partitions)

/-- How many partitions `topic` has. -/
def partitionCount (topic : String) : Act (Consumer ω) Error ℤ :=
  onCluster (Cluster.partitionCount T topic)

/-! ### Assignment -/

/-- Assign another partition, starting at `offset`, which may be one of the two
sentinels. -/
def assign (tp : TopicPartition) (offset : ℤ) : Act (Consumer ω) Error Unit := do
  discardOutstanding T
  onCluster (Cluster.refreshMetadata T tp.topic)
  modify (setPosition tp offset)
  if offset = earliest ∨ offset = latest then do
    let resolved ← listOffset T tp offset
    modify (setPosition tp resolved)
  else pure ()
  modify onFetchSetChanged

/-- The protocol of a new subscription. -/
def protocolFor (c : Consumer ω) (groupId : String) (topics : List String) (assignor : Assignor) :
    ClassicProtocol :=
  let protocol := ClassicProtocol.new groupId topics assignor
  match c.groupTimeouts with
  | none => protocol
  | some (session, rebalance) =>
      { protocol with
        sessionTimeoutMs := min session i32Max
        rebalanceTimeoutMs := min rebalance i32Max }

/-- Join a group and let it decide which partitions this consumer reads. -/
def subscribe (groupId : String) (topics : List String) (assignor : Assignor) (reset : ℤ) :
    Act (Consumer ω) Error Unit := do
  discardOutstanding T
  modify fun c => { c with
    positions := ∅
    paused := ∅
    reset := reset
    group := some (c.protocolFor groupId topics assignor)
    generation := c.generation + 1 }

/-- Leave the group, giving up every partition. -/
def unsubscribe : Act (Consumer ω) Error Unit := do
  discardOutstanding T
  modify fun c => { c with positions := ∅, generation := c.generation + 1 }
  let c ← get
  match c.group with
  | none => pure ()
  | some group => do
      set { c with group := none }
      let (outcome, _) ← onTaken group (ClassicProtocol.leave T)
      Act.ofExcept outcome

/-- Commit the position of every partition this consumer holds. -/
def commit : Act (Consumer ω) Error Unit := do
  discardOutstanding T
  let c ← get
  onGroup "a group to commit to" (ClassicProtocol.commit T c.positions)

/-! ### Membership -/

/-- The topics of a list whose metadata is stale. -/
def staleTopics : List String → Act (Consumer ω) Error (List String)
  | [] => pure []
  | topic :: rest => do
      let stale ← onCluster (Cluster.isMetadataStale T topic)
      let more ← staleTopics rest
      pure (if stale then topic :: more else more)

/-- Re-read stale topics; whether one of a subscribed consumer's topics grew. A
refresh that fails is asked again by the next poll. -/
def refreshStale : List String → Bool → Act (Consumer ω) Error Bool
  | [], grew => pure grew
  | topic :: rest, grew => do
      match ← Act.attempt (onCluster (Cluster.refreshIfStale T topic)) with
      | .ok (some (before, after)) => do
          let c ← get
          if c.group.isSome then refreshStale rest true
          else do
            set { c with expansions := c.expansions.insert topic (before, after) }
            refreshStale rest grew
      | _ => refreshStale rest grew

/-- The topics this consumer cares about, sorted and each once: what it subscribed
to, or else what it is assigned. -/
def watched (c : Consumer ω) : List String :=
  (Std.TreeSet.ofList (match c.group with
    | some group => group.member.topics
    | none => c.positions.keys.map (·.topic))).toList

/-- Re-read stale metadata, and act on topics that grew. -/
def checkForExpansion : Act (Consumer ω) Error Unit := do
  let c ← get
  let topics ← staleTopics T c.watched
  if topics = [] then pure ()
  else do
    discardOutstanding T
    let grew ← refreshStale T topics false
    if grew then modify fun c => { c with group := c.group.map ClassicProtocol.requestRejoin }
    else pure ()

/-- Whether the interval of the automatic commit has elapsed. -/
def autoCommitDue (interval : ℕ) : Act (Consumer ω) Error Bool := do
  let c ← get
  match c.lastAutoCommit with
  | none => pure true
  | some last => do
      let now ← onCluster (Cluster.now T)
      pure (interval ≤ now - last)

/-- A commit the group refuses is no error of the automatic commit. -/
def tolerateRefusal : Except Error Unit → Except Error Unit
  | .error (.broker op code disposition) =>
      if op = "OffsetCommit" then .ok () else .error (.broker op code disposition)
  | outcome => outcome

/-- Commit if auto-commit is on and its interval has elapsed. -/
def maybeAutoCommit : Act (Consumer ω) Error Unit := do
  let c ← get
  match c.autoCommit with
  | none => pure ()
  | some interval => do
      let due ← autoCommitDue T interval
      if !due ∨ c.positions.isEmpty then pure ()
      else do
        let outcome ← Act.attempt (commit T)
        Act.ofExcept (tolerateRefusal outcome)
        let now ← onCluster (Cluster.now T)
        modify fun c => { c with lastAutoCommit := some now }

/-- The consumer already holds these partitions and no others. -/
def holds (c : Consumer ω) (partitions : List TopicPartition) : Bool :=
  (Std.TreeSet.ofList partitions).size = c.positions.size ∧ partitions.all fun tp => tp ∈ c.positions

/-- Start each partition of a new assignment where the group last committed. -/
def takeAssignment (partitions : List TopicPartition) (committed : PartitionMap ℤ)
    (c : Consumer ω) : Consumer ω :=
  { c with positions := partitions.foldl (fun positions tp =>
      positions.insert tp (committed.getD tp c.reset)) ∅ }

/-- Give up partitions. A pause does not survive losing the partition. -/
def giveUp (lost : List TopicPartition) (c : Consumer ω) : Consumer ω :=
  { c with
    positions := lost.foldl (fun positions tp => positions.erase tp) c.positions
    paused := lost.foldl (fun paused tp => paused.erase tp) c.paused }

def putGroup (group : ClassicProtocol) : Act (Consumer ω) Error Unit :=
  modify fun c => { c with group := some group }

/-- How the loop of `advanceGroup` ends: the member has settled, or there was no
group to begin with. -/
inductive Advanced
  | settled (changed : Bool)
  | groupless (changed : Bool)
  deriving DecidableEq, Repr

/-- What follows a step of the group's protocol. If the committed offsets of a new
assignment cannot be read, the group is not put back. -/
def follow (changed : Bool) (group : ClassicProtocol) :
    Except Error Membership → Act (Consumer ω) Error (Bool ⊕ Advanced)
  | .error e => do
      putGroup group
      throw e
  | .ok (.assigned partitions) => do
      let c ← get
      if c.holds partitions then do
        putGroup group
        pure (.inr (.settled changed))
      else do
        let (outcome, group) ← onTaken group (ClassicProtocol.committed T partitions)
        let committed ← Act.ofExcept outcome
        modify (takeAssignment partitions committed)
        putGroup group
        pure (.inr (.settled true))
  | .ok (.revoked lost) => do
      modify (giveUp lost)
      putGroup group
      pure (.inl (changed || !lost.isEmpty))
  | .ok .inProgress => do
      putGroup group
      pure (.inl changed)

/-- One round of `advanceGroup`: the group is taken out of the consumer for a step of
the protocol. -/
def advanceOnce (_ : ℕ) (changed : Bool) : Act (Consumer ω) Error (Bool ⊕ Advanced) := do
  let c ← get
  match c.group with
  | none => pure (.inr (.groupless changed))
  | some group => do
      set { c with group := none }
      let (outcome, group) ← onTaken group (ClassicProtocol.advance T)
      follow T changed group outcome

def maxSteps : ℕ := 20

/-- Drive group membership until the member has settled, for so many rounds. -/
def advanceSteps : Act (Consumer ω) Error Advanced :=
  Act.attempts (advanceOnce T) (fun changed => pure (.settled changed)) maxSteps 0 false

/-- The partitions whose position is a sentinel. -/
def unresolved (c : Consumer ω) : List (TopicPartition × ℤ) :=
  c.positions.toList.filter fun (_, offset) => offset = earliest ∨ offset = latest

/-- Replace sentinels by the offsets they stand for. -/
def resolve : List (TopicPartition × ℤ) → Act (Consumer ω) Error Unit
  | [] => pure ()
  | (tp, offset) :: rest => do
      let resolved ← listOffset T tp offset
      modify (setPosition tp resolved)
      resolve rest

/-- Drive group membership to a settled state; whether the assignment changed. -/
def advanceGroup : Act (Consumer ω) Error Bool := do
  match ← advanceSteps T with
  | .groupless changed => pure changed
  | .settled false => pure false
  | .settled true => do
      modify onFetchSetChanged
      let c ← get
      resolve T c.unresolved
      pure true

/-- Tell the coordinator this member is alive, without polling. -/
def heartbeat : Act (Consumer ω) Error Bool := do
  let c ← get
  if c.group.isNone then pure false else advanceGroup T

/-! ### Fetching -/

/-- The broker that leads each partition. -/
def route : List TopicPartition → Std.TreeMap String (List TopicPartition) →
    Act (Consumer ω) Error (Std.TreeMap String (List TopicPartition))
  | [], byBroker => pure byBroker
  | tp :: rest, byBroker => do
      let addr ← onCluster (Cluster.leaderAddr T tp)
      route rest (byBroker.insert addr (byBroker.getD addr [] ++ [tp]))

/-- Write the requests one by one. A failed write ends it, and is returned with what
already went out. -/
def sendFetches : List (String × List TopicPartition × FetchRequest) →
    List (String × List TopicPartition) →
    Act (Consumer ω) Error (List (String × List TopicPartition) × Option Error)
  | [], sent => pure (sent, none)
  | (addr, partitions, req) :: rest, sent => do
      match ← Act.attempt (onCluster (Cluster.sendAt T addr 12 (.fetch req))) with
      | .ok () => sendFetches rest (sent ++ [(addr, partitions)])
      | .error e => pure (sent, some e)

/-- The request for each broker. -/
def planned (c : Consumer ω) (byBroker : Std.TreeMap String (List TopicPartition)) :
    List (String × List TopicPartition × FetchRequest) :=
  byBroker.toList.map fun (addr, partitions) => (addr, partitions, c.fetchRequest addr partitions)

/-- Send one `Fetch` per broker and record what was asked, without waiting. What was
sent before a failure is recorded all the same. -/
def issueFetch : Act (Consumer ω) Error Unit := do
  let c ← get
  let byBroker ← route T c.fetchable ∅
  let c ← get
  let (sent, failure) ← sendFetches T (c.planned byBroker) []
  if sent = [] then pure ()
  else modify fun c => { c with outstanding := some ⟨sent, c.generation⟩ }
  match failure with
  | none => pure ()
  | some e => throw e

/-- Put the next round's fetch in flight, if prefetch is on. A failure shows in the
next poll. -/
def startPrefetch : Act (Consumer ω) Error Unit := do
  let c ← get
  if c.prefetch ∧ c.fetchable ≠ [] then do
    let _ ← (Act.attempt (issueFetch T) : Act (Consumer ω) Error _)
  else pure ()

/-- The membership part of `poll`. -/
def keepMembership : Act (Consumer ω) Error Unit := do
  checkForExpansion T
  let c ← get
  if c.group.isSome then do
    maybeAutoCommit T
    let changed ← advanceGroup T
    if changed then discardOutstanding T else pure ()
  else pure ()

/-- A broker's answer to a fetch, with the partitions it was asked about. -/
abbrev Answered := (String × List TopicPartition) × Except Error FetchResponse

/-- Have a fetch outstanding that asks about the current generation, and collect its
answers. A fetch that was issued is outstanding. -/
def collect : Act (Consumer ω) Error (List Answered) := do
  let c ← get
  if c.outstanding.any (·.generation ≠ c.generation) then discardOutstanding T else pure ()
  let c ← get
  if c.outstanding.isNone then issueFetch T else pure ()
  let c ← get
  let groups := (c.outstanding.map (·.groups)).getD []
  set { c with outstanding := none }
  let responses ← onCluster (Cluster.recvMany T .fetch Body.asFetch (groups.map (·.1)))
  pure (groups.zip responses)

/-! ### Reading what a fetch brought -/

variable (D : Decoders)

/-- Decode the record sets of one partition's fetch data. A set that is not entirely
there ends the loop. Every set takes bytes, so the length of the buffer is fuel
enough. -/
def decodeRecords : ℕ → Bytes → Except Error (List Record)
  | 0, _ => .ok []
  | fuel + 1, bytes =>
      match i32At bytes 8 with
      | none => .ok []
      | some batchLength =>
          if batchLength < 0 then
            .error (.core (.codec ("record batch declares a negative length: " ++
              toString batchLength)))
          else if bytes.length < 12 + batchLength.toNat then .ok []
          else
            match D.recordBatchDecoder bytes with
            | .error e => .error (.core (.codec ("decode record batch: " ++ e)))
            | .ok (records, rest) =>
                match decodeRecords fuel rest with
                | .error e => .error e
                | .ok more => .ok (records ++ more)

/-- The aborted-transaction list a fetch response carries for one partition. -/
def abortedOf (part : PartitionData) : List AbortedTransaction := part.abortedTransactions.getD []

/-- Decode and filter the data of one partition: what it yields, and where the next
fetch starts. Only a batch of an old format is handed to the full decoder. -/
def readPartition (isolation : IsolationLevel) (fetchOffset : ℤ) (tp : TopicPartition)
    (part : PartitionData) (bytes : Bytes) : Except Error (ConsumerRecords × ℤ) :=
  match decodeLean D.toCodecs bytes with
  | .error e => .error (.core e)
  | .ok (some decoded) =>
      let (batches, nextOffset) := filterBatches part.lastStableOffset isolation fetchOffset decoded
        (abortedOf part)
      .ok (⟨tp.topic, tp.partition, batches, []⟩, nextOffset)
  | .ok none =>
      match decodeRecords D bytes.length bytes with
      | .error e => .error e
      | .ok records =>
          let fetched := filter part.lastStableOffset isolation fetchOffset records (abortedOf part)
          .ok (⟨tp.topic, tp.partition, [], fetched.records⟩, fetched.nextOffset)

/-- Move the position of a partition to where reading it got to. -/
def moveAlong (reading : Reading) (c : Consumer ω) : Consumer ω :=
  { c.setPosition reading.tp reading.nextOffset with readings := c.readings ++ [reading] }

/-- One partition of a response. -/
def absorbPartition (tp : TopicPartition) (part : PartitionData) (out : List ConsumerRecords) :
    Act (Consumer ω) Error (List ConsumerRecords) := do
  Act.ofExcept (check "Fetch partition" part.errorCode)
  let c ← get
  match c.positions[tp]?, part.records with
  | some fetchOffset, some bytes =>
      if bytes = [] then pure out
      else do
        let (records, nextOffset) ← Act.ofExcept (readPartition D c.isolation fetchOffset tp part bytes)
        set (c.moveAlong ⟨tp, c.isolation, fetchOffset, part, bytes, nextOffset⟩)
        pure (if records.batches = [] ∧ records.fallback = [] then out else out ++ [records])
  | _, _ => pure out

def absorbPartitions : List (TopicPartition × PartitionData) → List ConsumerRecords →
    Act (Consumer ω) Error (List ConsumerRecords)
  | [], out => pure out
  | (tp, part) :: rest, out => do
      let out ← absorbPartition D tp part out
      absorbPartitions rest out

/-- The broker has accepted a request: its session is one step further and knows the
positions it was asked about. -/
def acceptSession (addr : String) (partitions : List TopicPartition) (sessionId : ℤ)
    (c : Consumer ω) : Consumer ω :=
  if c.incremental then
    let session := c.sessions.getD addr .reset
    let known := partitions.foldl (fun known tp =>
      match c.positions[tp]? with
      | some offset => known.insert tp offset
      | none => known) session.known
    { c with
      sessions := c.sessions.insert addr ⟨sessionId, max (wrap 32 (session.epoch + 1)) 1, known⟩ }
  else c

/-- The partitions of a response. -/
def dataOf (resp : FetchResponse) : List (TopicPartition × PartitionData) :=
  resp.responses.flatMap fun (topic, parts) => parts.map fun part => (⟨topic, part.partitionIndex⟩, part)

/-- One broker's answer. A broker that forgot the session, or is at another epoch, is
asked for a full fetch next time. -/
def absorbAnswer (answer : Answered) (out : List ConsumerRecords) :
    Act (Consumer ω) Error (List ConsumerRecords) := do
  let ((addr, partitions), response) := answer
  let resp ← Act.ofExcept response
  if resp.errorCode = fetchSessionIdNotFound ∨ resp.errorCode = invalidFetchSessionEpoch then do
    modify fun c => { c with sessions := c.sessions.insert addr .reset }
    pure out
  else do
    Act.ofExcept (check "Fetch" resp.errorCode)
    modify (acceptSession addr partitions resp.sessionId)
    absorbPartitions D (dataOf resp) out

/-- The result loop of `poll`: an answer that cannot be used ends it, and what it had
gathered is dropped. -/
def absorb : List Answered → List ConsumerRecords → Act (Consumer ω) Error (List ConsumerRecords)
  | [], out => pure out
  | answer :: rest, out => do
      let out ← absorbAnswer D answer out
      absorb rest out

/-- Return what a poll has gathered. -/
def handOver (out : List ConsumerRecords) : Act (Consumer ω) Error (List ConsumerRecords) := do
  modify fun c => { c with returned := c.returned ++ out }
  pure out

/-- Fetch every assigned partition, one request per broker. -/
def poll : Act (Consumer ω) Error (List ConsumerRecords) := do
  keepMembership T
  let c ← get
  if c.fetchable = [] then pure []
  else do
    let answers ← collect T
    let out ← absorb D answers []
    startPrefetch T
    handOver out

end Consumer

/-! ### The builder -/

/-- Where a partition starts reading. -/
inductive StartOffset
  | earliest
  | latest
  | at (offset : ℤ)

def StartOffset.asI64 : StartOffset → ℤ
  | earliest => Consumer.earliest
  | latest => Consumer.latest
  | .at offset => offset

/-- The last stage of the consumer's builder: everything required is present. -/
structure ConsumerReady where
  bootstrap : List String
  clientId : String
  isolation : IsolationLevel
  credentials : Option Credentials
  maxWait : Option ℕ
  prefetch : Option Bool
  incremental : Option Bool
  assignments : List (TopicPartition × StartOffset)
  everyPartition : List (String × StartOffset)

namespace ConsumerReady

variable {ω : Type} (T : Transport ω)

/-- Settings before assignments. -/
def settings (ready : ConsumerReady) (c : Consumer ω) : Consumer ω :=
  let c := (ready.maxWait.map (Consumer.setMaxWait · c)).getD c
  let c := (ready.prefetch.map (Consumer.setPrefetch · c)).getD c
  (ready.incremental.map (Consumer.setIncrementalFetch · c)).getD c

def assignEach : List (TopicPartition × StartOffset) → Act (Consumer ω) Error Unit
  | [] => pure ()
  | (tp, start) :: rest => do
      Consumer.assign T tp start.asI64
      assignEach rest

def assignEvery : List (String × StartOffset) → Act (Consumer ω) Error Unit
  | [] => pure ()
  | (topic, start) :: rest => do
      let count ← Consumer.partitionCount T topic
      assignEach T ((List.range count.toNat).map fun partition => (⟨topic, partition⟩, start))
      assignEvery rest

/-- What `build` does with the consumer it has made. -/
def configure (ready : ConsumerReady) : Act (Consumer ω) Error Unit := do
  modify ready.settings
  assignEvery T ready.everyPartition
  assignEach T ready.assignments

/-- Connect, set the credentials, and resolve every assignment's starting offset. Of a
consumer that could not be built only the connections are of interest. -/
def build (ready : ConsumerReady) (env : ω) : Except Error Unit × Consumer ω :=
  match Cluster.connect T (.new env ready.bootstrap ready.clientId) with
  | (.error e, cluster) => (.error e, Consumer.fromCluster cluster ready.isolation)
  | (.ok (), cluster) =>
      ready.configure T
        (Consumer.fromCluster { cluster with credentials := ready.credentials } ready.isolation)

end ConsumerReady

end Barnabas.Client
