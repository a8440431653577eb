import Barnabas.Client.Producer
import Barnabas.Core.Member

/-!
The group protocol on a socket (`barnabas-client/src/group.rs`).

`GroupMember` decides what to do; `ClassicProtocol` sends it. Each of its requests
is an exchange with the coordinator, which yields what the machine is to hear, and
the machine hearing it: an exchange that fails leaves the machine as it was.
-/

namespace Barnabas.Client

open Barnabas.Lib Barnabas.Core

/-- Where membership stands after a step. -/
inductive Membership
  | inProgress
  | assigned (partitions : List TopicPartition)
  | revoked (partitions : List TopicPartition)
  deriving DecidableEq, Repr

/-- The classic protocol. `announcedRevoked` keeps a revocation from being announced
twice, `everAssigned` the first join from announcing one. -/
structure ClassicProtocol where
  member : GroupMember
  assignor : Assignor
  coordinator : Option String
  sessionTimeoutMs : ℤ
  rebalanceTimeoutMs : ℤ
  announcedRevoked : Bool
  everAssigned : Bool

/-- The protocol and the cluster its methods are given. -/
structure Grouped (ω : Type) where
  group : ClassicProtocol
  cluster : Cluster ω

namespace ClassicProtocol

def consumerProtocol : String := "consumer"

def coordinatorRetries : ℕ := 40

def coordinatorBackoff : ℕ := 250

def joinSlack : ℕ := 5000

def coordinatorTimeout : ℕ := 30000

/-- The version of the group protocol's blobs this client writes. -/
def protocolVersion : ℤ := 2

/-- The assignor decides how partitions change hands. -/
def new (groupId : String) (topics : List String) (assignor : Assignor) : ClassicProtocol where
  member := .new groupId topics
    (if assignor.name = "cooperative-sticky" then .cooperative else .eager)
  assignor := assignor
  coordinator := none
  sessionTimeoutMs := 45000
  rebalanceTimeoutMs := 300000
  announcedRevoked := false
  everAssigned := false

/-! ### The embedded blobs -/

/-- The `i16` ahead of every blob, and what follows it. -/
def readVersion : Bytes → Except Error (ℤ × Bytes)
  | high :: low :: rest => .ok (wrap 16 (high.toNat * 256 + low.toNat), rest)
  | _ => .error (.core (.codec "consumer protocol blob is too short for its version"))

def writeVersion (body : Bytes) : Bytes := 0 :: 2 :: body

def byTopic (partitions : List TopicPartition) : List (String × List ℤ) :=
  (Producer.byTopic (partitions.map (·, ()))).map fun (topic, parts) => (topic, parts.map (·.1))

/-- The partitions of a list by topic, one by one. -/
def spread (topics : List (String × List ℤ)) : List TopicPartition :=
  topics.flatMap fun (topic, parts) => parts.map fun p => ⟨topic, p⟩

def encodeSubscription (codec : Codec) (s : Subscription) : Except Error Bytes :=
  match codec.encodeSubscription protocolVersion ⟨s.topics, byTopic s.owned, s.generation⟩ with
  | .ok body => .ok (writeVersion body)
  | .error e => .error (.core (.codec ("subscription: " ++ e)))

/-- A blob of a version that has no generation claims nothing that can be dated. -/
def decodeSubscription (codec : Codec) (memberId : String) (metadata : Bytes) :
    Except Error Subscription :=
  match readVersion metadata with
  | .error e => .error e
  | .ok (version, rest) =>
      match codec.decodeSubscription version rest with
      | .error e => .error (.core (.codec ("subscription: " ++ e)))
      | .ok body => .ok ⟨memberId, body.topics, spread body.ownedPartitions,
          if 2 ≤ version then body.generationId else -1⟩

def decodeMembers (codec : Codec) : List (String × Bytes) → Except Error (List Subscription)
  | [] => .ok []
  | (memberId, metadata) :: rest =>
      match decodeSubscription codec memberId metadata with
      | .error e => .error e
      | .ok member =>
          match decodeMembers codec rest with
          | .error e => .error e
          | .ok members => .ok (member :: members)

def encodeAssignment (codec : Codec) (partitions : List TopicPartition) : Except Error Bytes :=
  match codec.encodeAssignment protocolVersion (byTopic partitions) with
  | .ok body => .ok (writeVersion body)
  | .error e => .error (.core (.codec ("assignment: " ++ e)))

def encodeAssignments (codec : Codec) :
    List (String × List TopicPartition) → Except Error (List (String × Bytes))
  | [] => .ok []
  | (memberId, partitions) :: rest =>
      match encodeAssignment codec partitions with
      | .error e => .error e
      | .ok blob =>
          match encodeAssignments codec rest with
          | .error e => .error e
          | .ok blobs => .ok ((memberId, blob) :: blobs)

def decodeAssignment (codec : Codec) (blob : Bytes) : Except Error (List TopicPartition) :=
  match readVersion blob with
  | .error e => .error e
  | .ok (version, rest) =>
      match codec.decodeAssignment version rest with
      | .error e => .error (.core (.codec ("assignment: " ++ e)))
      | .ok body => .ok (StickyAssignor.sortPartitions (spread body))

/-! ### Exchanges with the coordinator -/

variable {ω α ε : Type}

def onCluster (m : Act (Cluster ω) ε α) : Act (Grouped ω) ε α :=
  Act.zoom (·.cluster) (fun g cluster => { g with cluster }) m

def setCoordinator (coordinator : Option String) : Act (Grouped ω) ε Unit :=
  modify fun g => { g with group := { g.group with coordinator } }

variable (T : Transport ω)

/-- One attempt at finding the group coordinator. -/
def findCoordinatorOnce (groupId : String) (_ : ℕ) (_ : Unit) :
    Act (Grouped ω) Error (Unit ⊕ String) := do
  let resp ← onCluster (Cluster.callAny T Body.asFindCoordinator 3 (.findCoordinator groupId 0))
  if resp.errorCode = Codes.none then do
    let addr := resp.host ++ ":" ++ toString resp.port
    setCoordinator (some addr)
    pure (.inr addr)
  else if resp.errorCode = Codes.coordinatorNotAvailable ∨
      resp.errorCode = Codes.coordinatorLoadInProgress then do
    onCluster (Cluster.sleep T coordinatorBackoff)
    pure (.inl ())
  else do
    Act.ofExcept (check "FindCoordinator" resp.errorCode)
    pure (.inl ())

/-- The group coordinator's address, discovering it if unknown. -/
def coordinatorAddr : Act (Grouped ω) Error String := do
  let g ← get
  match g.group.coordinator with
  | some addr => pure addr
  | none =>
      Act.attempts (findCoordinatorOnce T g.group.member.groupId)
        (fun _ => throw (.broker "FindCoordinator" Codes.coordinatorNotAvailable .retry))
        coordinatorRetries 0 ()

/-- A request to the coordinator. -/
def callCoordinator (as : Body → Option α) (version : ℤ) (timeout : ℕ)
    (request : ClassicProtocol → Except Error Request) : Act (Grouped ω) Error α := do
  let addr ← coordinatorAddr T
  let g ← get
  let req ← Act.ofExcept (request g.group)
  onCluster (Cluster.callCoordinator T as addr version req timeout)

def joinRequest (codec : Codec) (g : ClassicProtocol) : Except Error Request :=
  match encodeSubscription codec g.member.subscription with
  | .error e => .error e
  | .ok metadata => .ok (.joinGroup
      { groupId := g.member.groupId
        sessionTimeoutMs := g.sessionTimeoutMs
        rebalanceTimeoutMs := g.rebalanceTimeoutMs
        memberId := g.member.memberId
        protocolType := consumerProtocol
        protocols := [(g.assignor.name, metadata)] })

/-- How long a join may be held: the rebalance timeout if it is one, and some slack. -/
def joinDeadline (g : ClassicProtocol) : ℕ :=
  (if 0 ≤ g.rebalanceTimeoutMs then g.rebalanceTimeoutMs.toNat else 300000) + joinSlack

/-- `JoinGroup`. Only the leader is given the members, and decodes them. -/
def joinAnswer : Act (Grouped ω) Error GroupMember.Event := do
  let g ← get
  let resp ← callCoordinator T Body.asJoinGroup 7 g.group.joinDeadline (joinRequest T.codec)
  let members ← Act.ofExcept
    (if resp.leader = resp.memberId then decodeMembers T.codec resp.members else .ok [])
  pure (.join resp.errorCode resp.generationId resp.memberId resp.leader members)

def syncRequest (assignments : List (String × Bytes)) (g : ClassicProtocol) : Except Error Request :=
  .ok (.syncGroup
    { groupId := g.member.groupId
      generationId := g.member.generation
      memberId := g.member.memberId
      protocolType := some consumerProtocol
      protocolName := some g.assignor.name
      assignments := assignments })

/-- `SyncGroup`. -/
def syncAnswer (assignments : List (String × Bytes)) : Act (Grouped ω) Error GroupMember.Event := do
  let resp ← callCoordinator T Body.asSyncGroup 4 coordinatorTimeout (syncRequest assignments)
  let assigned ← Act.ofExcept
    (if resp.errorCode = Codes.none ∧ resp.assignment ≠ []
      then decodeAssignment T.codec resp.assignment else .ok [])
  pure (.sync resp.errorCode assigned)

/-- How many partitions each topic has. -/
def countPartitions : List String → PartitionCounts → Act (Grouped ω) Error PartitionCounts
  | [], counts => pure counts
  | topic :: rest, counts =>
      if topic ∈ counts then countPartitions rest counts
      else do
        let count ← onCluster (Cluster.partitionCount T topic)
        countPartitions rest (counts.insert topic count)

/-- Compute the assignment as leader, and send it. -/
def assignAndSyncAnswer (members : List Subscription) : Act (Grouped ω) Error GroupMember.Event := do
  let counts ← countPartitions T (members.flatMap (·.topics)) ∅
  let g ← get
  let encoded ← Act.ofExcept
    (encodeAssignments T.codec (g.group.assignor.assign members counts).toList)
  syncAnswer T encoded

def heartbeatRequest (g : ClassicProtocol) : Except Error Request :=
  .ok (.heartbeat g.member.groupId g.member.generation g.member.memberId)

/-- `Heartbeat`. -/
def heartbeatAnswer : Act (Grouped ω) Error GroupMember.Event := do
  let code ← callCoordinator T Body.asHeartbeat 4 coordinatorTimeout heartbeatRequest
  pure (.heartbeat code)

/-! ### Driving the machine -/

/-- The machine hears an answer; every answer has a next step. -/
def hear (e : GroupMember.Event) : Act (Grouped ω) Error Step := do
  let g ← get
  let (step, member) := g.group.member.handle e
  set { g with group := { g.group with member } }
  pure (step.getD member.step)

def join : Act (Grouped ω) Error Step := do
  let answer ← joinAnswer T
  hear answer

def sync (assignments : List (String × Bytes)) : Act (Grouped ω) Error Step := do
  let answer ← syncAnswer T assignments
  hear answer

def assignAndSync (members : List Subscription) : Act (Grouped ω) Error Step := do
  let answer ← assignAndSyncAnswer T members
  hear answer

def heartbeat : Act (Grouped ω) Error Step := do
  let answer ← heartbeatAnswer T
  hear answer

/-- Take a step. -/
def perform : Step → Act (Grouped ω) Error Step
  | .join _ => join T
  | .assignAndSync members => assignAndSync T members
  | .sync => sync T []
  | .heartbeat => heartbeat T
  | .findCoordinator => do
      setCoordinator none
      let g ← get
      pure (.join g.group.member.memberId)

/-- What a step has come to, announcing a revocation once. -/
def announce (g : ClassicProtocol) : Membership × ClassicProtocol :=
  if g.member.state = .stable then
    (.assigned g.member.assignment, { g with announcedRevoked := false, everAssigned := true })
  else if g.everAssigned ∧ !g.announcedRevoked then
    (.revoked g.member.lost, { g with announcedRevoked := true })
  else (.inProgress, g)

/-- Drive one step of membership. -/
def advance : Act (Grouped ω) Error Membership := do
  let g ← get
  let outcome ← perform T g.group.member.step
  if outcome = .findCoordinator then setCoordinator none else pure ()
  modifyGet fun g =>
    let (membership, group) := announce g.group
    (membership, { g with group })

/-- Ask to rejoin the group at the next step. -/
def requestRejoin (g : ClassicProtocol) : ClassicProtocol :=
  { g with member := g.member.requestRejoin }

def leaveRequest (g : ClassicProtocol) : Except Error Request :=
  .ok (.leaveGroup g.member.groupId g.member.memberId)

/-- Leave deliberately. A failure of the request itself is ignored. -/
def leave : Act (Grouped ω) Error Unit := do
  let g ← get
  if g.group.member.memberId = "" then pure ()
  else do
    let addr ← coordinatorAddr T
    let g ← get
    let req ← Act.ofExcept (leaveRequest g.group)
    let _ ← (Act.attempt (onCluster (Cluster.callCoordinator T Body.asLeaveGroup addr 3 req
      coordinatorTimeout)) : Act (Grouped ω) Error _)
    modify fun g => { g with group := { g.group with member := g.group.member.onLeave } }

/-- What proves that this member is current, for a transactional producer. -/
def groupMetadata (g : ClassicProtocol) : Option GroupMetadata :=
  if g.member.canCommit then
    some ⟨g.member.groupId, g.member.generation, g.member.memberId, none⟩
  else none

/-! ### Offsets -/

/-- Check one code after the other. -/
def checkAll (op : String) : List ℤ → Except Error Unit
  | [] => .ok ()
  | code :: codes =>
      match check op code with
      | .error e => .error e
      | .ok () => checkAll op codes

def commitRequest (offsets : PartitionMap ℤ) (g : ClassicProtocol) : Except Error Request :=
  .ok (.offsetCommit
    { groupId := g.member.groupId
      generationId := g.member.generation
      memberId := g.member.memberId
      topics := Producer.byTopic offsets.toList })

/-- Commit these offsets for the group; refused while the member may not. -/
def commit (offsets : PartitionMap ℤ) : Act (Grouped ω) Error Unit := do
  let g ← get
  if offsets.isEmpty then pure ()
  else if !g.group.member.canCommit then
    throw (.broker "OffsetCommit" Codes.rebalanceInProgress .retry)
  else do
    let results ← callCoordinator T Body.asOffsetCommit 8 coordinatorTimeout (commitRequest offsets)
    Act.ofExcept (checkAll "OffsetCommit" ((results.flatMap (·.2)).map (·.2)))

def fetchRequest (partitions : List TopicPartition) (g : ClassicProtocol) : Except Error Request :=
  .ok (.offsetFetch g.member.groupId (some (byTopic partitions)))

/-- The committed offsets of an answer. Never committed is not an offset. -/
def committedOffsets : List (TopicPartition × OffsetFetchPartition) → PartitionMap ℤ →
    Except Error (PartitionMap ℤ)
  | [], out => .ok out
  | (tp, part) :: rest, out =>
      match check "OffsetFetch partition" part.errorCode with
      | .error e => .error e
      | .ok () => committedOffsets rest
          (if 0 ≤ part.committedOffset then out.insert tp part.committedOffset else out)

/-- Where this group last committed, for the partitions given. -/
def committed (partitions : List TopicPartition) : Act (Grouped ω) Error (PartitionMap ℤ) := do
  if partitions.isEmpty then pure ∅
  else do
    let resp ← callCoordinator T Body.asOffsetFetch 6 coordinatorTimeout (fetchRequest partitions)
    Act.ofExcept (check "OffsetFetch" resp.errorCode)
    Act.ofExcept (committedOffsets (resp.topics.flatMap fun (topic, parts) =>
      parts.map fun part => (⟨topic, part.partitionIndex⟩, part)) ∅)

end ClassicProtocol

end Barnabas.Client
