import Barnabas.Client.Producer
import Barnabas.Lib.Attempts
import Barnabas.Lib.Grouping

/-!
The admin client (`barnabas-client/src/admin.rs`).

Two rules of routing carry it: topics are created, grown and deleted by the controller, and
records by the leader of their partition. The messages of the admin client are none of those
that the producer and the consumer use, so the requests of the cluster at these messages are
a parameter, and what is proved holds whatever brokers answer and whatever becomes of the
connections.
-/

namespace Barnabas.Client

open Barnabas.Lib Barnabas.Core Barnabas.Lib.Act

/-- A topic to create. -/
structure NewTopic where
  name : String
  partitions : ℤ
  replicationFactor : ℤ
  config : Std.TreeMap String String

namespace NewTopic

/-- A topic with broker defaults for everything but its shape. -/
def new (name : String) (partitions replicationFactor : ℤ) : NewTopic :=
  ⟨name, partitions, replicationFactor, ∅⟩

def withConfig (topic : NewTopic) (key value : String) : NewTopic :=
  { topic with config := topic.config.insert key value }

end NewTopic

/-- One broker, as the cluster describes itself. -/
structure BrokerInfo where
  nodeId : ℤ
  host : String
  port : ℤ
  isController : Bool
  deriving DecidableEq, Repr

/-! ### Messages -/

structure CreatableTopic where
  name : String
  numPartitions : ℤ
  replicationFactor : ℤ
  configs : List (String × Option String)
  deriving DecidableEq, Repr

structure CreateTopicsRequest where
  timeoutMs : ℤ
  topics : List CreatableTopic
  deriving DecidableEq, Repr

structure DeleteTopicsRequest where
  timeoutMs : ℤ
  topics : List (Option String)
  deriving DecidableEq, Repr

structure CreatePartitionsTopic where
  name : String
  count : ℤ
  assignments : Option (List (List ℤ))
  deriving DecidableEq, Repr

structure CreatePartitionsRequest where
  timeoutMs : ℤ
  validateOnly : Bool
  topics : List CreatePartitionsTopic
  deriving DecidableEq, Repr

structure DescribeConfigsResource where
  resourceType : ℤ
  resourceName : String
  configurationKeys : Option (List String)
  deriving DecidableEq, Repr

structure DescribeConfigsRequest where
  resources : List DescribeConfigsResource
  includeSynonyms : Bool
  includeDocumentation : Bool
  deriving DecidableEq, Repr

structure DescribeConfigsResult where
  errorCode : ℤ
  configs : List (String × Option String)
  deriving DecidableEq, Repr

/-- Per topic, the partitions with the offset before which they are trimmed. -/
structure DeleteRecordsRequest where
  timeoutMs : ℤ
  topics : List (String × List (ℤ × ℤ))
  deriving DecidableEq, Repr

structure DeleteRecordsPartitionResult where
  partitionIndex : ℤ
  lowWatermark : ℤ
  errorCode : ℤ
  deriving DecidableEq, Repr

abbrev DeleteRecordsResponse := List (String × List DeleteRecordsPartitionResult)

/-- `call_at`, and `call_any` for `describeConfigs`, at the messages of the admin client. Of
the answers of the controller only the error codes of their entries are read. -/
structure AdminCalls (ω : Type) where
  createTopics : String → ℤ → CreateTopicsRequest → Act (Cluster ω) Error (List ℤ)
  deleteTopics : String → ℤ → DeleteTopicsRequest → Act (Cluster ω) Error (List ℤ)
  createPartitions : String → ℤ → CreatePartitionsRequest → Act (Cluster ω) Error (List ℤ)
  describeConfigs : ℤ → DescribeConfigsRequest → Act (Cluster ω) Error (List DescribeConfigsResult)
  deleteRecords : String → ℤ → DeleteRecordsRequest → Act (Cluster ω) Error DeleteRecordsResponse

/-- The operations of a core: a cluster, and how long a broker may take. -/
structure Admin (ω : Type) where
  cluster : Cluster ω
  timeoutMs : ℤ

namespace Admin

variable {ω ε α : Type}

/-- Attempts for a request whose disposition says "retry" or "re-discover". -/
def maxRetries : ℕ := 20

def backoff : ℕ := 50

/-- `NOT_CONTROLLER`. -/
def notController : ℤ := 41

variable (T : Transport ω)

def connect (env : ω) (bootstrap : List String) (clientId : String) : Except Error Unit × Admin ω :=
  let (outcome, cluster) := Cluster.connect T (.new env bootstrap clientId)
  (outcome, ⟨cluster, 30000⟩)

/-- How long the broker may take, in milliseconds. -/
def setOperationTimeout (timeout : ℕ) (a : Admin ω) : Admin ω :=
  { a with timeoutMs := if (timeout : ℤ) ≤ i32Max then timeout else i32Max }

def onCluster (m : Act (Cluster ω) ε α) : Act (Admin ω) ε α :=
  Act.zoom (·.cluster) (fun a cluster => { a with cluster }) m

/-! ### The controller -/

/-- The first error code of a response that is not zero. -/
def firstError (codes : List ℤ) : ℤ := (codes.find? (· ≠ 0)).getD 0

/-- One attempt of `controllerCall`. -/
def controllerOnce (op : String) (call : String → Act (Cluster ω) Error α) (errorOf : α → ℤ)
    (attempt : ℕ) (_ : Unit) : Act (Cluster ω) Error (Unit ⊕ α) := do
  match ← Act.attempt (Cluster.controllerAddr T) with
  | .error e =>
      -- A controller election is a wait, not a failure.
      if e = .missing "a controller" ∧ attempt + 1 < maxRetries then do
        Cluster.sleep T backoff
        pure (.inl ())
      else throw e
  | .ok addr => do
      let resp ← call addr
      let code := ErrorCode.mk (errorOf resp)
      if code.isOk then pure (.inr resp)
      else if code.code = notController then do
        modify Cluster.invalidateController
        Cluster.sleep T backoff
        pure (.inl ())
      else if code.disposition = .retry ∧ attempt + 1 < maxRetries then do
        Cluster.sleep T backoff
        pure (.inl ())
      else throw (.broker op code.code code.disposition)

/-- Send a request to the controller, re-discovering it on `NOT_CONTROLLER`. -/
def controllerCall (op : String) (call : String → Act (Cluster ω) Error α) (errorOf : α → ℤ) :
    Act (Cluster ω) Error α :=
  Act.attempts (controllerOnce T op call errorOf)
    (fun _ => throw (.broker op notController .retry)) maxRetries 0 ()

/-! ### Operations -/

/-- One look at whether a topic has its partitions. -/
def awaitOnce (topic : String) (count : ℤ) (attempt : ℕ) (_ : Unit) :
    Act (Cluster ω) Error (Unit ⊕ Unit) := do
  let _ ← Act.attempt (Cluster.refreshMetadata T topic)
  let c ← get
  if count ≤ c.metadata.partitionCount topic then pure (.inr ())
  else if attempt + 1 = maxRetries then throw (.noLeader topic (-1))
  else do
    Cluster.sleep T backoff
    pure (.inl ())

/-- Return when a topic is usable, not when the controller said yes. -/
def awaitPartitions (topic : String) (count : ℤ) : Act (Cluster ω) Error Unit :=
  Act.attempts (awaitOnce T topic count) (fun _ => pure ()) maxRetries 0 ()

def awaitTopics : List NewTopic → Act (Cluster ω) Error Unit
  | [] => pure ()
  | topic :: topics => do
      awaitPartitions T topic.name topic.partitions
      awaitTopics topics

def createTopicsRequest (timeoutMs : ℤ) (topics : List NewTopic) : CreateTopicsRequest where
  timeoutMs := timeoutMs
  topics := topics.map fun topic =>
    ⟨topic.name, topic.partitions, topic.replicationFactor,
      topic.config.toList.map fun (key, value) => (key, some value)⟩

variable (calls : AdminCalls ω)

/-- Create topics. A topic that exists already is an error. -/
def createTopics (topics : List NewTopic) : Act (Admin ω) Error Unit := do
  if topics = [] then pure ()
  else do
    let a ← get
    let _ ← onCluster (controllerCall T "CreateTopics"
      (fun addr => calls.createTopics addr 5 (createTopicsRequest a.timeoutMs topics)) firstError)
    onCluster (awaitTopics T topics)

/-- Delete topics: the deletion was accepted, not that the log files are gone. -/
def deleteTopics (names : List String) : Act (Admin ω) Error Unit := do
  if names = [] then pure ()
  else do
    let a ← get
    let _ ← onCluster (controllerCall T "DeleteTopics"
      (fun addr => calls.deleteTopics addr 6 ⟨a.timeoutMs, names.map some⟩) firstError)

/-- Grow a topic to `count` partitions in total. -/
def createPartitions (topic : String) (count : ℤ) : Act (Admin ω) Error Unit := do
  let a ← get
  let _ ← onCluster (controllerCall T "CreatePartitions"
    (fun addr => calls.createPartitions addr 3 ⟨a.timeoutMs, false, [⟨topic, count, none⟩]⟩)
    firstError)
  onCluster (awaitPartitions T topic count)

/-- Every broker in the cluster, and which one is the controller. -/
def describeCluster : Act (Admin ω) Error (List BrokerInfo) := do
  onCluster (Cluster.refreshCluster T)
  let a ← get
  let metadata := a.cluster.metadata
  let controller := metadata.controllerAddr.map (·.nodeId)
  pure (metadata.brokers.toList.map fun (_, broker) =>
    ⟨broker.nodeId, broker.host, broker.port, controller = some broker.nodeId⟩)

/-- The configuration of the resources of an answer, or the first error among them. -/
def readConfigs : List DescribeConfigsResult → Std.TreeMap String (Option String) →
    Except Error (Std.TreeMap String (Option String))
  | [], out => .ok out
  | resource :: resources, out =>
      match check "DescribeConfigs" resource.errorCode with
      | .error e => .error e
      | .ok () => readConfigs resources
          (resource.configs.foldl (fun out (name, value) => out.insert name value) out)

/-- One attempt of `describeTopicConfig`. -/
def describeOnce (topic : String) (attempt : ℕ) (_ : Unit) :
    Act (Cluster ω) Error (Unit ⊕ Std.TreeMap String (Option String)) := do
  -- 2 is a topic.
  let resp ← calls.describeConfigs 4 ⟨[⟨2, topic, none⟩], false, false⟩
  match resp with
  | [] => throw (.missing "a resource")
  | first :: _ =>
      let code := ErrorCode.mk first.errorCode
      if !code.isOk ∧ code.disposition = .refreshMetadata ∧ attempt + 1 < maxRetries then do
        Cluster.sleep T backoff
        pure (.inl ())
      else do
        let out ← Act.ofExcept (readConfigs resp ∅)
        pure (.inr out)

/-- A topic's effective configuration. The last attempt does not ask for another, so nothing
follows it. -/
def describeTopicConfig (topic : String) : Act (Admin ω) Error (Std.TreeMap String (Option String)) :=
  onCluster (Act.attempts (describeOnce T calls topic) (fun _ => throw (.missing "a resource"))
    maxRetries 0 ())

/-! ### Trimming logs -/

/-- The partitions by leader. -/
def byLeader : List (TopicPartition × ℤ) → Std.TreeMap String (List (TopicPartition × ℤ)) →
    Act (Cluster ω) Error (Std.TreeMap String (List (TopicPartition × ℤ)))
  | [], groups => pure groups
  | (tp, offset) :: before, groups => do
      let addr ← Cluster.leaderAddr T tp
      byLeader before (groups.insert addr (groups.getD addr [] ++ [(tp, offset)]))

/-- The new log starts of an answer, or the first error in it. -/
def readStarts : List (TopicPartition × DeleteRecordsPartitionResult) → PartitionMap ℤ →
    Except Error (PartitionMap ℤ)
  | [], out => .ok out
  | (tp, result) :: results, out =>
      match check "DeleteRecords" result.errorCode with
      | .error e => .error e
      | .ok () => readStarts results (out.insert tp result.lowWatermark)

def resultsOf (resp : DeleteRecordsResponse) : List (TopicPartition × DeleteRecordsPartitionResult) :=
  resp.flatMap fun (topic, results) =>
    results.map fun result => (⟨topic, result.partitionIndex⟩, result)

/-- One leader after the other. -/
def deleteGroups (timeoutMs : ℤ) : List (String × List (TopicPartition × ℤ)) → PartitionMap ℤ →
    Act (Cluster ω) Error (PartitionMap ℤ)
  | [], out => pure out
  | (addr, group) :: groups, out => do
      let resp ← calls.deleteRecords addr 2 ⟨timeoutMs, Producer.byTopic group⟩
      let out ← Act.ofExcept (readStarts (resultsOf resp) out)
      deleteGroups timeoutMs groups out

/-- Delete every record before the given offset, per partition. -/
def deleteRecords (before : List (TopicPartition × ℤ)) : Act (Admin ω) Error (PartitionMap ℤ) := do
  if before = [] then pure ∅
  else do
    let a ← get
    let groups ← onCluster (byLeader T before ∅)
    onCluster (deleteGroups calls a.timeoutMs groups.toList ∅)

/-! ### Finding the controller -/

section Controller

variable {T} {op : String} {call : String → Act (Cluster ω) Error α} {errorOf : α → ℤ}

/-- An attempt asks the controller that the metadata names, which is read again if it names
none. -/
structure Finds (T : Transport ω) (x : Attempt (Cluster ω) Unit) (addr : String) (c : Cluster ω) :
    Prop where
  named : ∃ broker, c.metadata.controllerAddr = some broker ∧ broker.addr = addr
  known : x.start.metadata.controllerAddr.isSome ∧ c = x.start ∨
    x.start.metadata.controllerAddr = none ∧ Cluster.refreshCluster T x.start = (.ok (), c)

/-- An attempt found the controller at `addr` and had `resp` from it. -/
def Answered (T : Transport ω) (call : String → Act (Cluster ω) Error α)
    (x : Attempt (Cluster ω) Unit) (addr : String) (resp : α) (c : Cluster ω) : Prop :=
  ∃ c₁, Finds T x addr c₁ ∧ call addr c₁ = (.ok resp, c)

/-- An attempt that asks for another: there is no controller for now, or it was not the
controller that answered, which is then forgotten, or the answer was to try again. -/
inductive PutOff (T : Transport ω) (call : String → Act (Cluster ω) Error α) (errorOf : α → ℤ)
    (x : Attempt (Cluster ω) Unit) (next : Cluster ω) : Prop
  | election (c : Cluster ω)
      (h : Cluster.controllerAddr T x.start = (.error (.missing "a controller"), c))
      (hmetadata : next.metadata = c.metadata)
  | moved (addr : String) (resp : α) (c : Cluster ω) (h : Answered T call x addr resp c)
      (hcode : errorOf resp = notController) (hforgotten : next.metadata.controllerAddr = none)
  | busy (addr : String) (resp : α) (c : Cluster ω) (h : Answered T call x addr resp c)
      (hcode : (ErrorCode.mk (errorOf resp)).disposition = .retry)
      (hmetadata : next.metadata = c.metadata)

/-- What a call ends in after its last attempt, when `left` says whether there could have been
another. -/
inductive Ended (T : Transport ω) (op : String) (call : String → Act (Cluster ω) Error α)
    (errorOf : α → ℤ) (x : Attempt (Cluster ω) Unit) (spent : Prop) :
    Except Error α × Cluster ω → Prop
  | done (addr : String) (resp : α) (c : Cluster ω) (h : Answered T call x addr resp c)
      (hcode : errorOf resp = 0) : Ended T op call errorOf x spent (.ok resp, c)
  | unknown (e : Error) (c : Cluster ω) (h : Cluster.controllerAddr T x.start = (.error e, c))
      (hspent : e = .missing "a controller" → spent) :
      Ended T op call errorOf x spent (.error e, c)
  | failed (addr : String) (e : Error) (c₁ c : Cluster ω)
      (hfound : Finds T x addr c₁) (h : call addr c₁ = (.error e, c)) :
      Ended T op call errorOf x spent (.error e, c)
  | refused (addr : String) (resp : α) (c : Cluster ω) (h : Answered T call x addr resp c)
      (hcode : errorOf resp ≠ 0) (hmoved : errorOf resp ≠ notController)
      (hspent : (ErrorCode.mk (errorOf resp)).disposition = .retry → spent) :
      Ended T op call errorOf x spent
        (.error (.broker op (errorOf resp) (ErrorCode.mk (errorOf resp)).disposition), c)
  | elsewhere (addr : String) (resp : α) (c c' : Cluster ω) (h : Answered T call x addr resp c)
      (hcode : errorOf resp = notController) (hspent : spent) :
      Ended T op call errorOf x spent (.error (.broker op notController .retry), c')

theorem sleep_cases (T : Transport ω) (duration : ℕ) (c : Cluster ω) :
    ∃ c', (Cluster.sleep T duration : Act (Cluster ω) Error Unit) c = (.ok (), c') ∧
      c'.metadata = c.metadata :=
  ⟨_, rfl, rfl⟩

theorem finds_of_controllerAddr {x : Attempt (Cluster ω) Unit} {addr : String} {c : Cluster ω}
    (h : Cluster.controllerAddr T x.start = (.ok addr, c)) : Finds T x addr c := by
  rw [Cluster.controllerAddr, bind_of_ok (get_apply _)] at h
  rcases hknown : x.start.metadata.controllerAddr with _ | broker
  · rw [hknown] at h
    obtain ⟨⟨⟩, c₁, hrefresh, h⟩ := bind_eq_ok h
    rw [bind_of_ok (get_apply _)] at h
    rcases hnamed : c₁.metadata.controllerAddr with _ | broker
    · rw [hnamed] at h
      cases h
    · rw [hnamed] at h
      cases h
      exact ⟨⟨broker, hnamed, rfl⟩, .inr ⟨hknown, hrefresh⟩⟩
  · rw [hknown] at h
    cases h
    exact ⟨⟨broker, hknown, rfl⟩, .inl ⟨by rw [hknown]; rfl, rfl⟩⟩

variable (T op call errorOf) in
/-- One attempt: it is put off, or it ends the call. -/
theorem controllerOnce_cases (x : Attempt (Cluster ω) Unit) :
    (∃ c', controllerOnce T op call errorOf x.index x.carried x.start = (.ok (.inl ()), c') ∧
        PutOff T call errorOf x c' ∧ (x.index + 1 < maxRetries ∨
          ∃ addr resp c, Answered T call x addr resp c ∧ errorOf resp = notController)) ∨
      (∃ resp c', controllerOnce T op call errorOf x.index x.carried x.start = (.ok (.inr resp), c') ∧
        Ended T op call errorOf x (maxRetries ≤ x.index + 1) (.ok resp, c')) ∨
      ∃ e c', controllerOnce T op call errorOf x.index x.carried x.start = (.error e, c') ∧
        Ended T op call errorOf x (maxRetries ≤ x.index + 1) (.error e, c') := by
  unfold controllerOnce
  rcases hfound : Cluster.controllerAddr T x.start with ⟨e | addr, c₁⟩
  · have hattempt : (Act.attempt (Cluster.controllerAddr T) : Act (Cluster ω) Error _) x.start =
        (.ok (.error e), c₁) := by rw [attempt_apply, hfound]
    rw [bind_of_ok hattempt]
    dsimp only
    by_cases hwait : e = .missing "a controller" ∧ x.index + 1 < maxRetries
    · rw [if_pos hwait]
      obtain ⟨c', hsleep, hmetadata⟩ := sleep_cases T backoff c₁
      rw [bind_of_ok hsleep]
      exact .inl ⟨c', rfl, .election c₁ (hwait.1 ▸ hfound) hmetadata, .inl hwait.2⟩
    · rw [if_neg hwait]
      exact .inr (.inr ⟨e, c₁, rfl, .unknown e c₁ hfound fun he =>
        Nat.not_lt.mp fun hleft => hwait ⟨he, hleft⟩⟩)
  · have hattempt : (Act.attempt (Cluster.controllerAddr T) : Act (Cluster ω) Error _) x.start =
        (.ok (.ok addr), c₁) := by rw [attempt_apply, hfound]
    rw [bind_of_ok hattempt]
    dsimp only
    rcases hcall : call addr c₁ with ⟨e | resp, c₂⟩
    · rw [bind_of_error hcall]
      exact .inr (.inr ⟨e, c₂, rfl, .failed addr e c₁ c₂ (finds_of_controllerAddr hfound) hcall⟩)
    · have hanswered : Answered T call x addr resp c₂ := ⟨c₁, finds_of_controllerAddr hfound, hcall⟩
      rw [bind_of_ok hcall]
      by_cases hok : (ErrorCode.mk (errorOf resp)).isOk
      · rw [if_pos hok]
        have hzero : errorOf resp = 0 := congrArg ErrorCode.code (ErrorCode.isOk_iff.mp hok)
        exact .inr (.inl ⟨resp, c₂, rfl, .done addr resp c₂ hanswered hzero⟩)
      · rw [if_neg hok]
        by_cases hmoved : errorOf resp = notController
        · rw [if_pos hmoved, bind_of_ok (modify_apply _ _)]
          obtain ⟨c', hsleep, hmetadata⟩ := sleep_cases T backoff c₂.invalidateController
          rw [bind_of_ok hsleep]
          exact .inl ⟨c', rfl, .moved addr resp c₂ hanswered hmoved (by rw [hmetadata]; rfl),
            .inr ⟨addr, resp, c₂, hanswered, hmoved⟩⟩
        · rw [if_neg hmoved]
          by_cases hbusy : (ErrorCode.mk (errorOf resp)).disposition = .retry ∧
              x.index + 1 < maxRetries
          · rw [if_pos hbusy]
            obtain ⟨c', hsleep, hmetadata⟩ := sleep_cases T backoff c₂
            rw [bind_of_ok hsleep]
            exact .inl ⟨c', rfl, .busy addr resp c₂ hanswered hbusy.1 hmetadata, .inl hbusy.2⟩
          · rw [if_neg hbusy]
            refine .inr (.inr ⟨_, c₂, rfl, .refused addr resp c₂ hanswered ?_ hmoved fun hretry =>
              Nat.not_lt.mp fun hleft => hbusy ⟨hretry, hleft⟩⟩)
            intro hzero
            exact hok (ErrorCode.isOk_iff.mpr (by rw [hzero]; rfl))

theorem Ended.mono {x : Attempt (Cluster ω) Unit} {spent spent' : Prop}
    {outcome : Except Error α × Cluster ω} (h : Ended T op call errorOf x spent outcome)
    (hspent : spent → spent') : Ended T op call errorOf x spent' outcome := by
  cases h with
  | done addr resp c h hcode => exact .done addr resp c h hcode
  | unknown e c h hleft => exact .unknown e c h fun he => hspent (hleft he)
  | failed addr e c₁ c hfound h => exact .failed addr e c₁ c hfound h
  | refused addr resp c h hcode hmoved hleft =>
      exact .refused addr resp c h hcode hmoved fun hretry => hspent (hleft hretry)
  | elsewhere addr resp c c' h hcode hleft => exact .elsewhere addr resp c c' h hcode (hspent hleft)

/-- The number of the last attempt. -/
theorem index_of_getLast? {β ε' : Type} {body : ℕ → β → Act (Cluster ω) ε' (β ⊕ α)}
    {left : ℕ} {b : β}
    {c : Cluster ω} {x : Attempt (Cluster ω) β} (h : (trail body left 0 b c).getLast? = some x) :
    x.index + 1 = (trail body left 0 b c).length := by
  rw [List.getLast?_eq_getElem?] at h
  have hpos := (List.getElem?_eq_some_iff.mp h).1
  have hat := index_of_trail h
  omega

/-- A call ends as its last attempt did. -/
theorem ended_controllerCall (T : Transport ω) (op : String)
    (call : String → Act (Cluster ω) Error α) (errorOf : α → ℤ) (c : Cluster ω) :
    ∃ last, (trail (controllerOnce T op call errorOf) maxRetries 0 () c).getLast? = some last ∧
      Ended T op call errorOf last
        ((trail (controllerOnce T op call errorOf) maxRetries 0 () c).length = maxRetries)
        (controllerCall T op call errorOf c) := by
  have hlength := @length_trail_le _ _ _ _ (controllerOnce T op call errorOf) maxRetries 0 () c
  obtain ⟨x, hx, hlast⟩ := @trail_last _ _ _ _ (controllerOnce T op call errorOf)
    (fun _ => throw (.broker op notController .retry)) 19 0 () c
  have hindex : x.index + 1 = (trail (controllerOnce T op call errorOf) maxRetries 0 () c).length :=
    index_of_getLast? hx
  refine ⟨x, hx, ?_⟩
  have hspent : maxRetries ≤ x.index + 1 →
      (trail (controllerOnce T op call errorOf) maxRetries 0 () c).length = maxRetries :=
    fun hleft => Nat.le_antisymm hlength (hindex ▸ hleft)
  obtain ⟨c', hbody, -, hmore⟩ | ⟨resp, c', hbody, hended⟩ | ⟨e, c', hbody, hended⟩ :=
    controllerOnce_cases T op call errorOf x
  · obtain ⟨e, s', hx', -⟩ | ⟨a, s', hx', -⟩ | ⟨b', s', hx', hresult, hall⟩ := hlast
    · rw [hbody] at hx'
      cases hx'
    · rw [hbody] at hx'
      cases hx'
    · -- the last attempt asks for another only if the controller had moved
      have hall : x.index + 1 = maxRetries := hindex.trans hall
      obtain hless | ⟨addr, resp, c₁, hanswered, hcode⟩ := hmore
      · exact absurd hall (Nat.ne_of_lt hless)
      · have hcall : controllerCall T op call errorOf c =
            (.error (.broker op notController .retry), s') :=
          hresult
        rw [hcall]
        exact .elsewhere addr resp c₁ s' hanswered hcode (hspent hall.ge)
  · obtain ⟨e, s', hx', -⟩ | ⟨a, s', hx', hresult⟩ | ⟨b', s', hx', -⟩ := hlast
    · rw [hbody] at hx'
      cases hx'
    · rw [hbody] at hx'
      cases hx'
      have hcall : controllerCall T op call errorOf c = (.ok resp, c') := hresult
      rw [hcall]
      exact hended.mono hspent
    · rw [hbody] at hx'
      cases hx'
  · obtain ⟨e', s', hx', hresult⟩ | ⟨a, s', hx', -⟩ | ⟨b', s', hx', -⟩ := hlast
    · rw [hbody] at hx'
      cases hx'
      have hcall : controllerCall T op call errorOf c = (.error e, c') := hresult
      rw [hcall]
      exact hended.mono hspent
    · rw [hbody] at hx'
      cases hx'
    · rw [hbody] at hx'
      cases hx'

/-- **Every call to the controller is accounted for.** There are at most twenty attempts. Every
one but the last was put off: there was no controller, or the answer was to try again, or it
came from a broker that is not the controller, and then the next attempt reads the metadata
afresh. The call ends as its last attempt did. -/
theorem controllerCall_rounds (T : Transport ω) (op : String) (call : String → Act (Cluster ω) Error α)
    (errorOf : α → ℤ) (c : Cluster ω) :
    (trail (controllerOnce T op call errorOf) maxRetries 0 () c).length ≤ maxRetries ∧
      (∀ k x y, (trail (controllerOnce T op call errorOf) maxRetries 0 () c)[k]? = some x →
        (trail (controllerOnce T op call errorOf) maxRetries 0 () c)[k + 1]? = some y →
          PutOff T call errorOf x y.start) ∧
      ∃ last, (trail (controllerOnce T op call errorOf) maxRetries 0 () c).getLast? = some last ∧
        Ended T op call errorOf last
          ((trail (controllerOnce T op call errorOf) maxRetries 0 () c).length = maxRetries)
          (controllerCall T op call errorOf c) := by
  have hlength := @length_trail_le _ _ _ _ (controllerOnce T op call errorOf) maxRetries 0 () c
  refine ⟨hlength, fun k x y hx hy => ?_, ?_⟩
  · have hnext := trail_next hx hy
    obtain ⟨c', hbody, hputOff, -⟩ | ⟨resp, c', hbody, -⟩ | ⟨e, c', hbody, -⟩ :=
      controllerOnce_cases T op call errorOf x
    · rw [hbody] at hnext
      cases hnext
      exact hputOff
    · rw [hbody] at hnext
      cases hnext
    · rw [hbody] at hnext
      cases hnext
  · exact ended_controllerCall T op call errorOf c

end Controller

/-! ### Waiting for a topic to be usable -/

section Waiting

variable {T}

/-- One look: the metadata shows the partitions, or it does not and there is another look or
none left. -/
theorem awaitOnce_cases (T : Transport ω) (topic : String) (count : ℤ)
    (x : Attempt (Cluster ω) Unit) :
    (∃ c', awaitOnce T topic count x.index x.carried x.start = (.ok (.inr ()), c') ∧
        count ≤ c'.metadata.partitionCount topic) ∨
      (∃ c', awaitOnce T topic count x.index x.carried x.start = (.ok (.inl ()), c') ∧
        c'.metadata.partitionCount topic < count ∧ x.index + 1 ≠ maxRetries) ∨
      ∃ c', awaitOnce T topic count x.index x.carried x.start = (.error (.noLeader topic (-1)), c') ∧
        c'.metadata.partitionCount topic < count ∧ x.index + 1 = maxRetries := by
  unfold awaitOnce
  rw [bind_of_ok (attempt_apply _ _), bind_of_ok (get_apply _)]
  by_cases hseen : count ≤ (Cluster.refreshMetadata T topic x.start).2.metadata.partitionCount topic
  · rw [if_pos hseen]
    exact .inl ⟨_, rfl, hseen⟩
  · rw [if_neg hseen]
    by_cases hlast : x.index + 1 = maxRetries
    · rw [if_pos hlast]
      exact .inr (.inr ⟨_, rfl, Int.not_le.mp hseen, hlast⟩)
    · rw [if_neg hlast]
      obtain ⟨c', hsleep, hmetadata⟩ :=
        sleep_cases T backoff (Cluster.refreshMetadata T topic x.start).2
      rw [bind_of_ok hsleep]
      exact .inr (.inl ⟨c', rfl, by rw [hmetadata]; exact Int.not_le.mp hseen, hlast⟩)

/-- A wait ends with the partitions in the metadata, or after twenty looks that did not show
them. -/
theorem awaitPartitions_cases (T : Transport ω) (topic : String) (count : ℤ) (c : Cluster ω) :
    (∃ c', awaitPartitions T topic count c = (.ok (), c') ∧
        count ≤ c'.metadata.partitionCount topic) ∨
      ∃ c', awaitPartitions T topic count c = (.error (.noLeader topic (-1)), c') ∧
        c'.metadata.partitionCount topic < count ∧
        (trail (awaitOnce T topic count) maxRetries 0 () c).length = maxRetries := by
  obtain ⟨x, hx, hlast⟩ := @trail_last _ _ _ _ (awaitOnce T topic count) (fun _ => pure ()) 19 0 () c
  have hindex := index_of_getLast? hx
  have hlooks : trail (awaitOnce T topic count) maxRetries 0 () c =
    trail (awaitOnce T topic count) (19 + 1) 0 () c := rfl
  obtain ⟨c', hbody, hseen⟩ | ⟨c', hbody, -, hmore⟩ | ⟨c', hbody, hmissed, hspent⟩ :=
    awaitOnce_cases T topic count x
  · obtain ⟨e, s', hx', -⟩ | ⟨a, s', hx', hresult⟩ | ⟨b', s', hx', -⟩ := hlast
    · rw [hbody] at hx'
      cases hx'
    · rw [hbody] at hx'
      cases hx'
      exact .inl ⟨c', hresult, hseen⟩
    · rw [hbody] at hx'
      cases hx'
  · obtain ⟨e, s', hx', -⟩ | ⟨a, s', hx', -⟩ | ⟨b', s', hx', -, hall⟩ := hlast
    · rw [hbody] at hx'
      cases hx'
    · rw [hbody] at hx'
      cases hx'
    · rw [hall] at hindex
      exact absurd hindex hmore
  · obtain ⟨e, s', hx', hresult⟩ | ⟨a, s', hx', -⟩ | ⟨b', s', hx', -⟩ := hlast
    · rw [hbody] at hx'
      cases hx'
      exact .inr ⟨c', hresult, hmissed, by rw [hlooks, ← hindex, hspent]⟩
    · rw [hbody] at hx'
      cases hx'
    · rw [hbody] at hx'
      cases hx'

/-- The topics are looked for in turn: each is found with its partitions in the state in which
the look for the next one starts, up to one that is not found in twenty looks. -/
inductive Awaited (T : Transport ω) :
    List NewTopic → Cluster ω → Except Error Unit × Cluster ω → Prop
  | done (c : Cluster ω) : Awaited T [] c (.ok (), c)
  | seen {topic : NewTopic} {topics : List NewTopic} {c c₁ : Cluster ω}
      {outcome : Except Error Unit × Cluster ω}
      (h : awaitPartitions T topic.name topic.partitions c = (.ok (), c₁))
      (hseen : topic.partitions ≤ c₁.metadata.partitionCount topic.name)
      (hrest : Awaited T topics c₁ outcome) : Awaited T (topic :: topics) c outcome
  | missed {topic : NewTopic} {topics : List NewTopic} {c c₁ : Cluster ω}
      (hmissed : c₁.metadata.partitionCount topic.name < topic.partitions)
      (hlooks : (trail (awaitOnce T topic.name topic.partitions) maxRetries 0 () c).length =
        maxRetries) : Awaited T (topic :: topics) c (.error (.noLeader topic.name (-1)), c₁)

theorem awaited_awaitTopics (T : Transport ω) : ∀ (topics : List NewTopic) (c : Cluster ω),
    Awaited T topics c (awaitTopics T topics c)
  | [], c => .done c
  | topic :: topics, c => by
      rw [awaitTopics]
      obtain ⟨c₁, hwait, hseen⟩ | ⟨c₁, hwait, hmissed, hlooks⟩ :=
        awaitPartitions_cases T topic.name topic.partitions c
      · rw [bind_of_ok hwait]
        exact .seen hwait hseen (awaited_awaitTopics T topics c₁)
      · rw [bind_of_error hwait]
        exact .missed hmissed hlooks

theorem eq_zero_of_firstError {codes : List ℤ} (h : firstError codes = 0) :
    ∀ code ∈ codes, code = 0 := by
  rw [firstError] at h
  rcases hfind : codes.find? (· ≠ 0) with _ | code
  · intro code hcode
    have hzero := List.find?_eq_none.mp hfind code hcode
    simpa using hzero
  · rw [hfind, Option.getD_some] at h
    have hne := List.find?_some hfind
    simp [h] at hne

end Waiting

/-! ### Describing a topic -/

section Describing

/-- An attempt was answered so about the topic. -/
def Told (calls : AdminCalls ω) (topic : String) (x : Attempt (Cluster ω) Unit)
    (resp : List DescribeConfigsResult) (c : Cluster ω) : Prop :=
  calls.describeConfigs 4 ⟨[⟨2, topic, none⟩], false, false⟩ x.start = (.ok resp, c)

/-- The broker that was asked does not know the topic yet, which is no reason to look for
another broker: the next attempt starts from the same metadata. -/
def NotYet (calls : AdminCalls ω) (topic : String) (x : Attempt (Cluster ω) Unit)
    (next : Cluster ω) : Prop :=
  ∃ first rest c, Told calls topic x (first :: rest) c ∧
    (ErrorCode.mk first.errorCode).disposition = .refreshMetadata ∧ next.metadata = c.metadata

/-- What a description ends in after its last attempt, when `spent` says that it was the last
there could be. -/
inductive Describes (calls : AdminCalls ω) (topic : String) (x : Attempt (Cluster ω) Unit)
    (spent : Prop) : Except Error (Std.TreeMap String (Option String)) × Cluster ω → Prop
  | failed (e : Error) (c : Cluster ω)
      (h : calls.describeConfigs 4 ⟨[⟨2, topic, none⟩], false, false⟩ x.start = (.error e, c)) :
      Describes calls topic x spent (.error e, c)
  | nothing (c : Cluster ω) (h : Told calls topic x [] c) :
      Describes calls topic x spent (.error (.missing "a resource"), c)
  | read (first : DescribeConfigsResult) (rest : List DescribeConfigsResult) (c : Cluster ω)
      (h : Told calls topic x (first :: rest) c)
      (hspent : (ErrorCode.mk first.errorCode).disposition = .refreshMetadata → spent) :
      Describes calls topic x spent (readConfigs (first :: rest) ∅, c)

theorem Describes.mono {calls : AdminCalls ω} {topic : String} {x : Attempt (Cluster ω) Unit}
    {spent spent' : Prop} {r : Except Error (Std.TreeMap String (Option String)) × Cluster ω}
    (h : Describes calls topic x spent r) (hspent : spent → spent') :
    Describes calls topic x spent' r := by
  cases h with
  | failed e c h => exact .failed e c h
  | nothing c h => exact .nothing c h
  | read first rest c h hleft => exact .read first rest c h fun hrefresh => hspent (hleft hrefresh)

theorem describeOnce_cases (T : Transport ω) (calls : AdminCalls ω) (topic : String)
    (x : Attempt (Cluster ω) Unit) :
    (∃ c', describeOnce T calls topic x.index x.carried x.start = (.ok (.inl ()), c') ∧
        NotYet calls topic x c' ∧ x.index + 1 < maxRetries) ∨
      (∃ out c', describeOnce T calls topic x.index x.carried x.start = (.ok (.inr out), c') ∧
        Describes calls topic x (maxRetries ≤ x.index + 1) (.ok out, c')) ∨
      ∃ e c', describeOnce T calls topic x.index x.carried x.start = (.error e, c') ∧
        Describes calls topic x (maxRetries ≤ x.index + 1) (.error e, c') := by
  unfold describeOnce
  rcases hcall : calls.describeConfigs 4 ⟨[⟨2, topic, none⟩], false, false⟩ x.start with
    ⟨e | _ | ⟨first, rest⟩, c⟩
  · rw [bind_of_error hcall]
    exact .inr (.inr ⟨e, c, rfl, .failed e c hcall⟩)
  · rw [bind_of_ok hcall]
    exact .inr (.inr ⟨_, c, rfl, .nothing c hcall⟩)
  · rw [bind_of_ok hcall]
    dsimp only
    by_cases hwait : !(ErrorCode.mk first.errorCode).isOk ∧
        (ErrorCode.mk first.errorCode).disposition = .refreshMetadata ∧ x.index + 1 < maxRetries
    · rw [if_pos hwait]
      obtain ⟨c', hsleep, hmetadata⟩ := sleep_cases T backoff c
      rw [bind_of_ok hsleep]
      exact .inl ⟨c', rfl, ⟨first, rest, c, hcall, hwait.2.1, hmetadata⟩, hwait.2.2⟩
    · rw [if_neg hwait]
      have hspent : (ErrorCode.mk first.errorCode).disposition = .refreshMetadata →
          maxRetries ≤ x.index + 1 := by
        intro hrefresh
        by_contra hleft
        refine hwait ⟨?_, hrefresh, Nat.not_le.mp hleft⟩
        -- a code that asks for the metadata is no success
        rw [Bool.not_eq_true', ← Bool.not_eq_true]
        intro hok
        rw [ErrorCode.isOk_iff.mp hok] at hrefresh
        exact absurd hrefresh (by decide)
      have hread : Describes calls topic x (maxRetries ≤ x.index + 1)
          (readConfigs (first :: rest) ∅, c) := .read first rest c hcall hspent
      rcases hconfigs : readConfigs (first :: rest) ∅ with e | out
      · rw [hconfigs] at hread
        exact .inr (.inr ⟨e, c, rfl, hread⟩)
      · rw [hconfigs] at hread
        exact .inr (.inl ⟨out, c, rfl, hread⟩)

/-- **A topic that is not there yet is asked about again, and not for ever.** There are at most
twenty attempts, and all but the last were answered by a broker that did not know the topic.
The description ends as the last attempt did: nothing is left for after the loop. -/
theorem describeTopicConfig_rounds (T : Transport ω) (calls : AdminCalls ω) (topic : String)
    (a : Admin ω) :
    (trail (describeOnce T calls topic) maxRetries 0 () a.cluster).length ≤ maxRetries ∧
      (∀ k x y, (trail (describeOnce T calls topic) maxRetries 0 () a.cluster)[k]? = some x →
        (trail (describeOnce T calls topic) maxRetries 0 () a.cluster)[k + 1]? = some y →
          NotYet calls topic x y.start) ∧
      ∃ last result c',
        (trail (describeOnce T calls topic) maxRetries 0 () a.cluster).getLast? = some last ∧
          Describes calls topic last
            ((trail (describeOnce T calls topic) maxRetries 0 () a.cluster).length = maxRetries)
            (result, c') ∧
          describeTopicConfig T calls topic a = (result, { a with cluster := c' }) := by
  have hlength := @length_trail_le _ _ _ _ (describeOnce T calls topic) maxRetries 0 () a.cluster
  refine ⟨hlength, fun k x y hx hy => ?_, ?_⟩
  · have hnext := trail_next hx hy
    obtain ⟨c', hbody, hnotYet, -⟩ | ⟨out, c', hbody, -⟩ | ⟨e, c', hbody, -⟩ :=
      describeOnce_cases T calls topic x
    · rw [hbody] at hnext
      cases hnext
      exact hnotYet
    · rw [hbody] at hnext
      cases hnext
    · rw [hbody] at hnext
      cases hnext
  · obtain ⟨x, hx, hlast⟩ := @trail_last _ _ _ _ (describeOnce T calls topic)
      (fun _ => throw (.missing "a resource")) 19 0 () a.cluster
    have hindex : x.index + 1 =
        (trail (describeOnce T calls topic) maxRetries 0 () a.cluster).length :=
      index_of_getLast? hx
    have hspent : maxRetries ≤ x.index + 1 →
        (trail (describeOnce T calls topic) maxRetries 0 () a.cluster).length = maxRetries :=
      fun hleft => Nat.le_antisymm hlength (hindex ▸ hleft)
    have hcall : ∀ outcome, attempts (describeOnce T calls topic)
        (fun _ => throw (.missing "a resource")) (19 + 1) 0 () a.cluster = outcome →
          describeTopicConfig T calls topic a = (outcome.1, { a with cluster := outcome.2 }) := by
      rintro _ rfl
      rfl
    obtain ⟨c', hbody, -, hleft⟩ | ⟨out, c', hbody, hends⟩ | ⟨e, c', hbody, hends⟩ :=
      describeOnce_cases T calls topic x
    · obtain ⟨e, s', hx', -⟩ | ⟨out, s', hx', -⟩ | ⟨b', s', hx', -, hall⟩ := hlast
      · rw [hbody] at hx'
        cases hx'
      · rw [hbody] at hx'
        cases hx'
      · -- the twentieth attempt does not ask for another
        exact absurd (hindex.trans hall) (Nat.ne_of_lt hleft)
    · obtain ⟨e, s', hx', -⟩ | ⟨out', s', hx', hresult⟩ | ⟨b', s', hx', -⟩ := hlast
      · rw [hbody] at hx'
        cases hx'
      · rw [hbody] at hx'
        cases hx'
        exact ⟨x, .ok out, c', hx, hends.mono hspent, hcall _ hresult⟩
      · rw [hbody] at hx'
        cases hx'
    · obtain ⟨e', s', hx', hresult⟩ | ⟨out, s', hx', -⟩ | ⟨b', s', hx', -⟩ := hlast
      · rw [hbody] at hx'
        cases hx'
        exact ⟨x, .error e, c', hx, hends.mono hspent, hcall _ hresult⟩
      · rw [hbody] at hx'
        cases hx'
      · rw [hbody] at hx'
        cases hx'

end Describing

/-! ### What becomes of a trim -/

/-- Partitions and the leaders they are found to have, one after the other. -/
inductive Led (T : Transport ω) :
    List ((TopicPartition × ℤ) × String) → Cluster ω → Cluster ω → Prop
  | nil (c : Cluster ω) : Led T [] c c
  | cons {tp : TopicPartition} {offset : ℤ} {addr : String} {c c₁ c' : Cluster ω}
      {asked : List ((TopicPartition × ℤ) × String)}
      (h : Cluster.leaderAddr T tp c = (.ok addr, c₁)) (hrest : Led T asked c₁ c') :
      Led T (((tp, offset), addr) :: asked) c c'

/-- The requests `sent` ask every partition of its leader, once, and every leader once. -/
structure Shares (timeoutMs : ℤ) (asked : List ((TopicPartition × ℤ) × String))
    (sent : List (String × DeleteRecordsRequest)) : Prop where
  timeout : ∀ x ∈ sent, x.2.timeoutMs = timeoutMs
  partitions : (sent.flatMap fun x => (flatten x.2.topics).map fun w => (w, x.1)).Perm asked
  leaders : sent.Pairwise fun x y => compare x.1 y.1 = .lt

/-- Requests that are answered, one after the other. -/
inductive Replied (calls : AdminCalls ω) :
    List (String × DeleteRecordsRequest) → List DeleteRecordsResponse → Cluster ω → Cluster ω → Prop
  | nil (c : Cluster ω) : Replied calls [] [] c c
  | cons {addr : String} {req : DeleteRecordsRequest} {resp : DeleteRecordsResponse}
      {c c₁ c' : Cluster ω} {sent : List (String × DeleteRecordsRequest)}
      {resps : List DeleteRecordsResponse}
      (h : calls.deleteRecords addr 2 req c = (.ok resp, c₁)) (hrest : Replied calls sent resps c₁ c') :
      Replied calls ((addr, req) :: sent) (resp :: resps) c c'

def Accepted (resp : DeleteRecordsResponse) : Prop := ∀ r ∈ resultsOf resp, r.2.errorCode = 0

/-- What `resps` add to the log starts `out`. -/
def noted (resps : List DeleteRecordsResponse) (out : PartitionMap ℤ) : PartitionMap ℤ :=
  (resps.flatMap resultsOf).foldl (fun out r => out.insert r.1 r.2.lowWatermark) out

/-- How the requests of a trim end: with the new start of every log that was answered for; at
the first partition that is refused; or at the first request that fails. What comes behind
it is not sent. -/
inductive Trim (calls : AdminCalls ω) (sent : List (String × DeleteRecordsRequest))
    (out : PartitionMap ℤ) (c : Cluster ω) : Except Error (PartitionMap ℤ) × Cluster ω → Prop
  | done (resps : List DeleteRecordsResponse) (c' : Cluster ω) (h : Replied calls sent resps c c')
      (haccepted : ∀ resp ∈ resps, Accepted resp) : Trim calls sent out c (.ok (noted resps out), c')
  | refused (now later : List (String × DeleteRecordsRequest)) (resps : List DeleteRecordsResponse)
      (resp : DeleteRecordsResponse) (c' : Cluster ω) (hsent : sent = now ++ later)
      (h : Replied calls now (resps ++ [resp]) c c') (haccepted : ∀ resp ∈ resps, Accepted resp)
      (before after : List (TopicPartition × DeleteRecordsPartitionResult))
      (r : TopicPartition × DeleteRecordsPartitionResult)
      (hresults : resultsOf resp = before ++ r :: after) (hbefore : ∀ b ∈ before, b.2.errorCode = 0)
      (hcode : r.2.errorCode ≠ 0) : Trim calls sent out c (.error (.broker "DeleteRecords"
        r.2.errorCode (ErrorCode.mk r.2.errorCode).disposition), c')
  | failed (now later : List (String × DeleteRecordsRequest)) (addr : String)
      (req : DeleteRecordsRequest) (resps : List DeleteRecordsResponse) (e : Error)
      (c₁ c' : Cluster ω) (hsent : sent = now ++ (addr, req) :: later)
      (h : Replied calls now resps c c₁) (haccepted : ∀ resp ∈ resps, Accepted resp)
      (hcall : calls.deleteRecords addr 2 req c₁ = (.error e, c')) : Trim calls sent out c (.error e, c')

variable {T calls}

theorem readStarts_cases (results : List (TopicPartition × DeleteRecordsPartitionResult))
    (out : PartitionMap ℤ) :
    ((∀ r ∈ results, r.2.errorCode = 0) ∧ readStarts results out =
        .ok (results.foldl (fun out r => out.insert r.1 r.2.lowWatermark) out)) ∨
      ∃ before after r, results = before ++ r :: after ∧ (∀ b ∈ before, b.2.errorCode = 0) ∧
        r.2.errorCode ≠ 0 ∧ readStarts results out = .error (.broker "DeleteRecords" r.2.errorCode
          (ErrorCode.mk r.2.errorCode).disposition) := by
  induction results generalizing out with
  | nil => exact .inl ⟨by simp, rfl⟩
  | cons r results ih =>
      rw [readStarts, check]
      by_cases hcode : r.2.errorCode = 0
      · have hok : (ErrorCode.mk r.2.errorCode).isOk := ErrorCode.isOk_iff.mpr (by rw [hcode]; rfl)
        rw [if_pos hok]
        obtain ⟨hall, hread⟩ | ⟨before, after, r', rfl, hbefore, hr', hread⟩ :=
          ih (out.insert r.1 r.2.lowWatermark)
        · exact .inl ⟨by simpa [hcode] using hall, hread⟩
        · exact .inr ⟨r :: before, after, r', rfl, by simpa [hcode] using hbefore, hr', hread⟩
      · have hok : ¬(ErrorCode.mk r.2.errorCode).isOk :=
          fun h => hcode (congrArg ErrorCode.code (ErrorCode.isOk_iff.mp h))
        rw [if_neg hok]
        exact .inr ⟨[], results, r, rfl, by simp, hcode, rfl⟩

theorem noted_cons (resp : DeleteRecordsResponse) (resps : List DeleteRecordsResponse)
    (out : PartitionMap ℤ) : noted (resp :: resps) out = noted resps (noted [resp] out) := by
  rw [noted, noted, noted, List.flatMap_cons, List.foldl_append, List.flatMap_singleton]

/-- One more request in front, whose answer was accepted. -/
theorem Trim.cons {addr : String} {req : DeleteRecordsRequest} {resp : DeleteRecordsResponse}
    {sent : List (String × DeleteRecordsRequest)} {out : PartitionMap ℤ} {c c₁ : Cluster ω}
    {outcome : Except Error (PartitionMap ℤ) × Cluster ω}
    (hcall : calls.deleteRecords addr 2 req c = (.ok resp, c₁)) (hresp : Accepted resp)
    (h : Trim calls sent (noted [resp] out) c₁ outcome) :
    Trim calls ((addr, req) :: sent) out c outcome := by
  have hmore {resps : List DeleteRecordsResponse} (haccepted : ∀ resp ∈ resps, Accepted resp) :
      ∀ resp' ∈ resp :: resps, Accepted resp' := by
    simpa using ⟨hresp, haccepted⟩
  cases h with
  | done resps c' h haccepted =>
      rw [← noted_cons]
      exact .done (resp :: resps) c' (.cons hcall h) (hmore haccepted)
  | refused now later resps last c' hsent h haccepted before after r hresults hbefore hcode =>
      exact .refused ((addr, req) :: now) later (resp :: resps) last c' (by rw [hsent]; rfl)
        (.cons hcall h) (hmore haccepted) before after r hresults hbefore hcode
  | failed now later addr' req' resps e c₂ c' hsent h haccepted hfailed =>
      exact .failed ((addr, req) :: now) later addr' req' (resp :: resps) e c₂ c' (by rw [hsent]; rfl)
        (.cons hcall h) (hmore haccepted) hfailed

/-- The requests to the leaders of `groups`. -/
def requests (timeoutMs : ℤ) (groups : List (String × List (TopicPartition × ℤ))) :
    List (String × DeleteRecordsRequest) :=
  groups.map fun e => (e.1, ⟨timeoutMs, Producer.byTopic e.2⟩)

theorem trim_deleteGroups (timeoutMs : ℤ) : ∀ (groups : List (String × List (TopicPartition × ℤ)))
    (out : PartitionMap ℤ) (c : Cluster ω), Trim calls (requests timeoutMs groups) out c
      (deleteGroups calls timeoutMs groups out c)
  | [], out, c => .done [] c (.nil c) (by simp)
  | (addr, group) :: groups, out, c => by
      rw [deleteGroups]
      rcases hcall : calls.deleteRecords addr 2 ⟨timeoutMs, Producer.byTopic group⟩ c with
        ⟨e | resp, c₁⟩
      · rw [bind_of_error hcall]
        exact .failed [] (requests timeoutMs groups) addr _ [] e c c₁ rfl (.nil c) (by simp) hcall
      · rw [bind_of_ok hcall]
        obtain ⟨hall, hread⟩ | ⟨before, after, r, hresults, hbefore, hr, hread⟩ :=
          readStarts_cases (resultsOf resp) out
        · rw [hread, bind_of_ok (ofExcept_apply _ _)]
          refine Trim.cons hcall hall ?_
          rw [noted, List.flatMap_singleton]
          exact trim_deleteGroups timeoutMs groups _ c₁
        · rw [hread, bind_of_error (ofExcept_apply _ _)]
          exact .refused [(addr, _)] (requests timeoutMs groups) [] resp c₁ rfl
            (.cons hcall (.nil c₁)) (by simp) before after r hresults hbefore hr

theorem led_of_byLeader : ∀ {before : List (TopicPartition × ℤ)}
    {groups groups' : Std.TreeMap String (List (TopicPartition × ℤ))} {c c' : Cluster ω},
    byLeader T before groups c = (.ok groups', c') → ∃ asked, asked.map Prod.fst = before ∧
      Led T asked c c' ∧
      groups' = asked.foldl (fun m x => m.insert x.2 (m.getD x.2 [] ++ [x.1])) groups
  | [], _, _, c, _, h => by
      cases h
      exact ⟨[], rfl, .nil c, rfl⟩
  | (tp, offset) :: before, groups, groups', c, c', h => by
      rw [byLeader] at h
      obtain ⟨addr, c₁, hleader, h⟩ := bind_eq_ok h
      obtain ⟨asked, hasked, hled, hgroups⟩ := led_of_byLeader h
      exact ⟨((tp, offset), addr) :: asked, by rw [List.map_cons, hasked], .cons hleader hled, hgroups⟩

theorem shares_requests (timeoutMs : ℤ) (asked : List ((TopicPartition × ℤ) × String)) :
    Shares timeoutMs asked (requests timeoutMs (asked.foldl
      (fun (m : Std.TreeMap String (List (TopicPartition × ℤ))) x =>
        m.insert x.2 (m.getD x.2 [] ++ [x.1])) ∅).toList) := by
  refine ⟨fun x hx => ?_, ?_, ?_⟩
  · obtain ⟨e, -, rfl⟩ := List.mem_map.mp hx
    rfl
  · have hall := gathered_foldl_perm
      (fun (addr : String) (w : TopicPartition × ℤ) => (w, addr)) Prod.snd Prod.fst asked ∅
    rw [gathered_empty, List.nil_append, List.map_id'] at hall
    rw [requests, List.flatMap_map]
    exact (List.Perm.flatMap_left _ fun e _ => (flatten_byTopic_perm e.2).map _).trans hall
  · rw [requests, List.pairwise_map]
    exact Std.TreeMap.ordered_keys_toList

/-- **A trim asks every leader for its partitions.** If a leader is not found, nothing is
sent. Otherwise every partition is asked about once, at the leader that it was found to
have, with its offset, and no leader is asked twice. -/
theorem deleteRecords_accounted (T : Transport ω) (calls : AdminCalls ω)
    (before : List (TopicPartition × ℤ)) (a : Admin ω) :
    (∃ e c', byLeader T before ∅ a.cluster = (.error e, c') ∧
        deleteRecords T calls before a = (.error e, { a with cluster := c' })) ∨
      ∃ asked c₁ sent result c', asked.map Prod.fst = before ∧ Led T asked a.cluster c₁ ∧
        Shares a.timeoutMs asked sent ∧ Trim calls sent ∅ c₁ (result, c') ∧
        deleteRecords T calls before a = (result, { a with cluster := c' }) := by
  rw [deleteRecords]
  by_cases hempty : before = []
  · subst hempty
    rw [if_pos rfl]
    exact .inr ⟨[], a.cluster, [], _, _, rfl, .nil _, ⟨by simp, .refl _, .nil⟩,
      .done [] _ (.nil _) (by simp), rfl⟩
  · rw [if_neg hempty, bind_of_ok (get_apply _)]
    rcases hgroups : byLeader T before ∅ a.cluster with ⟨e | groups, c₁⟩
    · have hfirst : (onCluster (byLeader T before ∅) : Act (Admin ω) Error _) a =
          (.error e, { a with cluster := c₁ }) := by rw [onCluster, zoom_apply, hgroups]
      rw [bind_of_error hfirst]
      exact .inl ⟨e, c₁, rfl, rfl⟩
    · have hfirst : (onCluster (byLeader T before ∅) : Act (Admin ω) Error _) a =
          (.ok groups, { a with cluster := c₁ }) := by rw [onCluster, zoom_apply, hgroups]
      obtain ⟨asked, hasked, hled, hfold⟩ := led_of_byLeader hgroups
      have hshares := shares_requests a.timeoutMs asked
      rw [← hfold] at hshares
      rw [bind_of_ok hfirst]
      exact .inr ⟨asked, c₁, _, _, _, hasked, hled, hshares,
        trim_deleteGroups a.timeoutMs groups.toList ∅ c₁, rfl⟩

end Admin

end Barnabas.Client
