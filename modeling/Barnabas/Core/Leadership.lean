import Barnabas.Core.Metadata
import Barnabas.Lib.Register

/-!
The cluster map as a set of registers.

An operation on the map is read as the notices it gives, in the order the source reads
them: who the controller is, where a broker is, how many partitions a topic has, who
leads one of them. Each answer of the map is then a register of these notices, or the
one register read through the other, and so it is told by the last notice about it.
-/

namespace Barnabas.Core

open Barnabas.Lib

/-- What can happen to the cluster map, its controller included. -/
inductive ClusterOp
  | map (op : MetadataOp)
  | invalidateController

def ClusterOp.step (metadata : Metadata) : ClusterOp → Metadata
  | map op => op.step metadata
  | invalidateController => metadata.invalidateController

/-- One thing an operation says. -/
inductive Notice
  | controllerIs (node : ℤ)
  | controllerUnknown
  | brokerAt (broker : BrokerAddr)
  | partitions (topic : String) (count : ℤ)
  | leads (node : ℤ) (tp : TopicPartition)
  | leaderUnknown (tp : TopicPartition)
  | gone (topic : String)
  deriving DecidableEq, Repr

/-! ### What an operation says -/

/-- An entry that carries an error or names no leader says nothing. -/
def PartitionMetadata.notice (topic : String) (p : PartitionMetadata) : Option Notice :=
  if p.errorCode = 0 ∧ 0 ≤ p.leaderId then some (.leads p.leaderId ⟨topic, p.partitionIndex⟩)
  else none

/-- Nor does a topic that carries an error or has no name. -/
def TopicMetadata.notices (topic : TopicMetadata) : List Notice :=
  if topic.errorCode ≠ 0 then []
  else
    match topic.name with
    | none => []
    | some name =>
        .partitions name (min (topic.partitions.length : ℤ) i32Max) ::
          topic.partitions.filterMap (·.notice name)

def MetadataResponse.notices (resp : MetadataResponse) : List Notice :=
  (if 0 ≤ resp.controllerId then [.controllerIs resp.controllerId] else []) ++
    resp.brokers.map .brokerAt ++ resp.topics.flatMap (·.notices)

def ClusterOp.notices : ClusterOp → List Notice
  | map (.update resp) => resp.notices
  | map (.invalidatePartition tp) => [.leaderUnknown tp]
  | map (.forgetTopic topic) => [.gone topic]
  | invalidateController => [.controllerUnknown]

/-! ### The registers -/

namespace Notice

def onController : Notice → Effect ℤ
  | controllerIs node => .write node
  | controllerUnknown => .clear
  | _ => .leave

def onBroker (node : ℤ) : Notice → Effect BrokerAddr
  | brokerAt broker => if broker.nodeId = node then .write broker else .leave
  | _ => .leave

def onCount (topic : String) : Notice → Effect ℤ
  | partitions topic' count => if topic' = topic then .write count else .leave
  | gone topic' => if topic' = topic then .clear else .leave
  | _ => .leave

def onLeader (tp : TopicPartition) : Notice → Effect ℤ
  | leads node tp' => if tp' = tp then .write node else .leave
  | leaderUnknown tp' => if tp' = tp then .clear else .leave
  | gone topic => if tp.topic = topic then .clear else .leave
  | _ => .leave

/-- Take a notice down. -/
def record (metadata : Metadata) : Notice → Metadata
  | controllerIs node => { metadata with controller := some node }
  | controllerUnknown => { metadata with controller := none }
  | brokerAt broker =>
      { metadata with brokers := metadata.brokers.insert broker.nodeId broker }
  | partitions topic count =>
      { metadata with partitionCounts := metadata.partitionCounts.insert topic count }
  | leads node tp => { metadata with leaders := metadata.leaders.insert tp node }
  | leaderUnknown tp => metadata.invalidatePartition tp
  | gone topic => metadata.forgetTopic topic

theorem controller_record (metadata : Metadata) (notice : Notice) :
    (record metadata notice).controller = notice.onController.apply metadata.controller := by
  cases notice <;> rfl

theorem broker_record (node : ℤ) (metadata : Metadata) (notice : Notice) :
    (record metadata notice).brokers[node]? =
      (notice.onBroker node).apply metadata.brokers[node]? := by
  cases notice with
  | brokerAt broker =>
      by_cases h : broker.nodeId = node
      · simp [record, onBroker, h]
      · simp [record, onBroker, h, Std.TreeMap.getElem?_insert]
  | controllerIs _ | controllerUnknown | partitions _ _ | leads _ _ | leaderUnknown _ | gone _ => rfl

theorem count_record (topic : String) (metadata : Metadata) (notice : Notice) :
    (record metadata notice).partitionCounts[topic]? =
      (notice.onCount topic).apply metadata.partitionCounts[topic]? := by
  cases notice with
  | partitions topic' count =>
      by_cases h : topic' = topic
      · simp [record, onCount, h]
      · simp [record, onCount, h, Std.TreeMap.getElem?_insert]
  | gone topic' =>
      by_cases h : topic' = topic
      · simp [record, onCount, Metadata.forgetTopic, h]
      · simp [record, onCount, Metadata.forgetTopic, h, Std.TreeMap.getElem?_erase]
  | controllerIs _ | controllerUnknown | brokerAt _ | leads _ _ | leaderUnknown _ => rfl

theorem leader_record (tp : TopicPartition) (metadata : Metadata) (notice : Notice) :
    (record metadata notice).leaders[tp]? = (notice.onLeader tp).apply metadata.leaders[tp]? := by
  cases notice with
  | leads node tp' =>
      by_cases h : tp' = tp
      · simp [record, onLeader, h]
      · simp [record, onLeader, h, Std.TreeMap.getElem?_insert]
  | leaderUnknown tp' =>
      by_cases h : tp' = tp
      · simp [record, onLeader, Metadata.invalidatePartition, h]
      · simp [record, onLeader, Metadata.invalidatePartition, h, Std.TreeMap.getElem?_erase]
  | gone topic =>
      by_cases h : tp.topic = topic
      · simp [record, onLeader, Metadata.forgetTopic, h, Std.TreeMap.getElem?_filter]
      · cases hled : metadata.leaders[tp]? <;>
          simp [record, onLeader, Metadata.forgetTopic, h, Std.TreeMap.getElem?_filter, hled]
  | controllerIs _ | controllerUnknown | brokerAt _ | partitions _ _ => rfl

end Notice

/-! ### An operation is the notices it gives -/

theorem foldl_updatePartition (topic : String) (entries : List PartitionMetadata)
    (metadata : Metadata) :
    run Notice.record metadata (entries.filterMap (·.notice topic)) =
      { metadata with
        leaders := entries.foldl (Metadata.updatePartition topic) metadata.leaders } := by
  induction entries generalizing metadata with
  | nil => rfl
  | cons entry entries ih =>
      rw [List.foldl_cons, Metadata.updatePartition]
      by_cases h : entry.errorCode = 0 ∧ 0 ≤ entry.leaderId
      · have hsaid : ¬(entry.errorCode ≠ 0 ∨ entry.leaderId < 0) := by omega
        have hnotice : entry.notice topic =
            some (.leads entry.leaderId ⟨topic, entry.partitionIndex⟩) := if_pos h
        rw [List.filterMap_cons_some hnotice, if_neg hsaid]
        exact ih (Notice.record metadata (.leads entry.leaderId ⟨topic, entry.partitionIndex⟩))
      · have hsaid : entry.errorCode ≠ 0 ∨ entry.leaderId < 0 := by omega
        have hnotice : entry.notice topic = none := if_neg h
        rw [List.filterMap_cons_none hnotice, if_pos hsaid]
        exact ih metadata

theorem updateTopic_eq_run (metadata : Metadata) (topic : TopicMetadata) :
    metadata.updateTopic topic = run Notice.record metadata topic.notices := by
  rw [Metadata.updateTopic, TopicMetadata.notices]
  by_cases h : topic.errorCode ≠ 0
  · rw [if_pos h, if_pos h]
    rfl
  · rw [if_neg h, if_neg h]
    cases topic.name with
    | none => rfl
    | some name =>
        exact (foldl_updatePartition name topic.partitions
          (Notice.record metadata (.partitions name _))).symm

theorem foldl_brokers (brokers : List BrokerAddr) (metadata : Metadata) :
    run Notice.record metadata (brokers.map .brokerAt) =
      { metadata with
        brokers := brokers.foldl (fun brokers b => brokers.insert b.nodeId b)
          metadata.brokers } := by
  induction brokers generalizing metadata with
  | nil => rfl
  | cons broker brokers ih => exact ih (Notice.record metadata (.brokerAt broker))

theorem foldl_updateTopic (topics : List TopicMetadata) (metadata : Metadata) :
    topics.foldl Metadata.updateTopic metadata =
      run Notice.record metadata (topics.flatMap (·.notices)) := by
  induction topics generalizing metadata with
  | nil => rfl
  | cons topic topics ih =>
      rw [List.foldl_cons, ih, updateTopic_eq_run, List.flatMap_cons, run_append]

theorem update_eq_run (metadata : Metadata) (resp : MetadataResponse) :
    metadata.update resp = run Notice.record metadata resp.notices := by
  rw [Metadata.update, foldl_updateTopic, MetadataResponse.notices, run_append, run_append,
    foldl_brokers]
  by_cases h : 0 ≤ resp.controllerId
  · rw [if_pos h, if_pos h]
    rfl
  · rw [if_neg h, if_neg h]
    rfl

theorem ClusterOp.step_eq_run (metadata : Metadata) (op : ClusterOp) :
    op.step metadata = run Notice.record metadata op.notices := by
  cases op with
  | invalidateController => rfl
  | map op =>
      cases op with
      | update resp => exact update_eq_run metadata resp
      | invalidatePartition tp => rfl
      | forgetTopic topic => rfl

theorem run_step_eq_run (metadata : Metadata) (ops : List ClusterOp) :
    run ClusterOp.step metadata ops = run Notice.record metadata (ops.flatMap (·.notices)) := by
  induction ops generalizing metadata with
  | nil => rfl
  | cons op ops ih =>
      rw [List.flatMap_cons, run_append, ← ClusterOp.step_eq_run]
      exact ih (op.step metadata)

/-! ### What an operation names -/

/-- The operation has an entry for the partition, or says that it is to be forgotten. -/
def ClusterOp.NamesPartition (tp : TopicPartition) : ClusterOp → Prop
  | map (.update resp) => ∃ topic ∈ resp.topics, topic.name = some tp.topic ∧
      ∃ entry ∈ topic.partitions, entry.partitionIndex = tp.partition
  | map (.invalidatePartition tp') => tp' = tp
  | map (.forgetTopic topic) => tp.topic = topic
  | invalidateController => False

def ClusterOp.NamesTopic (topic : String) : ClusterOp → Prop
  | map (.update resp) => ∃ entry ∈ resp.topics, entry.name = some topic
  | map (.invalidatePartition _) => False
  | map (.forgetTopic topic') => topic' = topic
  | invalidateController => False

def ClusterOp.NamesBroker (node : ℤ) : ClusterOp → Prop
  | map (.update resp) => ∃ broker ∈ resp.brokers, broker.nodeId = node
  | _ => False

def ClusterOp.NamesController : ClusterOp → Prop
  | map (.update resp) => 0 ≤ resp.controllerId
  | map _ => False
  | invalidateController => True

theorem mem_notices_update {resp : MetadataResponse} {notice : Notice}
    (h : notice ∈ resp.notices) :
    (0 ≤ resp.controllerId ∧ notice = .controllerIs resp.controllerId) ∨
      (∃ broker ∈ resp.brokers, notice = .brokerAt broker) ∨
      ∃ topic ∈ resp.topics, notice ∈ topic.notices := by
  rw [MetadataResponse.notices, List.mem_append, List.mem_append, List.mem_map,
    List.mem_flatMap] at h
  rcases h with (h | ⟨broker, hbroker, rfl⟩) | h
  · by_cases hid : 0 ≤ resp.controllerId
    · rw [if_pos hid, List.mem_singleton] at h
      exact .inl ⟨hid, h⟩
    · rw [if_neg hid] at h
      cases h
  · exact .inr (.inl ⟨broker, hbroker, rfl⟩)
  · exact .inr (.inr h)

theorem mem_notices_topic {topic : TopicMetadata} {notice : Notice} (h : notice ∈ topic.notices) :
    ∃ name, topic.name = some name ∧ topic.errorCode = 0 ∧
      (notice = .partitions name (min (topic.partitions.length : ℤ) i32Max) ∨
        ∃ entry ∈ topic.partitions, entry.errorCode = 0 ∧ 0 ≤ entry.leaderId ∧
          notice = .leads entry.leaderId ⟨name, entry.partitionIndex⟩) := by
  rw [TopicMetadata.notices] at h
  by_cases hcode : topic.errorCode ≠ 0
  · rw [if_pos hcode] at h
    cases h
  · rw [if_neg hcode] at h
    cases hname : topic.name with
    | none =>
        rw [hname] at h
        cases h
    | some name =>
        rw [hname, List.mem_cons, List.mem_filterMap] at h
        refine ⟨name, rfl, not_not.mp hcode, h.imp_right ?_⟩
        rintro ⟨entry, hentry, hnotice⟩
        by_cases hsaid : entry.errorCode = 0 ∧ 0 ≤ entry.leaderId
        · rw [PartitionMetadata.notice, if_pos hsaid] at hnotice
          exact ⟨entry, hentry, hsaid.1, hsaid.2, (Option.some.inj hnotice).symm⟩
        · rw [PartitionMetadata.notice, if_neg hsaid] at hnotice
          cases hnotice

/-- What a notice is about is what its operation names. -/
def Notice.NamedBy (op : ClusterOp) : Notice → Prop
  | controllerIs _ | controllerUnknown => op.NamesController
  | brokerAt broker => op.NamesBroker broker.nodeId
  | partitions topic _ => op.NamesTopic topic
  | leads _ tp | leaderUnknown tp => op.NamesPartition tp
  | gone topic => op.NamesTopic topic ∧ ∀ tp : TopicPartition, tp.topic = topic → op.NamesPartition tp

theorem namedBy_of_mem {op : ClusterOp} {notice : Notice} (h : notice ∈ op.notices) :
    notice.NamedBy op := by
  rcases op with (resp | tp | topic) | _
  · rcases mem_notices_update h with ⟨hid, rfl⟩ | ⟨broker, hbroker, rfl⟩ | ⟨topic, htopic, hin⟩
    · exact hid
    · exact ⟨broker, hbroker, rfl⟩
    · obtain ⟨name, hname, -, rfl | ⟨entry, hentry, -, -, rfl⟩⟩ := mem_notices_topic hin
      · exact ⟨topic, htopic, hname⟩
      · exact ⟨topic, htopic, hname, entry, hentry, rfl⟩
  · rw [List.mem_singleton.mp h]
    exact (rfl : tp = tp)
  · rw [List.mem_singleton.mp h]
    exact ⟨rfl, fun _ htopic => htopic⟩
  · rw [List.mem_singleton.mp h]
    trivial

/-- An operation that does not name a partition gives no notice about its leader. -/
theorem onLeader_of_not_names {op : ClusterOp} {tp : TopicPartition}
    (h : ¬op.NamesPartition tp) : ∀ notice ∈ op.notices, notice.onLeader tp = .leave := by
  intro notice hnotice
  have hnamed := namedBy_of_mem hnotice
  cases notice with
  | leads node tp' =>
      apply if_neg
      rintro rfl
      exact h hnamed
  | leaderUnknown tp' =>
      apply if_neg
      rintro rfl
      exact h hnamed
  | gone topic =>
      apply if_neg
      exact fun htopic => h (hnamed.2 tp htopic)
  | controllerIs _ | controllerUnknown | brokerAt _ | partitions _ _ => rfl

theorem onBroker_of_not_names {op : ClusterOp} {node : ℤ} (h : ¬op.NamesBroker node) :
    ∀ notice ∈ op.notices, notice.onBroker node = .leave := by
  intro notice hnotice
  have hnamed := namedBy_of_mem hnotice
  cases notice with
  | brokerAt broker =>
      apply if_neg
      rintro rfl
      exact h hnamed
  | controllerIs _ | controllerUnknown | partitions _ _ | leads _ _ | leaderUnknown _ | gone _ => rfl

theorem onCount_of_not_names {op : ClusterOp} {topic : String} (h : ¬op.NamesTopic topic) :
    ∀ notice ∈ op.notices, notice.onCount topic = .leave := by
  intro notice hnotice
  have hnamed := namedBy_of_mem hnotice
  cases notice with
  | partitions topic' count =>
      apply if_neg
      rintro rfl
      exact h hnamed
  | gone topic' =>
      apply if_neg
      rintro rfl
      exact h hnamed.1
  | controllerIs _ | controllerUnknown | brokerAt _ | leads _ _ | leaderUnknown _ => rfl

theorem onController_of_not_names {op : ClusterOp} (h : ¬op.NamesController) :
    ∀ notice ∈ op.notices, notice.onController = .leave := by
  intro notice hnotice
  have hnamed := namedBy_of_mem hnotice
  cases notice with
  | controllerIs node => exact absurd hnamed h
  | controllerUnknown => exact absurd hnamed h
  | brokerAt _ | partitions _ _ | leads _ _ | leaderUnknown _ | gone _ => rfl

/-! ### Whole histories -/

section History

variable (ops : List ClusterOp)

/-- The map after a history, and what the history said. -/
def mapAfter : Metadata := run ClusterOp.step Metadata.new ops

def said : List Notice := ops.flatMap (·.notices)

theorem leader_mapAfter (tp : TopicPartition) (node : ℤ) :
    (mapAfter ops).leaders[tp]? = some node ↔ LastWritten (·.onLeader tp) node (said ops) := by
  rw [mapAfter, run_step_eq_run]
  exact read_run_eq_some (fun metadata : Metadata => metadata.leaders[tp]?)
    (Notice.leader_record tp) (by simp [Metadata.new]) (said ops) node

theorem controller_mapAfter (node : ℤ) :
    (mapAfter ops).controller = some node ↔ LastWritten (·.onController) node (said ops) := by
  rw [mapAfter, run_step_eq_run]
  exact read_run_eq_some (fun metadata : Metadata => metadata.controller)
    Notice.controller_record rfl (said ops) node

theorem broker_mapAfter (node : ℤ) (broker : BrokerAddr) :
    (mapAfter ops).brokers[node]? = some broker ↔
      LastWritten (·.onBroker node) broker (said ops) := by
  rw [mapAfter, run_step_eq_run]
  exact read_run_eq_some (fun metadata : Metadata => metadata.brokers[node]?)
    (Notice.broker_record node) (by simp [Metadata.new]) (said ops) broker

theorem count_mapAfter (topic : String) (count : ℤ) :
    (mapAfter ops).partitionCounts[topic]? = some count ↔
      LastWritten (·.onCount topic) count (said ops) := by
  rw [mapAfter, run_step_eq_run]
  exact read_run_eq_some (fun metadata : Metadata => metadata.partitionCounts[topic]?)
    (Notice.count_record topic) (by simp [Metadata.new]) (said ops) count

/-- A broker's address is never forgotten. -/
theorem exists_broker_iff (node : ℤ) :
    (∃ broker, (mapAfter ops).brokers[node]? = some broker) ↔
      ∃ op ∈ ops, op.NamesBroker node := by
  have hkept : ∀ notice ∈ said ops, notice.onBroker node ≠ .clear := by
    rintro (_ | _ | broker | _ | _ | _ | _) - <;> simp only [Notice.onBroker, ne_eq, reduceCtorEq,
      not_false_eq_true]
    by_cases h : broker.nodeId = node <;> simp [h]
  simp only [broker_mapAfter]
  rw [exists_lastWritten_iff hkept]
  constructor
  · rintro ⟨notice, hnotice, broker, hwrite⟩
    obtain ⟨op, hop, hin⟩ := List.mem_flatMap.mp hnotice
    refine ⟨op, hop, ?_⟩
    by_contra hnames
    rw [onBroker_of_not_names hnames notice hin] at hwrite
    cases hwrite
  · rintro ⟨(resp | _ | _) | _, hop, hnames⟩
    · obtain ⟨broker, hbroker, hnode⟩ := hnames
      refine ⟨.brokerAt broker, List.mem_flatMap.mpr ⟨_, hop, ?_⟩, broker, if_pos hnode⟩
      simp only [ClusterOp.notices, MetadataResponse.notices, List.mem_append, List.mem_map]
      exact .inl (.inr ⟨broker, hbroker, rfl⟩)
    all_goals cases hnames

/-- An answer of the map that reads one register through another. -/
theorem lookup_eq_some {register : Option ℤ} {broker : BrokerAddr} :
    (register.bind fun node => (mapAfter ops).brokers[node]?) = some broker ↔
      ∃ node, register = some node ∧ LastWritten (·.onBroker node) broker (said ops) := by
  rw [Option.bind_eq_some_iff]
  simp only [broker_mapAfter]

theorem isSome_lookup {register : Option ℤ} :
    (register.bind fun node => (mapAfter ops).brokers[node]?).isSome ↔
      ∃ node, register = some node ∧ ∃ op ∈ ops, op.NamesBroker node := by
  rw [Option.isSome_iff_exists]
  simp only [Option.bind_eq_some_iff]
  rw [exists_comm]
  simp only [exists_and_left, exists_broker_iff]

/-- What the map answers after a history: each of its answers was said, and nothing said
later takes it back. -/
structure LastWriterWins : Prop where
  leaderFor_isSome : ∀ tp, ((mapAfter ops).leaderFor tp).isSome ↔
    ∃ node, LastWritten (·.onLeader tp) node (said ops) ∧ ∃ op ∈ ops, op.NamesBroker node
  leaderFor : ∀ tp broker, (mapAfter ops).leaderFor tp = some broker ↔
    ∃ node, LastWritten (·.onLeader tp) node (said ops) ∧
      LastWritten (·.onBroker node) broker (said ops)
  controllerAddr_isSome : (mapAfter ops).controllerAddr.isSome ↔
    ∃ node, LastWritten (·.onController) node (said ops) ∧ ∃ op ∈ ops, op.NamesBroker node
  controllerAddr : ∀ broker, (mapAfter ops).controllerAddr = some broker ↔
    ∃ node, LastWritten (·.onController) node (said ops) ∧
      LastWritten (·.onBroker node) broker (said ops)
  partitionCount : ∀ topic count, (mapAfter ops).partitionCounts[topic]? = some count ↔
    LastWritten (·.onCount topic) count (said ops)

theorem lastWriterWins_mapAfter : LastWriterWins ops where
  leaderFor_isSome tp := by
    simp only [← leader_mapAfter]
    exact isSome_lookup ops
  leaderFor tp broker := by
    simp only [← leader_mapAfter]
    exact lookup_eq_some ops
  controllerAddr_isSome := by
    simp only [← controller_mapAfter]
    exact isSome_lookup ops
  controllerAddr broker := by
    simp only [← controller_mapAfter]
    exact lookup_eq_some ops
  partitionCount := count_mapAfter ops

end History

/-- What an operation leaves alone. The address of a leader is that of its broker, so
it also moves with an operation that lists the broker and does not name the partition. -/
structure LeavesUnnamed (metadata : Metadata) (op : ClusterOp) : Prop where
  leader : ∀ tp, ¬op.NamesPartition tp →
    (op.step metadata).leaders[tp]? = metadata.leaders[tp]?
  broker : ∀ node, ¬op.NamesBroker node →
    (op.step metadata).brokers[node]? = metadata.brokers[node]?
  controller : ¬op.NamesController → (op.step metadata).controller = metadata.controller
  partitionCount : ∀ topic, ¬op.NamesTopic topic →
    (op.step metadata).partitionCount topic = metadata.partitionCount topic
  leaderFor : ∀ tp, ¬op.NamesPartition tp →
    (∀ node, metadata.leaders[tp]? = some node → ¬op.NamesBroker node) →
      (op.step metadata).leaderFor tp = metadata.leaderFor tp
  controllerAddr : ¬op.NamesController →
    (∀ node, metadata.controller = some node → ¬op.NamesBroker node) →
      (op.step metadata).controllerAddr = metadata.controllerAddr

theorem leader_step_of_not_names (metadata : Metadata) {op : ClusterOp} {tp : TopicPartition}
    (h : ¬op.NamesPartition tp) : (op.step metadata).leaders[tp]? = metadata.leaders[tp]? := by
  rw [ClusterOp.step_eq_run]
  exact read_run_of_leave (fun metadata : Metadata => metadata.leaders[tp]?)
    (Notice.leader_record tp) metadata (onLeader_of_not_names h)

theorem broker_step_of_not_names (metadata : Metadata) {op : ClusterOp} {node : ℤ}
    (h : ¬op.NamesBroker node) : (op.step metadata).brokers[node]? = metadata.brokers[node]? := by
  rw [ClusterOp.step_eq_run]
  exact read_run_of_leave (fun metadata : Metadata => metadata.brokers[node]?)
    (Notice.broker_record node) metadata (onBroker_of_not_names h)

theorem controller_step_of_not_names (metadata : Metadata) {op : ClusterOp}
    (h : ¬op.NamesController) : (op.step metadata).controller = metadata.controller := by
  rw [ClusterOp.step_eq_run]
  exact read_run_of_leave (fun metadata : Metadata => metadata.controller)
    Notice.controller_record metadata (onController_of_not_names h)

theorem count_step_of_not_names (metadata : Metadata) {op : ClusterOp} {topic : String}
    (h : ¬op.NamesTopic topic) :
    (op.step metadata).partitionCounts[topic]? = metadata.partitionCounts[topic]? := by
  rw [ClusterOp.step_eq_run]
  exact read_run_of_leave (fun metadata : Metadata => metadata.partitionCounts[topic]?)
    (Notice.count_record topic) metadata (onCount_of_not_names h)

theorem leavesUnnamed (metadata : Metadata) (op : ClusterOp) : LeavesUnnamed metadata op where
  leader _ := leader_step_of_not_names metadata
  broker _ := broker_step_of_not_names metadata
  controller := controller_step_of_not_names metadata
  partitionCount topic h := by
    rw [Metadata.partitionCount, Metadata.partitionCount, Std.TreeMap.getD_eq_getD_getElem?,
      Std.TreeMap.getD_eq_getD_getElem?, count_step_of_not_names metadata h]
  leaderFor tp htp hbroker := by
    rw [Metadata.leaderFor, Metadata.leaderFor, leader_step_of_not_names metadata htp]
    cases hled : metadata.leaders[tp]? with
    | none => rfl
    | some node => exact broker_step_of_not_names metadata (hbroker node hled)
  controllerAddr hcontroller hbroker := by
    rw [Metadata.controllerAddr, Metadata.controllerAddr,
      controller_step_of_not_names metadata hcontroller]
    cases hnode : metadata.controller with
    | none => rfl
    | some node => exact broker_step_of_not_names metadata (hbroker node hnode)

/-- **The cluster map remembers what it was told last.** After every history each of its
answers is the last thing said about the fact it reports, and an operation leaves alone
every fact it does not name. -/
theorem clusterMap_lastWriterWins :
    (∀ ops, LastWriterWins ops) ∧ ∀ metadata op, LeavesUnnamed metadata op :=
  ⟨lastWriterWins_mapAfter, leavesUnnamed⟩

/-- A broker leads a partition, and is then listed at another address by a response that
names no topic at all. -/
def elected : ClusterOp :=
  .map (.update ⟨[⟨1, "a", 9092⟩], 1, [⟨0, some "t", [⟨0, 0, 1⟩]⟩]⟩)

def readdressed : ClusterOp := .map (.update ⟨[⟨1, "b", 9092⟩], -1, []⟩)

theorem readdressed_moves_unnamed : ¬∀ ops (op : ClusterOp) tp, ¬op.NamesPartition tp →
    (op.step (mapAfter ops)).leaderFor tp = (mapAfter ops).leaderFor tp := by
  intro h
  have hsame := h [elected] readdressed ⟨"t", 0⟩ (by simp [readdressed, ClusterOp.NamesPartition])
  have hbefore : (mapAfter [elected]).leaderFor ⟨"t", 0⟩ = some ⟨1, "a", 9092⟩ := by
    decide
  have hafter : (readdressed.step (mapAfter [elected])).leaderFor ⟨"t", 0⟩ =
      some ⟨1, "b", 9092⟩ := by decide
  rw [hbefore, hafter] at hsame
  exact absurd hsame (by decide)

end Barnabas.Core
