import Barnabas.Client.Requests
import Barnabas.Client.Session

/-!
Where a record can be, and where it can go.

A producer holds records in two places, the stage and the pending queues. If
everything it holds is in a set `N`, and everything it is handed is, then so is
everything it holds afterwards and everything it puts into a `Produce` request.
`Feeding N` is that statement about two states. It is a preorder, so it is proved
once for each primitive and carried through every operation by the shape of the
program; nothing is assumed of the transport.
-/

namespace Barnabas.Client

open Barnabas.Lib Barnabas.Core Barnabas.Lib.Act

variable {ω : Type}

/-- A `Produce` request with the record in one of its batches. -/
def Request.Carries (req : Request) (r : ProducerRecord) : Prop :=
  ∃ produce, req = .produce produce ∧
    ∃ topic ∈ produce.topicData, ∃ entry ∈ topic.2, r ∈ entry.2.records

def Request.topicData : Request → List (String × List (ℤ × Batch))
  | produce req => req.topicData
  | _ => []

instance (req : Request) (r : ProducerRecord) : Decidable (req.Carries r) :=
  decidable_of_iff (∃ topic ∈ req.topicData, ∃ entry ∈ topic.2, r ∈ entry.2.records)
    (by cases req <;> simp [Request.Carries, Request.topicData])

theorem Request.Carries.not_plumbing {req : Request} {r : ProducerRecord} (h : req.Carries r) :
    ¬req.isPlumbing := by
  obtain ⟨_, rfl, _⟩ := h
  simp [isPlumbing]

namespace Producer

/-- The record waits to be encoded. -/
def Stages (p : Producer ω) (r : ProducerRecord) : Prop :=
  ∃ (tp : TopicPartition) (staged : Staged), p.staged[tp]? = some staged ∧ r ∈ staged.records

/-- The record is in a batch that waits to be acknowledged. -/
def Queues (p : Producer ω) (r : ProducerRecord) : Prop :=
  ∃ tp, ∃ batch ∈ p.pending.getD tp [], r ∈ batch.records

def Holds (p : Producer ω) (r : ProducerRecord) : Prop := p.Stages r ∨ p.Queues r

/-- No stage is empty: a partition is only staged together with a record. -/
def StagedFilled (p : Producer ω) : Prop :=
  ∀ (tp : TopicPartition) (staged : Staged), p.staged[tp]? = some staged → staged.records ≠ []

/-- The frames the producer has handed to the transport. -/
def sent (p : Producer ω) : List Frame := p.cluster.sent

/-! ### Relations that let the network code through

The coordinator routing and the lookups touch the connections, the cached
coordinator and the state machine, and nothing else of a producer. -/

/-- `R` puts up with changes of what the network code changes by itself, where
the cluster changes as `C` says and every frame written is in `W`. -/
structure Bears (T : Transport ω) (C : Cluster ω → Cluster ω → Prop)
    (R : Producer ω → Producer ω → Prop) (W : Frame → Prop) : Prop where
  permits : Cluster.Permits T C W
  cluster : ∀ p c, C p.cluster c → R p { p with cluster := c }
  coordinator : ∀ p a, R p { p with coordinator := a }
  state : ∀ (p : Producer ω) s, s.txn = p.state.txn ∨ s.txn = .fatal →
    s.sequences = p.state.sequences → R p { p with state := s }
  offsets : ∀ p o, R p { p with offsets := o }

/-- `R` puts up with the placing of records, too. -/
structure Tolerates (T : Transport ω) (C : Cluster ω → Cluster ω → Prop)
    (R : Producer ω → Producer ω → Prop) (W : Frame → Prop) : Prop extends Bears T C R W where
  roundRobin : ∀ p n, R p { p with roundRobin := n }

namespace Bears

variable {ε α : Type} {R : Producer ω → Producer ω → Prop} {W : Frame → Prop} {T : Transport ω}
  {C : Cluster ω → Cluster ω → Prop} (h : Bears T C R W)

include h

theorem onCluster {m : Act (Cluster ω) ε α} (hm : Moves C m) : Moves R (onCluster m) :=
  Moves.zoom hm fun p c => h.cluster p c

theorem fence : Moves R (fence : Act (Producer ω) Error Unit) :=
  Moves.modify fun p => h.state p _ (.inr rfl) rfl

theorem backoff (attempt : ℕ) : Moves R (backoff T attempt) :=
  h.onCluster (h.permits.sleep _)

variable [IsPreorder (Producer ω) R] [IsPreorder (Cluster ω) C]

theorem findCoordinatorOnce (txnId : String) (attempt : ℕ) (u : Unit) :
    Moves R (findCoordinatorOnce T txnId attempt u) := by
  refine Moves.bind (h.onCluster (h.permits.callAny_plumbing rfl _)) fun resp => ?_
  refine Moves.ite ?_ ?_
  · exact Moves.bind (Moves.modify fun p => h.coordinator p _) fun _ => Moves.pure _
  · split
    · exact Moves.bind (h.backoff attempt) fun _ => Moves.pure _
    · exact Moves.bind (h.backoff attempt) fun _ => Moves.pure _
    · exact Moves.throw _

theorem findCoordinator : Moves R (findCoordinator T) := by
  unfold Producer.findCoordinator
  refine Moves.bind Moves.get fun p => ?_
  split
  · exact Moves.pure _
  · exact Moves.attempts (h.findCoordinatorOnce _) (fun _ => Moves.throw _) _ _ _

theorem coordinatorAddr : Moves R (coordinatorAddr T) := by
  unfold Producer.coordinatorAddr
  refine Moves.bind Moves.get fun p => ?_
  split
  · exact Moves.pure _
  · exact h.findCoordinator

section Request

variable {version : ℤ} {req : Request} (hreq : ∀ f : Frame, f.request = req → W f)

include hreq

theorem coordinatorCallOnce (op : String) (as : Body → Option α) (errorOf : α → ℤ)
    (attempt : ℕ) (u : Unit) :
    Moves R (coordinatorCallOnce T op as version req errorOf attempt u) := by
  refine Moves.bind h.coordinatorAddr fun addr => Moves.bind (Moves.ite ?_ ?_) fun resp => ?_
  · exact h.onCluster (h.permits.callAny hreq as)
  · exact h.onCluster (h.permits.call as addr hreq)
  · refine Moves.ite (Moves.pure _) ?_
    split
    · exact Moves.bind (h.backoff attempt) fun _ => Moves.pure _
    · refine Moves.bind (Moves.modify fun p => h.coordinator p _) fun _ => ?_
      exact Moves.bind (h.backoff attempt) fun _ => Moves.pure _
    · exact Moves.bind h.fence fun _ => Moves.throw _
    · exact Moves.throw _

theorem coordinatorCall (op : String) (as : Body → Option α) (errorOf : α → ℤ) :
    Moves R (coordinatorCall T op as version req errorOf) :=
  Moves.attempts (h.coordinatorCallOnce hreq op as errorOf) (fun _ => Moves.throw _) _ _ _

end Request

theorem locateGroup (groupId : String) (attempt : ℕ) (addr : Option String) :
    Moves R (locateGroup T groupId attempt addr) := by
  cases addr with
  | some addr => exact Moves.pure _
  | none =>
      refine Moves.bind (h.onCluster (h.permits.callAny_plumbing rfl _))
        fun resp => ?_
      refine Moves.ite (Moves.pure _) ?_
      split
      · exact Moves.bind (h.backoff attempt) fun _ => Moves.pure _
      · exact Moves.bind (h.backoff attempt) fun _ => Moves.pure _
      · exact Moves.throw _

theorem groupCoordinatorCall (groupId : String) (req : TxnOffsetCommitRequest)
    (hreq : ∀ f : Frame, f.request = .txnOffsetCommit req → W f) :
    Moves R (groupCoordinatorCall T groupId req) := by
  refine Moves.attempts (fun attempt addr => ?_) (fun _ => Moves.throw _) _ _ _
  refine Moves.bind (h.locateGroup groupId attempt addr) fun found => ?_
  cases found with
  | none => exact Moves.pure _
  | some addr =>
      refine Moves.bind (h.onCluster (h.permits.call _ addr hreq))
        fun results => ?_
      refine Moves.ite (Moves.pure _) ?_
      split
      · exact Moves.bind (h.backoff attempt) fun _ => Moves.pure _
      · exact Moves.bind (h.backoff attempt) fun _ => Moves.pure _
      · exact Moves.bind h.fence fun _ => Moves.throw _
      · exact Moves.throw _

theorem sendOffsetsToTransaction (offsets : PartitionMap ℤ) (metadata : GroupMetadata)
    (hadd : ∀ f req, f.request = .addOffsetsToTxn req → W f)
    (hcommit : ∀ f req, f.request = .txnOffsetCommit req → W f) :
    Moves R (sendOffsetsToTransaction T offsets metadata) := by
  refine Moves.bind Moves.get fun p => Moves.ite (Moves.throw _) (Moves.ite (Moves.pure _) ?_)
  refine Moves.bind (Moves.ofExcept _) fun identity => Moves.bind (Moves.ofExcept _) fun txnId => ?_
  refine Moves.bind (h.coordinatorCall (fun f hf => hadd f _ hf) _ _ _) fun _ => ?_
  exact h.groupCoordinatorCall _ _ fun f hf => hcommit f _ hf

omit [IsPreorder (Producer ω) R] [IsPreorder (Cluster ω) C] h in
theorem onEnrolled_txn (topic : String) (partitions : List ℤ) (state : ProducerState) :
    (partitions.foldl (fun state partition => state.onEnrolled ⟨topic, partition⟩) state).txn =
      state.txn := by
  induction partitions generalizing state with
  | nil => rfl
  | cons partition partitions ih => exact (ih _).trans rfl

omit [IsPreorder (Producer ω) R] [IsPreorder (Cluster ω) C] h in
theorem onEnrolled_sequences (topic : String) (partitions : List ℤ) (state : ProducerState) :
    (partitions.foldl (fun state partition => state.onEnrolled ⟨topic, partition⟩)
      state).sequences = state.sequences := by
  induction partitions generalizing state with
  | nil => rfl
  | cons partition partitions ih => exact (ih _).trans rfl

theorem enrollAll (hadd : ∀ f req, f.request = .addPartitionsToTxn req → W f) (topic : String)
    (partitions : List ℤ) : Moves R (enrollAll T topic partitions) := by
  refine Moves.bind Moves.get fun p => Moves.ite (Moves.pure _) ?_
  refine Moves.bind (Moves.ofExcept _) fun identity => Moves.bind (Moves.ofExcept _) fun txnId => ?_
  refine Moves.bind (h.coordinatorCall (fun f hf => hadd f _ hf) _ _ _) fun _ => ?_
  exact Moves.modify fun p => h.state p _ (.inl (onEnrolled_txn ..)) (onEnrolled_sequences ..)

omit [IsPreorder (Cluster ω) C] in
theorem encodeBatch (records : List ProducerRecord) (range : SequenceRange) :
    Moves R (encodeBatch T records range) := by
  unfold Producer.encodeBatch
  refine Moves.bind Moves.get fun p => Moves.bind (Moves.ofExcept _) fun identity => ?_
  refine Moves.bind (h.onCluster h.permits.systemTime) fun now => ?_
  dsimp only
  split
  · exact Moves.throw _
  · exact Moves.pure _

theorem route (tps : List TopicPartition) (routes : ByBroker × Bool) :
    Moves R (route T tps routes) := by
  induction tps generalizing routes with
  | nil => exact Moves.pure _
  | cons tp rest ih =>
      refine Moves.bind (Moves.attempt (h.onCluster (h.permits.leaderAddr tp)))
        fun outcome => ?_
      split
      · exact ih _
      · exact ih _
      · exact Moves.throw _

omit [IsPreorder (Cluster ω) C] in
theorem judge (answers : List (ℕ × TopicPartition × ErrorCode)) (verdict : Verdict) :
    Moves R (judge answers verdict : Act (Producer ω) Error Verdict) := by
  induction answers generalizing verdict with
  | nil => exact Moves.pure _
  | cons answer rest ih =>
      obtain ⟨round, tp, code⟩ := answer
      refine Moves.ite (ih _) (Moves.ite (ih _) ?_)
      split
      · exact Moves.bind (Moves.modify fun p => h.cluster p _ (h.permits.invalidate _ _)) fun _ => ih _
      · exact ih _
      · exact Moves.bind h.fence fun _ => Moves.throw _

theorem refreshTopics (topics : List String) : Moves R (refreshTopics T topics) := by
  induction topics with
  | nil => exact Moves.pure _
  | cons topic rest ih =>
      exact Moves.bind (h.onCluster (h.permits.refreshMetadata topic)) fun _ => ih

omit [IsPreorder (Cluster ω) C] in
theorem abandonWindow (attempt : ℕ) (written : List (TopicPartition × ℤ)) (e : Error) :
    Moves R (abandonWindow T attempt written e) := by
  refine Moves.bind (Moves.modify fun p => h.offsets p _) fun _ => ?_
  split
  · exact Moves.ite (Moves.bind (h.backoff attempt) fun _ => Moves.pure _) (Moves.throw _)
  · exact Moves.throw _

theorem partitionCountWaiting (topic : String) : Moves R (partitionCountWaiting T topic) := by
  refine Moves.attempts (fun attempt _ => ?_) (fun _ => Moves.throw _) _ _ _
  refine Moves.bind (Moves.attempt (h.onCluster
    (h.permits.partitionCount topic))) fun outcome => ?_
  split
  · refine Moves.ite (Moves.pure _) (Moves.ite ?_ (Moves.throw _))
    exact Moves.bind (h.backoff attempt) fun _ => Moves.pure _
  · exact Moves.ite (Moves.bind (h.backoff attempt) fun _ => Moves.pure _) (Moves.throw _)
  · exact Moves.throw _

theorem partitionFor (topic : String) (key : Option Bytes) : Moves R (partitionFor T topic key) := by
  refine Moves.bind (h.partitionCountWaiting topic) fun count => Moves.bind Moves.get fun p => ?_
  split
  · exact Moves.pure _
  · exact Moves.throw _

omit [IsPreorder (Cluster ω) C] in
theorem stageFor (tp : TopicPartition) : Moves R (stageFor T tp) := by
  unfold Producer.stageFor
  refine Moves.bind Moves.get fun p => ?_
  split
  · exact Moves.pure _
  · exact Moves.bind (h.onCluster h.permits.now) fun now => Moves.pure _

end Bears

/-- A record that was grouped has a partition, and the rest goes on behind it. -/
theorem groupByPartition_cons_eq_ok {topic : String} {count : ℤ} {record : ProducerRecord}
    {rest : List ProducerRecord} {groups groups' : Std.TreeMap ℤ (List ProducerRecord)}
    {p p' : Producer ω}
    (h : groupByPartition topic count (record :: rest) groups p = (.ok groups', p')) :
    ∃ partition next,
      p.partitioner.partitionFor record.key count p.roundRobin = (some partition, next) ∧
        groupByPartition topic count rest
          (groups.insert partition (groups.getD partition [] ++ [record]))
            { p with roundRobin := next } = (.ok groups', p') := by
  rw [groupByPartition, bind_of_ok (get_apply p)] at h
  rcases hplace : p.partitioner.partitionFor record.key count p.roundRobin with
    ⟨_ | partition, next⟩
  · rw [hplace] at h
    cases h
  · rw [hplace] at h
    exact ⟨partition, next, rfl, h⟩

/-- Each record is put into one group. -/
theorem gathered_groupByPartition {topic : String} {count : ℤ} {records : List ProducerRecord}
    {groups groups' : Std.TreeMap ℤ (List ProducerRecord)} {p p' : Producer ω}
    (h : groupByPartition topic count records groups p = (.ok groups', p')) :
    (gathered (fun _ r => r) groups').Perm (gathered (fun _ r => r) groups ++ records) := by
  induction records generalizing groups p with
  | nil =>
      cases h
      rw [List.append_nil]
  | cons record rest ih =>
      obtain ⟨partition, next, -, h⟩ := groupByPartition_cons_eq_ok h
      refine (ih h).trans ?_
      have hone := gathered_insert_perm (fun _ r => r) groups partition record
      simpa using hone.append_right rest

theorem Tolerates.groupByPartition {R : Producer ω → Producer ω → Prop} {W : Frame → Prop}
    {T : Transport ω} {C : Cluster ω → Cluster ω → Prop} (h : Tolerates T C R W)
    [IsPreorder (Producer ω) R] (topic : String) (count : ℤ) (records : List ProducerRecord)
    (groups : Std.TreeMap ℤ (List ProducerRecord)) :
    Moves R (groupByPartition topic count records groups : Act (Producer ω) Error _) := by
  induction records generalizing groups with
  | nil => exact Moves.pure _
  | cons record rest ih =>
      refine Moves.bind_get fun p => ?_
      rcases p.partitioner.partitionFor record.key count p.roundRobin with ⟨_ | partition, next⟩
      · exact moves_bind_at (h.roundRobin p next) fun _ s' _ => Moves.throw _ s'
      · exact moves_bind_at (h.roundRobin p next) fun _ s' _ => ih _ s'

/-- `R` puts up with the numbering of batches, too. -/
structure Numbers (T : Transport ω) (C : Cluster ω → Cluster ω → Prop)
    (R : Producer ω → Producer ω → Prop) (W : Frame → Prop) : Prop extends Tolerates T C R W where
  sequences : ∀ p sequences, R p { p with state := { p.state with sequences } }

namespace Numbers

variable {R : Producer ω → Producer ω → Prop} {W : Frame → Prop} {T : Transport ω}
  {C : Cluster ω → Cluster ω → Prop} (h : Numbers T C R W)

include h

theorem allocate (tp : TopicPartition) (count : ℤ) :
    Moves R (onState (ProducerState.allocate tp count) : Act (Producer ω) Error SequenceRange) := by
  intro p
  rw [onState, mapError_apply, zoom_apply]
  rcases ProducerState.allocate_cases tp count p.state with ⟨_, heq⟩ | ⟨_, e, heq⟩
  · rw [heq]
    exact h.sequences p _
  · rw [heq]
    exact h.state p _ (.inl rfl) rfl

theorem encodeFor [IsPreorder (Producer ω) R] [IsPreorder (Cluster ω) C] (tp : TopicPartition)
    (records : List ProducerRecord) : Moves R (encodeFor T tp records) := by
  refine Moves.ite (Moves.throw _) ?_
  exact Moves.bind (h.allocate tp _) fun range => h.encodeBatch records range

end Numbers

/-! The window leaves requests outstanding between its operations; about these
only the frames written are stated. -/

namespace Bears

variable {R : Producer ω → Producer ω → Prop} {W : Frame → Prop} {T : Transport ω}
  (h : Bears T (Appends Cluster.sent W) R W)

include h

theorem sendAt {addr : String} {version : ℤ} {req : Request}
    (hreq : ∀ f : Frame, f.request = req → W f) :
    Moves R (Producer.onCluster (Cluster.sendAt T addr version req)) :=
  h.onCluster ((Cluster.carries_appends h.permits.plumbing).sendAt T hreq addr)

variable [IsPreorder (Producer ω) R]

theorem collectWindow (round : ℕ) (rounds : Window) : Moves R (collectWindow T round rounds) := by
  induction rounds generalizing round with
  | nil => exact Moves.pure _
  | cons sent rest ih =>
      refine Moves.bind (h.onCluster ((Cluster.carries_appends h.permits.plumbing).recvMany T _ _ _))
        fun responses => ?_
      refine Moves.bind (Moves.modify fun p => h.offsets p _) fun _ => ?_
      exact Moves.bind (ih _) fun _ => Moves.pure _

section Sending

variable (hW : ∀ f, W f)

include hW

theorem sendRound (round : ℕ) (targets sent : List RoundTarget) :
    Moves R (sendRound T round targets sent) := by
  induction targets generalizing sent with
  | nil => exact Moves.pure _
  | cons target rest ih =>
      refine Moves.bind Moves.get fun p => Moves.ite (ih _) ?_
      refine Moves.bind (Moves.attempt (h.sendAt fun f _ => hW f)) fun outcome => ?_
      cases outcome with
      | ok _ => exact ih _
      | error e => exact Moves.pure _

theorem sendWindow (byBroker : ByBroker) (left round : ℕ) (rounds : Window) :
    Moves R (sendWindow T byBroker left round rounds) := by
  induction left generalizing round rounds with
  | zero => exact Moves.pure _
  | succ left ih =>
      refine Moves.bind (h.sendRound hW round _ _) fun outcome => ?_
      obtain ⟨sent, _ | e⟩ := outcome
      · exact Moves.ite (Moves.pure _) (ih _ _)
      · exact Moves.bind (h.collectWindow _ _) fun _ => Moves.throw _

/-- The part of `flush` that sends, for an `R` that puts up with letting go of the batches
that were accepted. -/
theorem attempts (hretire : ∀ failedAt answers p, R p (retire failedAt answers p).2)
    (hretain : Moves R (retainQueued : Act (Producer ω) Error Unit))
    (written : List (TopicPartition × ℤ)) :
    Moves R (Act.attempts (flushOnce T) (fun _ => do throw (← get).stillPending) maxRetries 0
      written) := by
  refine Moves.attempts (fun attempt written => ?_)
    (fun _ => Moves.bind Moves.get fun _ => Moves.throw _) _ _ _
  refine Moves.bind hretain fun _ => Moves.bind Moves.get fun p => Moves.ite (Moves.pure _) ?_
  refine Moves.bind (h.route _ _) fun routes => ?_
  refine Moves.ite (Moves.ite (Moves.throw _) ?_) ?_
  · exact Moves.bind (h.backoff attempt) fun _ => Moves.pure _
  · refine Moves.bind (h.sendWindow hW _ _ _ _) fun rounds => ?_
    refine Moves.bind (h.collectWindow _ _) fun collected => ?_
    obtain ⟨outcomes, _ | e⟩ := collected
    · refine Moves.bind (h.judge _ _) fun verdict => ?_
      refine Moves.bind (hretire verdict.failedAt (inOrder outcomes)) fun more => ?_
      refine Moves.bind hretain fun _ => Moves.bind Moves.get fun p => Moves.ite (Moves.pure _) ?_
      refine Moves.bind (h.refreshTopics _) fun _ => ?_
      exact Moves.bind (h.backoff attempt) fun _ => Moves.pure _
    · exact h.abandonWindow attempt written e

end Sending

end Bears

/-- `enqueue`, for an `R` that puts up with the numbers and the queues. -/
theorem Bears.enqueue {R : Producer ω → Producer ω → Prop} {W : Frame → Prop} {T : Transport ω}
    {C : Cluster ω → Cluster ω → Prop} (h : Bears T C R W) [IsPreorder (Producer ω) R]
    [IsPreorder (Cluster ω) C] (hadd : ∀ f req, f.request = .addPartitionsToTxn req → W f)
    (hsequences : ∀ p sequences, R p { p with state := { p.state with sequences } })
    (hqueued : ∀ p pending numbered, R p { p with pending, numbered })
    (tp : TopicPartition) (records : List ProducerRecord) : Moves R (enqueue T tp records) := by
  have hallocate : Moves R (onState (ProducerState.allocate tp records.length) :
      Act (Producer ω) Error SequenceRange) := by
    intro p
    rw [onState, mapError_apply, zoom_apply]
    rcases ProducerState.allocate_cases tp records.length p.state with ⟨_, heq⟩ | ⟨_, e, heq⟩
    · rw [heq]
      exact hsequences p _
    · rw [heq]
      exact h.state p _ (.inl rfl) rfl
  refine Moves.ite (Moves.pure _) (Moves.bind (h.enrollAll hadd _ _) fun _ => ?_)
  refine Moves.bind (Moves.ite (Moves.throw _) ?_) fun batch => Moves.modify fun p => hqueued p _ _
  exact Moves.bind hallocate fun range => h.encodeBatch records range

/-! ### What the maps of a producer can come to hold -/

theorem StagedFilled.erase {p : Producer ω} (h : p.StagedFilled) (tp : TopicPartition) :
    StagedFilled { p with staged := p.staged.erase tp } := by
  intro tp' staged hstaged
  rw [Std.TreeMap.getElem?_erase] at hstaged
  split at hstaged
  · cases hstaged
  · exact h tp' staged hstaged

theorem StagedFilled.insert {p : Producer ω} (h : p.StagedFilled) (tp : TopicPartition)
    {staged : Staged} (hstaged : staged.records ≠ []) :
    StagedFilled { p with staged := p.staged.insert tp staged } := by
  intro tp' found hget
  rw [Std.TreeMap.getElem?_insert] at hget
  split at hget
  · cases hget
    exact hstaged
  · exact h tp' found hget

/-- A request of the window carries only records that are queued. -/
theorem queues_of_carries {p : Producer ω} {keys : List TopicPartition} {round : ℕ}
    {r : ProducerRecord} (h : (Request.produce (p.produceRequest keys round)).Carries r) :
    p.Queues r := by
  obtain ⟨_, heq, topic, htopic, entry, hentry, hr⟩ := h
  cases heq
  obtain ⟨tp, _, hbatch⟩ := List.mem_filterMap.mp (mem_byTopic htopic hentry)
  obtain ⟨batch, hget, hpair⟩ := Option.map_eq_some_iff.mp hbatch
  cases hpair
  exact ⟨_, _, List.mem_of_getElem? hget, hr⟩

theorem mem_of_retireOne {failedAt : PartitionMap ℕ} {offsets : List ((TopicPartition × ℕ) × ℤ)}
    {state : PartitionMap (List Batch) × List (TopicPartition × ℤ)}
    {answer : ℕ × TopicPartition × ErrorCode} {tp : TopicPartition} {batch : Batch}
    (h : batch ∈ (retireOne failedAt offsets state answer).1.getD tp []) :
    batch ∈ state.1.getD tp [] := by
  obtain ⟨pending, written⟩ := state
  obtain ⟨round, tp', code⟩ := answer
  rw [retireOne] at h
  split at h
  · exact h
  · split at h
    · rename_i hget
      rw [Std.TreeMap.getD_insert] at h
      split at h
      · rename_i heq
        rw [Std.LawfulEqCmp.compare_eq_iff_eq] at heq
        subst heq
        rw [Std.TreeMap.getD_eq_getD_getElem?, hget]
        exact List.mem_cons_of_mem _ h
      · exact h
    · exact h

theorem queues_of_retire {failedAt : PartitionMap ℕ}
    {answers : List (ℕ × TopicPartition × ErrorCode)} {p : Producer ω} {r : ProducerRecord}
    (h : (retire failedAt answers p).2.Queues r) : p.Queues r := by
  obtain ⟨tp, batch, hbatch, hr⟩ := h
  refine ⟨tp, batch, ?_, hr⟩
  have hfold : ∀ (state : PartitionMap (List Batch) × List (TopicPartition × ℤ)),
      batch ∈ (answers.foldl (retireOne failedAt p.offsets) state).1.getD tp [] →
        batch ∈ state.1.getD tp [] := by
    clear hbatch
    induction answers with
    | nil => exact fun _ h => h
    | cons answer rest ih => exact fun state h => mem_of_retireOne (ih _ h)
  exact hfold (p.pending, []) hbatch

theorem queues_of_retain {p : Producer ω} {r : ProducerRecord}
    (h : Queues { p with pending := p.pending.filter fun _ queue => !queue.isEmpty } r) :
    p.Queues r := by
  obtain ⟨tp, batch, hbatch, hr⟩ := h
  refine ⟨tp, batch, ?_, hr⟩
  rw [Std.TreeMap.getD_eq_getD_getElem?, Std.TreeMap.getElem?_filter'] at hbatch
  rw [Std.TreeMap.getD_eq_getD_getElem?]
  rcases hget : p.pending[tp]? with _ | queue
  · rw [hget] at hbatch
    exact hbatch
  · rw [hget, Option.filter_some] at hbatch
    split at hbatch
    · exact hbatch
    · simp at hbatch

/-! ### Feeding -/

/-- Everything the producer holds is in `N`. -/
structure Bounded (N : ProducerRecord → Prop) (p : Producer ω) : Prop where
  filled : p.StagedFilled
  held : ∀ r, p.Holds r → N r

/-- The frames a producer may write that holds nothing outside `N` and ends no
transaction. -/
def Fed (N : ProducerRecord → Prop) (f : Frame) : Prop :=
  f.request.apiKey ≠ .endTxn ∧ ∀ r, f.request.Carries r → N r

/-- What became of a producer that held nothing outside `N`. -/
structure Feeds (N : ProducerRecord → Prop) (p p' : Producer ω) : Prop where
  bounded : Bounded N p'
  sent : Appends sent (Fed N) p p'
  txn : p'.state.txn = p.state.txn ∨ p'.state.txn = .fatal

def Feeding (N : ProducerRecord → Prop) (p p' : Producer ω) : Prop := Bounded N p → Feeds N p p'

variable {N : ProducerRecord → Prop}

instance : IsPreorder (Producer ω) (Feeding N) where
  refl _ h := ⟨h, .of_eq rfl, .inl rfl⟩
  trans _ _ _ h h' hb := by
    have hfirst := h hb
    have hsecond := h' hfirst.bounded
    refine ⟨hsecond.bounded, hfirst.sent.trans hsecond.sent, ?_⟩
    rcases hsecond.txn with htxn | htxn
    · rw [htxn]
      exact hfirst.txn
    · exact .inr htxn

/-- Steps that touch neither the stage nor the queues. -/
theorem feeding_of_same {p p' : Producer ω} (hstaged : p'.staged = p.staged)
    (hpending : p'.pending = p.pending) (hsent : Appends sent (Fed N) p p')
    (htxn : p'.state.txn = p.state.txn ∨ p'.state.txn = .fatal) : Feeding N p p' := by
  intro hb
  refine ⟨⟨?_, ?_⟩, hsent, htxn⟩
  · intro tp staged hget
    rw [hstaged] at hget
    exact hb.filled tp staged hget
  · rintro r (⟨tp, staged, hget, hr⟩ | ⟨tp, batch, hbatch, hr⟩)
    · rw [hstaged] at hget
      exact hb.held r (.inl ⟨tp, staged, hget, hr⟩)
    · rw [hpending] at hbatch
      exact hb.held r (.inr ⟨tp, batch, hbatch, hr⟩)

theorem tolerates_feeding {T : Transport ω} :
    Tolerates T (Appends Cluster.sent (Fed N)) (Feeding N) (Fed N) where
  permits := by
    refine Cluster.permits_appends T fun f hf => ⟨?_, fun r hr => absurd hf hr.not_plumbing⟩
    intro hkey
    cases hreq : f.request <;> simp_all [Request.isPlumbing, Request.apiKey]
  cluster _ _ h := feeding_of_same rfl rfl h (.inl rfl)
  coordinator _ _ := feeding_of_same rfl rfl (.of_eq rfl) (.inl rfl)
  state _ _ h _ := feeding_of_same rfl rfl (.of_eq rfl) h
  offsets _ _ := feeding_of_same rfl rfl (.of_eq rfl) (.inl rfl)
  roundRobin _ _ := feeding_of_same rfl rfl (.of_eq rfl) (.inl rfl)

theorem numbers_feeding {T : Transport ω} :
    Numbers T (Appends Cluster.sent (Fed N)) (Feeding N) (Fed N) where
  toTolerates := tolerates_feeding
  sequences _ _ := feeding_of_same rfl rfl (.of_eq rfl) (.inl rfl)

/-- Steps that only let go of pending batches. -/
theorem feeding_of_pending {p : Producer ω} {pending : PartitionMap (List Batch)}
    {offsets : List ((TopicPartition × ℕ) × ℤ)} {numbered : List (TopicPartition × Batch)}
    (h : ∀ r, Queues { p with pending, offsets, numbered } r → p.Queues r ∨ N r) :
    Feeding N p { p with pending, offsets, numbered } := by
  intro hb
  refine ⟨⟨hb.filled, ?_⟩, .of_eq rfl, .inl rfl⟩
  rintro r (hstages | hqueues)
  · exact hb.held r (.inl hstages)
  · rcases h r hqueues with hqueues | hr
    · exact hb.held r (.inr hqueues)
    · exact hr

section

variable (T : Transport ω)

theorem fed_of_apiKey {f : Frame} (hend : f.request.apiKey ≠ .endTxn)
    (hproduce : f.request.apiKey ≠ .produce) : Fed N f := by
  refine ⟨hend, ?_⟩
  rintro r ⟨produce, heq, _⟩
  simp [heq, Request.apiKey] at hproduce

/-- What `encodeBatch` can do: it reads the clock, and yields the records under
the range it was given. -/
theorem encodeBatch_cases (records : List ProducerRecord) (range : SequenceRange)
    (p : Producer ω) :
    ∃ c, c.wire.sent = p.cluster.wire.sent ∧
      ((∃ identity now, p.state.identity = some identity ∧ encodeBatch T records range p =
          (.ok ⟨records, range, identity, p.transactionalId.isSome, now, p.compression⟩,
            { p with cluster := c })) ∨
        ∃ e, encodeBatch T records range p = (.error e, { p with cluster := c })) := by
  rw [encodeBatch, bind_of_ok (get_apply p)]
  rcases hid : p.state.identity with _ | identity
  · exact ⟨p.cluster, rfl, .inr ⟨_, rfl⟩⟩
  · have hrequired : (required "producer id" (some identity) : Act (Producer ω) Error _) p =
        (.ok identity, p) := rfl
    have hclock : (onCluster (Cluster.onEnv T.systemTime) : Act (Producer ω) Error ℤ) p =
        (.ok (T.systemTime p.cluster.wire.env).1,
          { p with cluster := (Cluster.onEnv (ε := Error) T.systemTime p.cluster).2 }) := rfl
    rw [bind_of_ok hrequired, bind_of_ok hclock]
    refine ⟨(Cluster.onEnv (ε := Error) T.systemTime p.cluster).2, rfl, ?_⟩
    rcases henc : T.codec.encodeRecords (Batch.encoded ⟨records, range, identity,
      p.transactionalId.isSome, (T.systemTime p.cluster.wire.env).1, p.compression⟩)
      p.compression with e | _
    · exact .inr ⟨_, rfl⟩
    · exact .inl ⟨identity, _, rfl, rfl⟩

theorem encodeBatch_records {records : List ProducerRecord} {range : SequenceRange}
    {p p' : Producer ω} {batch : Batch} (h : encodeBatch T records range p = (.ok batch, p')) :
    batch.records = records := by
  obtain ⟨c, _, ⟨identity, now, _, heq⟩ | ⟨e, heq⟩⟩ := encodeBatch_cases T records range p
  · rw [heq] at h
    cases h
    rfl
  · rw [heq] at h
    cases h

theorem encodeFor_records {tp : TopicPartition} {records : List ProducerRecord}
    {p p' : Producer ω} {batch : Batch} (h : encodeFor T tp records p = (.ok batch, p')) :
    batch.records = records := by
  unfold encodeFor at h
  split at h
  · cases h
  · rw [bind_apply] at h
    split at h
    · exact encodeBatch_records T h
    · cases h

theorem feeding_enqueue (tp : TopicPartition) {records : List ProducerRecord}
    (hrecords : ∀ r ∈ records, N r) : Moves (Feeding N) (enqueue T tp records) := by
  refine Moves.ite (Moves.pure _) ?_
  refine Moves.bind (tolerates_feeding.enrollAll ?_ _ _) fun _ => ?_
  · intro f req hf
    exact fed_of_apiKey (by simp [hf, Request.apiKey]) (by simp [hf, Request.apiKey])
  · refine Moves.bind_of (numbers_feeding.encodeFor tp records)
      (fun _ _ _ h => encodeFor_records T h) fun batch hbatch => ?_
    refine Moves.modify fun p => feeding_of_pending fun r hr => ?_
    obtain ⟨tp', batch', hmem, hr⟩ := hr
    rw [Std.TreeMap.getD_insert] at hmem
    split at hmem
    · rename_i heq
      rw [Std.LawfulEqCmp.compare_eq_iff_eq] at heq
      subst heq
      rcases List.mem_append.mp hmem with hmem | hmem
      · exact .inl ⟨tp, batch', hmem, hr⟩
      · rw [List.mem_singleton] at hmem
        subst hmem
        exact .inr (hrecords r (hbatch ▸ hr))
    · exact .inl ⟨tp', batch', hmem, hr⟩

theorem feeding_enqueueTaken (tp : TopicPartition) {records : List ProducerRecord}
    (hrecords : ∀ r ∈ records, N r) : Moves (Feeding N) (enqueueTaken T tp records) := by
  refine Moves.bind (Moves.attempt (feeding_enqueue T tp hrecords)) fun outcome => ?_
  cases outcome with
  | ok _ => exact Moves.pure _
  | error e =>
      refine Moves.bind (Moves.modify fun p => ?_) fun _ => Moves.throw _
      exact feeding_of_same rfl rfl (.of_eq rfl) (.inl rfl)

theorem feeding_unstage (p : Producer ω) (tp : TopicPartition) :
    Feeding N p { p with staged := p.staged.erase tp } := by
  intro hb
  refine ⟨⟨hb.filled.erase tp, ?_⟩, .of_eq rfl, .inl rfl⟩
  rintro r (⟨tp', staged, hget, hr⟩ | hqueues)
  · rw [Std.TreeMap.getElem?_erase] at hget
    split at hget
    · cases hget
    · exact hb.held r (.inl ⟨tp', staged, hget, hr⟩)
  · exact hb.held r (.inr hqueues)

theorem feeding_enqueueStaged (tps : List TopicPartition) :
    Moves (Feeding N) (enqueueStaged T tps) := by
  induction tps with
  | nil => exact Moves.pure _
  | cons tp rest ih =>
      rw [enqueueStaged]
      refine Moves.bind_get fun p hb => ?_
      rcases hstaged : p.staged[tp]? with _ | staged
      · exact ih p hb
      · have htaken : ∀ r ∈ staged.records, N r := fun r hr =>
          hb.held r (.inl ⟨tp, staged, hstaged, hr⟩)
        refine moves_bind_at (R := Feeding N) (feeding_unstage p tp) (fun _ p' _ => ?_) hb
        exact Moves.bind (feeding_enqueueTaken T tp htaken) (fun _ => ih) p'

theorem feeding_retainQueued : Moves (Feeding N) (retainQueued : Act (Producer ω) Error Unit) :=
  Moves.modify fun _ => feeding_of_pending fun _ hr => .inl (queues_of_retain hr)

theorem feeding_sendRound (round : ℕ) (targets sent : List RoundTarget) :
    Moves (Feeding N) (sendRound T round targets sent) := by
  induction targets generalizing sent with
  | nil => exact Moves.pure _
  | cons target rest ih =>
      obtain ⟨addr, keys⟩ := target
      refine Moves.bind_get fun p hb => ?_
      by_cases htaking : (keys.filter fun tp => round < (p.pending.getD tp []).length) = []
      · rw [if_pos htaking]
        exact ih sent p hb
      · rw [if_neg htaking]
        have hfed : ∀ f : Frame, f.request = .produce (p.produceRequest
            (keys.filter fun tp => round < (p.pending.getD tp []).length) round) → Fed N f := by
          intro f hf
          refine ⟨by simp [hf, Request.apiKey], fun r hr => hb.held r (.inr ?_)⟩
          rw [hf] at hr
          exact queues_of_carries hr
        refine moves_bind_at (R := Feeding N) (Moves.attempt (tolerates_feeding.sendAt hfed) p)
          (fun outcome p' _ => ?_) hb
        cases outcome with
        | ok _ => exact ih _ p'
        | error e => exact Moves.pure _ p'

theorem feeding_sendWindow (byBroker : ByBroker) (left round : ℕ) (rounds : Window) :
    Moves (Feeding N) (sendWindow T byBroker left round rounds) := by
  induction left generalizing round rounds with
  | zero => exact Moves.pure _
  | succ left ih =>
      refine Moves.bind (feeding_sendRound T round _ _) fun outcome => ?_
      obtain ⟨sent, _ | e⟩ := outcome
      · exact Moves.ite (Moves.pure _) (ih _ _)
      · exact Moves.bind (tolerates_feeding.collectWindow _ _) fun _ => Moves.throw _

theorem feeding_settleWindow (attempt : ℕ) (written : List (TopicPartition × ℤ))
    (outcomes : List (List (TopicPartition × ErrorCode))) :
    Moves (Feeding N) (settleWindow T attempt written outcomes) := by
  refine Moves.bind ((tolerates_feeding (T := T)).judge _ _) fun verdict => ?_
  refine Moves.bind ?_ fun more => ?_
  · exact fun p => feeding_of_pending fun _ hr => .inl (queues_of_retire hr)
  · refine Moves.bind feeding_retainQueued fun _ => Moves.bind Moves.get fun p => ?_
    refine Moves.ite (Moves.pure _) ?_
    refine Moves.bind (tolerates_feeding.refreshTopics _) fun _ => ?_
    exact Moves.bind (tolerates_feeding.backoff attempt) fun _ => Moves.pure _

theorem feeding_flushOnce (attempt : ℕ) (written : List (TopicPartition × ℤ)) :
    Moves (Feeding N) (flushOnce T attempt written) := by
  refine Moves.bind feeding_retainQueued fun _ => Moves.bind Moves.get fun p => ?_
  refine Moves.ite (Moves.pure _) ?_
  refine Moves.bind (tolerates_feeding.route _ _) fun routes => ?_
  refine Moves.ite (Moves.ite (Moves.throw _) ?_) ?_
  · exact Moves.bind (tolerates_feeding.backoff attempt) fun _ => Moves.pure _
  · refine Moves.bind (feeding_sendWindow T _ _ _ _) fun rounds => ?_
    refine Moves.bind (tolerates_feeding.collectWindow _ _) fun collected => ?_
    obtain ⟨outcomes, _ | e⟩ := collected
    · exact feeding_settleWindow T attempt written outcomes
    · exact tolerates_feeding.abandonWindow attempt written e

theorem feeding_flush : Moves (Feeding N) (flush T) := by
  refine Moves.bind (Moves.bind_get fun p => feeding_enqueueStaged T p.staged.keys p) fun _ => ?_
  refine Moves.attempts (feeding_flushOnce T) (fun _ => ?_) _ _ _
  exact Moves.bind Moves.get fun p => Moves.throw _

theorem feeding_sendReady : Moves (Feeding N) (sendReady T) := by
  refine Moves.bind ((tolerates_feeding (T := T)).onCluster tolerates_feeding.permits.now) fun now => ?_
  refine Moves.bind Moves.get fun p => Moves.ite (Moves.pure _) ?_
  refine Moves.bind (feeding_enqueueStaged T _) fun _ => ?_
  exact Moves.bind (feeding_flush T) fun _ => Moves.pure _

theorem stageFor_cases (tp : TopicPartition) (p : Producer ω) :
    ∃ staged c, c.wire.sent = p.cluster.wire.sent ∧
      stageFor T tp p = (.ok staged, { p with cluster := c }) ∧
        (p.staged[tp]? = some staged ∨ p.staged[tp]? = none ∧ staged.records = []) := by
  rw [stageFor, bind_of_ok (get_apply p)]
  rcases hget : p.staged[tp]? with _ | staged
  · exact ⟨⟨[], 0, _⟩, (Cluster.now (ε := Error) T p.cluster).2, rfl, rfl, .inr ⟨rfl, rfl⟩⟩
  · exact ⟨staged, p.cluster, rfl, rfl, .inl rfl⟩

/-- Staging one more record of `N`. -/
theorem feeding_stage {p : Producer ω} {tp : TopicPartition} {staged : Staged}
    (hne : staged.records ≠ []) (hrecords : ∀ r ∈ staged.records, p.Stages r ∨ N r) :
    Feeding N p { p with staged := p.staged.insert tp staged } := by
  intro hb
  refine ⟨⟨hb.filled.insert tp hne, ?_⟩, .of_eq rfl, .inl rfl⟩
  rintro r (⟨tp', found, hget, hr⟩ | hqueues)
  · rw [Std.TreeMap.getElem?_insert] at hget
    split at hget
    · cases hget
      rcases hrecords r hr with hstages | hr
      · exact hb.held r (.inl hstages)
      · exact hr
    · exact hb.held r (.inl ⟨tp', found, hget, hr⟩)
  · exact hb.held r (.inr hqueues)

theorem feeding_produceTo (tp : TopicPartition) {record : ProducerRecord} (hrecord : N record) :
    Moves (Feeding N) (produceTo T tp record) := by
  intro p
  obtain ⟨staged, c, hsent, hstage, hold⟩ := stageFor_cases T tp p
  refine moves_bind_at (tolerates_feeding.stageFor tp p) fun staged' p' hp' => ?_
  rw [hstage] at hp'
  cases hp'
  refine moves_bind_at (feeding_stage (by simp) fun r hr => ?_) fun _ p' _ => feeding_sendReady T p'
  rcases List.mem_append.mp hr with hr | hr
  · rcases hold with hold | ⟨_, hnil⟩
    · exact .inl ⟨tp, staged, hold, hr⟩
    · rw [hnil] at hr
      cases hr
  · rw [List.mem_singleton] at hr
    exact .inr (hr ▸ hrecord)

/-- Grouping hands on only the records it was given. -/
theorem groupByPartition_mem {topic : String} {count : ℤ} {records : List ProducerRecord}
    {groups groups' : Std.TreeMap ℤ (List ProducerRecord)} {p p' : Producer ω}
    (heq : groupByPartition topic count records groups p = (.ok groups', p'))
    (hrecords : ∀ r ∈ records, N r) (hgroups : ∀ group ∈ groups.toList, ∀ r ∈ group.2, N r) :
    ∀ group ∈ groups'.toList, ∀ r ∈ group.2, N r := by
  intro group hgroup r hr
  have hin : r ∈ gathered (fun _ r => r) groups' :=
    List.mem_flatMap.mpr ⟨group, hgroup, by simpa using hr⟩
  rcases List.mem_append.mp ((gathered_groupByPartition heq).mem_iff.mp hin) with hold | hnew
  · obtain ⟨old, hmem, hr⟩ := List.mem_flatMap.mp hold
    exact hgroups old hmem r (by simpa using hr)
  · exact hrecords r hnew

theorem feeding_enqueueGroups (topic : String) {groups : List (ℤ × List ProducerRecord)}
    (hgroups : ∀ group ∈ groups, ∀ r ∈ group.2, N r) :
    Moves (Feeding N) (enqueueGroups T topic groups) := by
  induction groups with
  | nil => exact Moves.pure _
  | cons group rest ih =>
      refine Moves.bind (feeding_enqueue T _ (hgroups group List.mem_cons_self)) fun _ => ?_
      exact ih fun group hgroup => hgroups group (List.mem_cons_of_mem _ hgroup)

theorem feeding_sendKeyed (topic : String) {records : List ProducerRecord}
    (hrecords : ∀ r ∈ records, N r) : Moves (Feeding N) (sendKeyed T topic records) := by
  refine Moves.ite (Moves.pure _) ?_
  refine Moves.bind (tolerates_feeding.partitionCountWaiting topic) fun count => ?_
  refine Moves.bind_of ((tolerates_feeding (T := T)).groupByPartition topic count records ∅)
    (fun _ _ _ h => groupByPartition_mem h hrecords (by simp)) fun groups hgroups => ?_
  refine Moves.bind (tolerates_feeding.enrollAll ?_ _ _) fun _ => ?_
  · intro f req hf
    exact fed_of_apiKey (by simp [hf, Request.apiKey]) (by simp [hf, Request.apiKey])
  · refine Moves.bind (feeding_enqueueGroups T topic hgroups) fun _ => ?_
    exact Moves.bind (feeding_flush T) fun _ => Moves.pure _

/-- Every call but those that open or end a transaction is feeding. -/
theorem feeding_exec {call : Call} (hbegin : call ≠ .beginTransaction)
    (hcommit : call ≠ .commitTransaction) (habort : call ≠ .abortTransaction)
    (hrecords : ∀ r ∈ call.records, N r) : Moves (Feeding N) (call.exec T) := by
  cases call with
  | beginTransaction => exact absurd rfl hbegin
  | commitTransaction => exact absurd rfl hcommit
  | abortTransaction => exact absurd rfl habort
  | sendOffsetsToTransaction offsets metadata =>
      refine tolerates_feeding.sendOffsetsToTransaction offsets metadata ?_ ?_
      · intro f req hf
        exact fed_of_apiKey (by simp [hf, Request.apiKey]) (by simp [hf, Request.apiKey])
      · intro f req hf
        exact fed_of_apiKey (by simp [hf, Request.apiKey]) (by simp [hf, Request.apiKey])
  | produce topic record =>
      refine Moves.bind (tolerates_feeding.partitionFor topic record.key) fun partition => ?_
      exact feeding_produceTo T _ (hrecords record List.mem_cons_self)
  | produceTo tp record => exact feeding_produceTo T tp (hrecords record List.mem_cons_self)
  | enqueue tp records => exact feeding_enqueue T tp hrecords
  | send tp records =>
      refine Moves.bind (Moves.ite (Moves.pure _) ?_) fun _ => Moves.pure _
      refine Moves.bind (feeding_enqueue T tp hrecords) fun _ => ?_
      exact Moves.bind (feeding_flush T) fun _ => Moves.pure _
  | sendKeyed topic records =>
      exact Moves.bind (feeding_sendKeyed T topic hrecords) fun _ => Moves.pure _
  | tick => exact feeding_sendReady T
  | flush => exact Moves.bind (feeding_flush T) fun _ => Moves.pure _
  | setPartitioner _ =>
      exact Moves.modify fun _ => feeding_of_same rfl rfl (.of_eq rfl) (.inl rfl)
  | setCompression _ =>
      exact Moves.modify fun _ => feeding_of_same rfl rfl (.of_eq rfl) (.inl rfl)
  | setMetadataMaxAge _ =>
      exact Moves.modify fun _ => feeding_of_same rfl rfl (.of_eq rfl) (.inl rfl)
  | setLinger _ => exact Moves.modify fun _ => feeding_of_same rfl rfl (.of_eq rfl) (.inl rfl)
  | setBatchSize _ => exact Moves.modify fun _ => feeding_of_same rfl rfl (.of_eq rfl) (.inl rfl)
  | setMaxInFlight _ => exact Moves.modify fun _ => feeding_of_same rfl rfl (.of_eq rfl) (.inl rfl)

/-! ### A fresh producer -/

/-- The parts of a producer that its constructors leave as they set them up. -/
structure SameQueues (p p' : Producer ω) : Prop where
  staged : p'.staged = p.staged
  pending : p'.pending = p.pending
  dropped : p'.dropped = p.dropped
  maxInFlight : p'.maxInFlight = p.maxInFlight
  transactionalId : p'.transactionalId = p.transactionalId

instance : IsPreorder (Producer ω) SameQueues where
  refl _ := ⟨rfl, rfl, rfl, rfl, rfl⟩
  trans _ _ _ h h' := ⟨h'.staged.trans h.staged, h'.pending.trans h.pending,
    h'.dropped.trans h.dropped, h'.maxInFlight.trans h.maxInFlight,
    h'.transactionalId.trans h.transactionalId⟩

theorem tolerates_sameQueues :
    Tolerates T (Appends Cluster.sent fun _ => True) SameQueues (fun _ => True) where
  permits := Cluster.permits_appends T fun _ _ => trivial
  cluster _ _ _ := ⟨rfl, rfl, rfl, rfl, rfl⟩
  coordinator _ _ := ⟨rfl, rfl, rfl, rfl, rfl⟩
  state _ _ _ _ := ⟨rfl, rfl, rfl, rfl, rfl⟩
  offsets _ _ := ⟨rfl, rfl, rfl, rfl, rfl⟩
  roundRobin _ _ := ⟨rfl, rfl, rfl, rfl, rfl⟩

theorem sameQueues_construct : Moves SameQueues (construct T) := by
  refine Moves.bind ((tolerates_sameQueues T).onCluster
    (tolerates_sameQueues T).permits.connect) fun _ => ?_
  refine Moves.bind Moves.get fun p => ?_
  refine Moves.bind ((tolerates_sameQueues T).coordinatorCall (fun _ _ => trivial) _ _ _) fun _ => ?_
  exact Moves.modify fun _ => ⟨rfl, rfl, rfl, rfl, rfl⟩

theorem sameQueues_of_started {p : Producer ω} (h : Started T p) :
    p.staged = ∅ ∧ p.pending = ∅ ∧ p.dropped = [] := by
  obtain ⟨env, bootstrap, clientId, hmade | ⟨transactionalId, hmade⟩⟩ := h
  · have hsame := sameQueues_construct T (new (.new env bootstrap clientId) .idempotent none)
    rw [← idempotent, hmade] at hsame
    exact ⟨hsame.staged, hsame.pending, hsame.dropped⟩
  · have hsame := sameQueues_construct T
      (new (.new env bootstrap clientId) .transactional (some transactionalId))
    rw [← transactional, hmade] at hsame
    exact ⟨hsame.staged, hsame.pending, hsame.dropped⟩

theorem bounded_of_started {p : Producer ω} (h : Started T p) : Bounded N p := by
  obtain ⟨hstaged, hpending, _⟩ := sameQueues_of_started T h
  refine ⟨?_, ?_⟩
  · intro tp staged hget
    simp [hstaged] at hget
  · rintro r (⟨tp, staged, hget, _⟩ | ⟨tp, batch, hbatch, _⟩)
    · simp [hstaged] at hget
    · simp [hpending] at hbatch

end

end Producer

end Barnabas.Client
