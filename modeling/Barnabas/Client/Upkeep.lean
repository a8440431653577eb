import Barnabas.Client.ProducerRules

/-!
What every call on a producer upholds.

A call stages records, queues batches, sends windows and makes the requests of a
transaction. A property of producers that looks at neither the stage nor the settings is
upheld by every public call, and so by every run, once it is upheld by those parts.
-/

namespace Barnabas.Client

open Barnabas.Lib Barnabas.Core Barnabas.Lib.Act

namespace Producer

variable {ω : Type} (T : Transport ω)

/-- The part of `flush` that sends. -/
def sends : Act (Producer ω) Error (List (TopicPartition × ℤ)) :=
  Act.attempts (flushOnce T) (fun _ => do throw (← get).stillPending) maxRetries 0 []

/-- Nothing differs but the stage, the settings and the turn of the round robin. -/
structure Alike (p p' : Producer ω) : Prop where
  cluster : ∃ age, p'.cluster = { p.cluster with metadataMaxAge := age }
  state : p'.state = p.state
  transactionalId : p'.transactionalId = p.transactionalId
  pending : p'.pending = p.pending
  numbered : p'.numbered = p.numbered
  maxInFlight : p'.maxInFlight = p.maxInFlight

/-- Queueing a batch upholds `S`, and what is staged does not matter to it. -/
structure UpheldByQueueing (S : Producer ω → Prop) : Prop where
  alike : ∀ p p', Alike p p' → S p → S p'
  enqueue : ∀ tp records, Moves (Preserves S) (enqueue T tp records)

/-- The parts that calls are made of uphold `S`. -/
structure Upholds (S : Producer ω → Prop) : Prop extends UpheldByQueueing T S where
  now : Moves (Preserves S) (onCluster (Cluster.now T) : Act (Producer ω) Error ℕ)
  partitionCountWaiting : ∀ topic, Moves (Preserves S) (partitionCountWaiting T topic)
  enrollAll : ∀ topic partitions, Moves (Preserves S) (enrollAll T topic partitions)
  sends : Moves (Preserves S) (sends T)
  beginTransaction : Moves (Preserves S) (beginTransaction : Act (Producer ω) Error Unit)
  endTransaction : ∀ committed, Moves (Preserves S) (endTransaction T committed)
  sendOffsetsToTransaction : ∀ offsets metadata,
    Moves (Preserves S) (sendOffsetsToTransaction T offsets metadata)

namespace UpheldByQueueing

variable {T} {S : Producer ω → Prop} (h : UpheldByQueueing T S)

include h

/-- Staging and taking out of the stage. -/
theorem staged (p : Producer ω) (staged : PartitionMap Staged) (dropped : List ProducerRecord) :
    S p → S { p with staged, dropped } :=
  h.alike _ _ ⟨⟨p.cluster.metadataMaxAge, rfl⟩, rfl, rfl, rfl, rfl, rfl⟩

theorem enqueueTaken (tp : TopicPartition) (records : List ProducerRecord) :
    Moves (Preserves S) (enqueueTaken T tp records) := by
  refine Moves.bind (Moves.attempt (h.enqueue tp records)) fun outcome => ?_
  cases outcome with
  | ok _ => exact Moves.pure _
  | error e => exact Moves.bind (Moves.modify fun p => h.staged p _ _) fun _ => Moves.throw _

theorem enqueueStaged (tps : List TopicPartition) : Moves (Preserves S) (enqueueStaged T tps) := by
  induction tps with
  | nil => exact Moves.pure _
  | cons tp rest ih =>
      refine Moves.bind_get fun p => ?_
      cases p.staged[tp]? with
      | none => exact ih p
      | some staged =>
          refine moves_bind_at (R := Preserves S) (h.staged p _ p.dropped) fun _ p' _ => ?_
          exact Moves.bind (h.enqueueTaken tp _) (fun _ => ih) p'

theorem enqueueGroups (topic : String) (groups : List (ℤ × List ProducerRecord)) :
    Moves (Preserves S) (enqueueGroups T topic groups) := by
  induction groups with
  | nil => exact Moves.pure _
  | cons group rest ih => exact Moves.bind (h.enqueue _ _) fun _ => ih

end UpheldByQueueing

namespace Upholds

variable {T} {S : Producer ω → Prop} (h : Upholds T S)

include h

theorem flush : Moves (Preserves S) (flush T) :=
  Moves.bind (Moves.bind Moves.get fun p => h.enqueueStaged p.staged.keys) fun _ => h.sends

theorem sendReady : Moves (Preserves S) (sendReady T) := by
  refine Moves.bind h.now fun now => Moves.bind Moves.get fun p => Moves.ite (Moves.pure _) ?_
  exact Moves.bind (h.enqueueStaged _) fun _ => Moves.bind h.flush fun _ => Moves.pure _

theorem stageFor (tp : TopicPartition) : Moves (Preserves S) (stageFor T tp) := by
  refine Moves.bind Moves.get fun p => ?_
  cases p.staged[tp]? with
  | some staged => exact Moves.pure _
  | none => exact Moves.bind h.now fun now => Moves.pure _

theorem produceTo (tp : TopicPartition) (record : ProducerRecord) :
    Moves (Preserves S) (produceTo T tp record) := by
  refine Moves.bind (h.stageFor tp) fun staged => ?_
  exact Moves.bind (Moves.modify fun p => h.staged p _ p.dropped) fun _ => h.sendReady

theorem partitionFor (topic : String) (key : Option Bytes) :
    Moves (Preserves S) (partitionFor T topic key) := by
  refine Moves.bind (h.partitionCountWaiting topic) fun count => Moves.bind Moves.get fun p => ?_
  cases (p.partitioner.partitionFor key count p.roundRobin).1 with
  | some partition => exact Moves.pure _
  | none => exact Moves.throw _

theorem roundRobin (p : Producer ω) (roundRobin : ℕ) : S p → S { p with roundRobin } :=
  h.alike _ _ ⟨⟨p.cluster.metadataMaxAge, rfl⟩, rfl, rfl, rfl, rfl, rfl⟩

theorem groupByPartition (topic : String) (count : ℤ) (records : List ProducerRecord)
    (groups : Std.TreeMap ℤ (List ProducerRecord)) :
    Moves (Preserves S) (groupByPartition topic count records groups :
      Act (Producer ω) Error (Std.TreeMap ℤ (List ProducerRecord))) := by
  induction records generalizing groups with
  | nil => exact Moves.pure _
  | cons record rest ih =>
      refine Moves.bind_get fun p => ?_
      rcases p.partitioner.partitionFor record.key count p.roundRobin with ⟨_ | partition, next⟩
      · exact moves_bind_at (R := Preserves S) (h.roundRobin p next) fun _ p' _ => Moves.throw _ p'
      · exact moves_bind_at (R := Preserves S) (h.roundRobin p next) fun _ p' _ => ih _ p'

theorem sendKeyed (topic : String) (records : List ProducerRecord) :
    Moves (Preserves S) (sendKeyed T topic records) := by
  refine Moves.ite (Moves.pure _) ?_
  refine Moves.bind (h.partitionCountWaiting topic) fun count => ?_
  refine Moves.bind (h.groupByPartition topic count records ∅) fun groups => ?_
  refine Moves.bind (h.enrollAll topic groups.keys) fun _ => ?_
  exact Moves.bind (h.enqueueGroups topic _) fun _ => Moves.bind h.flush fun _ => Moves.pure _

theorem send (tp : TopicPartition) (records : List ProducerRecord) :
    Moves (Preserves S) (send T tp records) := by
  refine Moves.ite (Moves.pure _) (Moves.bind (h.enqueue tp records) fun _ => ?_)
  exact Moves.bind h.flush fun _ => Moves.pure _

/-- Every public call, if another bound on the requests in flight does no harm. -/
theorem exec {call : Call} (hbound : ∀ bound, call = .setMaxInFlight bound →
      ∀ p : Producer ω, S p → S { p with maxInFlight := bound }) :
    Moves (Preserves S) (call.exec T) := by
  cases call with
  | beginTransaction => exact h.beginTransaction
  | commitTransaction => exact h.endTransaction true
  | abortTransaction => exact h.endTransaction false
  | sendOffsetsToTransaction offsets metadata => exact h.sendOffsetsToTransaction offsets metadata
  | produce topic record =>
      exact Moves.bind (h.partitionFor topic record.key) fun _ => h.produceTo _ record
  | produceTo tp record => exact h.produceTo tp record
  | enqueue tp records => exact h.enqueue tp records
  | send tp records => exact Moves.bind (h.send tp records) fun _ => Moves.pure _
  | sendKeyed topic records => exact Moves.bind (h.sendKeyed topic records) fun _ => Moves.pure _
  | tick => exact h.sendReady
  | flush => exact Moves.bind h.flush fun _ => Moves.pure _
  | setMaxInFlight bound => exact Moves.modify fun p => hbound bound rfl p
  | setMetadataMaxAge age =>
      exact Moves.modify fun p => h.alike _ _ ⟨⟨age, rfl⟩, rfl, rfl, rfl, rfl, rfl⟩
  | _ =>
      exact Moves.modify fun p =>
        h.alike _ _ ⟨⟨p.cluster.metadataMaxAge, rfl⟩, rfl, rfl, rfl, rfl, rfl⟩

end Upholds

end Producer

end Barnabas.Client
