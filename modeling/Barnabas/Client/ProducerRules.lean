import Barnabas.Client.Accounting

/-!
The rules for what a call on a producer can change of its connections.

Outside the window a producer only calls; in the window it writes several requests
before it reads an answer. A relation that is about the connections is carried through
every call once it is known of a single call and of a whole window.
-/

namespace Barnabas.Client

open Barnabas.Lib Barnabas.Core Barnabas.Lib.Act

namespace Producer

variable {ω : Type} (T : Transport ω)

/-! ### The connections alone -/

/-- Nothing but the cluster has changed. -/
def Aside (p p' : Producer ω) : Prop := ∃ cluster, p' = { p with cluster }

instance : IsPreorder (Producer ω) Aside where
  refl p := ⟨p.cluster, rfl⟩
  trans := by
    rintro p _ _ ⟨c, rfl⟩ ⟨c', rfl⟩
    exact ⟨c', rfl⟩

theorem aside_onCluster {ε α : Type} (m : Act (Cluster ω) ε α) :
    Moves Aside (onCluster m : Act (Producer ω) ε α) :=
  fun _ => ⟨_, rfl⟩

theorem aside_partitionCountWaiting (topic : String) :
    Moves Aside (partitionCountWaiting T topic) := by
  have hwait : ∀ attempt, Moves Aside (do
      backoff T attempt
      Pure.pure (.inl ()) : Act (Producer ω) Error (Unit ⊕ ℤ)) :=
    fun attempt => .bind (aside_onCluster _) fun _ => .pure _
  refine .attempts (fun attempt _ => ?_) (fun _ => .throw _) _ _ _
  refine .bind (.attempt (aside_onCluster _)) fun outcome => ?_
  cases outcome with
  | ok count => exact .ite (.pure _) (.ite (hwait attempt) (.throw _))
  | error e =>
      cases e with
      | noLeader _ _ => exact .ite (hwait attempt) (.throw _)
      | _ => exact .throw _

theorem aside_partitionFor (topic : String) (key : Option Bytes) :
    Moves Aside (partitionFor T topic key) := by
  refine .bind (aside_partitionCountWaiting T topic) fun count => .bind .get fun p => ?_
  cases (p.partitioner.partitionFor key count p.roundRobin).1 with
  | some partition => exact .pure _
  | none => exact .throw _

/-! ### The connections, across calls and windows -/

/-- A window from its first write to its last read. -/
def throughWindow (byBroker : ByBroker) (depth : ℕ) :
    Act (Producer ω) Error (List (List (TopicPartition × ErrorCode)) × Option Error) := do
  let rounds ← sendWindow T byBroker depth 0 []
  collectWindow T 0 rounds

/-- `R` is about the connections of a producer, and holds across calls and windows. -/
structure Confined (C : Cluster ω → Cluster ω → Prop) (R : Producer ω → Producer ω → Prop) :
    Prop where
  permits : Cluster.Permits T C fun _ => True
  cluster : ∀ p c, C p.cluster c → R p { p with cluster := c }
  inner : ∀ p p', p'.cluster = p.cluster → R p p'
  window : ∀ byBroker depth, Moves R (throughWindow T byBroker depth)

namespace Confined

variable {T} {C : Cluster ω → Cluster ω → Prop} {R : Producer ω → Producer ω → Prop}
  (h : Confined T C R)

include h

theorem tolerates : Tolerates T C R fun _ => True where
  permits := h.permits
  cluster := h.cluster
  coordinator p _ := h.inner p _ rfl
  state p _ _ _ := h.inner p _ rfl
  offsets p _ := h.inner p _ rfl
  roundRobin p _ := h.inner p _ rfl

theorem numbers : Numbers T C R fun _ => True where
  toTolerates := h.tolerates
  sequences p _ := h.inner p _ rfl

theorem modify {f : Producer ω → Producer ω} (hf : ∀ p, (f p).cluster = p.cluster) :
    Moves R (modify f : Act (Producer ω) Error PUnit) :=
  fun p => h.inner p _ (hf p)

theorem onState {α : Type} (m : Act ProducerState ProducerError α) : Moves R (onState m) :=
  fun p => h.inner p _ rfl

variable [IsPreorder (Producer ω) R] [IsPreorder (Cluster ω) C]

theorem endTransaction (committed : Bool) : Moves R (endTransaction T committed) := by
  refine Moves.bind (h.onState _) fun _ => Moves.bind Moves.get fun p => ?_
  refine Moves.bind (Moves.ofExcept _) fun _ => Moves.bind (Moves.ofExcept _) fun _ => ?_
  refine Moves.bind (h.tolerates.coordinatorCall (fun _ _ => trivial) _ _ _) fun _ => ?_
  exact h.modify fun _ => rfl

theorem enqueue (tp : TopicPartition) (records : List ProducerRecord) :
    Moves R (enqueue T tp records) := by
  refine Moves.ite (Moves.pure _) ?_
  refine Moves.bind (h.tolerates.enrollAll (fun _ _ _ => trivial) _ _) fun _ => ?_
  exact Moves.bind (h.numbers.encodeFor _ _) fun _ => h.modify fun _ => rfl

theorem enqueueTaken (tp : TopicPartition) (records : List ProducerRecord) :
    Moves R (enqueueTaken T tp records) := by
  refine Moves.bind (Moves.attempt (h.enqueue tp records)) fun outcome => ?_
  cases outcome with
  | ok _ => exact Moves.pure _
  | error e => exact Moves.bind (h.modify fun _ => rfl) fun _ => Moves.throw _

theorem enqueueStaged (tps : List TopicPartition) : Moves R (enqueueStaged T tps) := by
  induction tps with
  | nil => exact Moves.pure _
  | cons tp rest ih =>
      refine Moves.bind_get fun p => ?_
      cases p.staged[tp]? with
      | none => exact ih p
      | some staged =>
          refine moves_bind_at (h.inner p _ rfl) fun _ p' _ => ?_
          exact Moves.bind (h.enqueueTaken tp _) (fun _ => ih) p'

theorem settleWindow (attempt : ℕ) (written : List (TopicPartition × ℤ))
    (outcomes : List (List (TopicPartition × ErrorCode))) :
    Moves R (settleWindow T attempt written outcomes) := by
  refine Moves.bind (h.tolerates.judge _ _) fun verdict => ?_
  refine Moves.bind (fun p => h.inner p _ rfl) fun more => ?_
  refine Moves.bind (h.modify fun _ => rfl) fun _ => Moves.bind Moves.get fun p => ?_
  refine Moves.ite (Moves.pure _) ?_
  refine Moves.bind (h.tolerates.refreshTopics _) fun _ => ?_
  exact Moves.bind (h.tolerates.backoff attempt) fun _ => Moves.pure _

omit [IsPreorder (Cluster ω) C] in
/-- A window with what follows it. -/
theorem afterWindow {α : Type} (byBroker : ByBroker) (depth : ℕ)
    {next : List (List (TopicPartition × ErrorCode)) × Option Error → Act (Producer ω) Error α}
    (hnext : ∀ collected, Moves R (next collected)) :
    Moves R (do
      let rounds ← sendWindow T byBroker depth 0 []
      let collected ← collectWindow T 0 rounds
      next collected : Act (Producer ω) Error α) := by
  intro p
  have hwindow := h.window byBroker depth p
  rcases hsent : sendWindow T byBroker depth 0 [] p with ⟨e | rounds, p₁⟩
  · rw [throughWindow, bind_of_error hsent] at hwindow
    rw [bind_of_error hsent]
    exact hwindow
  · rw [throughWindow, bind_of_ok hsent] at hwindow
    rw [bind_of_ok hsent]
    rcases hcollected : collectWindow T 0 rounds p₁ with ⟨e | collected, p₂⟩
    · rw [hcollected] at hwindow
      rw [bind_of_error hcollected]
      exact hwindow
    · rw [hcollected] at hwindow
      rw [bind_of_ok hcollected]
      exact trans_of R hwindow (hnext collected p₂)

theorem flushOnce (attempt : ℕ) (written : List (TopicPartition × ℤ)) :
    Moves R (flushOnce T attempt written) := by
  refine Moves.bind (h.modify fun _ => rfl) fun _ => Moves.bind Moves.get fun p => ?_
  refine Moves.ite (Moves.pure _) ?_
  refine Moves.bind (h.tolerates.route _ _) fun routes => ?_
  refine Moves.ite (Moves.ite (Moves.throw _) ?_) ?_
  · exact Moves.bind (h.tolerates.backoff attempt) fun _ => Moves.pure _
  · refine h.afterWindow _ _ fun collected => ?_
    obtain ⟨outcomes, _ | e⟩ := collected
    · exact h.settleWindow attempt written outcomes
    · exact h.tolerates.abandonWindow attempt written e

theorem flush : Moves R (flush T) := by
  refine Moves.bind (Moves.bind Moves.get fun p => h.enqueueStaged p.staged.keys) fun _ => ?_
  refine Moves.attempts h.flushOnce (fun _ => ?_) _ _ _
  exact Moves.bind Moves.get fun p => Moves.throw _

theorem sendReady : Moves R (sendReady T) := by
  refine Moves.bind (h.tolerates.onCluster h.permits.now) fun now => ?_
  refine Moves.bind Moves.get fun p => Moves.ite (Moves.pure _) ?_
  exact Moves.bind (h.enqueueStaged _) fun _ => Moves.bind h.flush fun _ => Moves.pure _

theorem produceTo (tp : TopicPartition) (record : ProducerRecord) :
    Moves R (produceTo T tp record) := by
  refine Moves.bind (h.tolerates.stageFor tp) fun staged => ?_
  exact Moves.bind (h.modify fun _ => rfl) fun _ => h.sendReady

theorem enqueueGroups (topic : String) (groups : List (ℤ × List ProducerRecord)) :
    Moves R (enqueueGroups T topic groups) := by
  induction groups with
  | nil => exact Moves.pure _
  | cons group rest ih => exact Moves.bind (h.enqueue _ _) fun _ => ih

theorem sendKeyed (topic : String) (records : List ProducerRecord) :
    Moves R (sendKeyed T topic records) := by
  refine Moves.ite (Moves.pure _) ?_
  refine Moves.bind (h.tolerates.partitionCountWaiting topic) fun count => ?_
  refine Moves.bind (h.tolerates.groupByPartition topic count records ∅) fun groups => ?_
  refine Moves.bind (h.tolerates.enrollAll (fun _ _ _ => trivial) _ _) fun _ => ?_
  refine Moves.bind (h.enqueueGroups topic _) fun _ => ?_
  exact Moves.bind h.flush fun _ => Moves.pure _

theorem send (tp : TopicPartition) (records : List ProducerRecord) :
    Moves R (send T tp records) := by
  refine Moves.ite (Moves.pure _) (Moves.bind (h.enqueue tp records) fun _ => ?_)
  exact Moves.bind h.flush fun _ => Moves.pure _

/-- Every public call. -/
theorem exec (hage : ∀ p age, R p { p with cluster := { p.cluster with metadataMaxAge := age } })
    (call : Call) : Moves R (call.exec T) := by
  cases call with
  | beginTransaction => exact h.onState _
  | commitTransaction => exact h.endTransaction true
  | abortTransaction => exact h.endTransaction false
  | sendOffsetsToTransaction offsets metadata =>
      exact h.tolerates.sendOffsetsToTransaction offsets metadata (fun _ _ _ => trivial)
        fun _ _ _ => trivial
  | produce topic record =>
      exact Moves.bind (h.tolerates.partitionFor topic record.key) fun _ => h.produceTo _ record
  | produceTo tp record => exact h.produceTo tp record
  | enqueue tp records => exact h.enqueue tp records
  | send tp records => exact Moves.bind (h.send tp records) fun _ => Moves.pure _
  | sendKeyed topic records => exact Moves.bind (h.sendKeyed topic records) fun _ => Moves.pure _
  | tick => exact h.sendReady
  | flush => exact Moves.bind h.flush fun _ => Moves.pure _
  | setMetadataMaxAge age => exact fun p => hage p age
  | _ => exact h.modify fun _ => rfl

/-- The constructors. -/
theorem construct : Moves R (construct T) := by
  refine Moves.bind (h.tolerates.onCluster h.permits.connect) fun _ => ?_
  refine Moves.bind Moves.get fun p => ?_
  refine Moves.bind (h.tolerates.coordinatorCall (fun _ _ => trivial) _ _ _) fun _ => ?_
  exact h.modify fun _ => rfl

end Confined

end Producer

end Barnabas.Client
