import Barnabas.Core.TopicPartition
import Barnabas.Lib.Action
import Barnabas.Lib.MachineInt

/-!
The idempotent, transactional producer's rules, with no IO attached
(`barnabas-core/src/producer.rs`).

Every operation is a function of the whole state. An operation that can refuse
is an action, so that a refusal comes with the state it leaves behind; that a
refusal leaves it untouched is a theorem and not part of the type. The maps of
the source that are never iterated (`sequences`, `enrolled`) are tree maps here.
-/

namespace Barnabas.Core

open Barnabas.Lib

/-- A producer's identity, as the coordinator issued it. -/
structure ProducerIdentity where
  id : ℤ
  epoch : ℤ
  deriving DecidableEq, Repr

/-- Where a transactional producer is in its lifecycle. -/
inductive TxnState
  | uninitialised
  | ready
  | inTransaction
  | ending
  | fatal
  deriving DecidableEq, Repr

/-- A sequence range reserved for one batch. -/
structure SequenceRange where
  base : ℤ
  count : ℤ
  deriving DecidableEq, Repr

/-- `SequenceRange::end`: one past the last sequence in this range, an `i32` addition. -/
def SequenceRange.end_ (range : SequenceRange) : ℤ := wrap 32 (range.base + range.count)

inductive ProducerError
  | uninitialised
  | noTransaction
  | transactionAlreadyOpen
  | notEnrolled (topic : String) (partition : ℤ)
  | fatal
  deriving DecidableEq, Repr

/-- The producer's rules. `sequences` holds the next unused sequence of each
partition and is *not* cleared per transaction; `enrolled` holds the partitions
added to the current one. -/
structure ProducerState where
  identity : Option ProducerIdentity
  txn : TxnState
  sequences : PartitionMap ℤ
  enrolled : Std.TreeSet TopicPartition
  isTransactional : Bool

namespace ProducerState

/-- `Self::default()`, with the one field the two constructors choose. -/
def new (isTransactional : Bool) : ProducerState where
  identity := none
  txn := .uninitialised
  sequences := ∅
  enrolled := ∅
  isTransactional := isTransactional

def transactional : ProducerState := new true

def idempotent : ProducerState := new false

/-- Record a successful `InitProducerId`: the one place sequences reset. -/
def onInitProducerId (s : ProducerState) (identity : ProducerIdentity) : ProducerState :=
  let epochChanged := s.identity.map (·.epoch) ≠ some identity.epoch ∨
    s.identity.map (·.id) ≠ some identity.id
  { s with
    identity := some identity
    sequences := if epochChanged then ∅ else s.sequences
    enrolled := ∅
    txn := .ready }

def checkUsable : Act ProducerState ProducerError Unit := do
  let s ← get
  match s.txn with
  | .fatal => throw .fatal
  | .uninitialised => if s.identity.isNone then throw .uninitialised else pure ()
  | _ => pure ()

/-- Open a transaction. Sequences are not touched. -/
def beginTransaction : Act ProducerState ProducerError Unit := do
  checkUsable
  let s ← get
  match s.txn with
  | .ready => set { s with enrolled := ∅, txn := .inTransaction }
  | .inTransaction => throw .transactionAlreadyOpen
  | .ending => throw .transactionAlreadyOpen
  | .uninitialised => throw .uninitialised
  | .fatal => throw .fatal

/-- Whether `AddPartitionsToTxn` must be sent before producing to `tp`. -/
def needsEnrollment (s : ProducerState) (tp : TopicPartition) : Bool :=
  s.isTransactional && s.txn == .inTransaction && !s.enrolled.contains tp

/-- Record a successful `AddPartitionsToTxn`. -/
def onEnrolled (s : ProducerState) (tp : TopicPartition) : ProducerState :=
  { s with enrolled := s.enrolled.insert tp }

/-- The next sequence `tp` would be given. -/
def nextSequence (s : ProducerState) (tp : TopicPartition) : ℤ := s.sequences.getD tp 0

/-- Reserve `count` sequence numbers for a batch. The counter is an `i32` and
advances here, not on acknowledgement. -/
def allocate (tp : TopicPartition) (count : ℤ) :
    Act ProducerState ProducerError SequenceRange := do
  checkUsable
  let s ← get
  if s.isTransactional then
    if s.txn ≠ .inTransaction then
      throw .noTransaction
    if tp ∉ s.enrolled then
      throw (.notEnrolled tp.topic tp.partition)
  let base := s.nextSequence tp
  set { s with sequences := s.sequences.insert tp (wrap 32 (base + count)) }
  pure { base, count }

/-- Begin committing or aborting. -/
def endTransaction : Act ProducerState ProducerError Unit := do
  checkUsable
  let s ← get
  if s.txn ≠ .inTransaction then
    throw .noTransaction
  set { s with txn := .ending }

/-- Record that `EndTxn` succeeded. Sequences are not touched. -/
def onEndTransaction (s : ProducerState) : ProducerState :=
  if s.txn = .ending then { s with enrolled := ∅, txn := .ready } else s

/-- Fence the producer: nothing further until it is initialised again. -/
def fence (s : ProducerState) : ProducerState := { s with txn := .fatal }

/-! ### What each operation can do

One inversion lemma for each operation that can refuse. Every result about a
producer is derived from these, and no later proof unfolds the operations. -/

/-- The states `checkUsable` lets through. -/
def Usable (s : ProducerState) : Prop :=
  s.txn ≠ .fatal ∧ ¬(s.txn = .uninitialised ∧ s.identity = none)

theorem checkUsable_cases (s : ProducerState) :
    (s.Usable ∧ checkUsable s = (.ok (), s)) ∨
      (¬s.Usable ∧ ∃ e, checkUsable s = (.error e, s)) := by
  rcases s with ⟨identity, txn, sequences, enrolled, isTransactional⟩
  cases txn <;> cases identity <;>
    simp [checkUsable, Usable, Act.bind_apply]

theorem beginTransaction_cases (s : ProducerState) :
    (s.txn = .ready ∧
        beginTransaction s = (.ok (), { s with enrolled := ∅, txn := .inTransaction })) ∨
      (s.txn ≠ .ready ∧ ∃ e, beginTransaction s = (.error e, s)) := by
  rcases s with ⟨identity, txn, sequences, enrolled, isTransactional⟩
  cases txn <;> cases identity <;>
    simp [beginTransaction, checkUsable, Act.bind_apply]

/-- What a successful `allocate` requires: the producer is usable, and a
transactional one is inside a transaction that the partition is enrolled in. -/
def MayAllocate (s : ProducerState) (tp : TopicPartition) : Prop :=
  s.Usable ∧ (s.isTransactional → s.txn = .inTransaction ∧ tp ∈ s.enrolled)

theorem allocate_cases (tp : TopicPartition) (count : ℤ) (s : ProducerState) :
    (s.MayAllocate tp ∧ allocate tp count s =
        (.ok ⟨s.nextSequence tp, count⟩,
          { s with sequences := s.sequences.insert tp (wrap 32 (s.nextSequence tp + count)) })) ∨
      (¬s.MayAllocate tp ∧ ∃ e, allocate tp count s = (.error e, s)) := by
  rcases checkUsable_cases s with ⟨husable, hcheck⟩ | ⟨hunusable, e, hcheck⟩
  · rw [allocate, Act.bind_of_ok hcheck]
    cases htrans : s.isTransactional
    · left
      simp [MayAllocate, husable, htrans, Act.bind_apply]
    · by_cases htxn : s.txn = .inTransaction
      · by_cases henrolled : tp ∈ s.enrolled
        · left
          simp [MayAllocate, husable, htrans, htxn, henrolled, Act.bind_apply]
        · right
          simp [MayAllocate, htrans, htxn, henrolled, Act.bind_apply]
      · right
        simp [MayAllocate, htrans, htxn, Act.bind_apply]
  · right
    rw [allocate, Act.bind_of_error hcheck]
    exact ⟨fun h => hunusable h.1, e, rfl⟩

theorem endTransaction_cases (s : ProducerState) :
    (s.txn = .inTransaction ∧ endTransaction s = (.ok (), { s with txn := .ending })) ∨
      (s.txn ≠ .inTransaction ∧ ∃ e, endTransaction s = (.error e, s)) := by
  rcases s with ⟨identity, txn, sequences, enrolled, isTransactional⟩
  cases txn <;> cases identity <;>
    simp [endTransaction, checkUsable, Act.bind_apply]

/-- A new identity is the one thing that resets the sequences: the two halves
of the comparison in the source are the comparison of the whole identity. -/
theorem onInitProducerId_sequences (s : ProducerState) (identity : ProducerIdentity) :
    (s.onInitProducerId identity).sequences =
      if s.identity = some identity then s.sequences else ∅ := by
  rcases hid : s.identity with _ | old
  · simp [onInitProducerId, hid]
  · rcases old with ⟨id, epoch⟩
    rcases identity with ⟨id', epoch'⟩
    by_cases hi : id = id' <;> by_cases he : epoch = epoch' <;>
      simp [onInitProducerId, hid, hi, he]

@[simp] theorem nextSequence_new (isTransactional : Bool) (tp : TopicPartition) :
    (new isTransactional).nextSequence tp = 0 := by
  simp [nextSequence, new]

theorem nextSequence_insert (s : ProducerState) (tp tp' : TopicPartition) (n : ℤ) :
    nextSequence { s with sequences := s.sequences.insert tp n } tp' =
      if tp = tp' then n else s.nextSequence tp' := by
  simp [nextSequence, Std.TreeMap.getD_insert]

end ProducerState

end Barnabas.Core
