import Barnabas.Client.Producer
import Barnabas.Client.Requests
import Barnabas.Client.Tape
import Barnabas.Lib.Run

/-!
Runs of public calls on a producer.

A producer is made by one of its two constructors and is then driven by calls in
any order, each of which may fail. A call that fails leaves the producer as it
is at that point, and the next call finds it there.
-/

namespace Barnabas.Client

open Barnabas.Lib Barnabas.Core

/-- A public call on a producer. The two setters that assert their argument to
be positive take a positive number. -/
inductive Call
  | beginTransaction
  | commitTransaction
  | abortTransaction
  | sendOffsetsToTransaction (offsets : PartitionMap ℤ) (metadata : GroupMetadata)
  | produce (topic : String) (record : ProducerRecord)
  | produceTo (tp : TopicPartition) (record : ProducerRecord)
  | enqueue (tp : TopicPartition) (records : List ProducerRecord)
  | send (tp : TopicPartition) (records : List ProducerRecord)
  | sendKeyed (topic : String) (records : List ProducerRecord)
  | tick
  | flush
  | setPartitioner (partitioner : Partitioner)
  | setCompression (compression : Compression)
  | setMetadataMaxAge (age : ℕ)
  | setLinger (linger : ℕ)
  | setBatchSize (bytes : { n : ℕ // 0 < n })
  | setMaxInFlight (bound : { n : ℕ // 0 < n })

namespace Call

variable {ω : Type}

/-- Make a call, keeping of its result only whether there is one. -/
def exec (T : Transport ω) : Call → Act (Producer ω) Error Unit
  | beginTransaction => Producer.beginTransaction
  | commitTransaction => Producer.commitTransaction T
  | abortTransaction => Producer.abortTransaction T
  | sendOffsetsToTransaction offsets metadata =>
      Producer.sendOffsetsToTransaction T offsets metadata
  | produce topic record => Producer.produce T topic record
  | produceTo tp record => Producer.produceTo T tp record
  | enqueue tp records => Producer.enqueue T tp records
  | send tp records => do
      let _ ← Producer.send T tp records
  | sendKeyed topic records => do
      let _ ← Producer.sendKeyed T topic records
  | tick => Producer.tick T
  | flush => do
      let _ ← Producer.flush T
  | setPartitioner partitioner => modify fun p => { p with partitioner }
  | setCompression compression => modify fun p => { p with compression }
  | setMetadataMaxAge age => modify fun p =>
      { p with cluster := { p.cluster with metadataMaxAge := age } }
  | setLinger linger => modify fun p => { p with linger }
  | setBatchSize bytes => modify fun p => { p with batchSize := bytes }
  | setMaxInFlight bound => modify fun p => { p with maxInFlight := bound }

/-- The producer after a call. -/
def step (T : Transport ω) (p : Producer ω) (call : Call) : Producer ω := (call.exec T p).2

/-- The records a call hands to the producer. -/
def records : Call → List ProducerRecord
  | produce _ record | produceTo _ record => [record]
  | enqueue _ records | send _ records | sendKeyed _ records => records
  | _ => []

end Call

/-- A producer fresh from one of its constructors. -/
def Started {ω : Type} (T : Transport ω) (p : Producer ω) : Prop :=
  ∃ env bootstrap clientId,
    Producer.idempotent T env bootstrap clientId = (.ok (), p) ∨
      ∃ transactionalId,
        Producer.transactional T env bootstrap clientId transactionalId = (.ok (), p)

/-- A producer some run of public calls leads to. -/
def Reachable {ω : Type} (T : Transport ω) (p : Producer ω) : Prop :=
  ∃ start calls, Started T start ∧ p = run (Call.step T) start calls

/-! ### A run with its books kept

To speak about the records of a transaction, a session numbers the records as
they are handed in, counts the transactions that were opened, and tags every
frame with the transaction that was opened last when it was written. Nothing of
this is read by the producer. -/

/-- A record handed to the producer while a transaction was open: its ticket, the
transaction's number, and whether the call that brought it succeeded. -/
structure Receipt where
  ticket : ℕ
  transaction : ℕ
  accepted : Bool
  deriving DecidableEq, Repr

structure Session (ω : Type) where
  producer : Producer ω
  opened : ℕ
  next : ℕ
  receipts : List Receipt
  log : List (ℕ × Frame)

/-- Number records from `next` on. -/
def withTickets (next : ℕ) (records : List ProducerRecord) : List ProducerRecord :=
  records.zipIdx.map fun (r, i) => { r with ticket := next + i }

/-- The call with its records numbered from `next` on. -/
def Call.numbered (next : ℕ) : Call → Call
  | produce topic record => produce topic { record with ticket := next }
  | produceTo tp record => produceTo tp { record with ticket := next }
  | enqueue tp records => enqueue tp (withTickets next records)
  | send tp records => send tp (withTickets next records)
  | sendKeyed topic records => sendKeyed topic (withTickets next records)
  | call => call

namespace Session

variable {ω : Type}

def start (p : Producer ω) : Session ω := ⟨p, 0, 0, [], []⟩

/-- Make a call and enter it in the books. -/
def step (T : Transport ω) (s : Session ω) (call : Call) : Session ω :=
  let call := call.numbered s.next
  let (outcome, producer) := call.exec T s.producer
  { producer
    opened := if s.producer.state.txn ≠ .inTransaction ∧ producer.state.txn = .inTransaction
      then s.opened + 1 else s.opened
    next := s.next + call.records.length
    receipts := s.receipts ++
      if s.producer.state.txn = .inTransaction
      then call.records.map fun r => ⟨r.ticket, s.opened, outcome.isOk⟩ else []
    log := s.log ++ (producer.cluster.sent.drop s.producer.cluster.sent.length).map (s.opened, ·) }

/-- The record was handed in while transaction `k` was open. -/
def Belongs (s : Session ω) (r : ProducerRecord) (k : ℕ) : Prop :=
  ∃ receipt ∈ s.receipts, receipt.ticket = r.ticket ∧ receipt.transaction = k

instance (s : Session ω) (r : ProducerRecord) (k : ℕ) : Decidable (s.Belongs r k) :=
  inferInstanceAs (Decidable (∃ receipt ∈ s.receipts, _ ∧ _))

end Session

end Barnabas.Client
