import Barnabas.Core.Records
import Mathlib.Data.Finset.Erase
import Mathlib.Data.Finset.Insert
import Mathlib.Data.List.Sort

/-!
READ_COMMITTED filtering, twice.

`filter` is the record-wise filter of `barnabas-core/src/consumer.rs`, which
works on the records of the full decoder. `filterBatches` is the filter of
`barnabas-core/src/records.rs` on the batches of the lean reader. Both walk the
response in offset order with the same bookkeeping: the aborted transactions
that have not begun yet, and the producers whose transaction is open and
aborted at the current offset.
-/

namespace Barnabas.Core

open Barnabas.Lib

/-- Whether aborted records are visible. -/
inductive IsolationLevel
  | readUncommitted
  | readCommitted
  deriving DecidableEq, Repr

def IsolationLevel.asI8 : IsolationLevel → ℤ
  | .readUncommitted => 0
  | .readCommitted => 1

/-- An aborted transaction, as the broker reports it in a fetch response. -/
structure AbortedTransaction where
  producerId : ℤ
  firstOffset : ℤ
  deriving DecidableEq, Repr

inductive TimestampType
  | creation
  | logAppend
  deriving DecidableEq, Repr

/-- A record of the full decoder, which copies the facts of a batch into every
one of its records. -/
structure Record where
  transactional : Bool
  control : Bool
  partitionLeaderEpoch : ℤ
  producerId : ℤ
  producerEpoch : ℤ
  timestampType : TimestampType
  offset : ℤ
  sequence : ℤ
  timestamp : ℤ
  key : Option Bytes
  value : Option Bytes
  headers : List (Bytes × Option Bytes)
  deriving DecidableEq, Repr

/-- What a fetch yielded, after filtering. `nextOffset` advances past filtered
records too. -/
structure Fetched where
  records : List Record
  nextOffset : ℤ
  deriving DecidableEq, Repr

/-- The type of an abort marker. -/
def controlAbort : ℤ := 0

/-- The type of a control record: its key is a 2-byte version and the type. -/
def controlType (record : Record) : Option ℤ := do
  let key ← record.key
  if key.length < 4 then none else i16At key 2

/-- Where the walk over a response stands with the aborted transactions. -/
structure AbortTracker where
  pending : List AbortedTransaction
  producers : Finset ℤ
  deriving DecidableEq

namespace AbortTracker

def new (aborted : List AbortedTransaction) : AbortTracker where
  pending := aborted.insertionSort fun a b => a.firstOffset ≤ b.firstOffset
  producers := ∅

/-- The `while pending.peek()` loop: a transaction becomes aborted at its first
offset. -/
def openLoop (offset : ℤ) : List AbortedTransaction → Finset ℤ → AbortTracker
  | [], producers => ⟨[], producers⟩
  | a :: pending, producers =>
      if a.firstOffset ≤ offset then openLoop offset pending (insert a.producerId producers)
      else ⟨a :: pending, producers⟩

def openUpTo (tracker : AbortTracker) (offset : ℤ) : AbortTracker :=
  openLoop offset tracker.pending tracker.producers

/-- An abort marker closes its producer's range. -/
def close (tracker : AbortTracker) (producerId : ℤ) : AbortTracker :=
  { tracker with producers := tracker.producers.erase producerId }

end AbortTracker

section Filter

variable (lastStableOffset : ℤ) (isolation : IsolationLevel) (fetchOffset : ℤ)

/-! ### The record-wise filter -/

/-- The loop of `filter`, from the bookkeeping and the position so far. -/
def filterLoop : AbortTracker → ℤ → List Record → Fetched
  | _, nextOffset, [] => ⟨[], nextOffset⟩
  | tracker, nextOffset, record :: records =>
      -- Rule 1: everything after this is also above the LSO, so stop.
      if isolation = .readCommitted ∧ lastStableOffset ≤ record.offset then ⟨[], nextOffset⟩
      else
        let nextOffset := wrap 64 (record.offset + 1)
        let tracker := tracker.openUpTo record.offset
        if record.control then
          let tracker :=
            if controlType record = some controlAbort then tracker.close record.producerId
            else tracker
          filterLoop tracker nextOffset records
        else if isolation = .readCommitted ∧ record.transactional ∧
            record.producerId ∈ tracker.producers then
          filterLoop tracker nextOffset records
        else if record.offset < fetchOffset then filterLoop tracker nextOffset records
        else
          let rest := filterLoop tracker nextOffset records
          ⟨record :: rest.records, rest.nextOffset⟩

/-- Apply the READ_COMMITTED rules to one partition's records. A scan decides
first whether anything is dropped at all; if not, the input goes straight
back. -/
def filter (records : List Record) (aborted : List AbortedTransaction) : Fetched :=
  if aborted.isEmpty ∧ !records.any (fun r => r.control || r.offset < fetchOffset ||
      (isolation = .readCommitted && lastStableOffset ≤ r.offset)) then
    ⟨records, match records.getLast? with
      | none => fetchOffset
      | some r => wrap 64 (r.offset + 1)⟩
  else
    filterLoop lastStableOffset isolation fetchOffset (.new aborted) fetchOffset records

/-! ### The batch-wise filter -/

/-- The markers of a control batch. -/
def closeMarkers (batch : LeanBatch) : List LeanRecord → AbortTracker → AbortTracker
  | [], tracker => tracker
  | record :: records, tracker =>
      closeMarkers batch records
        (if batch.controlType record = some controlAbort then tracker.close batch.producerId
        else tracker)

/-- The records of a batch that are inside the window: not before the requested
offset, since the broker sends whole batches, and below the LSO. -/
def retain (records : List LeanRecord) (first : ℤ) : List LeanRecord :=
  let records :=
    if first < fetchOffset then records.filter (fetchOffset ≤ ·.offset) else records
  if isolation = .readCommitted then records.filter (·.offset < lastStableOffset) else records

/-- The loop of `filterBatches`. -/
def filterBatchesLoop : AbortTracker → ℤ → List LeanBatch → List LeanBatch × ℤ
  | _, nextOffset, [] => ([], nextOffset)
  | tracker, nextOffset, batch :: batches =>
      match batch.records.head? with
      | none => filterBatchesLoop tracker nextOffset batches
      | some r =>
          let first := r.offset
          if isolation = .readCommitted ∧ lastStableOffset ≤ first then ([], nextOffset)
          else
            let tracker := tracker.openUpTo first
            let last := match batch.records.getLast? with
              | none => first
              | some r => r.offset
            let nextOffset := wrap 64 (last + 1)
            if batch.control then
              filterBatchesLoop (closeMarkers batch batch.records tracker) nextOffset batches
            else if isolation = .readCommitted ∧ batch.transactional ∧
                batch.producerId ∈ tracker.producers then
              filterBatchesLoop tracker nextOffset batches
            else
              let records := retain lastStableOffset isolation fetchOffset batch.records first
              let rest := filterBatchesLoop tracker nextOffset batches
              if records.isEmpty then rest
              else ({ batch with records } :: rest.1, rest.2)

/-- Apply the READ_COMMITTED rules per batch. Returns the batches to hand the
caller and the offset the next fetch starts from. -/
def filterBatches (batches : List LeanBatch) (aborted : List AbortedTransaction) :
    List LeanBatch × ℤ :=
  filterBatchesLoop lastStableOffset isolation fetchOffset (.new aborted) fetchOffset batches

end Filter

/-! ### The bookkeeping -/

namespace AbortTracker

/-- Nothing begins up to `high`, as far as the loop looks: it reads the head of
the pending list only. -/
def Quiet (tracker : AbortTracker) (high : ℤ) : Prop :=
  ∀ a, tracker.pending.head? = some a → high < a.firstOffset

theorem openUpTo_eq_self {tracker : AbortTracker} {offset : ℤ} (h : tracker.Quiet offset) :
    tracker.openUpTo offset = tracker := by
  obtain ⟨pending, producers⟩ := tracker
  cases pending with
  | nil => rfl
  | cons a pending =>
      have ha : offset < a.firstOffset := h a rfl
      simp only [openUpTo, openLoop, if_neg (not_le.mpr ha)]

theorem openLoop_quiet (offset : ℤ) (pending : List AbortedTransaction) (producers : Finset ℤ) :
    (openLoop offset pending producers).Quiet offset := by
  induction pending generalizing producers with
  | nil => intro a ha; simp [openLoop] at ha
  | cons b pending ih =>
      simp only [openLoop]
      split
      · exact ih _
      · intro a ha
        obtain rfl : b = a := by simpa using ha
        omega

theorem openLoop_pending_suffix (offset : ℤ) (pending : List AbortedTransaction)
    (producers : Finset ℤ) : (openLoop offset pending producers).pending <:+ pending := by
  induction pending generalizing producers with
  | nil => simp [openLoop]
  | cons b pending ih =>
      simp only [openLoop]
      split
      · exact (ih _).trans (List.suffix_cons b pending)
      · exact List.suffix_refl _

theorem openUpTo_quiet (tracker : AbortTracker) (offset : ℤ) :
    (tracker.openUpTo offset).Quiet offset :=
  openLoop_quiet offset _ _

theorem openUpTo_pending_suffix (tracker : AbortTracker) (offset : ℤ) :
    (tracker.openUpTo offset).pending <:+ tracker.pending :=
  openLoop_pending_suffix offset _ _

theorem openUpTo_openUpTo (tracker : AbortTracker) (offset : ℤ) :
    (tracker.openUpTo offset).openUpTo offset = tracker.openUpTo offset :=
  openUpTo_eq_self (openUpTo_quiet tracker offset)

/-- On a sorted list the loop opens exactly what has begun. -/
theorem mem_openLoop (offset : ℤ) {pending : List AbortedTransaction} (producers : Finset ℤ)
    (hsorted : pending.Pairwise fun a b => a.firstOffset ≤ b.firstOffset) :
    (∀ p, p ∈ (openLoop offset pending producers).producers ↔
      p ∈ producers ∨ ∃ a ∈ pending, a.firstOffset ≤ offset ∧ a.producerId = p) ∧
    ∀ a, a ∈ (openLoop offset pending producers).pending ↔
      a ∈ pending ∧ offset < a.firstOffset := by
  induction pending generalizing producers with
  | nil => simp [openLoop]
  | cons b pending ih =>
      obtain ⟨hb, hsorted⟩ := List.pairwise_cons.mp hsorted
      rw [openLoop]
      split
      · rename_i hle
        obtain ⟨hproducers, hpending⟩ := ih (insert b.producerId producers) hsorted
        refine ⟨fun p => ?_, fun a => ?_⟩
        · rw [hproducers, Finset.mem_insert, List.exists_mem_cons_iff, eq_comm]
          tauto
        · rw [hpending, List.mem_cons]
          constructor
          · exact fun h => ⟨Or.inr h.1, h.2⟩
          · rintro ⟨rfl | ha, hlt⟩
            · omega
            · exact ⟨ha, hlt⟩
      · rename_i hlt
        have hall : ∀ a ∈ b :: pending, offset < a.firstOffset := by
          intro a ha
          rcases List.mem_cons.mp ha with rfl | ha
          · omega
          · have := hb a ha
            omega
        refine ⟨fun p => (or_iff_left ?_).symm, fun a => ?_⟩
        · rintro ⟨a, ha, hle, -⟩
          have := hall a ha
          omega
        · exact (and_iff_left_of_imp (hall a)).symm

theorem new_pending_sorted (aborted : List AbortedTransaction) :
    (new aborted).pending.Pairwise fun a b => a.firstOffset ≤ b.firstOffset := by
  have : Std.Total fun a b : AbortedTransaction => a.firstOffset ≤ b.firstOffset :=
    ⟨fun a b => le_total a.firstOffset b.firstOffset⟩
  have : IsTrans AbortedTransaction fun a b => a.firstOffset ≤ b.firstOffset :=
    ⟨fun _ _ _ => le_trans⟩
  exact List.pairwise_insertionSort _ aborted

@[simp] theorem mem_new_pending {aborted : List AbortedTransaction} {a : AbortedTransaction} :
    a ∈ (new aborted).pending ↔ a ∈ aborted := by
  simp [new]

end AbortTracker

@[simp] theorem closeMarkers_pending (batch : LeanBatch) (records : List LeanRecord)
    (tracker : AbortTracker) :
    (closeMarkers batch records tracker).pending = tracker.pending := by
  induction records generalizing tracker with
  | nil => rfl
  | cons r records ih =>
      rw [closeMarkers, ih]
      split <;> rfl

end Barnabas.Core
