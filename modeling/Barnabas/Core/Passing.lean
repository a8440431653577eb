import Barnabas.Core.ReadCommitted

/-!
What a filter moves the position past.

Behind the position there are the rows a filter has returned, and those it had a
reason to leave out: a marker, a row before the offset that was asked for, a row of an
aborted transaction. That nothing else is behind it holds of both filters as long as
no batch lies across the LSO.
-/

namespace Barnabas.Core

open Barnabas.Lib

/-- The control type of a row, by its key. -/
def Row.controlType (row : Row) : Option ℤ := do
  let key ← row.key
  if key.length < 4 then none else i16At key 2

/-- The row is an abort marker of this producer. -/
def Row.IsAbort (row : Row) (producerId : ℤ) : Prop :=
  row.control = true ∧ row.producerId = producerId ∧ row.controlType = some controlAbort

instance (row : Row) (producerId : ℤ) : Decidable (row.IsAbort producerId) :=
  inferInstanceAs (Decidable (_ ∧ _ ∧ _))

section Reasons

variable (isolation : IsolationLevel) (fetchOffset : ℤ) (rows : List Row)
  (aborted : List AbortedTransaction)

/-- An aborted transaction of the row's producer has begun at or before it, and no abort
marker has ended it. -/
def AbortedAmong (row : Row) : Prop :=
  ∃ a ∈ aborted, a.producerId = row.producerId ∧ a.firstOffset ≤ row.offset ∧
    ∀ m ∈ rows, m.IsAbort row.producerId → ¬(a.firstOffset ≤ m.offset ∧ m.offset < row.offset)

/-- There is a reason not to return the row. -/
def LeftOut (row : Row) : Prop :=
  row.control = true ∨ row.offset < fetchOffset ∨
    isolation = .readCommitted ∧ row.transactional = true ∧ AbortedAmong rows aborted row

instance (row : Row) : Decidable (AbortedAmong rows aborted row) :=
  inferInstanceAs (Decidable (∃ a ∈ aborted, _))

instance (row : Row) : Decidable (LeftOut isolation fetchOffset rows aborted row) :=
  inferInstanceAs (Decidable (_ ∨ _ ∨ _ ∧ _ ∧ _))

end Reasons

/-! ### The record-wise filter -/

theorem abortedAmong_iff {records : List Record} {aborted : List AbortedTransaction} {r : Record} :
    AbortedAmong (records.map Record.row) aborted r.row ↔ AbortedIn records aborted r := by
  rw [AbortedAmong, AbortedIn]
  simp only [List.forall_mem_map]
  rfl

/-- The offset after an `i64` is at most one more. -/
theorem wrap_succ_le {x : ℤ} (h : Fits 64 x) : wrap 64 (x + 1) ≤ x + 1 := by
  by_cases hmax : x = i64Max
  · subst hmax
    decide
  · exact le_of_eq (wrap_eq_self (by decide) ((fits64_succ_iff h).mpr hmax))

variable {lastStableOffset : ℤ} {isolation : IsolationLevel} {fetchOffset : ℤ}
  {aborted : List AbortedTransaction}

/-- What the LSO withholds is not behind the position. -/
theorem reached_of_lt {records : List Record} (hfits : ∀ r ∈ records, Fits 64 r.offset) {r : Record}
    (hlt : r.offset < positionAfter fetchOffset
      (reachedRecords lastStableOffset isolation records)) (hfetch : fetchOffset ≤ r.offset) :
    Reached lastStableOffset isolation r.offset := by
  intro hcommitted
  rw [positionAfter] at hlt
  cases hlast : (reachedRecords lastStableOffset isolation records).getLast? with
  | none =>
      rw [hlast] at hlt
      dsimp only at hlt
      omega
  | some last =>
      rw [hlast] at hlt
      dsimp only at hlt
      obtain ⟨hmem, hreached⟩ := List.mem_filter.mp (List.mem_of_getLast? hlast)
      have hnext := wrap_succ_le (hfits last hmem)
      have hbelow : last.offset < lastStableOffset := of_decide_eq_true hreached hcommitted
      omega

/-- Behind the position there are the records that were kept, and those left out for a
reason. -/
theorem filter_passes {records : List Record}
    (hordered : records.Pairwise fun r r' => r.offset < r'.offset)
    (hfits : ∀ r ∈ records, Fits 64 r.offset) {r : Record} (hr : r ∈ records)
    (hlt : r.offset < (filter lastStableOffset isolation fetchOffset records aborted).nextOffset) :
    r ∈ (filter lastStableOffset isolation fetchOffset records aborted).records ∨
      LeftOut isolation fetchOffset (records.map Record.row) aborted r.row := by
  rw [filter_eq hordered] at hlt ⊢
  by_cases hreason : LeftOut isolation fetchOffset (records.map Record.row) aborted r.row
  · exact .inr hreason
  · rw [LeftOut, abortedAmong_iff] at hreason
    push Not at hreason
    obtain ⟨hcontrol, hfetch, haborted⟩ := hreason
    have hshown : Shown lastStableOffset isolation fetchOffset records aborted r := by
      have hdata : r.control = false := Bool.not_eq_true _ ▸ hcontrol
      refine ⟨hdata, hfetch, reached_of_lt hfits hlt hfetch, ?_⟩
      intro hcommitted hin
      exact haborted hcommitted hin.1 hin.2
    exact .inl (List.mem_filter.mpr ⟨hr, decide_eq_true hshown⟩)

/-! ### The batch-wise filter -/

/-- A record of the full decoder that has this row. -/
def Row.record (row : Row) : Record where
  transactional := row.transactional
  control := row.control
  partitionLeaderEpoch := 0
  producerId := row.producerId
  producerEpoch := 0
  timestampType := .creation
  offset := row.offset
  sequence := 0
  timestamp := row.timestamp
  key := row.key
  value := row.value
  headers := []

theorem map_row_record (rows : List Row) : (rows.map Row.record).map Record.row = rows := by
  rw [List.map_map]
  exact List.map_id rows

theorem ordered_iff_rows {batches : List LeanBatch} :
    Ordered batches ↔ (batches.flatMap LeanBatch.rows).Pairwise fun a b => a.offset < b.offset := by
  have hoffsets : batches.flatMap (·.records.map LeanRecord.offset) =
      (batches.flatMap LeanBatch.rows).map Row.offset := by
    rw [List.map_flatMap]
    congr 1
    funext batch
    rw [LeanBatch.rows, List.map_map]
    rfl
  rw [Ordered, hoffsets, List.pairwise_map]

/-- Off the LSO the same holds of the rows of the batches. -/
theorem filterBatches_passes {batches : List LeanBatch} (hordered : Ordered batches)
    (hfits : ∀ b ∈ batches, ∀ r ∈ b.records, Fits 64 r.offset)
    (hinside : ∀ a ∈ aborted, ∀ b ∈ batches, ¬b.Inside a.firstOffset)
    (haligned : ¬(isolation = .readCommitted ∧ Straddled batches lastStableOffset)) {row : Row}
    (hrow : row ∈ batches.flatMap LeanBatch.rows)
    (hlt : row.offset < (filterBatches lastStableOffset isolation fetchOffset batches aborted).2) :
    row ∈ (filterBatches lastStableOffset isolation fetchOffset batches aborted).1.flatMap
        LeanBatch.rows ∨
      LeftOut isolation fetchOffset (batches.flatMap LeanBatch.rows) aborted row := by
  let records := (batches.flatMap LeanBatch.rows).map Row.record
  have hflat : Flattens batches records := map_row_record _
  have hrecords : ∀ r ∈ records, Fits 64 r.offset := by
    intro r hr
    obtain ⟨row, hrow, rfl⟩ := List.mem_map.mp hr
    obtain ⟨b, hb, hrow⟩ := List.mem_flatMap.mp hrow
    obtain ⟨q, hq, rfl⟩ := List.mem_map.mp hrow
    exact hfits b hb q hq
  have hincreasing : records.Pairwise fun r r' => r.offset < r'.offset :=
    List.pairwise_map.mpr (ordered_iff_rows.mp hordered)
  have hagree : Agree (filter lastStableOffset isolation fetchOffset records aborted)
      (filterBatches lastStableOffset isolation fetchOffset batches aborted) := by
    rw [filter_eq_filterLoop, filterBatches]
    exact (agree_loop_iff hflat hordered hrecords _ _ fun a ha =>
      hinside a (AbortTracker.mem_new_pending.mp ha)).mpr haligned
  have hmem : row.record ∈ records := List.mem_map_of_mem hrow
  rw [← hagree.2] at hlt
  rcases filter_passes hincreasing hrecords hmem hlt with hkept | hreason
  · rw [← hagree.1]
    exact .inl (List.mem_map.mpr ⟨row.record, hkept, rfl⟩)
  · rw [hflat] at hreason
    exact .inr hreason

end Barnabas.Core
