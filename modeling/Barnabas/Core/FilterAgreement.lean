import Barnabas.Core.Filter

/-!
The two filters compared.

The lean reader and the full decoder describe one response: the decoder's
records are the rows of the batches, one after another. On such a pair the
filters keep the same rows and return the same position unless READ_COMMITTED
meets a batch that begins below the LSO and ends at or above it. There the
record-wise filter stops at the LSO and the batch-wise filter moves the position
past the whole batch.

The comparison goes batch by batch. A batch that lies below the LSO takes the
record-wise loop from one batch boundary to the next with the same bookkeeping
(`filterLoop_block`), a batch at or above it stops both loops, and a batch across
it separates them for good (`nextOffset_ne_of_straddles`).
-/

namespace Barnabas.Core

open Barnabas.Lib

/-- What both decoders say about one record. -/
structure Row where
  offset : ℤ
  timestamp : ℤ
  producerId : ℤ
  transactional : Bool
  control : Bool
  key : Option Bytes
  value : Option Bytes
  deriving DecidableEq

def Record.row (r : Record) : Row where
  offset := r.offset
  timestamp := r.timestamp
  producerId := r.producerId
  transactional := r.transactional
  control := r.control
  key := r.key
  value := r.value

namespace LeanBatch

def row (batch : LeanBatch) (r : LeanRecord) : Row where
  offset := r.offset
  timestamp := r.timestamp
  producerId := batch.producerId
  transactional := batch.transactional
  control := batch.control
  key := batch.key r
  value := batch.value r

def rows (batch : LeanBatch) : List Row := batch.records.map batch.row

/-- The offset falls into the batch, but not on its first record. -/
def Inside (batch : LeanBatch) (offset : ℤ) : Prop :=
  ∃ first ∈ batch.records.head?, ∃ last ∈ batch.records.getLast?,
    first.offset < offset ∧ offset ≤ last.offset

instance (batch : LeanBatch) (offset : ℤ) : Decidable (batch.Inside offset) :=
  inferInstanceAs (Decidable (∃ first ∈ batch.records.head?, _))

end LeanBatch

/-- The records are the rows of the batches, flattened. -/
def Flattens (batches : List LeanBatch) (records : List Record) : Prop :=
  records.map Record.row = batches.flatMap LeanBatch.rows

instance (batches : List LeanBatch) (records : List Record) :
    Decidable (Flattens batches records) :=
  inferInstanceAs (Decidable (_ = _))

/-- The outcomes of the two filters show the caller the same rows in the same
order and continue at the same offset. -/
def Agree (fetched : Fetched) (outcome : List LeanBatch × ℤ) : Prop :=
  fetched.records.map Record.row = outcome.1.flatMap LeanBatch.rows ∧
    fetched.nextOffset = outcome.2

instance (fetched : Fetched) (outcome : List LeanBatch × ℤ) :
    Decidable (Agree fetched outcome) :=
  inferInstanceAs (Decidable (_ ∧ _))

/-! ### One block of records -/

@[simp] theorem Record.row_offset (r : Record) : r.row.offset = r.offset := rfl

@[simp] theorem LeanBatch.row_offset (batch : LeanBatch) (r : LeanRecord) :
    (batch.row r).offset = r.offset := rfl

section Loop

variable {lastStableOffset : ℤ} {isolation : IsolationLevel} {fetchOffset : ℤ}

/-- The position after a block. -/
def positionAfter (nextOffset : ℤ) (block : List Record) : ℤ :=
  match block.getLast? with
  | none => nextOffset
  | some r => wrap 64 (r.offset + 1)

theorem positionAfter_cons (nextOffset : ℤ) (r : Record) (block : List Record) :
    positionAfter nextOffset (r :: block) = positionAfter (wrap 64 (r.offset + 1)) block := by
  cases block with
  | nil => rfl
  | cons r' block => simp [positionAfter, List.getLast?_cons]

/-- The record is visible to the loop: the LSO does not stop it. -/
def Reached (lastStableOffset : ℤ) (isolation : IsolationLevel) (offset : ℤ) : Prop :=
  isolation = .readCommitted → offset < lastStableOffset

theorem not_stopped {offset : ℤ} (h : Reached lastStableOffset isolation offset) :
    ¬(isolation = .readCommitted ∧ lastStableOffset ≤ offset) :=
  fun hstop => absurd hstop.2 (not_le.mpr (h hstop.1))

/-- A block of data records of one producer. -/
theorem filterLoop_data (tracker : AbortTracker) (nextOffset producerId : ℤ)
    (transactional : Bool) (block rest : List Record)
    (hreached : ∀ r ∈ block, Reached lastStableOffset isolation r.offset)
    (hquiet : ∀ r ∈ block, tracker.Quiet r.offset)
    (huniform : ∀ r ∈ block, r.control = false ∧ r.producerId = producerId ∧
      r.transactional = transactional) :
    filterLoop lastStableOffset isolation fetchOffset tracker nextOffset (block ++ rest) =
      let out := filterLoop lastStableOffset isolation fetchOffset tracker
        (positionAfter nextOffset block) rest
      ⟨(if isolation = .readCommitted ∧ transactional ∧ producerId ∈ tracker.producers then []
        else block.filter (fetchOffset ≤ ·.offset)) ++ out.records, out.nextOffset⟩ := by
  induction block generalizing nextOffset with
  | nil => simp [positionAfter]
  | cons r block ih =>
      obtain ⟨hcontrol, hproducer, htransactional⟩ := huniform r (by simp)
      have hrest := ih (wrap 64 (r.offset + 1)) (fun r hr => hreached r (by simp [hr]))
        (fun r hr => hquiet r (by simp [hr])) (fun r hr => huniform r (by simp [hr]))
      rw [List.cons_append, filterLoop, if_neg (not_stopped (hreached r (by simp)))]
      simp only [AbortTracker.openUpTo_eq_self (hquiet r (by simp)), hcontrol, hproducer,
        htransactional, Bool.false_eq_true, if_false, hrest, positionAfter_cons]
      by_cases haborted : isolation = .readCommitted ∧ transactional ∧
          producerId ∈ tracker.producers
      · simp only [if_pos haborted]
      · by_cases hbelow : r.offset < fetchOffset
        · simp [haborted, hbelow, not_le.mpr hbelow]
        · simp [haborted, hbelow, not_lt.mp hbelow]

/-- The markers of a block, as `closeMarkers` takes those of a batch. -/
def closeAll (producerId : ℤ) : List Record → AbortTracker → AbortTracker
  | [], tracker => tracker
  | r :: block, tracker =>
      closeAll producerId block
        (if controlType r = some controlAbort then tracker.close producerId else tracker)

/-- A block of control records of one producer. -/
theorem filterLoop_control (tracker : AbortTracker) (nextOffset producerId : ℤ)
    (block rest : List Record)
    (hreached : ∀ r ∈ block, Reached lastStableOffset isolation r.offset)
    (hquiet : ∀ r ∈ block, tracker.Quiet r.offset)
    (huniform : ∀ r ∈ block, r.control = true ∧ r.producerId = producerId) :
    filterLoop lastStableOffset isolation fetchOffset tracker nextOffset (block ++ rest) =
      filterLoop lastStableOffset isolation fetchOffset (closeAll producerId block tracker)
        (positionAfter nextOffset block) rest := by
  induction block generalizing tracker nextOffset with
  | nil => rfl
  | cons r block ih =>
      obtain ⟨hcontrol, hproducer⟩ := huniform r (by simp)
      rw [List.cons_append, filterLoop, if_neg (not_stopped (hreached r (by simp)))]
      simp only [AbortTracker.openUpTo_eq_self (hquiet r (by simp)), hcontrol, hproducer, if_true,
        closeAll, positionAfter_cons]
      apply ih
      · exact fun r hr => hreached r (by simp [hr])
      · intro r' hr'
        -- Closing a range leaves the pending transactions alone.
        have h := hquiet r' (by simp [hr'])
        split <;> exact h
      · exact fun r hr => huniform r (by simp [hr])

end Loop

/-! ### A batch and its block -/

section Block

variable {batch : LeanBatch} {block : List Record}

theorem block_uniform (hblock : block.map Record.row = batch.rows) :
    ∀ r ∈ block, r.control = batch.control ∧ r.producerId = batch.producerId ∧
      r.transactional = batch.transactional := by
  intro r hr
  have hrow : r.row ∈ batch.rows := hblock ▸ List.mem_map_of_mem hr
  obtain ⟨q, -, hq⟩ := List.mem_map.mp hrow
  injection hq with _ _ hproducer htransactional hcontrol
  exact ⟨hcontrol.symm, hproducer.symm, htransactional.symm⟩

theorem block_offsets (hblock : block.map Record.row = batch.rows) :
    block.map Record.offset = batch.records.map LeanRecord.offset := by
  have h := congrArg (List.map Row.offset) hblock
  simpa [LeanBatch.rows, Function.comp_def] using h

theorem controlType_eq {r : Record} {q : LeanRecord} (h : r.row = batch.row q) :
    controlType r = batch.controlType q := by
  have hkey : r.key = batch.slice q.key := by injection h
  rw [controlType, LeanBatch.controlType, hkey]

theorem closeAll_eq (hblock : block.map Record.row = batch.rows) (tracker : AbortTracker) :
    closeAll batch.producerId block tracker = closeMarkers batch batch.records tracker := by
  rw [LeanBatch.rows] at hblock
  generalize batch.records = records at hblock
  induction block generalizing records tracker with
  | nil =>
      obtain rfl : records = [] := by simpa using hblock.symm
      rfl
  | cons r block ih =>
      cases records with
      | nil => simp at hblock
      | cons q records =>
          rw [List.map_cons, List.map_cons, List.cons.injEq] at hblock
          rw [closeAll, closeMarkers, controlType_eq hblock.1]
          exact ih _ _ hblock.2

theorem map_filter_block (hblock : block.map Record.row = batch.rows) (fetchOffset : ℤ) :
    (block.filter (fetchOffset ≤ ·.offset)).map Record.row =
      (batch.records.filter (fetchOffset ≤ ·.offset)).map batch.row := by
  have h := congrArg (List.filter fun row : Row => fetchOffset ≤ row.offset) hblock
  rw [LeanBatch.rows, List.filter_map, List.filter_map] at h
  exact h

/-- A batch of increasing offsets below the LSO loses only what precedes the
requested offset. -/
theorem retain_eq {lastStableOffset : ℤ} {isolation : IsolationLevel} {fetchOffset : ℤ}
    {first : LeanRecord} {records : List LeanRecord}
    (hreached : ∀ r ∈ first :: records, Reached lastStableOffset isolation r.offset)
    (hfirst : ∀ r ∈ first :: records, first.offset ≤ r.offset) :
    retain lastStableOffset isolation fetchOffset (first :: records) first.offset =
      (first :: records).filter (fetchOffset ≤ ·.offset) := by
  have hfrom : (if first.offset < fetchOffset then
      (first :: records).filter (fetchOffset ≤ ·.offset) else first :: records) =
        (first :: records).filter (fetchOffset ≤ ·.offset) := by
    split
    · rfl
    · refine (List.filter_eq_self.mpr fun r hr => ?_).symm
      have h := hfirst r hr
      simp only [decide_eq_true_eq]
      omega
  rw [retain, hfrom]
  split
  · rename_i hcommitted
    refine List.filter_eq_self.mpr fun r hr => ?_
    simpa using hreached r (List.mem_of_mem_filter hr) hcommitted
  · rfl

end Block

/-! ### One batch -/

section Batch

variable {lastStableOffset : ℤ} {isolation : IsolationLevel} {fetchOffset : ℤ}
variable {batch : LeanBatch} {batches : List LeanBatch} {block rest : List Record}
variable {q : LeanRecord} {qs : List LeanRecord}

/-- The loop opens the ranges up to its first record before anything else. -/
theorem filterLoop_openUpTo (tracker : AbortTracker) (nextOffset : ℤ) (r : Record)
    (records : List Record) :
    filterLoop lastStableOffset isolation fetchOffset tracker nextOffset (r :: records) =
      filterLoop lastStableOffset isolation fetchOffset (tracker.openUpTo r.offset) nextOffset
        (r :: records) := by
  simp only [filterLoop, AbortTracker.openUpTo_openUpTo]

/-- The offset after the last record of a batch. -/
def offsetAfter (q : LeanRecord) (qs : List LeanRecord) : ℤ :=
  wrap 64 (((q :: qs).getLast (by simp)).offset + 1)

theorem positionAfter_eq (hblock : block.map Record.row = batch.rows)
    (hrecords : batch.records = q :: qs) (nextOffset : ℤ) :
    positionAfter nextOffset block = offsetAfter q qs := by
  have hoffsets := congrArg List.getLast? (block_offsets hblock)
  rw [hrecords, List.getLast?_map, List.getLast?_map,
    List.getLast?_eq_some_getLast (List.cons_ne_nil q qs)] at hoffsets
  rw [positionAfter, offsetAfter]
  cases hlast : block.getLast? with
  | none => simp [hlast] at hoffsets
  | some r =>
      rw [hlast] at hoffsets
      simp only [Option.map_some, Option.some.injEq] at hoffsets
      simp only [hoffsets]

theorem filterBatchesLoop_cons (hrecords : batch.records = q :: qs) (tracker : AbortTracker)
    (nextOffset : ℤ) (hreached : Reached lastStableOffset isolation q.offset) :
    filterBatchesLoop lastStableOffset isolation fetchOffset tracker nextOffset
        (batch :: batches) =
      let opened := tracker.openUpTo q.offset
      if batch.control then
        filterBatchesLoop lastStableOffset isolation fetchOffset
          (closeMarkers batch batch.records opened) (offsetAfter q qs) batches
      else
        let out := filterBatchesLoop lastStableOffset isolation fetchOffset opened
          (offsetAfter q qs) batches
        if isolation = .readCommitted ∧ batch.transactional ∧
            batch.producerId ∈ opened.producers then out
        else
          let records := retain lastStableOffset isolation fetchOffset (q :: qs) q.offset
          if records.isEmpty then out else ({ batch with records } :: out.1, out.2) := by
  have hlast : (q :: qs).getLast? = some ((q :: qs).getLast (by simp)) :=
    List.getLast?_eq_some_getLast _
  rw [filterBatchesLoop]
  simp only [hrecords, List.head?_cons, hlast, if_neg (not_stopped hreached), offsetAfter]

theorem filterBatchesLoop_nil (hrecords : batch.records = []) (tracker : AbortTracker)
    (nextOffset : ℤ) :
    filterBatchesLoop lastStableOffset isolation fetchOffset tracker nextOffset
        (batch :: batches) =
      filterBatchesLoop lastStableOffset isolation fetchOffset tracker nextOffset batches := by
  rw [filterBatchesLoop, hrecords]
  rfl

theorem filterBatchesLoop_stop (hrecords : batch.records = q :: qs) (tracker : AbortTracker)
    (nextOffset : ℤ) (hstop : isolation = .readCommitted ∧ lastStableOffset ≤ q.offset) :
    filterBatchesLoop lastStableOffset isolation fetchOffset tracker nextOffset
        (batch :: batches) = ([], nextOffset) := by
  rw [filterBatchesLoop]
  simp only [hrecords, List.head?_cons]
  rw [if_pos hstop]

/-- What a kept batch contributes to the rows, dropped or not. -/
theorem flatMap_rows_cons (batch : LeanBatch) (records : List LeanRecord) (out : List LeanBatch × ℤ) :
    (if records.isEmpty then out else ({ batch with records } :: out.1, out.2)).1.flatMap
        LeanBatch.rows = records.map batch.row ++ out.1.flatMap LeanBatch.rows ∧
      (if records.isEmpty then out else ({ batch with records } :: out.1, out.2)).2 = out.2 := by
  cases records with
  | nil => simp
  | cons r records =>
      refine ⟨?_, rfl⟩
      simp only [List.isEmpty_cons, Bool.false_eq_true, if_false, List.flatMap_cons]
      rfl

theorem agree_append_iff {kept : List Record} {rows : List Row} {fetched : Fetched}
    {outcome outcome' : List LeanBatch × ℤ} (hkept : kept.map Record.row = rows)
    (hrows : outcome'.1.flatMap LeanBatch.rows = rows ++ outcome.1.flatMap LeanBatch.rows)
    (hnext : outcome'.2 = outcome.2) :
    Agree ⟨kept ++ fetched.records, fetched.nextOffset⟩ outcome' ↔ Agree fetched outcome := by
  rw [Agree, Agree, List.map_append, hkept, hrows, hnext, List.append_cancel_left_eq]

/-- The records of a batch in offset order. -/
def LeanBatch.Ordered (batch : LeanBatch) : Prop :=
  (batch.records.map LeanRecord.offset).Pairwise (· < ·)

theorem first_le_of_ordered (hordered : batch.Ordered) (hrecords : batch.records = q :: qs) :
    ∀ r ∈ q :: qs, q.offset ≤ r.offset := by
  rw [LeanBatch.Ordered, hrecords, List.map_cons, List.pairwise_cons] at hordered
  intro r hr
  rcases List.mem_cons.mp hr with rfl | hr
  · exact le_refl _
  · exact le_of_lt (hordered.1 _ (List.mem_map_of_mem hr))

theorem le_last_of_ordered (hordered : batch.Ordered) (hrecords : batch.records = q :: qs) :
    ∀ r ∈ q :: qs, r.offset ≤ ((q :: qs).getLast (by simp)).offset := by
  intro r hr
  rw [LeanBatch.Ordered, hrecords, List.pairwise_map,
    ← List.dropLast_append_getLast (List.cons_ne_nil q qs), List.pairwise_append] at hordered
  rw [← List.dropLast_append_getLast (List.cons_ne_nil q qs), List.mem_append,
    List.mem_singleton] at hr
  rcases hr with hr | rfl
  · exact le_of_lt (hordered.2.2 r hr _ (by simp))
  · exact le_refl _

/-- An aborted range that does not begin inside a batch is open from its first
record on, or not at all. -/
theorem quiet_of_not_inside (hordered : batch.Ordered) (hrecords : batch.records = q :: qs)
    {tracker : AbortTracker} (hinside : ∀ a ∈ tracker.pending, ¬batch.Inside a.firstOffset) :
    ∀ r ∈ q :: qs, (tracker.openUpTo q.offset).Quiet r.offset := by
  intro r hr a ha
  have hbegin := AbortTracker.openUpTo_quiet tracker q.offset a ha
  have hmem : a ∈ tracker.pending :=
    (AbortTracker.openUpTo_pending_suffix tracker q.offset).subset (List.mem_of_head? ha)
  have hlast : ((q :: qs).getLast (by simp)).offset < a.firstOffset := by
    by_contra hle
    apply hinside a hmem
    refine ⟨q, by simp [hrecords], (q :: qs).getLast (by simp), ?_, hbegin, not_lt.mp hle⟩
    rw [hrecords, List.getLast?_eq_some_getLast (List.cons_ne_nil q qs)]
    rfl
  exact lt_of_le_of_lt (le_last_of_ordered hordered hrecords r hr) hlast

/-- A batch that the LSO does not cut takes both loops to the same bookkeeping
and the same position, having shown the same rows. -/
theorem agree_block (fetchOffset : ℤ) (rest : List Record) (batches : List LeanBatch)
    (hblock : block.map Record.row = batch.rows) (hordered : batch.Ordered)
    (hrecords : batch.records = q :: qs)
    (hreached : ∀ r ∈ q :: qs, Reached lastStableOffset isolation r.offset)
    (tracker : AbortTracker) (nextOffset : ℤ)
    (hinside : ∀ a ∈ tracker.pending, ¬batch.Inside a.firstOffset) :
    ∃ tracker' : AbortTracker, tracker'.pending <:+ tracker.pending ∧
      (Agree (filterLoop lastStableOffset isolation fetchOffset tracker nextOffset
          (block ++ rest))
        (filterBatchesLoop lastStableOffset isolation fetchOffset tracker nextOffset
          (batch :: batches)) ↔
      Agree (filterLoop lastStableOffset isolation fetchOffset tracker' (offsetAfter q qs) rest)
        (filterBatchesLoop lastStableOffset isolation fetchOffset tracker' (offsetAfter q qs)
          batches)) := by
  have hoffsets := block_offsets hblock
  rw [hrecords] at hoffsets
  have hmem : ∀ r ∈ block, ∃ r' ∈ q :: qs, r'.offset = r.offset := fun r hr =>
    List.mem_map.mp (hoffsets ▸ List.mem_map_of_mem hr)
  have hblockReached : ∀ r ∈ block, Reached lastStableOffset isolation r.offset := by
    intro r hr
    obtain ⟨r', hr', heq⟩ := hmem r hr
    exact heq ▸ hreached r' hr'
  have hblockQuiet : ∀ r ∈ block, (tracker.openUpTo q.offset).Quiet r.offset := by
    intro r hr
    obtain ⟨r', hr', heq⟩ := hmem r hr
    exact heq ▸ quiet_of_not_inside hordered hrecords hinside r' hr'
  have hopen : filterLoop lastStableOffset isolation fetchOffset tracker nextOffset
      (block ++ rest) = filterLoop lastStableOffset isolation fetchOffset
        (tracker.openUpTo q.offset) nextOffset (block ++ rest) := by
    cases block with
    | nil => simp at hoffsets
    | cons r block =>
        simp only [List.map_cons, List.cons.injEq] at hoffsets
        rw [List.cons_append, filterLoop_openUpTo, hoffsets.1]
  have huniform := block_uniform hblock
  have hsuffix := AbortTracker.openUpTo_pending_suffix tracker q.offset
  rw [hopen, filterBatchesLoop_cons hrecords tracker nextOffset (hreached q (by simp))]
  by_cases hcontrol : batch.control = true
  · refine ⟨closeMarkers batch batch.records (tracker.openUpTo q.offset), by simpa, ?_⟩
    rw [filterLoop_control _ _ batch.producerId block rest hblockReached hblockQuiet
      (fun r hr => ⟨(huniform r hr).1.trans hcontrol, (huniform r hr).2.1⟩),
      positionAfter_eq hblock hrecords, closeAll_eq hblock]
    simp only [if_pos hcontrol]
  · refine ⟨tracker.openUpTo q.offset, hsuffix, ?_⟩
    have hdata : batch.control = false := by simpa using hcontrol
    rw [filterLoop_data _ _ batch.producerId batch.transactional block rest hblockReached
      hblockQuiet (fun r hr => ⟨(huniform r hr).1.trans hdata, (huniform r hr).2⟩),
      positionAfter_eq hblock hrecords]
    simp only [if_neg hcontrol]
    split
    · rw [List.nil_append]
    · have hcons := flatMap_rows_cons batch
        (retain lastStableOffset isolation fetchOffset (q :: qs) q.offset)
        (filterBatchesLoop lastStableOffset isolation fetchOffset
          (tracker.openUpTo q.offset) (offsetAfter q qs) batches)
      refine agree_append_iff ?_ hcons.1 hcons.2
      rw [retain_eq hreached (first_le_of_ordered hordered hrecords),
        map_filter_block hblock, hrecords]

/-! ### A batch across the LSO -/

theorem filterLoop_stop (hblock : block.map Record.row = batch.rows)
    (hrecords : batch.records = q :: qs)
    (hstop : isolation = .readCommitted ∧ lastStableOffset ≤ q.offset) {tracker : AbortTracker}
    {nextOffset : ℤ} :
    filterLoop lastStableOffset isolation fetchOffset tracker nextOffset (block ++ rest) =
      ⟨[], nextOffset⟩ := by
  have hoffsets := block_offsets hblock
  rw [hrecords] at hoffsets
  cases block with
  | nil => simp at hoffsets
  | cons r block =>
      simp only [List.map_cons, List.cons.injEq] at hoffsets
      rw [List.cons_append, filterLoop, if_pos (hoffsets.1 ▸ hstop)]

/-- Once the record-wise loop has passed a record below the LSO, it ends right
after some record below the LSO. -/
theorem filterLoop_nextOffset (fetchOffset : ℤ) (tracker : AbortTracker) (nextOffset : ℤ) (r : Record)
    (records : List Record) (hr : r.offset < lastStableOffset) :
    ∃ r' ∈ r :: records, r'.offset < lastStableOffset ∧
      (filterLoop lastStableOffset .readCommitted fetchOffset tracker nextOffset
        (r :: records)).nextOffset = wrap 64 (r'.offset + 1) := by
  have hpass : ∀ tracker', ∃ r' ∈ r :: records, r'.offset < lastStableOffset ∧
      (filterLoop lastStableOffset .readCommitted fetchOffset tracker'
        (wrap 64 (r.offset + 1)) records).nextOffset = wrap 64 (r'.offset + 1) := by
    intro tracker'
    cases records with
    | nil => exact ⟨r, by simp, hr, rfl⟩
    | cons r₂ records =>
        by_cases hr₂ : r₂.offset < lastStableOffset
        · obtain ⟨r', hmem, hlt, heq⟩ :=
            filterLoop_nextOffset fetchOffset tracker' (wrap 64 (r.offset + 1)) r₂ records hr₂
          exact ⟨r', by simp [List.mem_cons.mp hmem], hlt, heq⟩
        · refine ⟨r, by simp, hr, ?_⟩
          rw [filterLoop, if_pos ⟨rfl, not_lt.mp hr₂⟩]
  rw [filterLoop, if_neg (by omega)]
  dsimp only
  split
  · exact hpass _
  · split
    · exact hpass _
    · split
      · exact hpass _
      · exact hpass _

/-- Nothing at or above the LSO moves the batch-wise loop. -/
theorem filterBatchesLoop_withheld (tracker : AbortTracker) (nextOffset : ℤ)
    (h : ∀ b ∈ batches, ∀ r ∈ b.records, lastStableOffset ≤ r.offset) :
    filterBatchesLoop lastStableOffset .readCommitted fetchOffset tracker nextOffset batches =
      ([], nextOffset) := by
  induction batches generalizing tracker with
  | nil => rfl
  | cons b batches ih =>
      cases hrecords : b.records with
      | nil =>
          rw [filterBatchesLoop_nil hrecords]
          exact ih tracker fun b hb => h b (by simp [hb])
      | cons q qs =>
          have hq := h b (by simp) q (by simp [hrecords])
          exact filterBatchesLoop_stop hrecords tracker nextOffset ⟨rfl, hq⟩

/-- A batch across the LSO leaves the batch-wise loop after its last record. -/
theorem filterBatchesLoop_straddled (hrecords : batch.records = q :: qs)
    (hq : q.offset < lastStableOffset)
    (h : ∀ b ∈ batches, ∀ r ∈ b.records, lastStableOffset ≤ r.offset)
    (tracker : AbortTracker) (nextOffset : ℤ) :
    (filterBatchesLoop lastStableOffset .readCommitted fetchOffset tracker nextOffset
      (batch :: batches)).2 = offsetAfter q qs := by
  rw [filterBatchesLoop_cons hrecords tracker nextOffset (fun _ => hq)]
  dsimp only
  split
  · rw [filterBatchesLoop_withheld _ _ h]
  · split
    · rw [filterBatchesLoop_withheld _ _ h]
    · rw [(flatMap_rows_cons batch _ _).2, filterBatchesLoop_withheld _ _ h]

/-- The two positions differ: one is after a record below the LSO, the other
after a record at or above it. -/
theorem nextOffset_ne_of_straddles (hblock : block.map Record.row = batch.rows)
    (hrecords : batch.records = q :: qs) (hq : q.offset < lastStableOffset)
    (hlast : lastStableOffset ≤ ((q :: qs).getLast (by simp)).offset)
    (h : ∀ b ∈ batches, ∀ r ∈ b.records, lastStableOffset ≤ r.offset)
    (hfits : ∀ r ∈ block ++ rest, Fits 64 r.offset) (tracker : AbortTracker) (nextOffset : ℤ) :
    (filterLoop lastStableOffset .readCommitted fetchOffset tracker nextOffset
      (block ++ rest)).nextOffset ≠
    (filterBatchesLoop lastStableOffset .readCommitted fetchOffset tracker nextOffset
      (batch :: batches)).2 := by
  have hoffsets := block_offsets hblock
  rw [hrecords] at hoffsets
  rw [filterBatchesLoop_straddled hrecords hq h, offsetAfter]
  obtain ⟨last, hlastMem, hlastEq⟩ : ∃ r ∈ block,
      r.offset = ((q :: qs).getLast (by simp)).offset := by
    apply List.mem_map.mp
    rw [hoffsets]
    exact List.mem_map_of_mem (List.getLast_mem _)
  cases block with
  | nil => simp at hoffsets
  | cons r block =>
      have hr : r.offset = q.offset := by
        simp only [List.map_cons, List.cons.injEq] at hoffsets
        exact hoffsets.1
      obtain ⟨r', hmem, hlt, heq⟩ := filterLoop_nextOffset fetchOffset tracker
        nextOffset r (block ++ rest) (hr ▸ hq)
      rw [List.cons_append, heq, ← hlastEq]
      intro hsame
      have hinj := wrap_add_inj (by decide) (hfits r' hmem)
        (hfits last (List.mem_append_left rest hlastMem)) hsame
      omega

end Batch

/-! ### Whole responses -/

section Response

variable {lastStableOffset : ℤ} {isolation : IsolationLevel} {fetchOffset : ℤ}
variable {batches : List LeanBatch} {records : List Record}

/-- The batches are read in offset order, across the whole list. -/
def Ordered (batches : List LeanBatch) : Prop :=
  (batches.flatMap (·.records.map LeanRecord.offset)).Pairwise (· < ·)

instance (batches : List LeanBatch) : Decidable (Ordered batches) :=
  inferInstanceAs (Decidable (List.Pairwise _ _))

theorem ordered_cons_iff {batch : LeanBatch} :
    Ordered (batch :: batches) ↔ batch.Ordered ∧ Ordered batches ∧
      ∀ r ∈ batch.records, ∀ b ∈ batches, ∀ r' ∈ b.records, r.offset < r'.offset := by
  simp only [Ordered, List.flatMap_cons, List.pairwise_append, LeanBatch.Ordered]
  refine and_congr_right fun _ => and_congr_right fun _ => ?_
  simp only [List.mem_map, List.mem_flatMap]
  constructor
  · intro h r hr b hb r' hr'
    exact h _ ⟨r, hr, rfl⟩ _ ⟨b, hb, r', hr', rfl⟩
  · rintro h _ ⟨r, hr, rfl⟩ _ ⟨b, hb, r', hr', rfl⟩
    exact h r hr b hb r' hr'

/-- Some batch begins below the LSO and ends at or above it. -/
def Straddled (batches : List LeanBatch) (lastStableOffset : ℤ) : Prop :=
  ∃ b ∈ batches, b.Inside lastStableOffset

instance (batches : List LeanBatch) (lastStableOffset : ℤ) :
    Decidable (Straddled batches lastStableOffset) :=
  inferInstanceAs (Decidable (∃ b ∈ batches, _))

theorem not_inside_of_nil {batch : LeanBatch} (h : batch.records = []) (offset : ℤ) :
    ¬batch.Inside offset := by
  rintro ⟨first, hfirst, -⟩
  simp [h] at hfirst

theorem inside_iff {batch : LeanBatch} {q : LeanRecord} {qs : List LeanRecord}
    (h : batch.records = q :: qs) (offset : ℤ) :
    batch.Inside offset ↔
      q.offset < offset ∧ offset ≤ ((q :: qs).getLast (by simp)).offset := by
  simp [LeanBatch.Inside, h, List.getLast?_eq_some_getLast (List.cons_ne_nil q qs)]

theorem agree_loop_iff (hflat : Flattens batches records) (hordered : Ordered batches)
    (hfits : ∀ r ∈ records, Fits 64 r.offset) (tracker : AbortTracker) (nextOffset : ℤ)
    (hinside : ∀ a ∈ tracker.pending, ∀ b ∈ batches, ¬b.Inside a.firstOffset) :
    Agree (filterLoop lastStableOffset isolation fetchOffset tracker nextOffset records)
        (filterBatchesLoop lastStableOffset isolation fetchOffset tracker nextOffset batches) ↔
      ¬(isolation = .readCommitted ∧ Straddled batches lastStableOffset) := by
  induction batches generalizing records tracker nextOffset with
  | nil =>
      obtain rfl : records = [] := by simpa [Flattens] using hflat
      simp [Agree, filterLoop, filterBatchesLoop, Straddled]
  | cons batch batches ih =>
      obtain ⟨block, rest, rfl, hblock, hrest⟩ := List.map_eq_append_iff.mp hflat
      obtain ⟨hbatch, hbatches, hbelow⟩ := ordered_cons_iff.mp hordered
      have hfitsRest : ∀ r ∈ rest, Fits 64 r.offset := fun r hr => hfits r (by simp [hr])
      have hcons : Straddled (batch :: batches) lastStableOffset ↔
          batch.Inside lastStableOffset ∨ Straddled batches lastStableOffset := by
        simp [Straddled]
      cases hrecords : batch.records with
      | nil =>
          obtain rfl : block = [] := by simpa [LeanBatch.rows, hrecords] using hblock
          rw [List.nil_append, filterBatchesLoop_nil hrecords, hcons,
            or_iff_right (not_inside_of_nil hrecords _)]
          exact ih hrest hbatches hfitsRest tracker nextOffset
            fun a ha b hb => hinside a ha b (by simp [hb])
      | cons q qs =>
          have hlater : ∀ r ∈ q :: qs, ∀ b ∈ batches, ∀ r' ∈ b.records, r.offset < r'.offset :=
            hrecords ▸ hbelow
          by_cases hstop : isolation = .readCommitted ∧ lastStableOffset ≤ q.offset
          · -- At or above the LSO: both loops stop where they are.
            have hnot : ¬Straddled (batch :: batches) lastStableOffset := by
              rw [hcons, inside_iff hrecords]
              rintro (h | ⟨b, hb, first, hfirst, -, -, hlt, -⟩)
              · omega
              · have h := hlater q (by simp) b hb first (List.mem_of_head? hfirst)
                omega
            rw [filterBatchesLoop_stop hrecords tracker nextOffset hstop,
              filterLoop_stop hblock hrecords hstop]
            simp [Agree, hnot]
          · by_cases hcut : isolation = .readCommitted ∧
                lastStableOffset ≤ ((q :: qs).getLast (by simp)).offset
            · -- Across the LSO: the positions part.
              obtain ⟨rfl, hcut⟩ := hcut
              have hq : q.offset < lastStableOffset := by
                by_contra hge
                exact hstop ⟨rfl, not_lt.mp hge⟩
              have hwithheld : ∀ b ∈ batches, ∀ r ∈ b.records, lastStableOffset ≤ r.offset := by
                intro b hb r hr
                have h := hlater _ (List.getLast_mem (List.cons_ne_nil q qs)) b hb r hr
                omega
              have hstraddled : Straddled (batch :: batches) lastStableOffset :=
                hcons.mpr (Or.inl ((inside_iff hrecords _).mpr ⟨hq, hcut⟩))
              refine iff_of_false ?_ (by simp [hstraddled])
              intro hagree
              exact nextOffset_ne_of_straddles hblock hrecords hq hcut hwithheld hfits tracker
                nextOffset hagree.2
            · -- Below the LSO: on to the next batch.
              have hreached : ∀ r ∈ q :: qs, Reached lastStableOffset isolation r.offset := by
                intro r hr hcommitted
                have hle := le_last_of_ordered hbatch hrecords r hr
                by_contra hge
                exact hcut ⟨hcommitted, by omega⟩
              obtain ⟨tracker', hsuffix, hiff⟩ := agree_block fetchOffset rest
                batches hblock hbatch hrecords hreached
                tracker nextOffset (fun a ha => hinside a ha batch (by simp))
              rw [hiff, ih hrest hbatches hfitsRest tracker' _
                (fun a ha b hb => hinside a (hsuffix.subset ha) b (by simp [hb])), hcons,
                inside_iff hrecords]
              refine not_congr (and_congr_right fun hcommitted => (or_iff_right ?_).symm)
              rintro ⟨-, hle⟩
              exact hcut ⟨hcommitted, hle⟩

/-- A response that nothing is dropped from passes the loop unchanged. -/
theorem filterLoop_clean (nextOffset : ℤ)
    (hclean : ∀ r ∈ records, r.control = false ∧ fetchOffset ≤ r.offset ∧
      Reached lastStableOffset isolation r.offset) :
    filterLoop lastStableOffset isolation fetchOffset (.new []) nextOffset records =
      ⟨records, positionAfter nextOffset records⟩ := by
  induction records generalizing nextOffset with
  | nil => rfl
  | cons r records ih =>
      obtain ⟨hcontrol, hfetch, hreached⟩ := hclean r (by simp)
      have hopen : (AbortTracker.new []).openUpTo r.offset = .new [] := rfl
      have hnone : r.producerId ∉ (AbortTracker.new []).producers := by simp [AbortTracker.new]
      rw [filterLoop, if_neg (not_stopped hreached)]
      simp only [hopen, hcontrol, Bool.false_eq_true, if_false, hnone, and_false,
        if_neg (not_lt.mpr hfetch), ih _ fun r hr => hclean r (by simp [hr]),
        positionAfter_cons]

/-- The scan of `filter` decides nothing that the loop would not. -/
theorem filter_eq_filterLoop (aborted : List AbortedTransaction) :
    filter lastStableOffset isolation fetchOffset records aborted =
      filterLoop lastStableOffset isolation fetchOffset (.new aborted) fetchOffset records := by
  rw [filter]
  split
  · rename_i hscan
    obtain ⟨haborted, hscan⟩ := hscan
    obtain rfl : aborted = [] := by simpa using haborted
    rw [filterLoop_clean fetchOffset]
    · rfl
    · intro r hr
      simp only [Bool.not_eq_true', List.any_eq_false] at hscan
      have h := hscan r hr
      simp only [Bool.or_eq_true, decide_eq_true_eq, Bool.and_eq_true, not_or, not_and, not_lt,
        not_le, Bool.not_eq_true] at h
      exact ⟨h.1.1, h.1.2, h.2⟩
  · rfl

/-- **The filters agree exactly off the LSO.** For a response in offset order
whose aborted transactions begin at batch boundaries, the two filters keep the
same records and return the same position if and only if READ_COMMITTED meets no
batch across the LSO. -/
theorem filters_agree_iff (aborted : List AbortedTransaction)
    (hflat : Flattens batches records) (hordered : Ordered batches)
    (hfits : ∀ r ∈ records, Fits 64 r.offset)
    (hinside : ∀ a ∈ aborted, ∀ b ∈ batches, ¬b.Inside a.firstOffset) :
    Agree (filter lastStableOffset isolation fetchOffset records aborted)
        (filterBatches lastStableOffset isolation fetchOffset batches aborted) ↔
      ¬(isolation = .readCommitted ∧ Straddled batches lastStableOffset) := by
  rw [filter_eq_filterLoop, filterBatches]
  exact agree_loop_iff hflat hordered hfits _ _ fun a ha =>
    hinside a (AbortTracker.mem_new_pending.mp ha)

end Response

/-! ### Responses for the two sides of the theorem -/

/-- A record of producer `producerId` with an empty value. -/
def plainRecord (offset producerId : ℤ) (transactional control : Bool) (key : Bytes) : Record where
  transactional := transactional
  control := control
  partitionLeaderEpoch := 0
  producerId := producerId
  producerEpoch := 0
  timestampType := .creation
  offset := offset
  sequence := 0
  timestamp := 0
  key := some key
  value := some []
  headers := []

/-- The same record in a batch whose buffer is the key. -/
def bareRecord (offset : ℤ) (keyLength : ℕ) : LeanRecord where
  offset := offset
  timestamp := 0
  key := (0, keyLength)
  value := (0, 0)
  headers := (0, 0)
  headerCount := 0

/-- One transactional batch of producer 9 at offsets 0, 1 and 2. -/
def openBatch : LeanBatch where
  buffer := []
  baseOffset := 0
  producerId := 9
  transactional := true
  control := false
  records := [bareRecord 0 0, bareRecord 1 0, bareRecord 2 0]

def openRecords : List Record :=
  [plainRecord 0 9 true false [], plainRecord 1 9 true false [], plainRecord 2 9 true false []]

/-- With the LSO at 1 the record-wise filter continues at 1, the batch-wise
filter at 3: the records at 1 and 2 are withheld and never asked for again. -/
theorem filters_disagree_at_lso :
    Flattens [openBatch] openRecords ∧ Ordered [openBatch] ∧
      (∀ r ∈ openRecords, Fits 64 r.offset) ∧
      filter 1 .readCommitted 0 openRecords [] = ⟨[plainRecord 0 9 true false []], 1⟩ ∧
      filterBatches 1 .readCommitted 0 [openBatch] [] =
        ([{ openBatch with records := [bareRecord 0 0] }], 3) ∧
      ¬Agree (filter 1 .readCommitted 0 openRecords [])
        (filterBatches 1 .readCommitted 0 [openBatch] []) := by
  decide

/-- An abort marker of producer 9. -/
def abortBatch (offset : ℤ) : LeanBatch where
  buffer := [0, 0, 0, 0]
  baseOffset := offset
  producerId := 9
  transactional := true
  control := true
  records := [bareRecord offset 4]

/-- The aborted transaction of producer 9, its marker and a plain record, read
from the middle of the first batch. -/
theorem filters_agree_aborted :
    Agree
      (filter 5 .readCommitted 1
        (openRecords ++ [plainRecord 3 9 true true [0, 0, 0, 0], plainRecord 4 9 true false []])
        [⟨9, 0⟩])
      (filterBatches 5 .readCommitted 1
        [openBatch, abortBatch 3, { openBatch with records := [bareRecord 4 0] }] [⟨9, 0⟩]) :=
  (filters_agree_iff [⟨9, 0⟩] (by decide) (by decide) (by decide) (by decide)).mpr (by decide)

end Barnabas.Core
