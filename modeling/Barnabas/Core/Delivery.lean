import Barnabas.Core.PartitionLog
import Mathlib.Data.List.TakeWhile

/-!
Delivery over a whole log.

The consumer reads a partition by a loop over fetch responses: decode, filter,
ask again from the position the filter returned. The broker cuts its answers
where it likes and the filter starts its bookkeeping afresh on each of them.
`delivered_prefix` says that none of this shows: whatever the cuts, what the
caller has been handed is a prefix of the visible records from the start offset
on.

The invariant of one response is `Tracks`: before batch `k` of the log, the
producers held as aborted are those with an aborted transaction around `k`, and
every aborted transaction still to begin is pending.
-/

namespace Barnabas.Core

open Barnabas.Lib

/-! ### The bookkeeping against the log -/

/-- The offset of the batch's first record. -/
def LeanBatch.firstOffset (batch : LeanBatch) : ℤ :=
  match batch.records.head? with
  | none => batch.baseOffset
  | some r => r.offset

theorem LeanBatch.firstOffset_eq {batch : LeanBatch} {q : LeanRecord} {qs : List LeanRecord}
    (h : batch.records = q :: qs) : batch.firstOffset = q.offset := by
  simp [firstOffset, h]

/-- A well-formed log: every batch has records and offsets increase. -/
structure WellFormed (log : List LeanBatch) : Prop where
  nonempty : ∀ b ∈ log, b.records ≠ []
  ordered : Ordered log

section Tracks

variable {log : List LeanBatch}

theorem WellFormed.offset_lt (hlog : WellFormed log) {i j : ℕ} {b b' : LeanBatch}
    (hi : log[i]? = some b) (hj : log[j]? = some b') (hij : i < j) {r r' : LeanRecord}
    (hr : r ∈ b.records) (hr' : r' ∈ b'.records) : r.offset < r'.offset := by
  have hpairwise := (List.pairwise_flatMap.mp hlog.ordered).2
  rw [List.pairwise_iff_getElem] at hpairwise
  obtain ⟨hlti, rfl⟩ := List.getElem?_eq_some_iff.mp hi
  obtain ⟨hltj, rfl⟩ := List.getElem?_eq_some_iff.mp hj
  exact hpairwise i j hlti hltj hij _ (List.mem_map_of_mem hr) _ (List.mem_map_of_mem hr')

theorem WellFormed.firstOffset_le_iff (hlog : WellFormed log) {i j : ℕ} {b b' : LeanBatch}
    (hi : log[i]? = some b) (hj : log[j]? = some b') :
    b.firstOffset ≤ b'.firstOffset ↔ i ≤ j := by
  obtain ⟨q, qs, hb⟩ := List.exists_cons_of_ne_nil (hlog.nonempty b (List.mem_of_getElem? hi))
  obtain ⟨q', qs', hb'⟩ :=
    List.exists_cons_of_ne_nil (hlog.nonempty b' (List.mem_of_getElem? hj))
  rw [LeanBatch.firstOffset_eq hb, LeanBatch.firstOffset_eq hb']
  rcases Nat.lt_trichotomy i j with hlt | rfl | hgt
  · have := hlog.offset_lt hi hj hlt (hb ▸ List.mem_cons_self) (hb' ▸ List.mem_cons_self)
    omega
  · obtain rfl : b = b' := Option.some.inj (hi.symm.trans hj)
    obtain rfl : q = q' := by simp_all
    simp
  · have := hlog.offset_lt hj hi hgt (hb' ▸ List.mem_cons_self) (hb ▸ List.mem_cons_self)
    omega

/-- The aborted transactions that a run of batches up to `hi` has to know: those
that begin in it, below the LSO that the response reports. -/
def Relevant (log : List LeanBatch) (hi : ℕ) (lastStableOffset : ℤ) (i : ℕ) : Prop :=
  i < hi ∧ ∃ b ∈ log[i]?, b.firstOffset < lastStableOffset

/-- The bookkeeping before batch `k`. -/
structure Tracks (log : List LeanBatch) (hi : ℕ) (lastStableOffset : ℤ) (k : ℕ)
    (tracker : AbortTracker) : Prop where
  sorted : tracker.pending.Pairwise fun a b => a.firstOffset ≤ b.firstOffset
  producers : ∀ p ∈ tracker.producers, ∃ i j, AbortedSpan log p i j ∧ i < k ∧ k ≤ j
  pending : ∀ a ∈ tracker.pending, ∃ i j, AbortedSpan log a.producerId i j ∧ k ≤ j ∧
    ∃ b ∈ log[i]?, b.firstOffset = a.firstOffset
  complete : ∀ p i j, AbortedSpan log p i j → Relevant log hi lastStableOffset i → k ≤ j →
    i < k ∧ p ∈ tracker.producers ∨ ∃ b ∈ log[i]?, ⟨p, b.firstOffset⟩ ∈ tracker.pending

/-- The bookkeeping at batch `k`, with the ranges up to its first offset
open. -/
structure TracksAt (log : List LeanBatch) (hi : ℕ) (lastStableOffset : ℤ) (k : ℕ)
    (tracker : AbortTracker) : Prop where
  sorted : tracker.pending.Pairwise fun a b => a.firstOffset ≤ b.firstOffset
  producers : ∀ p ∈ tracker.producers, ∃ i j, AbortedSpan log p i j ∧ i ≤ k ∧ k ≤ j
  pending : ∀ a ∈ tracker.pending, ∃ i j, AbortedSpan log a.producerId i j ∧ k < i ∧
    ∃ b ∈ log[i]?, b.firstOffset = a.firstOffset
  complete : ∀ p i j, AbortedSpan log p i j → Relevant log hi lastStableOffset i → k ≤ j →
    i ≤ k ∧ p ∈ tracker.producers ∨ ∃ b ∈ log[i]?, ⟨p, b.firstOffset⟩ ∈ tracker.pending

variable {hi k : ℕ} {lastStableOffset : ℤ} {tracker : AbortTracker} {batch : LeanBatch}

theorem Tracks.openUpTo (hlog : WellFormed log) (h : Tracks log hi lastStableOffset k tracker)
    (hk : log[k]? = some batch) :
    TracksAt log hi lastStableOffset k (tracker.openUpTo batch.firstOffset) := by
  obtain ⟨hproducers, hpending⟩ := AbortTracker.mem_openLoop batch.firstOffset
    tracker.producers h.sorted
  refine ⟨?_, fun p hp => ?_, fun a ha => ?_, fun p i j hspan hrel hkj => ?_⟩
  · exact h.sorted.sublist (AbortTracker.openUpTo_pending_suffix _ _).sublist
  · rcases (hproducers p).mp hp with hp | ⟨a, ha, hle, rfl⟩
    · obtain ⟨i, j, hspan, hik, hkj⟩ := h.producers p hp
      exact ⟨i, j, hspan, by omega, hkj⟩
    · obtain ⟨i, j, hspan, hkj, b, hb, hfirst⟩ := h.pending a ha
      exact ⟨i, j, hspan, (hlog.firstOffset_le_iff hb hk).mp (hfirst ▸ hle), hkj⟩
  · obtain ⟨ha, hlt⟩ := (hpending a).mp ha
    obtain ⟨i, j, hspan, -, b, hb, hfirst⟩ := h.pending a ha
    have hki : ¬i ≤ k := fun hle => by
      have := (hlog.firstOffset_le_iff hb hk).mpr hle
      omega
    exact ⟨i, j, hspan, by omega, b, hb, hfirst⟩
  · rcases h.complete p i j hspan hrel hkj with ⟨hik, hp⟩ | ⟨b, hb, ha⟩
    · exact Or.inl ⟨by omega, (hproducers p).mpr (Or.inl hp)⟩
    · by_cases hik : i ≤ k
      · exact Or.inl ⟨hik, (hproducers p).mpr
          (Or.inr ⟨_, ha, (hlog.firstOffset_le_iff hb hk).mpr hik, rfl⟩)⟩
      · refine Or.inr ⟨b, hb, (hpending _).mpr ⟨ha, ?_⟩⟩
        have := (hlog.firstOffset_le_iff hb hk).not.mpr hik
        simpa using this

/-- At a transactional batch below the LSO the bookkeeping knows whether its
transaction was aborted. -/
theorem TracksAt.mem_producers_iff (h : TracksAt log hi lastStableOffset k tracker)
    (hlog : WellFormed log) (hk : log[k]? = some batch) (hhi : k < hi)
    (hbelow : batch.firstOffset < lastStableOffset) (hdata : batch.control = false)
    (htransactional : batch.transactional = true) :
    batch.producerId ∈ tracker.producers ↔
      abortsNext batch.producerId (log.drop (k + 1)) = true := by
  rw [abortsNext_iff_span ⟨batch, hk, hdata, htransactional, rfl⟩]
  constructor
  · exact h.producers _
  · rintro ⟨i, j, hspan, hik, hkj⟩
    obtain ⟨b, hb, -⟩ := hspan.begins
    have hle := (hlog.firstOffset_le_iff hb hk).mpr hik
    rcases h.complete _ i j hspan ⟨by omega, b, hb, by omega⟩ hkj with ⟨-, hp⟩ | ⟨b', hb', ha⟩
    · exact hp
    · -- A pending transaction begins after `k`.
      obtain ⟨i', j', hspan', hki', b'', hb'', hfirst⟩ := h.pending _ ha
      have hle' := (hlog.firstOffset_le_iff hb'' hb').mp (le_of_eq hfirst)
      omega

/-- A data batch hands the bookkeeping on as it is. -/
theorem TracksAt.data (h : TracksAt log hi lastStableOffset k tracker)
    (hk : log[k]? = some batch) (hdata : batch.control = false) :
    Tracks log hi lastStableOffset (k + 1) tracker := by
  have hends : ∀ p i j, AbortedSpan log p i j → k ≤ j → k + 1 ≤ j := by
    intro p i j hspan hkj
    rcases Nat.lt_or_ge k j with hlt | hge
    · exact hlt
    · obtain rfl : k = j := by omega
      obtain ⟨b, hb, hcontrol, -⟩ := hspan.ends
      obtain rfl : batch = b := Option.some.inj (hk.symm.trans hb)
      simp [hdata] at hcontrol
  refine ⟨h.sorted, fun p hp => ?_, fun a ha => ?_, fun p i j hspan hrel hkj => ?_⟩
  · obtain ⟨i, j, hspan, hik, hkj⟩ := h.producers p hp
    exact ⟨i, j, hspan, by omega, hends p i j hspan hkj⟩
  · obtain ⟨i, j, hspan, hki, hb⟩ := h.pending a ha
    have := hspan.lt
    exact ⟨i, j, hspan, by omega, hb⟩
  · rcases h.complete p i j hspan hrel (by omega) with ⟨hik, hp⟩ | hpending
    · exact Or.inl ⟨by omega, hp⟩
    · exact Or.inr hpending

theorem closeMarkers_eq (batch : LeanBatch) (records : List LeanRecord)
    (tracker : AbortTracker) :
    closeMarkers batch records tracker =
      if records.any fun r => batch.controlType r = some controlAbort then
        tracker.close batch.producerId
      else tracker := by
  induction records generalizing tracker with
  | nil => rfl
  | cons r records ih =>
      have htwice : (tracker.close batch.producerId).close batch.producerId =
          tracker.close batch.producerId := by
        simp [AbortTracker.close]
      rw [closeMarkers, ih, List.any_cons]
      by_cases hr : batch.controlType r = some controlAbort
      · simp [hr, htwice]
      · simp [hr]

/-- A marker closes the range of its producer, if there is one. -/
theorem TracksAt.control (h : TracksAt log hi lastStableOffset k tracker)
    (hk : log[k]? = some batch) (hcontrol : batch.control = true) :
    Tracks log hi lastStableOffset (k + 1) (closeMarkers batch batch.records tracker) := by
  have hmarker : MarkerAt log batch.producerId k := ⟨batch, hk, hcontrol, rfl⟩
  have hat : ∀ p, AbortAt log p k → p = batch.producerId ∧ batch.isAbort = true := by
    rintro p ⟨b, hb, -, rfl, habort⟩
    obtain rfl : batch = b := Option.some.inj (hk.symm.trans hb)
    exact ⟨rfl, habort⟩
  have hmem : ∀ p, p ∈ (closeMarkers batch batch.records tracker).producers ↔
      p ∈ tracker.producers ∧ ¬(batch.isAbort = true ∧ p = batch.producerId) := by
    intro p
    rw [closeMarkers_eq, ← LeanBatch.isAbort]
    split <;> simp_all [AbortTracker.close, and_comm]
  refine ⟨?_, fun p hp => ?_, fun a ha => ?_, fun p i j hspan hrel hkj => ?_⟩
  · rw [closeMarkers_pending]
    exact h.sorted
  · obtain ⟨hp, hopen⟩ := (hmem p).mp hp
    obtain ⟨i, j, hspan, hik, hkj⟩ := h.producers p hp
    have hne : k ≠ j := by
      rintro rfl
      exact hopen ⟨(hat p hspan.ends).2, (hat p hspan.ends).1⟩
    exact ⟨i, j, hspan, by omega, by omega⟩
  · rw [closeMarkers_pending] at ha
    obtain ⟨i, j, hspan, hki, hb⟩ := h.pending a ha
    have := hspan.lt
    exact ⟨i, j, hspan, by omega, hb⟩
  · rw [closeMarkers_pending]
    rcases h.complete p i j hspan hrel (by omega) with ⟨hik, hp⟩ | hpending
    · refine Or.inl ⟨by omega, (hmem p).mpr ⟨hp, ?_⟩⟩
      -- A transaction around `k` has no marker of its producer inside it.
      rintro ⟨-, rfl⟩
      rcases Nat.lt_or_ge i k with hlt | hge
      · exact hspan.whole k (by omega) hlt hmarker
      · obtain rfl : i = k := by omega
        exact hspan.begins.not_markerAt hmarker
    · exact Or.inr hpending

end Tracks

/-! ### One response -/

section Serve

variable {log : List LeanBatch} {isolation : IsolationLevel}

theorem mem_shown {lastStableOffset : ℤ} {batch : LeanBatch} {row : Row}
    (h : row ∈ shown isolation lastStableOffset batch log) :
    ∃ r ∈ batch.records, row = batch.row r := by
  rw [shown] at h
  split at h
  · simp at h
  · obtain ⟨r, hr, rfl⟩ := List.mem_map.mp (List.mem_of_mem_filter h)
    exact ⟨r, hr, rfl⟩

theorem mem_visible {lastStableOffset : ℤ} {row : Row}
    (h : row ∈ visible isolation lastStableOffset log) :
    ∃ b ∈ log, ∃ r ∈ b.records, row = b.row r := by
  induction log with
  | nil => simp [visible] at h
  | cons b log ih =>
      rw [visible, List.mem_append] at h
      rcases h with h | h
      · exact ⟨b, by simp, mem_shown h⟩
      · obtain ⟨b', hb', hrow⟩ := ih h
        exact ⟨b', by simp [hb'], hrow⟩

theorem visible_append (isolation : IsolationLevel) (lastStableOffset : ℤ) (pre rest : List LeanBatch) :
    ∃ rows, visible isolation lastStableOffset (pre ++ rest) =
        rows ++ visible isolation lastStableOffset rest ∧
      ∀ row ∈ rows, ∃ b ∈ pre, ∃ r ∈ b.records, row = b.row r := by
  induction pre with
  | nil => exact ⟨[], rfl, by simp⟩
  | cons b pre ih =>
      obtain ⟨rows, heq, hrows⟩ := ih
      refine ⟨shown isolation lastStableOffset b (pre ++ rest) ++ rows, ?_, ?_⟩
      · rw [List.cons_append, visible, heq, List.append_assoc]
      · intro row hrow
        rcases List.mem_append.mp hrow with hrow | hrow
        · exact ⟨b, by simp, mem_shown hrow⟩
        · obtain ⟨b', hb', h⟩ := hrows row hrow
          exact ⟨b', by simp [hb'], h⟩

/-- The rows with an offset in `[low, high)`. -/
def between (low high : ℤ) (rows : List Row) : List Row :=
  rows.filter fun row => low ≤ row.offset ∧ row.offset < high

theorem between_append (low high : ℤ) (rows rows' : List Row) :
    between low high (rows ++ rows') = between low high rows ++ between low high rows' := by
  simp [between]

theorem between_eq_nil {low high : ℤ} {rows : List Row}
    (h : ∀ row ∈ rows, low ≤ row.offset → high ≤ row.offset) : between low high rows = [] := by
  refine List.filter_eq_nil_iff.mpr fun row hrow => ?_
  have := h row hrow
  simp only [decide_eq_true_eq, not_and, not_lt]
  exact this

variable {lastStableOffset logStableOffset fetchOffset : ℤ}

/-- What one batch below the LSO contributes, on both sides. -/
theorem shown_between {batch : LeanBatch} {rest : List LeanBatch} {q : LeanRecord}
    {qs : List LeanRecord} {high : ℤ} (hrecords : batch.records = q :: qs)
    (hreached : ∀ r ∈ q :: qs, Reached lastStableOffset isolation r.offset)
    (hstable : lastStableOffset ≤ logStableOffset) (hhigh : ∀ r ∈ q :: qs, r.offset < high)
    (hshow : ¬(batch.control = true ∨ isolation = .readCommitted ∧ batch.transactional = true ∧
      abortsNext batch.producerId rest = true)) :
    between fetchOffset high (shown isolation logStableOffset batch rest) =
      ((q :: qs).filter (fetchOffset ≤ ·.offset)).map batch.row := by
  have hall : ∀ row ∈ batch.rows,
      (isolation = .readCommitted → row.offset < logStableOffset) ∧ row.offset < high := by
    intro row hrow
    obtain ⟨r, hr, rfl⟩ := List.mem_map.mp hrow
    rw [hrecords] at hr
    refine ⟨fun hcommitted => ?_, hhigh r hr⟩
    have := hreached r hr hcommitted
    simp only [LeanBatch.row_offset]
    omega
  have hstableRows : batch.rows.filter
      (fun row => isolation = .readCommitted → row.offset < logStableOffset) = batch.rows :=
    List.filter_eq_self.mpr fun row hrow => decide_eq_true (hall row hrow).1
  rw [shown, if_neg hshow, hstableRows]
  have hfilter : between fetchOffset high batch.rows =
      batch.rows.filter fun row => fetchOffset ≤ row.offset := by
    refine List.filter_congr fun row hrow => ?_
    simp [(hall row hrow).2]
  rw [hfilter, LeanBatch.rows, hrecords, List.filter_map]
  rfl

/-- A run of batches from the log: the filter hands over the visible rows between
the requested offset and the position it returns. -/
theorem serve (isolation : IsolationLevel) (fetchOffset : ℤ) (hlog : WellFormed log) (hfits : ∀ b ∈ log, ∀ r ∈ b.records, Fits 64 (r.offset + 1))
    (haligned : ∀ b ∈ log, ¬b.Inside lastStableOffset)
    (hstable : lastStableOffset ≤ logStableOffset) (served after : List LeanBatch)
    (pre : List LeanBatch) (hsplit : log = pre ++ (served ++ after)) (tracker : AbortTracker)
    (nextOffset : ℤ)
    (htracks : isolation = .readCommitted →
      Tracks log (pre.length + served.length) lastStableOffset pre.length tracker)
    (hfetch : fetchOffset ≤ nextOffset)
    (hnext : ∀ b ∈ served ++ after, ∀ r ∈ b.records,
      fetchOffset ≤ r.offset → nextOffset ≤ r.offset)
    (hlast : ∀ b ∈ served ++ after, ∀ r ∈ b.records.getLast?, nextOffset ≤ r.offset) :
    ∃ kept next, filterBatchesLoop lastStableOffset isolation fetchOffset tracker nextOffset
        served = (kept, next) ∧ nextOffset ≤ next ∧
      kept.flatMap LeanBatch.rows =
        between fetchOffset next (visible isolation logStableOffset (served ++ after)) := by
  induction served generalizing pre tracker nextOffset with
  | nil =>
      refine ⟨[], nextOffset, rfl, le_refl _, (between_eq_nil ?_).symm⟩
      intro row hrow hle
      obtain ⟨b, hb, r, hr, rfl⟩ := mem_visible hrow
      exact hnext b hb r hr hle
  | cons batch served ih =>
      have hk : log[pre.length]? = some batch := by simp [hsplit]
      have hmem : batch ∈ log := List.mem_of_getElem? hk
      obtain ⟨q, qs, hrecords⟩ := List.exists_cons_of_ne_nil (hlog.nonempty batch hmem)
      by_cases hstop : isolation = .readCommitted ∧ lastStableOffset ≤ q.offset
      · refine ⟨[], nextOffset, filterBatchesLoop_stop hrecords tracker nextOffset hstop,
          le_refl _, (between_eq_nil ?_).symm⟩
        intro row hrow hle
        obtain ⟨b, hb, r, hr, rfl⟩ := mem_visible hrow
        exact hnext b hb r hr hle
      · have hordered : batch.Ordered := (List.pairwise_flatMap.mp hlog.ordered).1 batch hmem
        have hreached : ∀ r ∈ q :: qs, Reached lastStableOffset isolation r.offset := by
          intro r hr hcommitted
          have hle := le_last_of_ordered hordered hrecords r hr
          have hq : q.offset < lastStableOffset := not_le.mp fun h => hstop ⟨hcommitted, h⟩
          have hout := (inside_iff hrecords _).not.mp (haligned batch hmem)
          by_contra hge
          exact hout ⟨hq, by omega⟩
        have hlastMem : (q :: qs).getLast (by simp) ∈ batch.records := by
          rw [hrecords]
          exact List.getLast_mem _
        have hafter : offsetAfter q qs = ((q :: qs).getLast (by simp)).offset + 1 :=
          wrap_eq_self (by decide) (hfits batch hmem _ hlastMem)
        have hlastBatch : nextOffset ≤ ((q :: qs).getLast (by simp)).offset := by
          refine hlast batch (by simp) _ ?_
          rw [hrecords, List.getLast?_eq_some_getLast (List.cons_ne_nil q qs)]
          rfl
        have hlater : ∀ b ∈ served ++ after, ∀ r ∈ b.records, offsetAfter q qs ≤ r.offset := by
          intro b hb r hr
          have hpairwise := (List.pairwise_flatMap.mp hlog.ordered).2
          rw [hsplit, List.pairwise_append, List.cons_append, List.pairwise_cons] at hpairwise
          have := hpairwise.2.1.1 b hb _ (List.mem_map_of_mem hlastMem) _
            (List.mem_map_of_mem hr)
          omega
        have hrest : ∀ tracker', (isolation = .readCommitted →
              Tracks log (pre.length + (served.length + 1)) lastStableOffset (pre.length + 1)
                tracker') →
            ∃ kept next, filterBatchesLoop lastStableOffset isolation fetchOffset tracker'
                (offsetAfter q qs) served = (kept, next) ∧ offsetAfter q qs ≤ next ∧
              kept.flatMap LeanBatch.rows =
                between fetchOffset next (visible isolation logStableOffset (served ++ after)) := by
          intro tracker' htracks'
          refine ih (pre ++ [batch]) (by simp [hsplit]) tracker' (offsetAfter q qs) ?_ (by omega)
            (fun b hb r hr _ => hlater b hb r hr)
            (fun b hb r hr => hlater b hb r (List.mem_of_getLast? hr))
          intro hcommitted
          rw [List.length_append, List.length_singleton, Nat.add_assoc, Nat.add_comm 1]
          exact htracks' hcommitted
        have hopened : isolation = .readCommitted →
            TracksAt log (pre.length + (served.length + 1)) lastStableOffset pre.length
              (tracker.openUpTo q.offset) := by
          intro hcommitted
          rw [← LeanBatch.firstOffset_eq hrecords]
          exact (htracks hcommitted).openUpTo hlog hk
        have hhigh : ∀ next, offsetAfter q qs ≤ next → ∀ r ∈ q :: qs, r.offset < next := by
          intro next hnext' r hr
          have := le_last_of_ordered hordered hrecords r hr
          omega
        rw [filterBatchesLoop_cons hrecords tracker nextOffset (hreached q (by simp))]
        by_cases hcontrol : batch.control = true
        · obtain ⟨kept, next, heq, hle, hrows⟩ := hrest
            (closeMarkers batch batch.records (tracker.openUpTo q.offset))
            (fun hcommitted => (hopened hcommitted).control hk hcontrol)
          refine ⟨kept, next, by simpa only [if_pos hcontrol] using heq, by omega, ?_⟩
          have hnone : shown isolation logStableOffset batch (served ++ after) = [] :=
            if_pos (Or.inl hcontrol)
          rw [List.cons_append, visible, hnone, List.nil_append, hrows]
        · have hdata : batch.control = false := by simpa using hcontrol
          obtain ⟨kept, next, heq, hle, hrows⟩ := hrest (tracker.openUpTo q.offset)
            (fun hcommitted => (hopened hcommitted).data hk hdata)
          have hdropped : (isolation = .readCommitted ∧ batch.transactional = true ∧
                batch.producerId ∈ (tracker.openUpTo q.offset).producers) ↔
              isolation = .readCommitted ∧ batch.transactional = true ∧
                abortsNext batch.producerId (served ++ after) = true := by
            refine and_congr_right fun hcommitted => and_congr_right fun htransactional => ?_
            have hq := hreached q (by simp) hcommitted
            have hdrop : log.drop (pre.length + 1) = served ++ after := by simp [hsplit]
            rw [(hopened hcommitted).mem_producers_iff hlog hk (by omega)
              (LeanBatch.firstOffset_eq hrecords ▸ hq) hdata htransactional, hdrop]
          simp only [if_neg hcontrol, heq]
          by_cases hdrop : isolation = .readCommitted ∧ batch.transactional = true ∧
              batch.producerId ∈ (tracker.openUpTo q.offset).producers
          · have hnone : shown isolation logStableOffset batch (served ++ after) = [] :=
              if_pos (Or.inr (hdropped.mp hdrop))
            refine ⟨kept, next, by rw [if_pos hdrop], by omega, ?_⟩
            rw [List.cons_append, visible, hnone, List.nil_append, hrows]
          · rw [if_neg hdrop]
            have hcons := flatMap_rows_cons batch
              (retain lastStableOffset isolation fetchOffset (q :: qs) q.offset) (kept, next)
            refine ⟨_, next, Prod.ext rfl hcons.2, by omega, ?_⟩
            rw [hcons.1, retain_eq hreached (first_le_of_ordered hordered hrecords),
              List.cons_append, visible, between_append,
              shown_between hrecords hreached hstable (hhigh next hle)
                (not_or.mpr ⟨hcontrol, hdropped.not.mp hdrop⟩), hrows]

end Serve

/-! ### Logs and honest responses -/

/-- The header's last offset delta. The reader has no use for it, the broker
finds batches by it. -/
def Field.lastOffsetDelta : ℕ := 23

/-- The last offset of a batch by its header. -/
def lastOffset (raw : Bytes) (batch : LeanBatch) : ℤ :=
  batch.baseOffset + (i32At raw Field.lastOffsetDelta).getD 0

/-- A batch in a log: its bytes, and what they hold. The last record sits at the
last offset. -/
structure LogBatch (codecs : Codecs) where
  raw : Bytes
  batch : LeanBatch
  framed : Framed raw
  decoded : decodeBatch codecs raw = .ok (some batch)
  ends : ∃ r ∈ batch.records.getLast?, r.offset = lastOffset raw batch

/-- A partition's log. Its end offset is an `i64`, so the offset after any record
is one too. -/
structure PartitionLog (codecs : Codecs) where
  batches : List (LogBatch codecs)
  lastStableOffset : ℤ
  ordered : Ordered (batches.map (·.batch))
  fits : ∀ b ∈ batches, ∀ r ∈ b.batch.records, Fits 64 (r.offset + 1)

/-- One partition's part of a fetch response. -/
structure Response where
  records : Bytes
  aborted : List AbortedTransaction
  lastStableOffset : ℤ

section Run

variable {codecs : Codecs}

namespace PartitionLog

def contents (log : PartitionLog codecs) : List LeanBatch := log.batches.map (·.batch)

/-- The batch that contains the offset: the first one that does not end before
it. -/
def indexOf (log : PartitionLog codecs) (offset : ℤ) : ℕ :=
  (log.batches.takeWhile fun b => lastOffset b.raw b.batch < offset).length

/-- What a consumer may see from `offset` on. -/
def visibleFrom (log : PartitionLog codecs) (isolation : IsolationLevel) (offset : ℤ) :
    List Row :=
  (visible isolation log.lastStableOffset log.contents).filter fun row => offset ≤ row.offset

end PartitionLog

/-- A fragment is the beginning of the next batch, cut off before its end. -/
def Truncated (rest : List (LogBatch codecs)) (fragment : Bytes) : Prop :=
  fragment = [] ∨ ∃ b ∈ rest.head?, fragment <+: b.raw ∧ fragment ≠ b.raw

/-- An honest answer to a fetch from `fetchOffset`: `count` whole batches from
the one that contains the offset, perhaps a fragment, an LSO at a batch boundary
and, for READ_COMMITTED, the aborted transactions that overlap the batches. -/
structure Honest (log : PartitionLog codecs) (isolation : IsolationLevel) (fetchOffset : ℤ)
    (response : Response) (count : ℕ) : Prop where
  bytes : ∃ fragment, response.records =
      ((log.batches.drop (log.indexOf fetchOffset)).take count).flatMap (·.raw) ++ fragment ∧
    Truncated (log.batches.drop (log.indexOf fetchOffset + count)) fragment
  stable : response.lastStableOffset ≤ log.lastStableOffset
  aligned : ∀ b ∈ log.contents, ¬b.Inside response.lastStableOffset
  sound : isolation = .readCommitted → ∀ a ∈ response.aborted, ∃ i j,
    AbortedSpan log.contents a.producerId i j ∧ log.indexOf fetchOffset ≤ j ∧
      ∃ b ∈ log.contents[i]?, b.firstOffset = a.firstOffset
  complete : isolation = .readCommitted → ∀ p i j, AbortedSpan log.contents p i j →
    Relevant log.contents (log.indexOf fetchOffset + count) response.lastStableOffset i →
    log.indexOf fetchOffset ≤ j → ∃ b ∈ log.contents[i]?, ⟨p, b.firstOffset⟩ ∈ response.aborted

variable (codecs) in
/-- One turn of the loop: decode the response and filter it. -/
def consume (isolation : IsolationLevel) (fetchOffset : ℤ) (response : Response) :
    Except Error (Option (List LeanBatch × ℤ)) := do
  match ← decodeLean codecs response.records with
  | none => pure none
  | some batches =>
      pure (some (filterBatches response.lastStableOffset isolation fetchOffset batches
        response.aborted))

variable (codecs) in
/-- The loop over a sequence of responses: everything delivered, and the
position. -/
def deliver (isolation : IsolationLevel) :
    ℤ → List Response → Except Error (Option (List LeanBatch × ℤ))
  | position, [] => pure (some ([], position))
  | position, response :: responses => do
      match ← consume codecs isolation position response with
      | none => pure none
      | some (batches, position) =>
          match ← deliver isolation position responses with
          | none => pure none
          | some (more, position) => pure (some (batches ++ more, position))

/-- Every response answers the fetch from the position that the loop has
reached. -/
def HonestRun (log : PartitionLog codecs) (isolation : IsolationLevel) :
    ℤ → List Response → Prop
  | _, [] => True
  | position, response :: responses =>
      (∃ count, Honest log isolation position response count) ∧
        ∀ batches next, consume codecs isolation position response = .ok (some (batches, next)) →
          HonestRun log isolation next responses

/-! ### Decoding a run of batches -/

theorem nextBatch_fragment {rest : List (LogBatch codecs)} {fragment : Bytes}
    (h : Truncated rest fragment) : nextBatch fragment = none := by
  rcases h with rfl | ⟨b, -, hfrag, hne⟩
  · rfl
  · exact b.framed.nextBatch_truncated hfrag hne

theorem decodeLean_run (batches : List (LogBatch codecs)) {fragment : Bytes}
    (hfragment : nextBatch fragment = none) :
    decodeLean codecs (batches.flatMap (·.raw) ++ fragment) =
      .ok (some (batches.map (·.batch))) := by
  have hwhole : ∀ part ∈ batches.map fun b => (b.raw, b.batch), Whole codecs part.1 part.2 := by
    intro part hpart
    obtain ⟨b, -, rfl⟩ := List.mem_map.mp hpart
    exact ⟨b.framed, b.decoded⟩
  have hdecode := decodeLean_whole hwhole hfragment
  rw [List.flatMap_map, List.map_map] at hdecode
  exact hdecode

/-! ### The position in the log -/

variable (log : PartitionLog codecs)

theorem PartitionLog.wellFormed : WellFormed log.contents := by
  refine ⟨fun b hb hnil => ?_, log.ordered⟩
  obtain ⟨b, -, rfl⟩ := List.mem_map.mp hb
  obtain ⟨r, hr, -⟩ := b.ends
  simp [hnil] at hr

theorem LogBatch.le_lastOffset (b : LogBatch codecs) (hordered : b.batch.Ordered) :
    ∀ r ∈ b.batch.records, r.offset ≤ lastOffset b.raw b.batch := by
  intro r hr
  obtain ⟨last, hlast, heq⟩ := b.ends
  obtain ⟨q, qs, hrecords⟩ := List.exists_cons_of_ne_nil (List.ne_nil_of_mem hr)
  rw [hrecords] at hr hlast
  rw [List.getLast?_eq_some_getLast (List.cons_ne_nil q qs), Option.mem_some_iff] at hlast
  have := le_last_of_ordered hordered hrecords r hr
  rw [hlast] at this
  omega

/-- The batches before the requested offset end before it. -/
theorem PartitionLog.offset_lt_of_mem_take {offset : ℤ} {b : LeanBatch}
    (hb : b ∈ (log.batches.takeWhile fun b => lastOffset b.raw b.batch < offset).map (·.batch)) :
    ∀ r ∈ b.records, r.offset < offset := by
  obtain ⟨b, hmem, rfl⟩ := List.mem_map.mp hb
  have hlt : lastOffset b.raw b.batch < offset := by
    simpa using List.mem_takeWhile_imp hmem
  have hordered : b.batch.Ordered := (List.pairwise_flatMap.mp log.ordered).1 b.batch
    (List.mem_map_of_mem ((List.takeWhile_prefix _).subset hmem))
  intro r hr
  have := b.le_lastOffset hordered r hr
  omega

/-- The other batches end at or after it. -/
theorem PartitionLog.le_last_of_mem_drop {offset : ℤ} {b : LeanBatch}
    (hb : b ∈ (log.batches.dropWhile fun b => lastOffset b.raw b.batch < offset).map (·.batch)) :
    ∀ r ∈ b.records.getLast?, offset ≤ r.offset := by
  intro r hr
  have hpairwise := (List.pairwise_flatMap.mp log.ordered).2
  rw [List.pairwise_map] at hpairwise
  have hrest := hpairwise.sublist
    (List.dropWhile_sublist fun b => lastOffset b.raw b.batch < offset)
  have hhead := List.head?_dropWhile_not (fun b => lastOffset b.raw b.batch < offset) log.batches
  cases hdrop : log.batches.dropWhile fun b => lastOffset b.raw b.batch < offset with
  | nil => simp [hdrop] at hb
  | cons c rest =>
      rw [hdrop, List.pairwise_cons] at hrest
      simp only [hdrop, List.head?_cons, decide_eq_false_iff_not, not_lt] at hhead
      obtain ⟨last, hlast, heq⟩ := c.ends
      rw [hdrop, List.map_cons, List.mem_cons] at hb
      rcases hb with rfl | hb
      · obtain rfl : last = r := Option.some.inj (hlast.symm.trans hr)
        omega
      · obtain ⟨b, hmem, rfl⟩ := List.mem_map.mp hb
        have := hrest.1 b hmem _ (List.mem_map_of_mem (List.mem_of_getLast? hlast)) _
          (List.mem_map_of_mem (List.mem_of_getLast? hr))
        omega

variable {log} {isolation : IsolationLevel} {position : ℤ} {response : Response} {count : ℕ}

theorem Honest.tracks (h : Honest log isolation position response count)
    (hcommitted : isolation = .readCommitted) {hi : ℕ} (hhi : hi ≤ log.indexOf position + count) :
    Tracks log.contents hi response.lastStableOffset (log.indexOf position)
      (.new response.aborted) where
  sorted := AbortTracker.new_pending_sorted _
  producers := by simp [AbortTracker.new]
  pending := fun a ha => h.sound hcommitted a (AbortTracker.mem_new_pending.mp ha)
  complete := by
    intro p i j hspan hrel hle
    obtain ⟨b, hb, ha⟩ := h.complete hcommitted p i j hspan
      ⟨lt_of_lt_of_le hrel.1 hhi, hrel.2⟩ hle
    exact Or.inr ⟨b, hb, AbortTracker.mem_new_pending.mpr ha⟩

/-- One honest response delivers the visible rows up to the position it leaves
behind. -/
theorem consume_honest (h : Honest log isolation position response count) :
    ∃ kept next, consume codecs isolation position response = .ok (some (kept, next)) ∧
      position ≤ next ∧ kept.flatMap LeanBatch.rows =
        between position next (visible isolation log.lastStableOffset log.contents) := by
  obtain ⟨fragment, hbytes, hfragment⟩ := h.bytes
  let before := log.batches.takeWhile fun b => lastOffset b.raw b.batch < position
  let rest := log.batches.dropWhile fun b => lastOffset b.raw b.batch < position
  have hbatches : log.batches = before ++ rest := List.takeWhile_append_dropWhile.symm
  have hdrop : log.batches.drop (log.indexOf position) = rest := by
    rw [hbatches]
    exact List.drop_left
  have hsplit : log.contents = before.map (·.batch) ++
      ((rest.take count).map (·.batch) ++ (rest.drop count).map (·.batch)) := by
    rw [← List.map_append, List.take_append_drop, ← List.map_append, ← hbatches]
    rfl
  have hrest : (rest.take count).map (·.batch) ++ (rest.drop count).map (·.batch) =
      rest.map (·.batch) := by
    rw [← List.map_append, List.take_append_drop]
  have hserve := serve isolation position log.wellFormed
    (fun b hb => by
      obtain ⟨b, hmem, rfl⟩ := List.mem_map.mp hb
      exact log.fits b hmem)
    h.aligned h.stable ((rest.take count).map (·.batch)) ((rest.drop count).map (·.batch))
    (before.map (·.batch)) hsplit (.new response.aborted) position
    (fun hcommitted => by
      rw [List.length_map]
      exact h.tracks hcommitted (by simp [PartitionLog.indexOf, before]))
    (le_refl _) (fun _ _ _ _ hle => hle)
    (fun b hb => log.le_last_of_mem_drop (hrest ▸ hb))
  obtain ⟨kept, next, heq, hle, hrows⟩ := hserve
  refine ⟨kept, next, ?_, hle, ?_⟩
  · rw [consume, hbytes, hdrop, decodeLean_run _ (nextBatch_fragment hfragment)]
    simp only [bind, Except.bind, pure, Except.pure, filterBatches, heq]
  · obtain ⟨rows, hvisible, hbefore⟩ := visible_append isolation
      log.lastStableOffset (before.map (·.batch)) (rest.map (·.batch))
    have hnone : between position next rows = [] := by
      refine between_eq_nil fun row hrow hle => ?_
      obtain ⟨b, hb, r, hr, rfl⟩ := hbefore row hrow
      have := log.offset_lt_of_mem_take hb r hr
      simp only [LeanBatch.row_offset] at hle
      omega
    rw [hrows, hsplit, hrest, hvisible, between_append, hnone, List.nil_append]

/-! ### Sequences of responses -/

/-- Rows in offset order. -/
def Increasing (rows : List Row) : Prop := rows.Pairwise fun a b => a.offset < b.offset

theorem visible_sublist (isolation : IsolationLevel) (lastStableOffset : ℤ)
    (log : List LeanBatch) :
    (visible isolation lastStableOffset log).Sublist (log.flatMap LeanBatch.rows) := by
  induction log with
  | nil => exact List.Sublist.slnil
  | cons b log ih =>
      rw [visible, List.flatMap_cons]
      refine List.Sublist.append ?_ ih
      rw [shown]
      split
      · exact List.nil_sublist _
      · exact List.filter_sublist

theorem increasing_visible (isolation : IsolationLevel) (lastStableOffset : ℤ)
    {log : List LeanBatch} (h : Ordered log) :
    Increasing (visible isolation lastStableOffset log) := by
  refine List.Pairwise.sublist (visible_sublist isolation lastStableOffset log) ?_
  have hoffsets : (log.flatMap LeanBatch.rows).map Row.offset =
      log.flatMap (·.records.map LeanRecord.offset) := by
    simp [List.map_flatMap, LeanBatch.rows, Function.comp_def]
  rw [← List.pairwise_map, hoffsets]
  exact h

theorem between_between {low mid high : ℤ} {rows : List Row} (h : Increasing rows)
    (hlow : low ≤ mid) (hhigh : mid ≤ high) :
    between low mid rows ++ between mid high rows = between low high rows := by
  induction rows with
  | nil => rfl
  | cons row rows ih =>
      obtain ⟨hrow, hrows⟩ := List.pairwise_cons.mp h
      have ih := ih hrows
      by_cases hmid : row.offset < mid
      · by_cases hle : low ≤ row.offset
        · have hlt : row.offset < high := by omega
          simp only [between, List.filter_cons, hle, hmid, hlt, not_le.mpr hmid, and_self,
            decide_true, if_true, false_and, decide_false, Bool.false_eq_true, if_false,
            List.cons_append] at ih ⊢
          rw [ih]
        · simpa [between, List.filter_cons, hle, not_le.mpr hmid] using ih
      · have hnone : between low mid (row :: rows) = [] := by
          refine between_eq_nil fun row' hrow' _ => ?_
          rcases List.mem_cons.mp hrow' with rfl | hrow'
          · omega
          · have := hrow row' hrow'
            omega
        rw [hnone, List.nil_append]
        refine List.filter_congr fun row' hrow' => ?_
        have : mid ≤ row'.offset := by
          rcases List.mem_cons.mp hrow' with rfl | hrow'
          · omega
          · have := hrow row' hrow'
            omega
        simp only [decide_eq_decide]
        omega

theorem between_prefix {low high : ℤ} {rows : List Row} (h : Increasing rows) :
    between low high rows <+: rows.filter fun row => low ≤ row.offset := by
  induction rows with
  | nil => exact List.prefix_refl _
  | cons row rows ih =>
      obtain ⟨hrow, hrows⟩ := List.pairwise_cons.mp h
      by_cases hle : low ≤ row.offset
      · by_cases hlt : row.offset < high
        · simpa [between, List.filter_cons, hle, hlt] using ih hrows
        · rw [between_eq_nil]
          · exact List.nil_prefix
          · intro row' hrow' _
            rcases List.mem_cons.mp hrow' with rfl | hrow'
            · omega
            · have := hrow row' hrow'
              omega
      · simpa [between, List.filter_cons, hle] using ih hrows

theorem deliver_honest {responses : List Response} (h : HonestRun log isolation position responses) :
    ∃ kept next, deliver codecs isolation position responses = .ok (some (kept, next)) ∧
      position ≤ next ∧ kept.flatMap LeanBatch.rows =
        between position next (visible isolation log.lastStableOffset log.contents) := by
  induction responses generalizing position with
  | nil =>
      refine ⟨[], position, rfl, le_refl _, (between_eq_nil fun _ _ hle => hle).symm⟩
  | cons response responses ih =>
      obtain ⟨⟨count, hhonest⟩, hrest⟩ := h
      obtain ⟨kept, mid, hconsume, hle, hrows⟩ := consume_honest hhonest
      obtain ⟨more, next, hdeliver, hle', hrows'⟩ := ih (hrest kept mid hconsume)
      refine ⟨kept ++ more, next, ?_, by omega, ?_⟩
      · simp only [deliver, hconsume, hdeliver, bind, Except.bind, pure, Except.pure]
      · rw [List.flatMap_append, hrows, hrows',
          between_between (increasing_visible _ _ log.wellFormed.ordered) hle hle']

/-- **Delivery over a whole log.** However an honest broker cuts its answers, the
loop never fails, and what it has delivered is a prefix of the visible records
from the start offset on, in offset order and hence each of them once. -/
theorem delivered_prefix (log : PartitionLog codecs) (isolation : IsolationLevel) (start : ℤ)
    (responses : List Response) (h : HonestRun log isolation start responses) :
    ∃ kept next, deliver codecs isolation start responses = .ok (some (kept, next)) ∧
      kept.flatMap LeanBatch.rows <+: log.visibleFrom isolation start ∧
      Increasing (kept.flatMap LeanBatch.rows) := by
  obtain ⟨kept, next, hdeliver, -, hrows⟩ := deliver_honest h
  have hincreasing := increasing_visible isolation log.lastStableOffset log.wellFormed.ordered
  refine ⟨kept, next, hdeliver, ?_, ?_⟩
  · rw [hrows]
    exact between_prefix hincreasing
  · rw [hrows]
    exact hincreasing.sublist List.filter_sublist

end Run

/-! ### A log with an aborted transaction -/

/-- One bit of the reflected CRC-32C. -/
def crc32cBit (crc : ℕ) : ℕ :=
  if crc % 2 = 1 then crc / 2 ^^^ 0x82f63b78 else crc / 2

/-- CRC-32C (Castagnoli), bit by bit. -/
def crc32c (bytes : Bytes) : ℕ :=
  bytes.foldl (fun crc b => Nat.iterate crc32cBit 8 (crc ^^^ b.toNat)) 0xffffffff ^^^ 0xffffffff

/-- The codecs for logs that use no compression. -/
def plainCodecs : Codecs where
  crc32c := crc32c
  gzip := fun _ => .error "not compressed"
  snappyRaw := fun _ => .error "not compressed"
  lz4 := fun _ => .error "not compressed"
  zstd := fun _ => .error "not compressed"

/-- Two records of producer 9 at offsets 0 and 1, its abort marker at 2 and a
plain record at 3, as bytes. -/
def sampleRaw : List Bytes :=
  [[0, 0, 0, 0, 0, 0, 0, 0, 0, 0, 0, 65, 0, 0, 0, 0, 2, 77, 136, 124, 25, 0, 16, 0, 0, 0, 1, 0, 0, 0,
    0, 0, 0, 0, 0, 0, 0, 0, 0, 0, 0, 0, 0, 0, 0, 0, 0, 0, 0, 0, 9, 0, 0, 0, 0, 0, 0, 0, 0, 0, 2, 14,
    0, 0, 0, 1, 2, 97, 0, 14, 0, 0, 2, 1, 2, 98, 0],
   [0, 0, 0, 0, 0, 0, 0, 2, 0, 0, 0, 60, 0, 0, 0, 0, 2, 119, 66, 140, 102, 0, 48, 0, 0, 0, 0, 0, 0,
    0, 0, 0, 0, 0, 0, 0, 0, 0, 0, 0, 0, 0, 0, 0, 0, 0, 0, 0, 0, 0, 9, 0, 0, 0, 0, 0, 0, 0, 0, 0, 1,
    20, 0, 0, 0, 8, 0, 0, 0, 0, 1, 0],
   [0, 0, 0, 0, 0, 0, 0, 3, 0, 0, 0, 57, 0, 0, 0, 0, 2, 233, 91, 74, 145, 0, 0, 0, 0, 0, 0, 0, 0, 0,
    0, 0, 0, 0, 0, 0, 0, 0, 0, 0, 0, 0, 0, 255, 255, 255, 255, 255, 255, 255, 255, 0, 0, 0, 0, 0, 0,
    0, 0, 0, 1, 14, 0, 0, 0, 1, 2, 99, 0]]

def sampleRecord (offset : ℤ) (key value headers : ℕ × ℕ) : LeanRecord where
  offset := offset
  timestamp := 0
  key := key
  value := value
  headers := headers
  headerCount := 0

def abortedData : LogBatch plainCodecs where
  raw := sampleRaw[0]
  batch :=
    { buffer := [14, 0, 0, 0, 1, 2, 97, 0, 14, 0, 0, 2, 1, 2, 98, 0]
      baseOffset := 0
      producerId := 9
      transactional := true
      control := false
      records := [sampleRecord 0 (u32Max, 0) (6, 1) (8, 0),
        sampleRecord 1 (u32Max, 0) (14, 1) (16, 0)] }
  framed := by decide +kernel
  decoded := by decide +kernel
  ends := by decide +kernel

def abortMarker : LogBatch plainCodecs where
  raw := sampleRaw[1]
  batch :=
    { buffer := [20, 0, 0, 0, 8, 0, 0, 0, 0, 1, 0]
      baseOffset := 2
      producerId := 9
      transactional := true
      control := true
      records := [sampleRecord 2 (5, 4) (u32Max, 0) (11, 0)] }
  framed := by decide +kernel
  decoded := by decide +kernel
  ends := by decide +kernel

def plainData : LogBatch plainCodecs where
  raw := sampleRaw[2]
  batch :=
    { buffer := [14, 0, 0, 0, 1, 2, 99, 0]
      baseOffset := 3
      producerId := -1
      transactional := false
      control := false
      records := [sampleRecord 3 (u32Max, 0) (6, 1) (8, 0)] }
  framed := by decide +kernel
  decoded := by decide +kernel
  ends := by decide +kernel

def sampleLog : PartitionLog plainCodecs where
  batches := [abortedData, abortMarker, plainData]
  lastStableOffset := 4
  ordered := by decide +kernel
  fits := by decide +kernel

/-- The first answer holds the first batch and a piece of the marker, the second
one the other two batches. -/
def sampleResponses : List Response :=
  [⟨sampleRaw[0] ++ sampleRaw[1].take 20, [⟨9, 0⟩], 4⟩,
   ⟨sampleRaw[1] ++ sampleRaw[2], [⟨9, 0⟩], 4⟩]

theorem sampleLog_span {p : ℤ} {i j : ℕ} (h : AbortedSpan sampleLog.contents p i j) :
    p = 9 ∧ i = 0 ∧ j = 1 := by
  obtain ⟨b, hb, hdata, htransactional, rfl⟩ := h.begins
  obtain ⟨c, hc, hcontrol, -⟩ := h.ends
  have hwrites : ∀ i < 3, ∀ b ∈ sampleLog.contents[i]?, b.control = false →
      b.transactional = true → b.producerId = 9 ∧ i = 0 := by decide
  have hmarkers : ∀ j < 3, ∀ c ∈ sampleLog.contents[j]?, c.control = true → j = 1 := by
    decide
  have hi := hwrites i (List.getElem?_eq_some_iff.mp hb).1 b hb hdata htransactional
  exact ⟨hi.1, hi.2, hmarkers j (List.getElem?_eq_some_iff.mp hc).1 c hc hcontrol⟩

theorem sampleLog_honest {fetchOffset : ℤ} {response : Response} {count : ℕ}
    (hbytes : ∃ fragment, response.records = ((sampleLog.batches.drop
        (sampleLog.indexOf fetchOffset)).take count).flatMap (·.raw) ++ fragment ∧
      Truncated (sampleLog.batches.drop (sampleLog.indexOf fetchOffset + count)) fragment)
    (hstable : response.lastStableOffset = 4) (haborted : response.aborted = [⟨9, 0⟩])
    (hindex : sampleLog.indexOf fetchOffset ≤ 1) :
    Honest sampleLog .readCommitted fetchOffset response count where
  bytes := hbytes
  stable := le_of_eq hstable
  aligned := by
    rw [hstable]
    decide
  sound := by
    intro _ a ha
    rw [haborted, List.mem_singleton] at ha
    subst ha
    exact ⟨0, 1, by decide, hindex, abortedData.batch, rfl, rfl⟩
  complete := by
    intro _ p i j hspan _ _
    obtain ⟨rfl, rfl, rfl⟩ := sampleLog_span hspan
    exact ⟨abortedData.batch, rfl, by rw [haborted]; exact List.mem_singleton.mpr rfl⟩

theorem sampleResponses_honest :
    HonestRun sampleLog .readCommitted 1 sampleResponses := by
  refine ⟨⟨1, sampleLog_honest ⟨sampleRaw[1].take 20, by decide, Or.inr ?_⟩ rfl rfl
    (by decide)⟩, ?_⟩
  · exact ⟨abortMarker, by rfl, by decide, by decide⟩
  · intro batches next hconsume
    have hfirst : consume plainCodecs .readCommitted 1 sampleResponses[0] =
        .ok (some ([], 2)) := by
      decide +kernel
    obtain ⟨rfl, rfl⟩ : ([], 2) = (batches, next) := by
      simpa using hfirst.symm.trans hconsume
    refine ⟨⟨2, sampleLog_honest ⟨[], by decide, Or.inl rfl⟩ rfl rfl
      (by decide)⟩, fun _ _ _ => trivial⟩

/-- From the middle of the aborted transaction on, only the plain record is
delivered. -/
theorem delivered_prefix_sample :
    (sampleLog.visibleFrom .readCommitted 1).map Row.offset = [3] ∧
    ∃ kept next, deliver plainCodecs .readCommitted 1 sampleResponses = .ok (some (kept, next)) ∧
      kept.flatMap LeanBatch.rows <+: sampleLog.visibleFrom .readCommitted 1 ∧
      Increasing (kept.flatMap LeanBatch.rows) :=
  ⟨by decide,
    delivered_prefix sampleLog .readCommitted 1 sampleResponses sampleResponses_honest⟩

end Barnabas.Core
