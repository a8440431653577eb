import Barnabas.Core.Layout

/-!
Where the next fetch of a partition starts.

The batch-wise filter continues behind the last record it has seen. A batch keeps
its last offset in its header when compaction removes records from it, so the last
record need not be where the batch ends: a position taken from it can stand still,
or fall behind the offset that was asked for.
-/

namespace Barnabas.Core

open Barnabas.Lib

variable (lastStableOffset : ℤ) (isolation : IsolationLevel)

/-- The last record in front of the first batch that is withheld. -/
def lastRead : List LeanBatch → Option ℤ
  | [] => none
  | batch :: batches =>
      match batch.records with
      | [] => lastRead batches
      | q :: qs =>
          if isolation = .readCommitted ∧ lastStableOffset ≤ q.offset then none
          else some ((lastRead batches).getD ((q :: qs).getLast (List.cons_ne_nil q qs)).offset)

/-- The filter goes on from behind the last record it has read, or stays. -/
theorem filterBatchesLoop_next (fetchOffset : ℤ) (tracker : AbortTracker) (nextOffset : ℤ)
    (batches : List LeanBatch) :
    (filterBatchesLoop lastStableOffset isolation fetchOffset tracker nextOffset batches).2 =
      match lastRead lastStableOffset isolation batches with
      | none => nextOffset
      | some offset => wrap 64 (offset + 1) := by
  induction batches generalizing tracker nextOffset with
  | nil => rfl
  | cons batch batches ih =>
      cases hrecords : batch.records with
      | nil =>
          rw [filterBatchesLoop_nil hrecords, ih, lastRead, hrecords]
      | cons q qs =>
          by_cases hstop : isolation = .readCommitted ∧ lastStableOffset ≤ q.offset
          · rw [filterBatchesLoop_stop hrecords tracker nextOffset hstop, lastRead, hrecords]
            dsimp only
            rw [if_pos hstop]
          · have hreached : Reached lastStableOffset isolation q.offset := fun hisolation =>
              not_le.mp fun hle => hstop ⟨hisolation, hle⟩
            have hrest : ∀ tracker, (filterBatchesLoop lastStableOffset isolation fetchOffset tracker
                (offsetAfter q qs) batches).2 = wrap 64 ((lastRead lastStableOffset isolation
                  batches).getD ((q :: qs).getLast (by simp)).offset + 1) := by
              intro tracker
              rw [ih]
              cases lastRead lastStableOffset isolation batches with
              | none => rfl
              | some offset => rfl
            have hlast : lastRead lastStableOffset isolation (batch :: batches) =
                some ((lastRead lastStableOffset isolation batches).getD
                  ((q :: qs).getLast (by simp)).offset) := by
              rw [lastRead, hrecords]
              dsimp only
              rw [if_neg hstop]
            rw [filterBatchesLoop_cons hrecords tracker nextOffset hreached, hlast]
            dsimp only
            split
            · exact hrest _
            · split
              · exact hrest _
              · rw [(flatMap_rows_cons batch _ _).2]
                exact hrest _

theorem lastRead_mem {batches : List LeanBatch} {offset : ℤ}
    (h : lastRead lastStableOffset isolation batches = some offset) :
    ∃ batch ∈ batches, ∃ r ∈ batch.records, r.offset = offset := by
  induction batches with
  | nil => cases h
  | cons batch batches ih =>
      rw [lastRead] at h
      cases hrecords : batch.records with
      | nil =>
          rw [hrecords] at h
          obtain ⟨b, hb, hr⟩ := ih h
          exact ⟨b, List.mem_cons_of_mem _ hb, hr⟩
      | cons q qs =>
          rw [hrecords] at h
          dsimp only at h
          split at h
          · cases h
          · cases hrest : lastRead lastStableOffset isolation batches with
            | none =>
                rw [hrest] at h
                refine ⟨batch, List.mem_cons_self, (q :: qs).getLast (by simp), ?_, by simpa using h⟩
                rw [hrecords]
                exact List.getLast_mem _
            | some rest =>
                rw [hrest] at h
                obtain rfl : rest = offset := by simpa using h
                obtain ⟨b, hb, hr⟩ := ih hrest
                exact ⟨b, List.mem_cons_of_mem _ hb, hr⟩

/-! ### Offsets as the reader makes them -/

theorem exists_of_bind_ok {ε α β : Type} {b : β} :
    ∀ {x : Except ε α} {f : α → Except ε β}, x >>= f = .ok b → ∃ a, x = .ok a ∧ f a = .ok b
  | .ok a, _, h => ⟨a, rfl, h⟩

theorem decodeRecord_fits {body : Bytes} {baseOffset baseTimestamp : ℤ} {pos : ℕ}
    {q : LeanRecord} {pos' : ℕ}
    (h : decodeRecord body baseOffset baseTimestamp pos = .ok (q, pos')) : Fits 64 q.offset := by
  obtain ⟨len, -, h⟩ := exists_of_bind_ok h
  dsimp only at h
  split at h
  · cases h
  · obtain ⟨timestampDelta, -, h⟩ := exists_of_bind_ok h
    obtain ⟨offsetDelta, -, h⟩ := exists_of_bind_ok h
    obtain ⟨keyLen, -, h⟩ := exists_of_bind_ok h
    obtain ⟨valueLen, -, h⟩ := exists_of_bind_ok h
    obtain ⟨headerCount, -, h⟩ := exists_of_bind_ok h
    cases h
    exact fits_wrap (by decide) _

theorem decodeRecords_fits {body : Bytes} {baseOffset baseTimestamp : ℤ} {count pos : ℕ}
    {qs : List LeanRecord} (h : decodeRecords body baseOffset baseTimestamp count pos = .ok qs) :
    ∀ q ∈ qs, Fits 64 q.offset := by
  induction count generalizing pos qs with
  | zero =>
      cases h
      simp
  | succ count ih =>
      obtain ⟨⟨q, pos'⟩, hq, h⟩ := exists_of_bind_ok h
      obtain ⟨rest, hrest, h⟩ := exists_of_bind_ok h
      cases h
      exact List.forall_mem_cons.mpr ⟨decodeRecord_fits hq, ih hrest⟩

theorem Whole.fits {codecs : Codecs} {raw : Bytes} {batch : LeanBatch} (h : Whole codecs raw batch) :
    ∀ q ∈ batch.records, Fits 64 q.offset := by
  have hdecode := h.2
  rw [decodeBatch] at hdecode
  split at hdecode
  · cases hdecode
  · obtain ⟨attributes, -, hdecode⟩ := exists_of_bind_ok hdecode
    obtain ⟨expected, -, hdecode⟩ := exists_of_bind_ok hdecode
    dsimp only at hdecode
    split at hdecode
    · cases hdecode
    · obtain ⟨baseOffset, -, hdecode⟩ := exists_of_bind_ok hdecode
      obtain ⟨baseTimestamp, -, hdecode⟩ := exists_of_bind_ok hdecode
      obtain ⟨producerId, -, hdecode⟩ := exists_of_bind_ok hdecode
      obtain ⟨count, -, hdecode⟩ := exists_of_bind_ok hdecode
      split at hdecode
      · obtain ⟨body, -, hdecode⟩ := exists_of_bind_ok hdecode
        obtain ⟨records, hrecords, hdecode⟩ := exists_of_bind_ok hdecode
        cases hdecode
        exact decodeRecords_fits hrecords
      · obtain ⟨body, -, hdecode⟩ := exists_of_bind_ok hdecode
        obtain ⟨records, hrecords, hdecode⟩ := exists_of_bind_ok hdecode
        cases hdecode
        exact decodeRecords_fits hrecords

/-! ### When the position advances -/

/-- Some batch below the LSO ends, by its header, at or above the offset asked for. -/
def Reaches (parts : List (Bytes × LeanBatch)) (fetchOffset : ℤ) : Prop :=
  ∃ part ∈ parts, lastOffset part.1 part.2 < lastStableOffset ∧
    fetchOffset ≤ lastOffset part.1 part.2

/-- The last record in front of what is withheld is at or above the offset asked for; or
no batch reaches that offset, and the last record, if any is left, stands right in front
of it. The largest offset there is has none behind it. -/
def Carried (parts : List (Bytes × LeanBatch)) (fetchOffset : ℤ) : Prop :=
  match lastRead lastStableOffset isolation (parts.map Prod.snd) with
  | none => ¬Reaches lastStableOffset parts fetchOffset
  | some offset =>
      if offset = i64Max then
        fetchOffset = -2 ^ 63 ∧ ¬Reaches lastStableOffset parts fetchOffset
      else
        fetchOffset ≤ offset ∨
          offset + 1 = fetchOffset ∧ ¬Reaches lastStableOffset parts fetchOffset

/-- A fetch that brings whole batches leaves the position where it was or further on, and
further on if a batch reaches the position, if and only if the last record left says
so. -/
theorem position_advances_iff {codecs : Codecs} {parts : List (Bytes × LeanBatch)}
    (hparts : ∀ part ∈ parts, Whole codecs part.1 part.2) {fetchOffset : ℤ}
    (hfetch : Fits 64 fetchOffset) (aborted : List AbortedTransaction) :
    ∃ batches, decodeLean codecs (parts.flatMap Prod.fst) = .ok (some batches) ∧
      (fetchOffset ≤ (filterBatches lastStableOffset isolation fetchOffset batches aborted).2 ∧
        (Reaches lastStableOffset parts fetchOffset →
          fetchOffset < (filterBatches lastStableOffset isolation fetchOffset batches aborted).2) ↔
        Carried lastStableOffset isolation parts fetchOffset) := by
  have hdecode := decodeLean_whole hparts (show nextBatch [] = none from rfl)
  rw [List.append_nil] at hdecode
  refine ⟨_, hdecode, ?_⟩
  rw [filterBatches, filterBatchesLoop_next, Carried]
  cases hlast : lastRead lastStableOffset isolation (parts.map Prod.snd) with
  | none =>
      dsimp only
      constructor
      · exact fun h hreaches => absurd (h.2 hreaches) (lt_irrefl _)
      · exact fun h => ⟨le_refl _, fun hreaches => absurd hreaches h⟩
  | some offset =>
      dsimp only
      have hfits : Fits 64 offset := by
        obtain ⟨batch, hbatch, r, hr, rfl⟩ := lastRead_mem _ _ hlast
        obtain ⟨part, hpart, rfl⟩ := List.mem_map.mp hbatch
        exact (hparts part hpart).fits r hr
      obtain ⟨hlow, hhigh⟩ := hfits
      obtain ⟨hfetchLow, -⟩ := hfetch
      by_cases hmax : offset = i64Max
      · have hwrap : wrap 64 (offset + 1) = -2 ^ 63 := by
          rw [hmax]
          decide
        rw [if_pos hmax, hwrap]
        norm_num at hfetchLow ⊢
        constructor
        · rintro ⟨hle, hreaches⟩
          have heq : fetchOffset = -9223372036854775808 := le_antisymm hle hfetchLow
          exact ⟨heq, fun h => absurd (hreaches h) (not_lt.mpr hfetchLow)⟩
        · rintro ⟨rfl, hreaches⟩
          exact ⟨le_refl _, fun h => absurd h hreaches⟩
      · have hwrap : wrap 64 (offset + 1) = offset + 1 := by
          apply wrap_eq_self (by decide)
          rw [i64Max] at hmax
          norm_num at hlow hhigh hmax
          constructor
          · norm_num
            omega
          · norm_num
            omega
        rw [if_neg hmax, hwrap]
        constructor
        · rintro ⟨hle, hreaches⟩
          by_cases hlt : fetchOffset ≤ offset
          · exact .inl hlt
          · refine .inr ⟨by omega, fun h => ?_⟩
            have := hreaches h
            omega
        · rintro (hle | ⟨heq, hreaches⟩)
          · exact ⟨by omega, fun _ => by omega⟩
          · exact ⟨by omega, fun h => absurd h hreaches⟩

/-- A batch of ten offsets of which compaction has left the first three. -/
def compacted : WireBatch :=
  { sampleBatch with
    baseOffset := 0
    records := [⟨0, 0, none, some [1], []⟩, ⟨0, 1, none, some [2], []⟩, ⟨0, 2, none, some [3], []⟩]
    lastOffsetDelta := 9 }

theorem valid_compacted : compacted.Valid where
  baseOffset := by decide
  baseTimestamp := by decide
  producerId := by decide
  deltas := by decide
  offsets := by decide
  length := by decide

/-- What `compacted` is decoded to. -/
def compactedBatch : LeanBatch :=
  ⟨compacted.body, 0, -1, false, false,
    [⟨0, 1000, (u32Max, 0), (6, 1), (8, 0), 0⟩, ⟨1, 1000, (u32Max, 0), (14, 1), (16, 0), 0⟩,
      ⟨2, 1000, (u32Max, 0), (22, 1), (24, 0), 0⟩]⟩

theorem whole_compacted :
    ∀ part ∈ [(compacted.bytes plainCodecs, compactedBatch)], Whole plainCodecs part.1 part.2 := by
  intro part hpart
  rw [List.mem_singleton.mp hpart]
  exact ⟨framed_bytes plainCodecs valid_compacted, by decide +kernel⟩

/-- Asked for the first offset, the reader goes on behind the last record left. -/
theorem position_advances_iff_compacted :
    ∃ batches, decodeLean plainCodecs
        ([(compacted.bytes plainCodecs, compactedBatch)].flatMap Prod.fst) = .ok (some batches) ∧
      0 < (filterBatches 10 .readCommitted 0 batches []).2 := by
  obtain ⟨batches, hdecode, hiff⟩ := position_advances_iff 10 .readCommitted whole_compacted
    (show Fits 64 0 by decide) []
  refine ⟨batches, hdecode, (hiff.mpr (.inl (by decide))).2 ?_⟩
  refine ⟨(compacted.bytes plainCodecs, compactedBatch), List.mem_cons_self, ?_, ?_⟩
  · decide
  · decide

/-- Asked for offset 5, which is in the batch, the position falls back to 3. -/
theorem position_falls_back :
    Whole plainCodecs (compacted.bytes plainCodecs) compactedBatch ∧
      lastOffset (compacted.bytes plainCodecs) compactedBatch = 9 ∧
      decodeLean plainCodecs (compacted.bytes plainCodecs) = .ok (some [compactedBatch]) ∧
      (filterBatches 10 .readCommitted 5 [compactedBatch] []).2 = 3 := by
  refine ⟨whole_compacted (compacted.bytes plainCodecs, compactedBatch) List.mem_cons_self,
    ?_, ?_, ?_⟩
  · decide
  · decide +kernel
  · decide

end Barnabas.Core
