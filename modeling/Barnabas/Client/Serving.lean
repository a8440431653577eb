import Barnabas.Client.Ordering
import Barnabas.Client.Settling
import Barnabas.Lib.GoBack

/-!
What a broker makes of a producer's batches.

As long as the numbers of a partition do not wrap, a batch is known by its base
sequence, and the rule of the log comes down to positions: of the batches in the order
they were numbered, a log holds the first ones, takes the next one, and finds any of
the last five again. Over all streams the logs only grow, and each answer was given by
the log that the answers before it had left.
-/

namespace Barnabas.Client

open Barnabas.Lib Barnabas.Core

/-! ### Batches in line -/

/-- The records in the batches before position `i`. -/
def recordsBefore (batches : List Batch) (i : ℕ) : ℕ :=
  ((batches.take i).map (·.records.length)).sum

/-- The batches of a partition: none is empty, each begins where the one before it ends, and
there are numbers for all of them. -/
structure InLine (batches : List Batch) : Prop where
  range : ∀ (i : ℕ) (h : i < batches.length),
    batches[i].range = ⟨recordsBefore batches i, batches[i].records.length⟩
  filled : ∀ batch ∈ batches, batch.records ≠ []
  fits : (recordsBefore batches batches.length : ℤ) ≤ i32Max

theorem recordsBefore_succ {batches : List Batch} {i : ℕ} (h : i < batches.length) :
    recordsBefore batches (i + 1) = recordsBefore batches i + batches[i].records.length := by
  rw [recordsBefore, recordsBefore, List.take_succ_eq_append_getElem h, List.map_append,
    List.sum_append, List.map_singleton, List.sum_singleton]

theorem recordsBefore_mono (batches : List Batch) {i j : ℕ} (h : i ≤ j) :
    recordsBefore batches i ≤ recordsBefore batches j := by
  obtain ⟨k, rfl⟩ := Nat.exists_eq_add_of_le h
  rw [recordsBefore, recordsBefore, List.take_add]
  simp

theorem recordsBefore_append {batches more : List Batch} {i : ℕ} (h : i ≤ batches.length) :
    recordsBefore (batches ++ more) i = recordsBefore batches i := by
  rw [recordsBefore, recordsBefore, List.take_append_of_le_length h]

/-- The numbers of consecutive batches, while they do not wrap. -/
theorem inLine_of_numbering {batches : List Batch} {next : ℤ} (h : Producer.Numbering 0 batches next)
    (hfilled : ∀ batch ∈ batches, batch.records ≠ [])
    (hfits : (recordsBefore batches batches.length : ℤ) ≤ i32Max) : InLine batches := by
  have hrange : ∀ (batches : List Batch) (base : ℕ), Producer.Numbering base batches next →
      ((base + recordsBefore batches batches.length : ℕ) : ℤ) ≤ i32Max →
        ∀ (i : ℕ) (hi : i < batches.length), batches[i].range =
          ⟨(base + recordsBefore batches i : ℕ), batches[i].records.length⟩ := by
    intro batches
    induction batches with
    | nil =>
        intro base _ _ i hi
        cases hi
    | cons batch rest ih =>
        rintro base ⟨hrange, hrest⟩ hfits i hi
        have hsplit : ∀ i, recordsBefore (batch :: rest) (i + 1) =
            batch.records.length + recordsBefore rest i := fun i => by simp [recordsBefore]
        rw [List.length_cons, hsplit, ← Nat.add_assoc] at hfits
        have hle : ((base + batch.records.length : ℕ) : ℤ) ≤ i32Max := by omega
        have hwrap : wrap 32 (base + batch.records.length : ℤ) =
            ((base + batch.records.length : ℕ) : ℤ) := by
          rw [Nat.cast_add] at hle ⊢
          exact wrap32_eq_self (by omega) hle
        rw [hwrap] at hrest
        cases i with
        | zero => simpa [recordsBefore] using hrange
        | succ i =>
            have hlater := ih _ hrest hfits i (Nat.lt_of_succ_lt_succ hi)
            rw [List.getElem_cons_succ, hlater, hsplit, Nat.add_assoc]
  refine ⟨fun i hi => ?_, hfilled, hfits⟩
  have hi := hrange batches 0 h (by rwa [Nat.zero_add]) i hi
  rwa [Nat.zero_add] at hi

namespace InLine

variable {batches : List Batch} (h : InLine batches)

include h

theorem recordsBefore_lt {i j : ℕ} (hij : i < j) (hj : j ≤ batches.length) :
    recordsBefore batches i < recordsBefore batches j := by
  have hi : i < batches.length := hij.trans_le hj
  have hfilled := List.length_pos_iff.mpr (h.filled _ (List.getElem_mem hi))
  have hnext := recordsBefore_mono batches (Nat.succ_le_of_lt hij)
  rw [Nat.succ_eq_add_one, recordsBefore_succ hi] at hnext
  omega

/-- A batch is known by its range. -/
theorem eq_of_range {i j : ℕ} (hi : i < batches.length) (hj : j < batches.length)
    (hrange : batches[i].range = batches[j].range) : i = j := by
  rw [h.range i hi, h.range j hj, SequenceRange.mk.injEq, Nat.cast_inj] at hrange
  by_contra hne
  rcases Nat.lt_or_gt_of_ne hne with hlt | hlt
  · exact (h.recordsBefore_lt hlt hj.le).ne hrange.1
  · exact (h.recordsBefore_lt hlt hi.le).ne' hrange.1

theorem nodup : batches.Nodup := by
  rw [List.nodup_iff_injective_get]
  intro i j hij
  refine Fin.ext (h.eq_of_range i.2 j.2 ?_)
  rw [List.get_eq_getElem, List.get_eq_getElem] at hij
  rw [hij]

end InLine

/-! ### A log of batches in line -/

namespace Log

/-- The batches of a log. -/
def batches (log : Log) : List Batch := log.map (·.batch)

variable {log : Log} {batches : List Batch}

@[simp] theorem length_batches (log : Log) : log.batches.length = log.length := List.length_map ..

@[simp] theorem batches_append (log more : Log) :
    Log.batches (log ++ more) = log.batches ++ more.batches := List.map_append

theorem prefix_accept (log : Log) (gap : ℕ) (batch : Batch) : log <+: (log.accept gap batch).2 := by
  rw [accept]
  split
  · exact List.prefix_append ..
  · exact List.prefix_rfl

@[simp] theorem serve_none_log (log : Log) (gap : ℕ) (batch : Batch) :
    (log.serve gap batch .none).2 = (log.accept gap batch).2 := by
  rw [serve]
  rcases log.accept gap batch with ⟨_ | offset, log'⟩
  · rfl
  · rfl

theorem prefix_serve (log : Log) (gap : ℕ) (batch : Batch) (fault : Fault) :
    log <+: (log.serve gap batch fault).2 := by
  have haccept := prefix_accept log gap batch
  cases fault with
  | none => rwa [serve_none_log]
  | before code => exact List.prefix_rfl
  | after code => exact haccept

section Prefix

variable (h : InLine batches) (hlog : log.batches <+: batches)

include hlog

theorem length_le : log.length ≤ batches.length := by
  have hle := hlog.length_le
  rwa [length_batches] at hle

theorem batch_getElem {i : ℕ} (hi : i < log.length) (hi' : i < batches.length) :
    log[i].batch = batches[i] := by
  have hget := hlog.getElem (i := i) (by rwa [length_batches])
  rw [← hget]
  exact (List.getElem_map ..).symm

include h

/-- The number a log expects is that of the batch it does not have yet. -/
theorem expected_eq : log.expected = recordsBefore batches log.length := by
  rw [expected]
  rcases hlast : log.getLast? with _ | entry
  · have hnil : log = [] := List.getLast?_eq_none_iff.mp hlast
    simp [hnil, recordsBefore]
  · obtain ⟨rest, hrest⟩ := List.getLast?_eq_some_iff.mp hlast
    have hlength : log.length = rest.length + 1 := by simp [hrest]
    have hi : rest.length < log.length := by omega
    have hentry : log[rest.length] = entry := by simp [hrest]
    have hlt : rest.length < batches.length := hi.trans_le (length_le hlog)
    have hbatch := batch_getElem hlog hi hlt
    rw [hentry] at hbatch
    have hmax : i32Max = 2 ^ 31 - 1 := rfl
    have hfits : recordsBefore batches log.length ≤ recordsBefore batches batches.length :=
      recordsBefore_mono batches (length_le hlog)
    have hall := h.fits
    dsimp only
    rw [hbatch, h.range _ hlt]
    rw [hlength, recordsBefore_succ hlt] at hfits ⊢
    dsimp only
    omega

variable {i : ℕ} (hi : i < batches.length) (gap : ℕ)

/-- The next batch is appended. -/
theorem accept_next (hnext : i = log.length) :
    log.accept gap batches[i] =
      (some (log.endOffset + gap), log ++ [⟨batches[i], log.endOffset + gap⟩]) := by
  subst hnext
  refine if_pos ?_
  rw [h.range _ hi, expected_eq h hlog]

/-- Any other is looked for among the last five. -/
theorem accept_other (hne : i ≠ log.length) : log.accept gap batches[i] =
    ((log.lastFive.find? fun entry => entry.batch.range = batches[i].range).map (·.offset), log) := by
  refine if_neg fun heq => ?_
  rw [h.range i hi, expected_eq h hlog] at heq
  rcases Nat.lt_or_gt_of_ne hne with hlt | hlt
  · have hless := h.recordsBefore_lt hlt (length_le hlog)
    dsimp only at heq
    omega
  · have hless := h.recordsBefore_lt hlt hi.le
    dsimp only at heq
    omega

/-- The log stays a prefix of what was numbered, as the receiver of a channel does. -/
theorem accept_batches : (log.accept gap batches[i]).2.batches <+: batches ∧
    (log.accept gap batches[i]).2.length = GoBack.arrived log.length i := by
  by_cases hnext : i = log.length
  · subst hnext
    rw [accept_next h hlog hi gap rfl, GoBack.arrived_self]
    have htake : log.batches = batches.take log.length := by
      rw [← length_batches]
      exact List.prefix_iff_eq_take.mp hlog
    refine ⟨?_, by simp⟩
    rw [batches_append, htake]
    show batches.take log.length ++ [batches[log.length]] <+: batches
    rw [← List.take_succ_eq_append_getElem hi]
    exact List.take_prefix ..
  · rw [accept_other h hlog hi gap hnext, GoBack.arrived_of_ne hnext]
    exact ⟨hlog, rfl⟩

/-- A batch that is answered with an offset is in the log at that offset. -/
theorem mem_of_accept {offset : ℤ} (hoffset : (log.accept gap batches[i]).1 = some offset) :
    ⟨batches[i], offset⟩ ∈ (log.accept gap batches[i]).2 := by
  by_cases hnext : i = log.length
  · rw [accept_next h hlog hi gap hnext] at hoffset ⊢
    obtain rfl := Option.some.inj hoffset
    exact List.mem_append_right _ (List.mem_singleton.mpr rfl)
  · rw [accept_other h hlog hi gap hnext] at hoffset ⊢
    obtain ⟨entry, hfind, rfl⟩ := Option.map_eq_some_iff.mp hoffset
    have hmem : entry ∈ log := List.mem_of_mem_drop (List.mem_of_find?_eq_some hfind)
    obtain ⟨j, hj, hget⟩ := List.getElem_of_mem hmem
    have hbatch := batch_getElem hlog hj (hj.trans_le (length_le hlog))
    rw [hget] at hbatch
    have hrange : entry.batch.range = batches[i].range := by
      simpa using List.find?_some hfind
    rw [hbatch] at hrange
    have hij := h.eq_of_range (hj.trans_le (length_le hlog)) hi hrange
    subst hij
    rw [← hbatch]
    exact hmem

/-- The next batch and the last five are answered with an offset. -/
theorem accept_known (hlast : log.length - 5 ≤ i) (hreached : i ≤ log.length) :
    ∃ offset, (log.accept gap batches[i]).1 = some offset := by
  rcases hreached.eq_or_lt with hnext | hlt
  · rw [accept_next h hlog hi gap hnext]
    exact ⟨_, rfl⟩
  · rw [accept_other h hlog hi gap hlt.ne]
    have hmem : log[i] ∈ log.lastFive := by
      rw [lastFive, List.mem_iff_getElem]
      refine ⟨i - (log.length - 5), by rw [List.length_drop]; omega, ?_⟩
      rw [List.getElem_drop]
      congr 1
      omega
    have hsome : (log.lastFive.find? fun entry =>
        decide (entry.batch.range = batches[i].range)).isSome := by
      rw [List.find?_isSome]
      refine ⟨log[i], hmem, ?_⟩
      rw [batch_getElem hlog hlt hi]
      exact decide_eq_true rfl
    obtain ⟨entry, hentry⟩ := Option.isSome_iff_exists.mp hsome
    rw [hentry]
    exact ⟨entry.offset, rfl⟩

/-- The same of a request that may go wrong. -/
theorem serve_batches (fault : Fault) : (log.serve gap batches[i] fault).2.batches <+: batches ∧
    ((log.serve gap batches[i] fault).2.length = log.length ∨
      (log.serve gap batches[i] fault).2.length = GoBack.arrived log.length i) := by
  have haccept := accept_batches h hlog hi gap
  cases fault with
  | none =>
      rw [serve_none_log]
      exact ⟨haccept.1, .inr haccept.2⟩
  | before code => exact ⟨hlog, .inl rfl⟩
  | after code => exact ⟨haccept.1, .inr haccept.2⟩

end Prefix

/-! ### Offsets -/

/-- The batches of a log do not overlap. -/
def Spaced (log : Log) : Prop :=
  log.Pairwise fun entry entry' => entry.offset + entry.batch.range.count ≤ entry'.offset

/-- Every batch of the log ends at or before its end. -/
theorem Spaced.le_endOffset (h : log.Spaced)
    (hcount : ∀ entry ∈ log, 0 ≤ entry.batch.range.count) {entry : Entry} (hentry : entry ∈ log) :
    entry.offset + entry.batch.range.count ≤ log.endOffset := by
  rcases hlast : log.getLast? with _ | last
  · rw [List.getLast?_eq_none_iff.mp hlast] at hentry
    cases hentry
  · rw [endOffset, hlast]
    dsimp only
    obtain ⟨rest, rfl⟩ := List.getLast?_eq_some_iff.mp hlast
    rcases List.mem_append.mp hentry with hrest | hhere
    · have hbefore := (List.pairwise_append.mp h).2.2 entry hrest last (List.mem_singleton.mpr rfl)
      have hlastCount := hcount last (List.mem_append_right _ (List.mem_singleton.mpr rfl))
      omega
    · rw [List.mem_singleton.mp hhere]

theorem Spaced.accept (h : log.Spaced) (hcount : ∀ entry ∈ log, 0 ≤ entry.batch.range.count)
    (gap : ℕ) (batch : Batch) : (log.accept gap batch).2.Spaced := by
  rw [Log.accept]
  split
  · refine List.pairwise_append.mpr ⟨h, List.pairwise_singleton .., ?_⟩
    intro entry hentry entry' hentry'
    have hle := h.le_endOffset hcount hentry
    rw [List.mem_singleton.mp hentry']
    dsimp only
    omega
  · exact h

theorem Spaced.serve (h : log.Spaced) (hcount : ∀ entry ∈ log, 0 ≤ entry.batch.range.count)
    (gap : ℕ) (batch : Batch) (fault : Fault) : (log.serve gap batch fault).2.Spaced := by
  have haccept := h.accept hcount gap batch
  cases fault with
  | none => rwa [serve_none_log]
  | before code => exact h
  | after code => exact haccept

end Log

end Barnabas.Client
