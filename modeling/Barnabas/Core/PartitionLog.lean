import Barnabas.Core.FilterAgreement

/-!
A partition's log as a broker stores and serves it.

A log is a list of magic-2 batches, as bytes together with what the bytes hold.
A transaction of a producer is the stretch from a transactional batch to the
producer's next control batch, which is its marker; it was aborted if that
marker says so. From this alone follow the records a consumer may see
(`visible`) and the aborted transactions a broker has to report with a run of
batches (`AbortedSpan`). Nothing here is code of the client: it is the other side
of the wire, stated so that the client's reader and filter can be run against it.
-/

namespace Barnabas.Core

open Barnabas.Lib

/-! ### Transactions of a log -/

/-- The batch holds an abort marker. -/
def LeanBatch.isAbort (batch : LeanBatch) : Bool :=
  batch.records.any fun r => batch.controlType r = some controlAbort

/-- The producer's next marker in the log from here on is an abort. -/
def abortsNext (producerId : ℤ) : List LeanBatch → Bool
  | [] => false
  | b :: log =>
      if b.control ∧ b.producerId = producerId then b.isAbort else abortsNext producerId log

/-- What a consumer may see of one batch, given the log after it. -/
def shown (isolation : IsolationLevel) (lastStableOffset : ℤ) (batch : LeanBatch)
    (log : List LeanBatch) : List Row :=
  if batch.control ∨
      isolation = .readCommitted ∧ batch.transactional ∧ abortsNext batch.producerId log then []
  else batch.rows.filter fun row => isolation = .readCommitted → row.offset < lastStableOffset

/-- What a consumer may see of a log: no markers and, under READ_COMMITTED,
nothing at or above the LSO and nothing of an aborted transaction. -/
def visible (isolation : IsolationLevel) (lastStableOffset : ℤ) : List LeanBatch → List Row
  | [] => []
  | b :: log => shown isolation lastStableOffset b log ++ visible isolation lastStableOffset log

section Spans

variable (log : List LeanBatch)

/-- Batch `k` is a marker of the producer. -/
def MarkerAt (producerId : ℤ) (k : ℕ) : Prop :=
  ∃ b ∈ log[k]?, b.control = true ∧ b.producerId = producerId

def AbortAt (producerId : ℤ) (k : ℕ) : Prop :=
  ∃ b ∈ log[k]?, b.control = true ∧ b.producerId = producerId ∧ b.isAbort = true

/-- Batch `k` is transactional data of the producer. -/
def WritesAt (producerId : ℤ) (k : ℕ) : Prop :=
  ∃ b ∈ log[k]?, b.control = false ∧ b.transactional = true ∧ b.producerId = producerId

instance (producerId : ℤ) (k : ℕ) : Decidable (MarkerAt log producerId k) :=
  inferInstanceAs (Decidable (∃ b ∈ log[k]?, _))

instance (producerId : ℤ) (k : ℕ) : Decidable (AbortAt log producerId k) :=
  inferInstanceAs (Decidable (∃ b ∈ log[k]?, _))

instance (producerId : ℤ) (k : ℕ) : Decidable (WritesAt log producerId k) :=
  inferInstanceAs (Decidable (∃ b ∈ log[k]?, _))

/-- An aborted transaction of the producer: it begins with batch `i` and ends
with the marker at `j`. -/
structure AbortedSpan (producerId : ℤ) (i j : ℕ) : Prop where
  begins : WritesAt log producerId i
  ends : AbortAt log producerId j
  lt : i < j
  whole : ∀ k < j, i < k → ¬MarkerAt log producerId k
  fresh : ∀ k < i, WritesAt log producerId k → ∃ l < i, k < l ∧ MarkerAt log producerId l

instance (producerId : ℤ) (i j : ℕ) : Decidable (AbortedSpan log producerId i j) :=
  decidable_of_iff (WritesAt log producerId i ∧ AbortAt log producerId j ∧ i < j ∧
    (∀ k < j, i < k → ¬MarkerAt log producerId k) ∧
    ∀ k < i, WritesAt log producerId k → ∃ l < i, k < l ∧ MarkerAt log producerId l)
    ⟨fun ⟨h₁, h₂, h₃, h₄, h₅⟩ => ⟨h₁, h₂, h₃, h₄, h₅⟩,
      fun ⟨h₁, h₂, h₃, h₄, h₅⟩ => ⟨h₁, h₂, h₃, h₄, h₅⟩⟩

end Spans

variable {log : List LeanBatch} {producerId : ℤ}

theorem AbortAt.markerAt {k : ℕ} (h : AbortAt log producerId k) : MarkerAt log producerId k := by
  obtain ⟨b, hb, hcontrol, hproducer, -⟩ := h
  exact ⟨b, hb, hcontrol, hproducer⟩

theorem WritesAt.not_markerAt {producerId' : ℤ} {k : ℕ} (h : WritesAt log producerId k) :
    ¬MarkerAt log producerId' k := by
  obtain ⟨b, hb, hdata, -⟩ := h
  rintro ⟨b', hb', hcontrol, -⟩
  obtain rfl : b = b' := Option.some.inj (hb.symm.trans hb')
  simp [hdata] at hcontrol

theorem abortsNext_iff :
    abortsNext producerId log = true ↔
      ∃ d, AbortAt log producerId d ∧ ∀ e < d, ¬MarkerAt log producerId e := by
  induction log with
  | nil => simp [abortsNext, AbortAt]
  | cons b log ih =>
      rw [abortsNext]
      split
      · rename_i hmarker
        constructor
        · exact fun habort => ⟨0, ⟨b, rfl, hmarker.1, hmarker.2, habort⟩, by simp⟩
        · rintro ⟨d, ⟨b', hb', -, -, habort⟩, hnone⟩
          cases d with
          | zero =>
              obtain rfl : b = b' := by simpa using hb'
              exact habort
          | succ d => exact absurd ⟨b, rfl, hmarker.1, hmarker.2⟩ (hnone 0 (by omega))
      · rename_i hmarker
        rw [ih]
        constructor
        · rintro ⟨d, habort, hnone⟩
          refine ⟨d + 1, by simpa [AbortAt] using habort, ?_⟩
          rintro (_ | e) he
          · rintro ⟨b', hb', h⟩
            obtain rfl : b = b' := by simpa using hb'
            exact hmarker h
          · simpa [MarkerAt] using hnone e (by omega)
        · rintro ⟨_ | d, habort, hnone⟩
          · obtain ⟨b', hb', hcontrol, hproducer, -⟩ := habort
            obtain rfl : b = b' := by simpa using hb'
            exact absurd ⟨hcontrol, hproducer⟩ hmarker
          · refine ⟨d, by simpa [AbortAt] using habort, fun e he => ?_⟩
            simpa [MarkerAt] using hnone (e + 1) (by omega)

/-- The same with the positions of the whole log. -/
theorem abortsNext_drop_iff (k : ℕ) :
    abortsNext producerId (log.drop k) = true ↔
      ∃ j, k ≤ j ∧ AbortAt log producerId j ∧ ∀ e < j, k ≤ e → ¬MarkerAt log producerId e := by
  rw [abortsNext_iff]
  simp only [AbortAt, MarkerAt, List.getElem?_drop]
  constructor
  · rintro ⟨d, habort, hnone⟩
    refine ⟨k + d, by omega, habort, fun e he hke => ?_⟩
    obtain ⟨c, rfl⟩ := Nat.exists_eq_add_of_le hke
    exact hnone c (by omega)
  · rintro ⟨j, hkj, habort, hnone⟩
    obtain ⟨d, rfl⟩ := Nat.exists_eq_add_of_le hkj
    exact ⟨d, habort, fun e he => hnone (k + e) (by omega) (by omega)⟩

/-- A transactional batch belongs to a transaction that begins at or before
it. -/
theorem exists_first_write {k : ℕ} (h : WritesAt log producerId k) :
    ∃ i ≤ k, WritesAt log producerId i ∧ (∀ e < k, i < e → ¬MarkerAt log producerId e) ∧
      ∀ l < i, WritesAt log producerId l → ∃ m < i, l < m ∧ MarkerAt log producerId m := by
  classical
  -- The transaction's first batch is the earliest write with no marker up to `k`.
  have hex : ∃ i, i ≤ k ∧ WritesAt log producerId i ∧
      ∀ e < k, i < e → ¬MarkerAt log producerId e :=
    ⟨k, le_refl k, h, fun e he hke => absurd he (by omega)⟩
  obtain ⟨hle, hwrites, hnone⟩ := Nat.find_spec hex
  refine ⟨Nat.find hex, hle, hwrites, hnone, fun l hl hwritesl => ?_⟩
  by_contra hno
  push Not at hno
  refine Nat.find_min hex hl ⟨by omega, hwritesl, fun e he hle' => ?_⟩
  rcases Nat.lt_trichotomy e (Nat.find hex) with hlt | heq | hgt
  · exact hno e hlt hle'
  · exact heq ▸ hwrites.not_markerAt
  · exact hnone e he hgt

/-- A transactional batch is dropped by the log's own account exactly if it lies
in an aborted transaction. -/
theorem abortsNext_iff_span {k : ℕ} (h : WritesAt log producerId k) :
    abortsNext producerId (log.drop (k + 1)) = true ↔
      ∃ i j, AbortedSpan log producerId i j ∧ i ≤ k ∧ k ≤ j := by
  rw [abortsNext_drop_iff]
  constructor
  · rintro ⟨j, hkj, habort, hnone⟩
    obtain ⟨i, hik, hwrites, hbetween, hfresh⟩ := exists_first_write h
    refine ⟨i, j, ⟨hwrites, habort, by omega, fun e he hie => ?_, hfresh⟩, hik, by omega⟩
    rcases Nat.lt_trichotomy e k with hlt | rfl | hgt
    · exact hbetween e hlt hie
    · exact h.not_markerAt
    · exact hnone e he (by omega)
  · rintro ⟨i, j, hspan, hik, hkj⟩
    have hne : k ≠ j := by
      rintro rfl
      exact h.not_markerAt hspan.ends.markerAt
    exact ⟨j, by omega, hspan.ends, fun e he hke => hspan.whole e he (by omega)⟩

end Barnabas.Core
