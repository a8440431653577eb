import Barnabas.Core.FilterAgreement

/-!
What the record-wise filter lets through.

`filter` walks the records once, with a queue of transactions that have not begun and
a set of producers whose transaction is open. The rules it implements say nothing of
queues: a record of an aborted transaction is one with an aborted transaction of its
producer at or before it and no marker of that producer in between. `Follows` is what
the bookkeeping knows of the records read so far, and the walk keeps it.
-/

namespace Barnabas.Core

open Barnabas.Lib

/-- The record is an abort marker of this producer. -/
def Record.IsAbort (r : Record) (producerId : ℤ) : Prop :=
  r.control = true ∧ r.producerId = producerId ∧ controlType r = some controlAbort

instance (r : Record) (producerId : ℤ) : Decidable (r.IsAbort producerId) :=
  inferInstanceAs (Decidable (_ ∧ _ ∧ _))

section Rules

variable (lastStableOffset : ℤ) (isolation : IsolationLevel) (fetchOffset : ℤ)
  (records : List Record) (aborted : List AbortedTransaction)

/-- An aborted transaction of the record's producer has begun at or before it, and no
abort marker has ended it. -/
def AbortedIn (r : Record) : Prop :=
  ∃ a ∈ aborted, a.producerId = r.producerId ∧ a.firstOffset ≤ r.offset ∧
    ∀ m ∈ records, m.IsAbort r.producerId → ¬(a.firstOffset ≤ m.offset ∧ m.offset < r.offset)

instance (r : Record) : Decidable (AbortedIn records aborted r) :=
  inferInstanceAs (Decidable (∃ a ∈ aborted, _))

instance (offset : ℤ) : Decidable (Reached lastStableOffset isolation offset) :=
  inferInstanceAs (Decidable (_ → _))

/-- The caller may have the record. -/
def Shown (r : Record) : Prop :=
  r.control = false ∧ fetchOffset ≤ r.offset ∧ Reached lastStableOffset isolation r.offset ∧
    (isolation = .readCommitted → ¬(r.transactional = true ∧ AbortedIn records aborted r))

instance (r : Record) :
    Decidable (Shown lastStableOffset isolation fetchOffset records aborted r) :=
  inferInstanceAs (Decidable (_ ∧ _ ∧ _ ∧ _))

/-- The records that the LSO does not withhold. -/
def reachedRecords : List Record :=
  records.filter fun r => Reached lastStableOffset isolation r.offset

/-- One past the last record that is not withheld. -/
def offsetPast : ℤ :=
  match (reachedRecords lastStableOffset isolation records).getLast? with
  | none => fetchOffset
  | some r => r.offset + 1

/-- What the rules say of the outcome of a filter. -/
def Exact (fetched : Fetched) : Prop :=
  fetched.records =
      records.filter (Shown lastStableOffset isolation fetchOffset records aborted ·) ∧
    fetched.nextOffset = offsetPast lastStableOffset isolation fetchOffset records

end Rules

/-! ### The bookkeeping -/

/-- What the bookkeeping knows once `done` has been read. -/
structure Follows (aborted : List AbortedTransaction) (done : List Record)
    (tracker : AbortTracker) : Prop where
  sorted : tracker.pending.Pairwise fun a b => a.firstOffset ≤ b.firstOffset
  pending : ∀ a, a ∈ tracker.pending ↔ a ∈ aborted ∧ ∀ d ∈ done, d.offset < a.firstOffset
  producers : ∀ p, p ∈ tracker.producers ↔ ∃ a ∈ aborted, a.producerId = p ∧
    (∃ d ∈ done, a.firstOffset ≤ d.offset) ∧ ∀ m ∈ done, m.IsAbort p → m.offset < a.firstOffset

theorem follows_new (aborted : List AbortedTransaction) : Follows aborted [] (.new aborted) := by
  refine ⟨AbortTracker.new_pending_sorted aborted, fun a => ?_, fun p => ?_⟩
  · simp
  · simp [AbortTracker.new]

section Step

variable {aborted : List AbortedTransaction} {done : List Record} {tracker : AbortTracker}
  {r : Record}

/-- With the ranges up to the record open, a producer is held if and only if one of its
transactions has begun and has not been ended. -/
theorem Follows.mem_openUpTo (h : Follows aborted done tracker)
    (hbefore : ∀ d ∈ done, d.offset < r.offset) (p : ℤ) :
    p ∈ (tracker.openUpTo r.offset).producers ↔ ∃ a ∈ aborted, a.producerId = p ∧
      a.firstOffset ≤ r.offset ∧ ∀ m ∈ done, m.IsAbort p → m.offset < a.firstOffset := by
  rw [AbortTracker.openUpTo, (AbortTracker.mem_openLoop r.offset tracker.producers h.sorted).1,
    h.producers]
  constructor
  · rintro (⟨a, ha, rfl, ⟨d, hd, hle⟩, hmarkers⟩ | ⟨a, ha, hle, rfl⟩)
    · exact ⟨a, ha, rfl, hle.trans (hbefore d hd).le, hmarkers⟩
    · obtain ⟨hmem, hlater⟩ := (h.pending a).mp ha
      exact ⟨a, hmem, rfl, hle, fun m hm _ => hlater m hm⟩
  · rintro ⟨a, ha, rfl, hle, hmarkers⟩
    by_cases hbegun : ∃ d ∈ done, a.firstOffset ≤ d.offset
    · exact .inl ⟨a, ha, rfl, hbegun, hmarkers⟩
    · right
      refine ⟨a, (h.pending a).mpr ⟨ha, fun d hd => ?_⟩, hle, rfl⟩
      by_contra hge
      exact hbegun ⟨d, hd, not_lt.mp hge⟩

theorem Follows.mem_openUpTo_pending (h : Follows aborted done tracker) (a : AbortedTransaction) :
    a ∈ (tracker.openUpTo r.offset).pending ↔
      a ∈ aborted ∧ ∀ d ∈ done ++ [r], d.offset < a.firstOffset := by
  rw [AbortTracker.openUpTo, (AbortTracker.mem_openLoop r.offset tracker.producers h.sorted).2,
    h.pending, List.forall_mem_append, List.forall_mem_singleton, and_assoc]

/-- What is held at a record says whether its transaction was aborted. -/
theorem Follows.mem_producers_iff (h : Follows aborted done tracker) {rest : List Record}
    (hordered : (done ++ r :: rest).Pairwise fun r r' => r.offset < r'.offset) :
    r.producerId ∈ (tracker.openUpTo r.offset).producers ↔
      AbortedIn (done ++ r :: rest) aborted r := by
  obtain ⟨-, hrest, hacross⟩ := List.pairwise_append.mp hordered
  have hbefore : ∀ d ∈ done, d.offset < r.offset := fun d hd => hacross d hd r List.mem_cons_self
  have hafter : ∀ d ∈ r :: rest, r.offset ≤ d.offset := by
    intro d hd
    rcases List.mem_cons.mp hd with rfl | hd
    · exact le_refl _
    · exact ((List.pairwise_cons.mp hrest).1 d hd).le
  rw [h.mem_openUpTo hbefore, AbortedIn]
  refine exists_congr fun a => and_congr_right fun _ => and_congr_right fun _ =>
    and_congr_right fun _ => ⟨fun hmarkers m hm hmarker => ?_, fun hmarkers m hm hmarker => ?_⟩
  · rintro ⟨hle, hlt⟩
    rcases List.mem_append.mp hm with hm | hm
    · exact absurd (hmarkers m hm hmarker) (not_lt.mpr hle)
    · exact absurd (hafter m hm) (not_le.mpr hlt)
  · by_contra hge
    exact hmarkers m (List.mem_append_left _ hm) hmarker ⟨not_lt.mp hge, hbefore m hm⟩

/-- The bookkeeping after a record that is no abort marker. -/
theorem Follows.data (h : Follows aborted done tracker)
    (hbefore : ∀ d ∈ done, d.offset < r.offset) (hdata : ∀ p, ¬r.IsAbort p) :
    Follows aborted (done ++ [r]) (tracker.openUpTo r.offset) := by
  refine ⟨?_, h.mem_openUpTo_pending, fun p => ?_⟩
  · exact h.sorted.sublist (AbortTracker.openUpTo_pending_suffix _ _).sublist
  · rw [h.mem_openUpTo hbefore]
    refine exists_congr fun a => and_congr_right fun _ => and_congr_right fun _ =>
      and_congr ⟨fun hle => ⟨r, by simp, hle⟩, ?_⟩ ?_
    · rintro ⟨d, hd, hle⟩
      rcases List.mem_append.mp hd with hd | hd
      · exact hle.trans (hbefore d hd).le
      · rwa [List.mem_singleton.mp hd] at hle
    · rw [List.forall_mem_append, List.forall_mem_singleton]
      exact ⟨fun hall => ⟨hall, fun hr => absurd hr (hdata p)⟩, And.left⟩

/-- An abort marker ends what its producer had begun. -/
theorem Follows.marker (h : Follows aborted done tracker)
    (hbefore : ∀ d ∈ done, d.offset < r.offset) (hmarker : r.IsAbort r.producerId) :
    Follows aborted (done ++ [r]) ((tracker.openUpTo r.offset).close r.producerId) := by
  refine ⟨?_, h.mem_openUpTo_pending, fun p => ?_⟩
  · exact h.sorted.sublist (AbortTracker.openUpTo_pending_suffix _ _).sublist
  · rw [AbortTracker.close, Finset.mem_erase, h.mem_openUpTo hbefore]
    constructor
    · rintro ⟨hne, a, ha, rfl, hle, hmarkers⟩
      refine ⟨a, ha, rfl, ⟨r, by simp, hle⟩, fun m hm hm' => ?_⟩
      rcases List.mem_append.mp hm with hm | hm
      · exact hmarkers m hm hm'
      · rw [List.mem_singleton.mp hm] at hm'
        exact absurd hm'.2.1.symm hne
    · rintro ⟨a, ha, rfl, ⟨d, hd, hle⟩, hmarkers⟩
      have hreached : a.firstOffset ≤ r.offset := by
        rcases List.mem_append.mp hd with hd | hd
        · exact hle.trans (hbefore d hd).le
        · rwa [List.mem_singleton.mp hd] at hle
      refine ⟨fun heq => ?_, a, ha, rfl, hreached, fun m hm => hmarkers m (by simp [hm])⟩
      have hended := hmarkers r (by simp) (heq ▸ hmarker)
      omega

end Step

/-! ### The walk -/

section Walk

variable {lastStableOffset : ℤ} {isolation : IsolationLevel} {fetchOffset : ℤ}
  {aborted : List AbortedTransaction}

/-- What is left of the records from the first one that is withheld. -/
theorem reachedRecords_eq_nil {r : Record} {rest : List Record}
    (hstop : isolation = .readCommitted ∧ lastStableOffset ≤ r.offset)
    (hordered : (r :: rest).Pairwise fun r r' => r.offset < r'.offset) :
    reachedRecords lastStableOffset isolation (r :: rest) = [] := by
  rw [reachedRecords, List.filter_eq_nil_iff]
  intro d hd hreached
  have hle : r.offset ≤ d.offset := by
    rcases List.mem_cons.mp hd with rfl | hd
    · exact le_refl _
    · exact ((List.pairwise_cons.mp hordered).1 d hd).le
  have hlt : d.offset < lastStableOffset := of_decide_eq_true hreached hstop.1
  omega

theorem filterLoop_exact {done rest : List Record} {tracker : AbortTracker} (nextOffset : ℤ)
    (hordered : (done ++ rest).Pairwise fun r r' => r.offset < r'.offset)
    (h : Follows aborted done tracker) :
    filterLoop lastStableOffset isolation fetchOffset tracker nextOffset rest =
      ⟨rest.filter (Shown lastStableOffset isolation fetchOffset (done ++ rest) aborted ·),
        positionAfter nextOffset (reachedRecords lastStableOffset isolation rest)⟩ := by
  induction rest generalizing done tracker nextOffset with
  | nil => rfl
  | cons r rest ih =>
      have hrest := (List.pairwise_append.mp hordered).2.1
      have hbefore : ∀ d ∈ done, d.offset < r.offset := fun d hd =>
        (List.pairwise_append.mp hordered).2.2 d hd r List.mem_cons_self
      rw [filterLoop]
      by_cases hstop : isolation = .readCommitted ∧ lastStableOffset ≤ r.offset
      · -- nothing from here on is reached, let alone shown
        have hnone := reachedRecords_eq_nil hstop hrest
        rw [if_pos hstop, hnone]
        congr 1
        symm
        rw [List.filter_eq_nil_iff]
        intro d hd hshown
        have hmem : d ∈ reachedRecords lastStableOffset isolation (r :: rest) :=
          List.mem_filter.mpr ⟨hd, decide_eq_true (of_decide_eq_true hshown).2.2.1⟩
        rw [hnone] at hmem
        cases hmem
      · have hreached : Reached lastStableOffset isolation r.offset := by
          intro hcommitted
          exact not_le.mp fun hle => hstop ⟨hcommitted, hle⟩
        have hnext : positionAfter nextOffset (reachedRecords lastStableOffset isolation (r :: rest)) =
            positionAfter (wrap 64 (r.offset + 1))
              (reachedRecords lastStableOffset isolation rest) := by
          have hcons : reachedRecords lastStableOffset isolation (r :: rest) =
              r :: reachedRecords lastStableOffset isolation rest :=
            List.filter_cons_of_pos (by simpa using hreached)
          rw [hcons, positionAfter_cons]
        have hlater : ∀ tracker', Follows aborted (done ++ [r]) tracker' →
            filterLoop lastStableOffset isolation fetchOffset tracker' (wrap 64 (r.offset + 1)) rest =
              ⟨rest.filter (Shown lastStableOffset isolation fetchOffset (done ++ r :: rest) aborted ·),
                positionAfter nextOffset
                  (reachedRecords lastStableOffset isolation (r :: rest))⟩ := by
          intro tracker' h'
          have hsplit : done ++ [r] ++ rest = done ++ r :: rest := by simp
          rw [hnext, ih (wrap 64 (r.offset + 1)) (hsplit ▸ hordered) h', hsplit]
        have hdropped : ¬Shown lastStableOffset isolation fetchOffset (done ++ r :: rest) aborted r →
            (r :: rest).filter
                (Shown lastStableOffset isolation fetchOffset (done ++ r :: rest) aborted ·) =
              rest.filter
                (Shown lastStableOffset isolation fetchOffset (done ++ r :: rest) aborted ·) :=
          fun hr => List.filter_cons_of_neg (by simpa using hr)
        rw [if_neg hstop]
        dsimp only
        by_cases hcontrol : r.control = true
        · rw [if_pos hcontrol, hdropped fun hshown => by simp [hshown.1] at hcontrol]
          by_cases hmarker : controlType r = some controlAbort
          · rw [if_pos hmarker]
            exact hlater _ (h.marker hbefore ⟨hcontrol, rfl, hmarker⟩)
          · rw [if_neg hmarker]
            exact hlater _ (h.data hbefore fun p hp => hmarker hp.2.2)
        · have hdata := hlater _ (h.data hbefore fun p hp => hcontrol hp.1)
          rw [if_neg hcontrol]
          by_cases haborted : isolation = .readCommitted ∧ r.transactional = true ∧
              r.producerId ∈ (tracker.openUpTo r.offset).producers
          · have hin := (h.mem_producers_iff hordered).mp haborted.2.2
            rw [if_pos haborted, hdropped fun hshown => hshown.2.2.2 haborted.1 ⟨haborted.2.1, hin⟩]
            exact hdata
          · rw [if_neg haborted]
            by_cases hlow : r.offset < fetchOffset
            · rw [if_pos hlow, hdropped fun hshown => not_lt.mpr hshown.2.1 hlow]
              exact hdata
            · have hshown : Shown lastStableOffset isolation fetchOffset (done ++ r :: rest) aborted
                  r := by
                refine ⟨by simpa using hcontrol, not_lt.mp hlow, hreached, fun hcommitted hin => ?_⟩
                exact haborted ⟨hcommitted, hin.1, (h.mem_producers_iff hordered).mpr hin.2⟩
              have hcons : (r :: rest).filter
                  (Shown lastStableOffset isolation fetchOffset (done ++ r :: rest) aborted ·) =
                    r :: rest.filter
                      (Shown lastStableOffset isolation fetchOffset (done ++ r :: rest) aborted ·) :=
                List.filter_cons_of_pos (by simpa using hshown)
              rw [if_neg hlow, hdata, hcons]

/-- The scan ahead of the walk finds nothing to drop. -/
theorem shown_of_fast {records : List Record}
    (hnothing : ¬records.any (fun r => r.control || r.offset < fetchOffset ||
      (isolation = .readCommitted && lastStableOffset ≤ r.offset)) = true) :
    ∀ r ∈ records, Shown lastStableOffset isolation fetchOffset records [] r := by
  intro r hr
  have hkeeps : ¬(r.control || r.offset < fetchOffset ||
      (isolation = .readCommitted && lastStableOffset ≤ r.offset)) = true :=
    fun hdrop => hnothing (List.any_eq_true.mpr ⟨r, hr, hdrop⟩)
  simp only [Bool.or_eq_true, decide_eq_true_eq, Bool.and_eq_true, not_or, not_and, not_lt,
    not_le, Bool.not_eq_true] at hkeeps
  refine ⟨hkeeps.1.1, hkeeps.1.2, hkeeps.2, fun _ hin => ?_⟩
  obtain ⟨a, ha, -⟩ := hin.2
  cases ha

/-- With or without the fast path, the filter keeps what is shown and stops behind the
last record that is not withheld, in `i64`. -/
theorem filter_eq {records : List Record}
    (hordered : records.Pairwise fun r r' => r.offset < r'.offset) :
    filter lastStableOffset isolation fetchOffset records aborted =
      ⟨records.filter (Shown lastStableOffset isolation fetchOffset records aborted ·),
        positionAfter fetchOffset (reachedRecords lastStableOffset isolation records)⟩ := by
  rw [filter]
  split
  · next hfast =>
      have hnil : aborted = [] := List.isEmpty_iff.mp hfast.1
      subst hnil
      have hshown := shown_of_fast (by simpa using hfast.2)
      have hall : records.filter (Shown lastStableOffset isolation fetchOffset records [] ·) =
          records := List.filter_eq_self.mpr fun r hr => decide_eq_true (hshown r hr)
      have hreached : reachedRecords lastStableOffset isolation records = records :=
        List.filter_eq_self.mpr fun r hr => decide_eq_true (hshown r hr).2.2.1
      rw [hall, hreached]
      rfl
  · exact filterLoop_exact fetchOffset (by exact hordered) (follows_new aborted)

/-- The filter keeps exactly the records that READ_COMMITTED shows. The offset it goes on
from is one past the last record that is not withheld, unless that has no successor. -/
theorem filter_exact_iff (lastStableOffset : ℤ) (isolation : IsolationLevel) (fetchOffset : ℤ)
    {records : List Record} (aborted : List AbortedTransaction)
    (hordered : records.Pairwise fun r r' => r.offset < r'.offset)
    (hfits : ∀ r ∈ records, Fits 64 r.offset) :
    (filter lastStableOffset isolation fetchOffset records aborted).records =
        records.filter (Shown lastStableOffset isolation fetchOffset records aborted ·) ∧
      (Exact lastStableOffset isolation fetchOffset records aborted
          (filter lastStableOffset isolation fetchOffset records aborted) ↔
        ∀ r, (reachedRecords lastStableOffset isolation records).getLast? = some r →
          r.offset ≠ i64Max) := by
  rw [filter_eq hordered, Exact]
  refine ⟨rfl, ?_⟩
  rw [and_iff_right rfl, offsetPast, positionAfter]
  cases hlast : (reachedRecords lastStableOffset isolation records).getLast? with
  | none => simp
  | some r =>
      have hr := hfits r (List.mem_of_mem_filter (List.mem_of_getLast? hlast))
      simp only [Option.some.injEq, forall_eq']
      rw [wrap_eq_self_iff (by decide), fits64_succ_iff hr]

end Walk

/-! ### Two logs -/

/-- A transaction of producer 7 that was aborted, and a second one that was not, between
the records of another producer. -/
def abortedLog : List Record :=
  [plainRecord 0 7 true false [], plainRecord 1 8 false false [], plainRecord 2 7 true true [0, 0, 0, 0],
    plainRecord 3 7 true false [], plainRecord 4 8 true false []]

theorem filter_exact_iff_abortedLog :
    Exact 4 .readCommitted 0 abortedLog [⟨7, 0⟩]
        (filter 4 .readCommitted 0 abortedLog [⟨7, 0⟩]) ∧
      (filter 4 .readCommitted 0 abortedLog [⟨7, 0⟩]).records.map Record.offset = [1, 3] := by
  have hexact := filter_exact_iff 4 .readCommitted 0 [⟨7, 0⟩]
    (show abortedLog.Pairwise fun r r' => r.offset < r'.offset by decide)
    (show ∀ r ∈ abortedLog, Fits 64 r.offset by decide)
  refine ⟨hexact.2.mpr fun r hlast => ?_, by decide⟩
  have hr : r = plainRecord 3 7 true false [] := Option.some.inj (hlast.symm.trans (by decide))
  rw [hr]
  decide

/-- Behind the last offset there is the first. -/
theorem offset_turns_negative :
    (filter 0 .readUncommitted 0 [plainRecord i64Max 7 false false []] []).nextOffset = -2 ^ 63 ∧
      ¬Exact 0 .readUncommitted 0 [plainRecord i64Max 7 false false []] []
        (filter 0 .readUncommitted 0 [plainRecord i64Max 7 false false []] []) := by
  refine ⟨by decide, fun h => ?_⟩
  exact absurd h.2 (by decide)

end Barnabas.Core
