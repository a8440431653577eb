import Barnabas.Client.Message
import Barnabas.Core.Sequencing

/-!
How far the sequence numbers go.

Sequences are meant to be the number of records before, modulo `2 ^ 31`. The code adds
in `i32` and never reduces, so they are that only as long as a partition has taken no
more than `i32::MAX` records under one identity. The next addition overflows.
-/

namespace Barnabas.Client

open Barnabas.Core Barnabas.Core.ProducerState Barnabas.Lib

/-- Allocating `count` sequence numbers in a state, after the given ranges, is exact:
the base is the number of records before it, and none of the three additions that
start from it overflows. -/
structure Exact (ledger : Core.ProducerState.Ledger) (tp : TopicPartition) (count : ℤ)
    (range : SequenceRange) : Prop where
  base : range.base = total (ledger.ranges tp) % 2 ^ 31
  next : (perform (.allocate tp count) ledger.state).2.nextSequence tp = range.base + count
  last : range.end_ = range.base + count
  records : ∀ batch : Batch, batch.range = range → batch.records.length = count →
    ∀ (i : ℕ) record, batch.encoded[i]? = some record → record.sequence = range.base + i

/-- Every allocation of the run is exact. -/
def Exactly (isTransactional : Bool) (ops : List Op) : Prop :=
  ∀ pre tp count range, pre ++ [.allocate tp count] <+: ops →
    (perform (.allocate tp count) (Ledger.ofRun isTransactional pre).state).1 = .ok (some range) →
      Exact (Ledger.ofRun isTransactional pre) tp count range

/-- What a successful allocation hands out, and how it is entered. -/
theorem allocated {ledger : Core.ProducerState.Ledger} {tp : TopicPartition} {count : ℤ}
    {range : SequenceRange}
    (h : (perform (.allocate tp count) ledger.state).1 = .ok (some range)) :
    range = ⟨ledger.state.nextSequence tp, count⟩ ∧
      (perform (.allocate tp count) ledger.state).2.nextSequence tp =
        wrap 32 (ledger.state.nextSequence tp + count) ∧
      total ((ledger.step (.allocate tp count)).ranges tp) = total (ledger.ranges tp) + count := by
  have hentered : (ledger.step (.allocate tp count)).ranges =
      Function.update ledger.ranges tp (ledger.ranges tp ++ [range]) := by
    rw [ProducerState.Ledger.step, h]
    rfl
  rcases allocate_cases tp count ledger.state with ⟨-, hok⟩ | ⟨-, e, herr⟩
  · rw [perform, Act.bind_of_ok hok, Act.pure_apply] at h ⊢
    obtain rfl := Option.some.inj (Except.ok.inj h)
    refine ⟨rfl, ?_, ?_⟩
    · rw [nextSequence_insert, if_pos rfl]
    · rw [hentered, Function.update_self, total_concat]
  · rw [perform, Act.bind_of_error herr] at h
    cases h

/-- The sequence of a record of a batch. -/
theorem encoded_sequence {batch : Batch} {i : ℕ} {record : Record}
    (h : batch.encoded[i]? = some record) : i < batch.records.length ∧
      record.sequence = wrap 32 (batch.range.base + min (i : ℤ) i32Max) := by
  rw [Batch.encoded, List.getElem?_map, Option.map_eq_some_iff] at h
  obtain ⟨⟨r, j⟩, hr, rfl⟩ := h
  rw [List.getElem?_zipIdx, Option.map_eq_some_iff] at hr
  obtain ⟨r', hr', heq⟩ := hr
  cases heq
  refine ⟨(List.getElem?_eq_some_iff.mp hr').1, ?_⟩
  rw [Nat.zero_add]

/-- An allocation within the range of an `i32` is exact. -/
theorem exact_of_le {ledger : Core.ProducerState.Ledger} (h : ledger.Sound) {tp : TopicPartition}
    {count : ℤ} {range : SequenceRange} (hcount : 0 ≤ count)
    (hbound : total (ledger.ranges tp) + count ≤ i32Max)
    (hrange : (perform (.allocate tp count) ledger.state).1 = .ok (some range)) :
    Exact ledger tp count range := by
  have hnonneg := h.nonneg tp
  have hmax : i32Max = 2 ^ 31 - 1 := rfl
  obtain ⟨rfl, hnext, -⟩ := allocated hrange
  rw [h.next tp] at hnext ⊢
  have hfits : wrap 32 (total (ledger.ranges tp) + count) = total (ledger.ranges tp) + count :=
    wrap32_eq_self (by omega) hbound
  refine ⟨?_, hnext.trans hfits, hfits, ?_⟩
  · exact (Int.emod_eq_of_lt hnonneg (by omega)).symm
  · intro batch hbatch hlength i record hrecord
    obtain ⟨hi, hsequence⟩ := encoded_sequence hrecord
    have hmin : min (i : ℤ) i32Max = i := min_eq_left (by omega)
    rw [hsequence, hbatch, hmin]
    exact wrap32_eq_self (by simp only; omega) (by simp only; omega)

/-- An exact allocation is within the range of an `i32`. -/
theorem le_of_exact {ledger : Core.ProducerState.Ledger} (h : ledger.Sound) {tp : TopicPartition}
    {count : ℤ} {range : SequenceRange}
    (hrange : (perform (.allocate tp count) ledger.state).1 = .ok (some range))
    (hexact : Exact ledger tp count range) : total (ledger.ranges tp) + count ≤ i32Max := by
  obtain ⟨rfl, hnext, -⟩ := allocated hrange
  have hsum := hexact.next
  rw [hnext, h.next tp] at hsum
  have hfits := (fits_wrap (w := 32) (by decide) (total (ledger.ranges tp) + count)).2
  rw [hsum] at hfits
  exact Int.le_sub_one_of_lt hfits

/-- The totals stay within the range if those of the allocations do. -/
theorem total_step_le {ledger : Core.ProducerState.Ledger} {op : Op}
    (hbound : ∀ tp, total (ledger.ranges tp) ≤ i32Max)
    (hop : ∀ tp count range, op = .allocate tp count →
      (perform (.allocate tp count) ledger.state).1 = .ok (some range) →
        total (ledger.ranges tp) + count ≤ i32Max) (tp : TopicPartition) :
    total ((ledger.step op).ranges tp) ≤ i32Max := by
  rcases ledger.step_cases op with ⟨identity, -, -, -, hranges⟩ | ⟨tp', count, rfl, -, hranges⟩ |
    ⟨-, hranges⟩
  · rw [hranges]
    show total [] ≤ i32Max
    decide
  · rcases hresult : (perform (.allocate tp' count) ledger.state).1 with e | result
    · rw [ProducerState.Ledger.step, hresult]
      exact hbound tp
    rcases result with _ | range
    · rw [ProducerState.Ledger.step, hresult]
      exact hbound tp
    · by_cases heq : tp = tp'
      · subst heq
        rw [(allocated hresult).2.2]
        exact hop tp count range rfl hresult
      · rw [hranges, Function.update_of_ne heq]
        exact hbound tp
  · rw [hranges]
    exact hbound tp

/-- **Sequence numbers are exact as long as no partition has more than `i32::MAX`
records under one identity, and no longer.** -/
theorem exactly_iff (isTransactional : Bool) (ops : List Op)
    (hcount : ∀ tp n, Op.allocate tp n ∈ ops → 0 ≤ n) :
    Exactly isTransactional ops ↔ Bounded isTransactional ops := by
  constructor
  · intro hexact
    -- the first allocation beyond the range would not be exact
    suffices hall : ∀ pre, pre <+: ops → Bounded isTransactional pre from
      hall ops (List.prefix_refl ops)
    intro pre
    induction pre using List.reverseRecOn with
    | nil =>
        intro _ pre hpre tp
        rw [List.prefix_nil.mp hpre]
        show total [] ≤ i32Max
        decide
    | append_singleton pre op ih =>
        intro hpre
        have hpre' : pre <+: ops := (List.prefix_append pre [op]).trans hpre
        have hbound := ih hpre'
        have hsound : (Ledger.ofRun isTransactional pre).Sound :=
          Ledger.sound_ofRun (fun tp n hop => hcount tp n (hpre'.subset hop)) hbound
        intro pre' hpre'' tp
        rcases List.prefix_concat_iff.mp hpre'' with rfl | hpre''
        · rw [Ledger.ofRun, run_concat]
          exact total_step_le (hbound pre (List.prefix_refl pre)) (fun tp count range heq hrange =>
            le_of_exact hsound hrange (hexact pre tp count range (heq ▸ hpre) hrange)) tp
        · exact hbound pre' hpre'' tp
  · intro hbound pre tp count range hpre hrange
    have hpre' : pre <+: ops := (List.prefix_append pre _).trans hpre
    have hsound : (Ledger.ofRun isTransactional pre).Sound :=
      Ledger.sound_ofRun (fun tp n hop => hcount tp n (hpre'.subset hop))
        fun pre' hpre'' => hbound pre' (hpre''.trans hpre')
    refine exact_of_le hsound (hcount tp count (hpre.subset (by simp))) ?_ hrange
    have htotal := hbound _ hpre tp
    rw [Ledger.ofRun, run_concat] at htotal
    exact (allocated hrange).2.2 ▸ htotal

/-- An idempotent producer that sends as many records as an `i32` counts, then one more,
and then another. -/
def longRun : List Op :=
  [.onInitProducerId ⟨7, 0⟩, .allocate ⟨"t", 0⟩ i32Max, .allocate ⟨"t", 0⟩ 1, .allocate ⟨"t", 0⟩ 1]

/-- After `2 ^ 31` records the base is not zero but negative. -/
theorem sequence_turns_negative :
    (perform (.allocate ⟨"t", 0⟩ 1) (Ledger.ofRun false (longRun.take 3)).state).1 =
        .ok (some ⟨-2 ^ 31, 1⟩) ∧
      total ((Ledger.ofRun false (longRun.take 3)).ranges ⟨"t", 0⟩) % 2 ^ 31 = 0 ∧
      ¬Exactly false longRun := by
  have hnegative : (perform (.allocate ⟨"t", 0⟩ 1)
      (Ledger.ofRun false (longRun.take 3)).state).1 = .ok (some ⟨-2 ^ 31, 1⟩) := by
    decide
  have htotal : total ((Ledger.ofRun false (longRun.take 3)).ranges ⟨"t", 0⟩) % 2 ^ 31 = 0 := by
    decide
  refine ⟨hnegative, htotal, fun h => ?_⟩
  have hbase := (h (longRun.take 3) ⟨"t", 0⟩ 1 ⟨-2 ^ 31, 1⟩ (List.prefix_refl longRun) hnegative).base
  rw [htotal] at hbase
  exact absurd hbase (by decide)

/-- Up to there every number is right. -/
theorem exactly_iff_longRun :
    Exactly false (longRun.take 2) ∧
      (Ledger.ofRun false (longRun.take 2)).state.nextSequence ⟨"t", 0⟩ = i32Max :=
  ⟨(exactly_iff false (longRun.take 2) (by intro tp n h; simp [longRun, i32Max] at h; omega)).mpr
    (bounded_of_sum_le (by decide) (by decide)), by decide⟩

end Barnabas.Client
