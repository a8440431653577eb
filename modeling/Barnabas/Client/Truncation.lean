import Barnabas.Client.ConsumerRules
import Barnabas.Core.Framing

/-!
The end of a record set, as the two decoders take it.

A broker cuts a response off at a limit, and the beginning of a batch at the end of the
data is no fault. `decode_records` (`barnabas-client/src/consumer.rs`) tells it apart from
a length that is none; `decode_lean` (`barnabas-core/src/records.rs`) stops at either, as
if there were nothing more.
-/

namespace Barnabas.Client

open Barnabas.Lib Barnabas.Core

namespace Consumer

variable (D : Decoders)

/-- The bytes are of a set of magic 2, as far as they go. -/
def MagicTwo (bytes : Bytes) : Prop := ∀ b, bytes[Field.magic]? = some b → b = 2

/-- The full decoder refuses a set of magic 2 that is there and holds no whole header. -/
def Strict : Prop :=
  ∀ bytes length, MagicTwo bytes → i32At bytes Field.length = some length → 0 ≤ length →
    12 + length.toNat ≤ bytes.length → 12 + length.toNat < 61 →
      ∃ e, D.recordBatchDecoder bytes = .error e

/-- Both decoders accept each of the batches, and the full one takes its bytes. -/
def Accepted (raws : List Bytes) : Prop :=
  ∀ raw ∈ raws, (∃ batch, decodeBatch D.toCodecs raw = .ok (some batch)) ∧
    ∀ tail, ∃ records, D.recordBatchDecoder (raw ++ tail) = .ok (records, tail)

/-- What the lean reader does not refuse is batches and the beginning of one more; and if
the batches are in order and of magic 2, then it refuses the end of the data exactly if the
full decoder does. -/
def Faithful (buffer : Bytes) : Prop :=
  ((∃ result, decodeLean D.toCodecs buffer = .ok result) → WellFramed buffer) ∧
    (Accepted D (cut buffer).1 → MagicTwo (cut buffer).2 →
      ((∃ batches, decodeLean D.toCodecs buffer = .ok (some batches)) ↔
        ∃ records, decodeRecords D buffer.length buffer = .ok records))

section Full

variable {D}

/-- The full decoder goes through batches that are in order to what is behind them. -/
theorem decodeRecords_flatten {raws : List Bytes} (hframed : ∀ raw ∈ raws, Framed raw)
    (haccepted : Accepted D raws) (rest : Bytes) {fuel : ℕ}
    (hfuel : raws.flatten.length + rest.length ≤ fuel) :
    ∃ left, rest.length ≤ left ∧
      ((∃ records, decodeRecords D fuel (raws.flatten ++ rest) = .ok records) ↔
        ∃ records, decodeRecords D left rest = .ok records) := by
  induction raws generalizing fuel with
  | nil =>
      rw [List.flatten_nil, List.nil_append]
      exact ⟨fuel, by simpa using hfuel, Iff.rfl⟩
  | cons raw raws ih =>
      obtain ⟨hraw, hframed⟩ := List.forall_mem_cons.mp hframed
      obtain ⟨⟨-, htake⟩, haccepted⟩ := List.forall_mem_cons.mp haccepted
      obtain ⟨length, hlength, hpos, heq, hheader⟩ := hraw.length_field
      rw [List.flatten_cons, List.length_append] at hfuel
      obtain ⟨fuel, rfl⟩ : ∃ n, fuel = n + 1 := Nat.exists_eq_succ_of_ne_zero (by omega)
      obtain ⟨left, hleft, hiff⟩ := @ih hframed haccepted fuel (by omega)
      obtain ⟨records, hrecords⟩ := htake (raws.flatten ++ rest)
      have hfield : i32At (raw ++ (raws.flatten ++ rest)) 8 = some length := by
        rw [i32At, intAt_append (by omega)]
        exact hlength
      refine ⟨left, hleft, ?_⟩
      rw [← hiff, List.flatten_cons, List.append_assoc, decodeRecords, hfield]
      dsimp only
      rw [if_neg (by omega), if_neg (by rw [List.length_append]; omega), hrecords]
      dsimp only
      cases decodeRecords D fuel (raws.flatten ++ rest) with
      | error e =>
          apply iff_of_false
          · rintro ⟨all, hall⟩
            cases hall
          · rintro ⟨all, hall⟩
            cases hall
      | ok more => exact iff_of_true ⟨_, rfl⟩ ⟨_, rfl⟩

/-- Behind the batches it stops at the beginning of one more, and fails at anything else. -/
theorem decodeRecords_end_iff (hstrict : Strict D) {rest : Bytes} (hnext : nextBatch rest = none)
    (hmagic : MagicTwo rest) {fuel : ℕ} (hfuel : rest.length ≤ fuel) :
    (∃ records, decodeRecords D fuel rest = .ok records) ↔ CutShort rest := by
  constructor
  · rintro ⟨records, hrecords⟩
    by_contra hnot
    obtain ⟨length, hlength, hbad⟩ := (not_cutShort_iff hnext).mp hnot
    have hlong : 12 ≤ rest.length := not_lt.mp fun h => hnot (.inl h)
    obtain ⟨fuel, rfl⟩ : ∃ n, fuel = n + 1 := Nat.exists_eq_succ_of_ne_zero (by omega)
    rw [decodeRecords, show i32At rest 8 = some length from hlength] at hrecords
    dsimp only at hrecords
    by_cases hneg : length < 0
    · rw [if_pos hneg] at hrecords
      cases hrecords
    · rw [if_neg hneg, if_neg (by omega)] at hrecords
      obtain ⟨e, he⟩ := hstrict rest length hmagic hlength (by omega) (by omega) (by omega)
      rw [he] at hrecords
      cases hrecords
  · intro hshort
    refine ⟨[], ?_⟩
    cases fuel with
    | zero => rfl
    | succ fuel =>
        rw [decodeRecords]
        cases hlength : i32At rest 8 with
        | none => rfl
        | some length =>
            dsimp only
            rcases hshort with hshort | ⟨length', hlength', hpos, hlt⟩
            · have hnone : i32At rest 8 = none := by
                rw [i32At, intAt, getRange, if_neg (by omega)]
                rfl
              rw [hnone] at hlength
              cases hlength
            · obtain rfl : length = length' := Option.some.inj (hlength.symm.trans hlength')
              rw [if_neg (by omega), if_pos (by omega)]

end Full

/-- The lean reader tells the end of the data from a fault if and only if the bytes behind
the batches are the beginning of one more, or it does not come that far. -/
theorem truncation_told_apart_iff (hstrict : Strict D) (buffer : Bytes) :
    Faithful D buffer ↔ CutShort (cut buffer).2 ∨ Refused D.toCodecs (cut buffer).1 := by
  obtain ⟨hsplit, hframed, hnext⟩ := cut_spec buffer
  constructor
  · intro h
    by_cases hrefused : Refused D.toCodecs (cut buffer).1
    · exact .inr hrefused
    · refine .inl (wellFramed_iff.mp (h.1 ?_))
      rw [decodeLean_eq_decodeAll]
      cases hall : decodeAll D.toCodecs (cut buffer).1 with
      | error e => exact absurd (decodeAll_error_iff.mp ⟨e, hall⟩) hrefused
      | ok result => exact ⟨result, rfl⟩
  · intro h
    rcases h with hshort | hrefused
    · refine ⟨fun _ => wellFramed_iff.mpr hshort, fun haccepted hmagic => iff_of_true ?_ ?_⟩
      · simp only [decodeLean_eq_decodeAll]
        exact exists_decodeAll fun raw hraw => (haccepted raw hraw).1
      · obtain ⟨left, hleft, hiff⟩ := decodeRecords_flatten hframed haccepted (cut buffer).2
          (le_of_eq (List.length_append.symm.trans (congrArg List.length hsplit.symm)))
        rw [← hsplit] at hiff
        exact hiff.mpr ((decodeRecords_end_iff hstrict hnext hmagic hleft).mpr hshort)
    · have hfails := decodeAll_error_iff.mpr hrefused
      rw [← decodeLean_eq_decodeAll] at hfails
      obtain ⟨e, he⟩ := hfails
      constructor
      · rintro ⟨result, hresult⟩
        rw [he] at hresult
        cases hresult
      · obtain ⟨before, raw, after, heq, -, e', he'⟩ := hrefused
        intro haccepted
        obtain ⟨⟨batch, hbatch⟩, -⟩ := haccepted raw (by rw [heq]; simp)
        rw [he'] at hbatch
        cases hbatch

/-! ### Two ends of one batch -/

/-- The record of the full decoder for one of the lean reader's. -/
def fullRecord (raw : Bytes) (batch : LeanBatch) (r : LeanRecord) : Record where
  transactional := batch.transactional
  control := batch.control
  partitionLeaderEpoch := (i32At raw 12).getD 0
  producerId := batch.producerId
  producerEpoch := (i16At raw 51).getD 0
  timestampType := .creation
  offset := r.offset
  sequence := (i32At raw 53).getD 0 + (r.offset - batch.baseOffset)
  timestamp := r.timestamp
  key := batch.key r
  value := batch.value r
  headers := (batch.headers r).toOption.getD []

/-- The decoders for uncompressed sets of magic 2. -/
def wholeDecoders : Decoders where
  toCodecs := plainCodecs
  recordBatchDecoder bytes :=
    match nextBatch bytes with
    | none => .error "not a whole record batch"
    | some (raw, rest) =>
        match decodeBatch plainCodecs raw with
        | .ok (some batch) => .ok (batch.records.map (fullRecord raw batch), rest)
        | _ => .error "not a record batch of magic 2"

theorem strict_wholeDecoders : Strict wholeDecoders := by
  intro bytes length _ hlength _ _ hshort
  have hnone : nextBatch bytes = none := by
    rw [Option.eq_none_iff_forall_ne_some]
    rintro ⟨raw, rest⟩ hsome
    obtain ⟨length', hlength', -, -, hheader, -, -⟩ := nextBatch_eq_some_iff.mp hsome
    obtain rfl : length = length' := Option.some.inj (hlength.symm.trans hlength')
    omega
  refine ⟨"not a whole record batch", ?_⟩
  simp only [wholeDecoders, hnone]

/-- A batch and five bytes of the next, which are the beginning of one. -/
theorem truncation_told_apart_iff_fragment :
    Faithful wholeDecoders (sampleRaw[2] ++ [0, 0, 0, 0, 0]) ∧
      WellFramed (sampleRaw[2] ++ [0, 0, 0, 0, 0]) := by
  have h := (truncation_told_apart_iff wholeDecoders strict_wholeDecoders
    (sampleRaw[2] ++ [0, 0, 0, 0, 0])).mpr (.inl (.inl (by decide)))
  exact ⟨h, h.1 ⟨some [plainData.batch], by decide +kernel⟩⟩

/-- No batch, but a length of `-1`. -/
def negativeLength : Bytes := List.replicate 8 0 ++ [255, 255, 255, 255] ++ List.replicate 32 0

/-- The full decoder calls it an error, the lean reader the end of the data. -/
theorem negative_length_ends_early :
    decodeLean wholeDecoders.toCodecs negativeLength = .ok (some []) ∧
      decodeRecords wholeDecoders negativeLength.length negativeLength =
        .error (.core (.codec "record batch declares a negative length: -1")) ∧
      ¬Faithful wholeDecoders negativeLength := by
  have hlean : decodeLean wholeDecoders.toCodecs negativeLength = .ok (some []) := by
    decide
  refine ⟨hlean, by decide, fun h => ?_⟩
  have hnext : nextBatch (cut negativeLength).2 = none := (cut_spec negativeLength).2.2
  have hbad := (not_cutShort_iff hnext).mpr ⟨-1, by decide, .inl (by decide)⟩
  exact hbad (wellFramed_iff.mp (h.1 ⟨_, hlean⟩))

end Consumer

end Barnabas.Client
