import Barnabas.Core.Reading

/-!
Whether a record is read from within its own length.

`decode_lean` (`barnabas-core/src/records.rs`) checks that the declared length of a record
ends in the body, goes on behind it for the next one, and reads the fields by their own
lengths. Nothing compares the two: the fields of a record that declares too little are
taken from the one behind it.
-/

namespace Barnabas.Core

open Barnabas.Lib

namespace Fields

/-- From where to where each part of the record was read: the attributes, the two deltas,
then the lengths and contents of the key and of the value, and the number of headers. -/
def spans (f : Fields) : List (ℕ × ℕ) :=
  [(f.start, f.start + 1), (f.start + 1, f.timestampEnd), (f.timestampEnd, f.offsetEnd),
    (f.offsetEnd, f.keyAt), (f.keyAt, f.keyEnd), (f.keyEnd, f.valueAt), (f.valueAt, f.valueEnd),
    (f.valueEnd, f.headersAt)]

/-- The positions are of the record, by its declared length. -/
def Within (f : Fields) (span : ℕ × ℕ) : Prop :=
  f.start ≤ span.1 ∧ (span.2 : ℤ) ≤ f.start + f.length

/-- The record was read from its own bytes, and the ranges that are kept of it are among
them. -/
structure Contained (f : Fields) : Prop where
  spans : ∀ span ∈ f.spans, f.Within span
  key : 0 ≤ f.keyLen → f.Within (f.key.1, f.key.1 + f.key.2)
  value : 0 ≤ f.valueLen → f.Within (f.value.1, f.value.1 + f.value.2)

/-- How many bytes the fields take, for the widths of their lengths. -/
def needed (f : Fields) : ℕ :=
  1 + (f.timestampEnd - (f.start + 1)) + (f.offsetEnd - f.timestampEnd) +
    (f.keyAt - f.offsetEnd) + (max f.keyLen 0).toNat + (f.valueAt - f.keyEnd) +
    (max f.valueLen 0).toNat + (f.headersAt - f.valueEnd)

/-- The declared length is enough for the fields. -/
def Roomy (f : Fields) : Prop := (f.needed : ℤ) ≤ f.length

instance (f : Fields) : Decidable f.Roomy := inferInstanceAs (Decidable (_ ≤ _))

/-- A position that is cut to 32 bits does not fall in front of the record. -/
def Addressable (f : Fields) : Prop :=
  (0 ≤ f.keyLen → f.start ≤ f.keyAt % 2 ^ 32) ∧ (0 ≤ f.valueLen → f.start ≤ f.valueAt % 2 ^ 32)

variable {f : Fields} {body : Bytes} {pos : ℕ}

theorem takeField_of_nonneg {len : ℤ} (hlen : 0 ≤ len) (at' : ℕ) :
    (takeField len at').1 = (at' % 2 ^ 32, len.toNat % 2 ^ 32) := by
  rw [takeField, if_pos hlen]

namespace Read

theorem start_add_needed (h : f.Read body pos) : f.start + f.needed = f.headersAt := by
  have htimestamp := h.timestampEnd
  have hoffset := h.offsetEnd
  have hkey := h.keyAt
  have hvalue := h.valueAt
  have hheaders := h.headersAt
  simp only [needed, keyEnd, valueEnd] at hvalue hheaders ⊢
  omega

/-- A record is read from its own bytes if and only if its length is enough for them, and
the positions that are kept have not lost their high bits to one in front of it. -/
theorem contained_iff (h : f.Read body pos) : f.Contained ↔ f.Roomy ∧ f.Addressable := by
  have hneeded := h.start_add_needed
  have htimestamp := h.timestampEnd
  have hoffset := h.offsetEnd
  have hkey := h.keyAt
  have hvalue := h.valueAt
  have hheaders := h.headersAt
  simp only [keyEnd, valueEnd] at hvalue hheaders
  constructor
  · intro hcontained
    have hlast := (hcontained.spans (f.valueEnd, f.headersAt) (by simp [spans])).2
    refine ⟨?_, fun hlen => ?_, fun hlen => ?_⟩
    · rw [Roomy]
      dsimp only at hlast
      omega
    · have hstart := (hcontained.key hlen).1
      rw [key, takeField_of_nonneg hlen] at hstart
      exact hstart
    · have hstart := (hcontained.value hlen).1
      rw [value, takeField_of_nonneg hlen] at hstart
      exact hstart
  · rintro ⟨hroomy, hkeyAt, hvalueAt⟩
    rw [Roomy] at hroomy
    constructor
    · simp only [spans, Within, List.forall_mem_cons, keyEnd, valueEnd]
      refine ⟨?_, ?_, ?_, ?_, ?_, ?_, ?_, ?_, by simp⟩ <;> omega
    · intro hlen
      have hmod := Nat.mod_le f.keyAt (2 ^ 32)
      have hsize := Nat.mod_le f.keyLen.toNat (2 ^ 32)
      rw [key, takeField_of_nonneg hlen]
      refine ⟨hkeyAt hlen, ?_⟩
      dsimp only
      omega
    · intro hlen
      have hmod := Nat.mod_le f.valueAt (2 ^ 32)
      have hsize := Nat.mod_le f.valueLen.toNat (2 ^ 32)
      rw [value, takeField_of_nonneg hlen]
      refine ⟨hvalueAt hlen, ?_⟩
      dsimp only
      omega

/-- In a body of less than 4 GiB no position loses a bit. -/
theorem addressable (h : f.Read body pos) (hbody : body.length < 2 ^ 32) : f.Addressable := by
  have htimestamp := h.timestampEnd
  have hoffset := h.offsetEnd
  have hkey := h.keyAt
  have hvalue := h.valueAt
  have hheaders := h.headersAt
  have hend := h.inBody
  simp only [keyEnd, valueEnd] at hvalue hheaders
  refine ⟨fun _ => ?_, fun _ => ?_⟩
  · rw [Nat.mod_eq_of_lt (by omega)]
    omega
  · rw [Nat.mod_eq_of_lt (by omega)]
    omega

end Read

end Fields

section Buffer

variable (codecs : Codecs) (buffer : Bytes)

/-- The records of a buffer that is decoded are those that were taken, each from its own
bytes; and if one declares too little for its fields, the buffer is refused. -/
structure SelfContained : Prop where
  inside : ∀ batches, decodeLean codecs buffer = .ok (some batches) →
    (taken codecs buffer).map (fun p => (p.1.body, p.2.record p.1.baseOffset p.1.baseTimestamp)) =
        batches.flatMap (fun batch => batch.records.map fun r => (batch.buffer, r)) ∧
      ∀ p ∈ taken codecs buffer, p.2.Contained
  refuses : (∃ p ∈ taken codecs buffer, ¬p.2.Roomy) →
    ∃ what, decodeLean codecs buffer = .error (.codec what)

/-- The records of a buffer stay inside their own lengths if and only if each declares
enough, or the buffer is refused for something else. -/
theorem selfContained_iff :
    SelfContained codecs buffer ↔ Refused codecs (cut buffer).1 ∨
      (∀ p ∈ taken codecs buffer, p.2.Roomy) ∧
        ((∀ raw ∈ (cut buffer).1, raw[Field.magic]? = some 2) →
          ∀ p ∈ taken codecs buffer, p.2.Addressable) := by
  constructor
  · intro h
    by_cases hrefused : Refused codecs (cut buffer).1
    · exact .inl hrefused
    · have hnot : ∀ e, decodeLean codecs buffer ≠ .error e := by
        intro e he
        rw [decodeLean_eq_decodeAll] at he
        exact hrefused (decodeAll_error_iff.mp ⟨e, he⟩)
      have hroomy : ∀ p ∈ taken codecs buffer, p.2.Roomy := by
        intro p hp
        by_contra hshort
        obtain ⟨what, hwhat⟩ := h.refuses ⟨p, hp, hshort⟩
        exact hnot _ hwhat
      refine .inr ⟨hroomy, fun hmagic p hp => ?_⟩
      cases hdecode : decodeLean codecs buffer with
      | error e => exact absurd hdecode (hnot e)
      | ok result =>
          cases result with
          | none =>
              rw [decodeLean_eq_decodeAll] at hdecode
              obtain ⟨raw, hraw, hnone⟩ := exists_of_decodeAll_none hdecode
              exact absurd ((magic_of_decodeBatch hnone).mp (hmagic raw hraw)) (by simp)
          | some batches =>
              obtain ⟨pos, hread⟩ := read_of_mem_taken hp
              exact (hread.contained_iff.mp ((h.inside batches hdecode).2 p hp)).2
  · rintro (hrefused | ⟨hroomy, haddressable⟩)
    · obtain ⟨e, he⟩ := decodeAll_error_iff.mpr hrefused
      rw [← decodeLean_eq_decodeAll] at he
      obtain ⟨what, rfl⟩ := OnlyCodec.decoded codecs buffer e he
      constructor
      · intro batches hdecode
        rw [he] at hdecode
        cases hdecode
      · exact fun _ => ⟨what, he⟩
    · constructor
      · intro batches hdecode
        have hmagic : ∀ raw ∈ (cut buffer).1, raw[Field.magic]? = some 2 := by
          intro raw hraw
          obtain ⟨batch, -, hbatch⟩ := exists_right_of_mem (decodeLean_eq_some_iff.mp hdecode) hraw
          exact (magic_of_decodeBatch hbatch).mpr rfl
        refine ⟨taken_eq hdecode, fun p hp => ?_⟩
        obtain ⟨pos, hread⟩ := read_of_mem_taken hp
        exact hread.contained_iff.mpr ⟨hroomy p hp, haddressable hmagic p hp⟩
      · rintro ⟨p, hp, hshort⟩
        exact absurd (hroomy p hp) hshort

end Buffer

/-- One record that declares no bytes at all, and the bytes behind it. -/
def overlapping : Bytes := rawBatch plainCodecs 0 0 1 [0, 0, 0, 0, 2, 97, 1, 0]

/-- Its key is taken from behind its end. -/
theorem overlapping_not_selfContained :
    ∃ batch, decodeLean plainCodecs overlapping = .ok (some [batch]) ∧
      batch.records.map batch.key = [some [97]] ∧ ¬SelfContained plainCodecs overlapping := by
  have hdecode : decodeLean plainCodecs overlapping = .ok (some
      [⟨[0, 0, 0, 0, 2, 97, 1, 0], 0, -1, false, false,
        [⟨0, 0, (5, 1), (u32Max, 0), (8, 0), 0⟩]⟩]) := by decide +kernel
  refine ⟨_, hdecode, by decide, fun h => ?_⟩
  obtain ⟨what, hwhat⟩ := h.refuses ⟨(⟨[0, 0, 0, 0, 2, 97, 1, 0], 0, 0, -1, 0, 1⟩,
    ⟨0, 1, 0, 3, 0, 4, 1, 5, -1, 7, 0, 8⟩), by decide +kernel, by decide⟩
  rw [hdecode] at hwhat
  cases hwhat

end Barnabas.Core
