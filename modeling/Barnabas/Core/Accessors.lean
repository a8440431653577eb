import Barnabas.Core.Reading

/-!
The accessors of a record (`barnabas-core/src/records.rs`), and where they panic.

`Bytes::slice` panics on a range that leaves its buffer. The ranges of keys and values
were read past when the batch was decoded, so they are in it. The lengths of headers are
only read by `headers` itself: a key is followed by the length of its value, which is read
from the block and so bounds it, but nothing follows the value.
-/

namespace Barnabas.Core

open Barnabas.Lib

namespace LeanBatch

/-! ### Accessors that may panic -/

/-- `slice` with its panic, which is `none`. -/
def sliceRun (batch : LeanBatch) (range : ℕ × ℕ) : Option (Option Bytes) :=
  if range.1 = u32Max then some none
  else (getRange batch.buffer range.1 (range.1 + range.2)).map some

/-- `control_type` with the panic of its slice; the four bytes it indexes are checked. -/
def controlTypeRun (batch : LeanBatch) (record : LeanRecord) : Option (Option ℤ) :=
  (batch.sliceRun record.key).map fun key =>
    key.bind fun key => if key.length < 4 then none else i16At key 2

/-- Where the key and the value of a header are in the batch's buffer. -/
structure HeaderSpans where
  key : ℕ × ℕ
  value : Option (ℕ × ℕ)
  deriving DecidableEq, Repr

/-- The bytes of a header. -/
def header (batch : LeanBatch) (spans : HeaderSpans) : Bytes × Option Bytes :=
  ((batch.buffer.drop spans.key.1).take (spans.key.2 - spans.key.1),
    spans.value.map fun span => (batch.buffer.drop span.1).take (span.2 - span.1))

/-- The loop of `headers`, with the panics of its slices. The value is sliced first. -/
def headersRunLoop (batch : LeanBatch) (at' : ℕ) (block : Bytes) :
    ℕ → ℕ → Option (Except Error (List HeaderSpans))
  | 0, _ => some (.ok [])
  | count + 1, pos =>
      match varint block pos with
      | none => some (.error (.codec "header key length"))
      | some (keyLen, pos) =>
          let keyEnd := pos + (max keyLen 0).toNat
          match varint block keyEnd with
          | none => some (.error (.codec "header value length"))
          | some (valueLen, valueAt) =>
              let valueEnd := valueAt + (max valueLen 0).toNat
              if 0 ≤ valueLen ∧ batch.buffer.length < at' + valueEnd then none
              else if batch.buffer.length < at' + keyEnd then none
              else
                let first : HeaderSpans :=
                  ⟨(at' + pos, at' + keyEnd),
                    if 0 ≤ valueLen then some (at' + valueAt, at' + valueEnd) else none⟩
                (headersRunLoop batch at' block count valueEnd).map (Except.map (first :: ·))

/-- `headers` with its panics. -/
def headersRun (batch : LeanBatch) (record : LeanRecord) :
    Option (Except Error (List HeaderSpans)) :=
  if record.headerCount = 0 then some (.ok [])
  else
    match getRange batch.buffer record.headers.1 (record.headers.1 + record.headers.2) with
    | none => some (.error (.codec "header block"))
    | some block => batch.headersRunLoop record.headers.1 block record.headerCount 0

variable {batch : LeanBatch} {record : LeanRecord}

/-- A slice that does not panic is the slice. -/
theorem slice_of_sliceRun {range : ℕ × ℕ} {bytes : Option Bytes}
    (h : batch.sliceRun range = some bytes) : batch.slice range = bytes := by
  rw [sliceRun] at h
  rw [slice]
  split at h
  · next habsent =>
      rw [if_pos habsent]
      exact Option.some.inj h
  · next hpresent =>
      rw [if_neg hpresent]
      rw [getRange, Nat.add_sub_cancel_left] at h
      split at h
      · exact Option.some.inj h
      · cases h

theorem sliceRun_isSome {range : ℕ × ℕ} (h : range.1 + range.2 ≤ batch.buffer.length) :
    (batch.sliceRun range).isSome := by
  rw [sliceRun]
  split
  · rfl
  · rw [getRange, if_pos ⟨by omega, h⟩]
    rfl

theorem varintOr_of_none {what : String} {buf : Bytes} {pos : ℕ} (h : varint buf pos = none) :
    varintOr what buf pos = .error (.codec what) := by
  rw [varintOr, h]

theorem varintOr_of_some {what : String} {buf : Bytes} {pos : ℕ} {r : ℤ × ℕ}
    (h : varint buf pos = some r) : varintOr what buf pos = .ok r := by
  rw [varintOr, h]

theorem headersLoop_of_run {at' : ℕ} {block : Bytes} {count pos : ℕ}
    {result : Except Error (List HeaderSpans)}
    (h : batch.headersRunLoop at' block count pos = some result) :
    batch.headersLoop at' block count pos = result.map (List.map batch.header) := by
  induction count generalizing pos result with
  | zero =>
      cases h
      rfl
  | succ count ih =>
      rw [headersRunLoop] at h
      rw [headersLoop]
      cases hkey : varint block pos with
      | none =>
          rw [hkey] at h
          cases h
          rw [varintOr_of_none hkey]
          rfl
      | some r =>
          obtain ⟨keyLen, keyAt⟩ := r
          rw [hkey] at h
          dsimp only at h
          rw [varintOr_of_some hkey, ok_bind]
          dsimp only
          cases hvalue : varint block (keyAt + (max keyLen 0).toNat) with
          | none =>
              rw [hvalue] at h
              cases h
              rw [varintOr_of_none hvalue]
              rfl
          | some r =>
              obtain ⟨valueLen, valueAt⟩ := r
              rw [hvalue] at h
              dsimp only at h
              rw [varintOr_of_some hvalue, ok_bind]
              dsimp only
              split at h
              · cases h
              · split at h
                · cases h
                · obtain ⟨rest, hrest, rfl⟩ := Option.map_eq_some_iff.mp h
                  have hend : (if 0 ≤ valueLen then valueAt + valueLen.toNat else valueAt) =
                      valueAt + (max valueLen 0).toNat := by
                    split <;> omega
                  rw [hend, ih hrest]
                  cases rest with
                  | error e => rfl
                  | ok rest =>
                      simp only [Except.map, ok_bind, List.map_cons, header, pure, Except.pure]
                      by_cases hnull : 0 ≤ valueLen
                      · have hmax : max valueLen 0 = valueLen := by omega
                        simp only [if_pos hnull, hmax, Option.map_some, ← add_assoc,
                          Nat.add_sub_cancel_left]
                      · simp only [if_neg hnull, Option.map_none, ← add_assoc,
                          Nat.add_sub_cancel_left]

/-- Headers that are parsed without a panic are the headers. -/
theorem headers_of_run {result : Except Error (List HeaderSpans)}
    (h : batch.headersRun record = some result) :
    batch.headers record = result.map (List.map batch.header) := by
  rw [headersRun] at h
  rw [headers]
  split at h
  · next hnone =>
      cases h
      rw [if_pos hnone]
      rfl
  · next hsome =>
      rw [if_neg hsome]
      cases hblock : getRange batch.buffer record.headers.1
          (record.headers.1 + record.headers.2) with
      | none =>
          rw [hblock] at h
          cases h
          rfl
      | some block =>
          rw [hblock] at h
          exact headersLoop_of_run h

/-! ### What the accessors should do -/

/-- The positions lie between the two bounds. -/
def HeaderSpans.Between (low high : ℕ) (spans : HeaderSpans) : Prop :=
  (low ≤ spans.key.1 ∧ spans.key.2 ≤ high) ∧
    ∀ span ∈ spans.value, low ≤ span.1 ∧ span.2 ≤ high

/-- Headers between the two bounds, or an error of the codec; and no panic. -/
def Parsed (low high : ℕ) : Option (Except Error (List HeaderSpans)) → Prop
  | none => False
  | some (.error e) => ∃ what, e = .codec what
  | some (.ok all) => ∀ spans ∈ all, spans.Between low high

/-- None of the accessors panics, and the headers are slices of the header block or an
error. -/
structure Total (batch : LeanBatch) (record : LeanRecord) : Prop where
  key : (batch.sliceRun record.key).isSome
  value : (batch.sliceRun record.value).isSome
  controlType : (batch.controlTypeRun record).isSome
  headers : Parsed record.headers.1 (record.headers.1 + record.headers.2) (batch.headersRun record)

/-! ### The lengths in a header block -/

/-- The headers of which both lengths can be read: how many more are announced, and where
in the block they end. -/
def headerEnds (block : Bytes) : ℕ → ℕ → List (ℕ × ℕ)
  | 0, _ => []
  | count + 1, pos =>
      match varint block pos with
      | none => []
      | some (keyLen, pos) =>
          match varint block (pos + (max keyLen 0).toNat) with
          | none => []
          | some (valueLen, pos) =>
              (count, pos + (max valueLen 0).toNat) ::
                headerEnds block count (pos + (max valueLen 0).toNat)

/-- Every header ends in the buffer, and the last that is announced in the block. -/
def Enclosed (batch : LeanBatch) (record : LeanRecord) : Prop :=
  ∀ block, getRange batch.buffer record.headers.1 (record.headers.1 + record.headers.2) = some block →
    ∀ ending ∈ headerEnds block record.headerCount 0,
      record.headers.1 + ending.2 ≤ batch.buffer.length ∧
        (ending.1 = 0 → ending.2 ≤ record.headers.2)

/-- A header that is parsed begins in the block. -/
theorem lt_of_headersRunLoop {at' : ℕ} {block : Bytes} {count pos : ℕ} {all : List HeaderSpans}
    (h : batch.headersRunLoop at' block (count + 1) pos = some (.ok all)) : pos < block.length := by
  rw [headersRunLoop] at h
  cases hkey : varint block pos with
  | none =>
      rw [hkey] at h
      cases h
  | some r =>
      obtain ⟨hlt, hle, -⟩ := varintLoop_bounds hkey
      omega

/-- One more header in front of those that were parsed. -/
theorem parsed_map_cons_iff {low high : ℕ} (first : HeaderSpans)
    {result : Option (Except Error (List HeaderSpans))} :
    Parsed low high (result.map (Except.map (first :: ·))) ↔
      Parsed low high result ∧ ((∃ all, result = some (.ok all)) → first.Between low high) := by
  cases result with
  | none => exact iff_of_false id fun h => h.1
  | some result =>
      cases result with
      | error e =>
          constructor
          · refine fun h => ⟨h, ?_⟩
            rintro ⟨all, hall⟩
            cases hall
          · exact fun h => h.1
      | ok all =>
          constructor
          · intro h
            obtain ⟨hfirst, hrest⟩ := List.forall_mem_cons.mp h
            exact ⟨hrest, fun _ => hfirst⟩
          · rintro ⟨hrest, hfirst⟩
            exact List.forall_mem_cons.mpr ⟨hfirst ⟨all, rfl⟩, hrest⟩

/-- The loop panics or leaves the block exactly where a header does. -/
theorem headersRunLoop_iff {at' : ℕ} {block : Bytes}
    (hblock : at' + block.length ≤ batch.buffer.length) (count pos : ℕ) :
    Parsed at' (at' + block.length) (batch.headersRunLoop at' block count pos) ↔
      ∀ ending ∈ headerEnds block count pos,
        at' + ending.2 ≤ batch.buffer.length ∧ (ending.1 = 0 → ending.2 ≤ block.length) := by
  induction count generalizing pos with
  | zero =>
      apply iff_of_true
      · simp [headersRunLoop, Parsed]
      · simp [headerEnds]
  | succ count ih =>
      rw [headersRunLoop, headerEnds]
      cases hkey : varint block pos with
      | none => exact iff_of_true ⟨_, rfl⟩ (by simp)
      | some r =>
          obtain ⟨keyLen, keyAt⟩ := r
          dsimp only
          cases hvalue : varint block (keyAt + (max keyLen 0).toNat) with
          | none => exact iff_of_true ⟨_, rfl⟩ (by simp)
          | some r =>
              obtain ⟨valueLen, valueAt⟩ := r
              obtain ⟨hkeyIn, hvalueIn, -⟩ := varintLoop_bounds hvalue
              dsimp only
              rw [List.forall_mem_cons, ← ih]
              generalize hend : valueAt + (max valueLen 0).toNat = valueEnd
              by_cases hpanic : 0 ≤ valueLen ∧ batch.buffer.length < at' + valueEnd
              · rw [if_pos hpanic]
                refine iff_of_false id fun h => ?_
                have hle := h.1.1
                omega
              · have hle : at' + valueEnd ≤ batch.buffer.length := by omega
                rw [if_neg hpanic, if_neg (by omega), parsed_map_cons_iff, and_comm]
                -- Whether this header is in the block is told by the next, if there is one.
                refine and_congr_left fun hrest => ?_
                constructor
                · refine fun h => ⟨hle, fun hlast => ?_⟩
                  obtain ⟨-, hspan⟩ := h ⟨[], by rw [show count = 0 from hlast]; rfl⟩
                  by_cases hnull : 0 ≤ valueLen
                  · have hvalueEnd := (hspan _ (if_pos hnull)).2
                    dsimp only at hvalueEnd
                    omega
                  · omega
                · rintro ⟨-, hlast⟩ ⟨all, hall⟩
                  have hinside : valueEnd ≤ block.length := by
                    cases count with
                    | zero => exact hlast rfl
                    | succ count => exact (lt_of_headersRunLoop hall).le
                  refine ⟨⟨by dsimp only; omega, by dsimp only; omega⟩, fun span hspan => ?_⟩
                  dsimp only at hspan
                  split at hspan
                  · cases hspan
                    exact ⟨by dsimp only; omega, by dsimp only; omega⟩
                  · cases hspan

theorem headersRun_iff :
    Parsed record.headers.1 (record.headers.1 + record.headers.2) (batch.headersRun record) ↔
      batch.Enclosed record := by
  rw [headersRun, Enclosed]
  by_cases hnone : record.headerCount = 0
  · rw [if_pos hnone, hnone]
    exact iff_of_true (by simp [Parsed]) (by simp [headerEnds])
  · rw [if_neg hnone]
    cases hblock : getRange batch.buffer record.headers.1
        (record.headers.1 + record.headers.2) with
    | none => exact iff_of_true ⟨_, rfl⟩ fun block h => by cases h
    | some block =>
        rw [getRange, Nat.add_sub_cancel_left] at hblock
        split at hblock
        · next hin =>
            obtain rfl := Option.some.inj hblock
            have hlength : ((batch.buffer.drop record.headers.1).take record.headers.2).length =
                record.headers.2 := by
              rw [List.length_take, List.length_drop]
              omega
            have hloop := @headersRunLoop_iff batch record.headers.1
              ((batch.buffer.drop record.headers.1).take record.headers.2) (by omega)
              record.headerCount 0
            rw [hlength] at hloop
            constructor
            · rintro h _ ⟨⟩
              exact hloop.mp h
            · exact fun h => hloop.mpr (h _ rfl)
        · cases hblock

end LeanBatch

/-! ### Records that were decoded -/

open LeanBatch in
/-- The key and the value of a record that was read are in the body. -/
theorem Fields.Read.slices {f : Fields} {body : Bytes} {pos : ℕ} (h : f.Read body pos)
    (hbody : body.length < u32Max) {batch : LeanBatch} (hbuffer : batch.buffer = body) :
    (batch.sliceRun f.key).isSome ∧ (batch.sliceRun f.value).isSome := by
  have hvalue := h.valueAt
  have hheaders := h.headersAt
  have hend := h.inBody
  rw [u32Max] at hbody
  simp only [keyEnd, valueEnd] at hvalue hheaders
  have hslice : ∀ {len : ℤ} {at' : ℕ}, at' + (max len 0).toNat ≤ body.length →
      (batch.sliceRun (takeField len at').1).isSome := by
    intro len at' hle
    rw [takeField]
    split
    · apply sliceRun_isSome
      dsimp only
      rw [hbuffer, Nat.mod_eq_of_lt (by omega), Nat.mod_eq_of_lt (by omega)]
      omega
    · rfl
  exact ⟨hslice (by omega), hslice (by omega)⟩

/-- On what `decode_lean` accepts the accessors are total if and only if every header ends
where it may. -/
theorem accessors_total_iff {codecs : Codecs} {buffer : Bytes} {batches : List LeanBatch}
    (hdecode : decodeLean codecs buffer = .ok (some batches))
    (hsize : ∀ batch ∈ batches, batch.buffer.length < u32Max) :
    (∀ batch ∈ batches, ∀ record ∈ batch.records, batch.Total record) ↔
      ∀ batch ∈ batches, ∀ record ∈ batch.records, batch.Enclosed record := by
  refine forall₂_congr fun batch hbatch => forall₂_congr fun record hrecord => ?_
  rw [← LeanBatch.headersRun_iff]
  refine ⟨fun h => h.headers, fun h => ?_⟩
  have htaken : (batch.buffer, record) ∈ batches.flatMap fun batch =>
      batch.records.map fun r => (batch.buffer, r) :=
    List.mem_flatMap.mpr ⟨batch, hbatch, List.mem_map.mpr ⟨record, hrecord, rfl⟩⟩
  rw [← taken_eq hdecode] at htaken
  obtain ⟨p, hp, heq⟩ := List.mem_map.mp htaken
  obtain ⟨hbuffer, rfl⟩ := Prod.mk.inj heq
  obtain ⟨pos, hread⟩ := read_of_mem_taken hp
  obtain ⟨hkey, hvalue⟩ := hread.slices (by rw [hbuffer]; exact hsize batch hbatch) hbuffer.symm
  exact ⟨hkey, hvalue, by rw [LeanBatch.controlTypeRun, Option.isSome_map]; exact hkey, h⟩

/-- The record of `sampleBatch`, whose header has a null value. -/
def sampleDecoded : LeanBatch where
  buffer := [18, 0, 0, 0, 1, 0, 2, 2, 104, 1]
  baseOffset := 5
  producerId := -1
  transactional := false
  control := false
  records := [⟨5, 1000, (u32Max, 0), (6, 0), (7, 3), 1⟩]

theorem accessors_total_iff_sample :
    decodeLean plainCodecs (sampleBatch.bytes plainCodecs) = .ok (some [sampleDecoded]) ∧
      ∀ batch ∈ [sampleDecoded], ∀ record ∈ batch.records, batch.Total record := by
  have hdecode : decodeLean plainCodecs (sampleBatch.bytes plainCodecs) =
      .ok (some [sampleDecoded]) := by
    decide +kernel
  refine ⟨hdecode, (accessors_total_iff hdecode (by decide)).mpr ?_⟩
  intro batch hbatch record hrecord block hblock
  obtain rfl := List.mem_singleton.mp hbatch
  obtain rfl := List.mem_singleton.mp hrecord
  obtain rfl : block = [2, 104, 1] := Option.some.inj (hblock.symm.trans (by decide))
  decide

/-- A record whose only header announces a value of a hundred bytes, and has none. -/
def overrunning : LeanBatch where
  buffer := [18, 0, 0, 0, 1, 1, 2, 0, 200, 1]
  baseOffset := 0
  producerId := -1
  transactional := false
  control := false
  records := [⟨0, 0, (u32Max, 0), (u32Max, 0), (7, 3), 1⟩]

/-- The batch is accepted, and `headers` panics on its record. -/
theorem headers_panic :
    decodeLean plainCodecs (rawBatch plainCodecs 0 0 1 [18, 0, 0, 0, 1, 1, 2, 0, 200, 1]) =
        .ok (some [overrunning]) ∧
      (∀ record ∈ overrunning.records, overrunning.headersRun record = none) ∧
      ¬∀ batch ∈ [overrunning], ∀ record ∈ batch.records, batch.Total record := by
  refine ⟨by decide +kernel, by decide, fun h => ?_⟩
  have htotal := h overrunning List.mem_cons_self _ List.mem_cons_self
  exact htotal.headers

end Barnabas.Core
