import Barnabas.Core.Delivery
import Barnabas.Core.Varint
import Mathlib.Data.List.Forall2

/-!
The magic-2 batch format, as a broker or a producer lays it out, and that
`decode_lean` (`barnabas-core/src/records.rs`) reads back what was laid out.

A record is a length and then its fields; a batch is a fixed header and then its
records. The reader keeps positions in the batch's buffer and not the bytes, so
what is shown of it is that the positions it keeps are those of the fields.
-/

namespace Barnabas.Core

open Barnabas.Lib

/-! ### Writing -/

/-- A record before it is laid out. -/
structure WireRecord where
  timestampDelta : ℤ
  offsetDelta : ℤ
  key : Option Bytes
  value : Option Bytes
  headers : List (Bytes × Option Bytes)
  deriving DecidableEq, Repr

/-- A batch before it is laid out, uncompressed. The fields after `records` are those
the reader does not look at. -/
structure WireBatch where
  baseOffset : ℤ
  baseTimestamp : ℤ
  producerId : ℤ
  transactional : Bool
  control : Bool
  records : List WireRecord
  partitionLeaderEpoch : ℤ
  logAppendTime : Bool
  lastOffsetDelta : ℤ
  maxTimestamp : ℤ
  producerEpoch : ℤ
  baseSequence : ℤ
  deriving DecidableEq, Repr

/-- A field with its length, which is `-1` for null. -/
def fieldBytes : Option Bytes → Bytes
  | none => varintBytes (-1)
  | some bytes => varintBytes bytes.length ++ bytes

def headerBytes (header : Bytes × Option Bytes) : Bytes :=
  varintBytes header.1.length ++ (header.1 ++ fieldBytes header.2)

namespace WireRecord

/-- What follows the length of a record. -/
def inner (r : WireRecord) : Bytes :=
  [0] ++ (varintBytes r.timestampDelta ++ (varintBytes r.offsetDelta ++ (fieldBytes r.key ++
    (fieldBytes r.value ++ (varintBytes r.headers.length ++ r.headers.flatMap headerBytes)))))

def bytes (r : WireRecord) : Bytes := varintBytes r.inner.length ++ r.inner

end WireRecord

namespace WireBatch

def body (b : WireBatch) : Bytes := b.records.flatMap WireRecord.bytes

/-- The attributes: no compression, the kind of timestamp, and the two flags. -/
def attributes (b : WireBatch) : ℤ :=
  (if b.logAppendTime then 8 else 0) + (if b.transactional then 16 else 0) +
    (if b.control then 32 else 0)

/-- What the checksum is taken of. -/
def checked (b : WireBatch) : Bytes :=
  intBytes 2 b.attributes ++ (intBytes 4 b.lastOffsetDelta ++ (intBytes 8 b.baseTimestamp ++
    (intBytes 8 b.maxTimestamp ++ (intBytes 8 b.producerId ++ (intBytes 2 b.producerEpoch ++
      (intBytes 4 b.baseSequence ++ (intBytes 4 b.records.length ++ b.body)))))))

def bytes (codecs : Codecs) (b : WireBatch) : Bytes :=
  intBytes 8 b.baseOffset ++ (intBytes 4 (9 + b.checked.length) ++
    (intBytes 4 b.partitionLeaderEpoch ++ ([2] ++ (intBytes 4 (codecs.crc32c b.checked) ++
      b.checked))))

end WireBatch

/-! ### Reading a record -/

@[simp] theorem ok_bind {ε α β : Type} (a : α) (f : α → Except ε β) :
    ((Except.ok a : Except ε α) >>= f) = f a := rfl

theorem intAt_of_holds {buf : Bytes} {pos width : ℕ} {x : ℤ} (h : Holds buf pos (intBytes width x))
    (hpos : pos ≤ buf.length) : intAt width buf pos = some (wrap (8 * width) x) := by
  obtain ⟨rest, hrest⟩ := h
  have hread := intAt_intBytes_wrap width x (buf.take pos) rest
  rw [hrest, List.take_append_drop, List.length_take, min_eq_left hpos] at hread
  exact hread

/-- What the reader makes of a field that is null or not. -/
theorem field_read (what : String) {body : Bytes} {pos : ℕ} {field : Option Bytes}
    (hholds : Holds body pos (fieldBytes field)) (hpos : pos ≤ body.length)
    (hbody : body.length < u32Max) :
    ∃ len at' range, varintOr what body pos = .ok (len, at') ∧
      takeField len at' = (range, pos + (fieldBytes field).length) ∧
      ∀ batch : LeanBatch, batch.buffer = body → batch.slice range = field := by
  have hend := hholds.length_le hpos
  cases field with
  | none =>
      refine ⟨-1, _, (u32Max, 0), varintOr_varintBytes what (by decide) hholds, rfl, ?_⟩
      intro batch _
      rw [LeanBatch.slice, if_pos rfl]
  | some bytes =>
      rw [fieldBytes] at hholds hend ⊢
      obtain ⟨hlen, hbytes⟩ := holds_append.mp hholds
      rw [List.length_append] at hend
      rw [u32Max] at hbody
      have hfits : Fits 64 (bytes.length : ℤ) := by
        constructor
        · norm_num
        · norm_num
          omega
      refine ⟨bytes.length, _, ((pos + (varintBytes bytes.length).length) % 2 ^ 32,
        bytes.length % 2 ^ 32), varintOr_varintBytes what hfits hlen, ?_, ?_⟩
      · rw [takeField, if_pos (by omega), Int.toNat_natCast]
        rw [List.length_append, add_assoc]
      · intro batch hbuffer
        rw [LeanBatch.slice, if_neg, hbuffer]
        · rw [Nat.mod_eq_of_lt (by omega), Nat.mod_eq_of_lt (by omega), hbytes.take_drop]
        · rw [Nat.mod_eq_of_lt (by omega), u32Max]
          omega

/-- A length of something in the buffer is a value of the reader's type. -/
theorem fits_length {body : Bytes} (hbody : body.length < u32Max) {n : ℕ} (hn : n ≤ body.length) :
    Fits 64 (n : ℤ) := by
  rw [u32Max] at hbody
  constructor
  · norm_num
  · norm_num
    omega

/-- The headers of a record are read back from their block. -/
theorem headersLoop_eq {batch : LeanBatch} {at' : ℕ} {block : Bytes}
    (hbuffer : batch.buffer.length < u32Max) (hblock : block.length ≤ batch.buffer.length)
    {headers : List (Bytes × Option Bytes)} {pos : ℕ} (hpos : pos ≤ block.length)
    (hholds : Holds block pos (headers.flatMap headerBytes))
    (hsame : Holds batch.buffer (at' + pos) (headers.flatMap headerBytes)) :
    batch.headersLoop at' block headers.length pos = .ok headers := by
  induction headers generalizing pos with
  | nil => rfl
  | cons header headers ih =>
      obtain ⟨key, value⟩ := header
      have hend := hholds.length_le hpos
      rw [List.flatMap_cons, headerBytes] at hholds hsame hend
      simp only [List.append_assoc, holds_append, List.length_append] at hholds hsame hend
      obtain ⟨hkeyLen, -, hvalue, hrest⟩ := hholds
      obtain ⟨-, hkey, hvalue', hrest'⟩ := hsame
      have hkeyFits := fits_length hbuffer (n := key.length) (by omega)
      have hkeyRead := varintOr_varintBytes "header key length" hkeyFits hkeyLen
      have hmax : (max (key.length : ℤ) 0).toNat = key.length := by omega
      rw [List.length_cons, LeanBatch.headersLoop, hkeyRead, ok_bind]
      dsimp only
      rw [hmax, ← add_assoc at' , hkey.take_drop]
      have htail := @ih (pos + (varintBytes key.length).length + key.length +
        (fieldBytes value).length) (by omega) hrest (by simpa only [add_assoc] using hrest')
      cases value with
      | none =>
          rw [varintOr_varintBytes "header value length" (x := -1) (by decide) hvalue, ok_bind]
          dsimp only
          rw [if_neg (by decide), if_neg (by decide)]
          rw [fieldBytes] at htail
          rw [htail]
          rfl
      | some bytes =>
          rw [fieldBytes] at hvalue hvalue' htail hend
          rw [List.length_append] at hend htail
          obtain ⟨hlen, -⟩ := holds_append.mp hvalue
          obtain ⟨-, hbytes⟩ := holds_append.mp hvalue'
          have hfits := fits_length hbuffer (n := bytes.length) (by omega)
          have hnonneg : 0 ≤ (bytes.length : ℤ) := by omega
          rw [varintOr_varintBytes "header value length" hfits hlen, ok_bind]
          dsimp only
          rw [if_pos hnonneg, if_pos hnonneg, Int.toNat_natCast]
          simp only [add_assoc] at htail hbytes ⊢
          rw [hbytes.take_drop, htail]
          rfl

/-- What the reader keeps of a record is where its fields are. -/
structure Reads (baseOffset baseTimestamp : ℤ) (body : Bytes) (r : WireRecord) (q : LeanRecord) :
    Prop where
  offset : q.offset = wrap 64 (baseOffset + r.offsetDelta)
  timestamp : q.timestamp = wrap 64 (baseTimestamp + r.timestampDelta)
  key : ∀ batch : LeanBatch, batch.buffer = body → batch.key q = r.key
  value : ∀ batch : LeanBatch, batch.buffer = body → batch.value q = r.value
  headers : ∀ batch : LeanBatch, batch.buffer = body → batch.headers q = .ok r.headers

theorem headers_eq {body : Bytes} (hbody : body.length < u32Max)
    {headers : List (Bytes × Option Bytes)} {at' : ℕ} (hat : at' ≤ body.length)
    (hholds : Holds body at' (headers.flatMap headerBytes)) (hcount : headers.length ≤ body.length)
    {q : LeanRecord} (hregion : q.headers = (at' % 2 ^ 32, (headers.flatMap headerBytes).length % 2 ^ 32))
    (hq : q.headerCount = headers.length % 2 ^ 32) {batch : LeanBatch} (hbuffer : batch.buffer = body) :
    batch.headers q = .ok headers := by
  have hend := hholds.length_le hat
  rw [u32Max] at hbody
  rw [Nat.mod_eq_of_lt (by omega)] at hq
  rw [Nat.mod_eq_of_lt (by omega), Nat.mod_eq_of_lt (by omega)] at hregion
  rw [LeanBatch.headers, hq, hregion]
  by_cases hnone : headers.length = 0
  · rw [if_pos hnone, List.length_eq_zero_iff.mp hnone]
    rfl
  · have hblock : getRange batch.buffer at' (at' + (headers.flatMap headerBytes).length) =
        some (headers.flatMap headerBytes) := by
      rw [hbuffer, getRange, if_pos (by omega), Nat.add_sub_cancel_left, hholds.take_drop]
    rw [if_neg hnone]
    dsimp only
    rw [hblock]
    refine headersLoop_eq ?_ ?_ (Nat.zero_le _) ?_ ?_
    · rw [hbuffer, u32Max]
      exact hbody
    · rw [hbuffer]
      omega
    · exact List.prefix_refl _
    · rw [hbuffer]
      exact hholds

theorem length_le_flatMap {α : Type} (f : α → Bytes) (hf : ∀ a, 0 < (f a).length) (l : List α) :
    l.length ≤ (l.flatMap f).length := by
  induction l with
  | nil => simp
  | cons a l ih =>
      have ha := hf a
      rw [List.flatMap_cons, List.length_append, List.length_cons]
      omega

theorem headerBytes_length_pos (header : Bytes × Option Bytes) : 0 < (headerBytes header).length := by
  have hpos := varintBytes_length_pos header.1.length
  rw [headerBytes, List.length_append]
  omega

/-- A record is read back, and the reader goes on behind it. -/
theorem decodeRecord_eq {body : Bytes} (hbody : body.length < u32Max) {r : WireRecord} {pos : ℕ}
    (hpos : pos ≤ body.length) (hholds : Holds body pos r.bytes)
    (htimestamp : Fits 64 r.timestampDelta) (hoffset : Fits 64 r.offsetDelta)
    (baseOffset baseTimestamp : ℤ) :
    ∃ q, decodeRecord body baseOffset baseTimestamp pos = .ok (q, pos + r.bytes.length) ∧
      Reads baseOffset baseTimestamp body r q := by
  have hend := hholds.length_le hpos
  rw [WireRecord.bytes] at hholds hend ⊢
  obtain ⟨hlen, hinner⟩ := holds_append.mp hholds
  rw [List.length_append] at hend ⊢
  have hlenRead := varintOr_varintBytes "record length"
    (fits_length hbody (n := r.inner.length) (by omega)) hlen
  have hmax : (max (r.inner.length : ℤ) 0).toNat = r.inner.length := by omega
  generalize hat : pos + (varintBytes r.inner.length).length = at' at *
  have hsize : r.inner.length = 1 + ((varintBytes r.timestampDelta).length +
      ((varintBytes r.offsetDelta).length + ((fieldBytes r.key).length +
        ((fieldBytes r.value).length + ((varintBytes r.headers.length).length +
          (r.headers.flatMap headerBytes).length))))) := by
    simp only [WireRecord.inner, List.length_append, List.length_singleton]
  have hbound : at' + r.inner.length ≤ body.length := by omega
  rw [WireRecord.inner] at hinner
  simp only [holds_append, List.length_singleton] at hinner
  obtain ⟨-, htimestampBytes, hoffsetBytes, hkey, hvalue, hcount, hheaders⟩ := hinner
  have hheaderCount := length_le_flatMap headerBytes headerBytes_length_pos r.headers
  obtain ⟨keyLen, keyAt, keyRange, hkeyRead, hkeyTake, hkeySlice⟩ :=
    field_read "key length" hkey (by omega) hbody
  obtain ⟨valueLen, valueAt, valueRange, hvalueRead, hvalueTake, hvalueSlice⟩ :=
    field_read "value length" hvalue (by omega) hbody
  have hcountRead := varintOr_varintBytes "header count"
    (fits_length hbody (n := r.headers.length) (by omega)) hcount
  have hcountMax : (max (r.headers.length : ℤ) 0).toNat = r.headers.length := by omega
  have hwhole : pos + ((varintBytes r.inner.length).length + r.inner.length) =
      at' + r.inner.length := by omega
  generalize hheadersAt : at' + 1 + (varintBytes r.timestampDelta).length +
    (varintBytes r.offsetDelta).length + (fieldBytes r.key).length + (fieldBytes r.value).length +
    (varintBytes r.headers.length).length = headersAt at *
  have hregion : at' + r.inner.length - headersAt = (r.headers.flatMap headerBytes).length := by
    omega
  have hdecode : decodeRecord body baseOffset baseTimestamp pos =
      .ok (⟨wrap 64 (baseOffset + r.offsetDelta), wrap 64 (baseTimestamp + r.timestampDelta),
        keyRange, valueRange,
        (headersAt % 2 ^ 32, (r.headers.flatMap headerBytes).length % 2 ^ 32),
        r.headers.length % 2 ^ 32⟩, at' + r.inner.length) := by
    rw [decodeRecord, hlenRead, ok_bind]
    dsimp only
    rw [hmax, if_neg (by omega),
      varintOr_varintBytes "timestamp delta" htimestamp htimestampBytes, ok_bind]
    dsimp only
    rw [varintOr_varintBytes "offset delta" hoffset hoffsetBytes, ok_bind]
    dsimp only
    rw [hkeyRead, ok_bind]
    dsimp only
    rw [hkeyTake]
    dsimp only
    rw [hvalueRead, ok_bind]
    dsimp only
    rw [hvalueTake]
    dsimp only
    rw [hcountRead, ok_bind]
    dsimp only
    rw [hcountMax, hregion]
    rfl
  rw [hwhole]
  refine ⟨_, hdecode, rfl, rfl, hkeySlice, hvalueSlice, fun batch hbuffer => ?_⟩
  exact headers_eq hbody (by omega) hheaders (by omega) rfl rfl hbuffer

theorem decodeRecords_eq {body : Bytes} (hbody : body.length < u32Max) {records : List WireRecord}
    (hfits : ∀ r ∈ records, Fits 64 r.timestampDelta ∧ Fits 64 r.offsetDelta) {pos : ℕ}
    (hpos : pos ≤ body.length) (hholds : Holds body pos (records.flatMap WireRecord.bytes))
    (baseOffset baseTimestamp : ℤ) :
    ∃ qs, decodeRecords body baseOffset baseTimestamp records.length pos = .ok qs ∧
      List.Forall₂ (Reads baseOffset baseTimestamp body) records qs := by
  induction records generalizing pos with
  | nil => exact ⟨[], rfl, .nil⟩
  | cons r records ih =>
      obtain ⟨⟨htimestamp, hoffset⟩, hrest⟩ := List.forall_mem_cons.mp hfits
      obtain ⟨hfirst, hmore⟩ := holds_append.mp hholds
      obtain ⟨q, hq, hreads⟩ := decodeRecord_eq hbody hpos hfirst htimestamp hoffset baseOffset
        baseTimestamp
      obtain ⟨qs, hqs, hall⟩ := ih hrest (hfirst.length_le hpos) hmore
      refine ⟨q :: qs, ?_, .cons hreads hall⟩
      rw [List.length_cons, decodeRecords, hq, ok_bind]
      dsimp only
      rw [hqs]
      rfl

/-! ### Reading a batch -/

/-- The fields are values of their types, no offset overflows, and the batch's length is
one a batch can have. -/
structure WireBatch.Valid (b : WireBatch) : Prop where
  baseOffset : Fits 64 b.baseOffset
  baseTimestamp : Fits 64 b.baseTimestamp
  producerId : Fits 64 b.producerId
  deltas : ∀ r ∈ b.records, Fits 64 r.timestampDelta ∧ Fits 64 r.offsetDelta
  offsets : ∀ r ∈ b.records, Fits 64 (b.baseOffset + r.offsetDelta)
  length : (9 + b.checked.length : ℤ) ≤ i32Max

/-- The batch that was laid out. -/
structure Decodes (b : WireBatch) (batch : LeanBatch) : Prop where
  baseOffset : batch.baseOffset = b.baseOffset
  producerId : batch.producerId = b.producerId
  transactional : batch.transactional = b.transactional
  control : batch.control = b.control
  records : List.Forall₂ (fun r q => q.offset = b.baseOffset + r.offsetDelta ∧
    q.timestamp = wrap 64 (b.baseTimestamp + r.timestampDelta) ∧ batch.key q = r.key ∧
    batch.value q = r.value ∧ batch.headers q = .ok r.headers) b.records batch.records

section Batch

variable {codecs : Codecs} {b : WireBatch}

theorem WireBatch.bytes_length : (b.bytes codecs).length = 21 + b.checked.length := by
  simp only [WireBatch.bytes, List.length_append, intBytes_length, List.length_singleton]
  omega

theorem WireBatch.checked_length : b.checked.length = 40 + b.body.length := by
  simp only [WireBatch.checked, List.length_append, intBytes_length]
  omega

/-- Where the parts of a batch are. -/
theorem holds_bytes (codecs : Codecs) (b : WireBatch) :
    Holds (b.bytes codecs) 0 (intBytes 8 b.baseOffset) ∧
      Holds (b.bytes codecs) 8 (intBytes 4 (9 + b.checked.length)) ∧
      Holds (b.bytes codecs) 16 [2] ∧
      Holds (b.bytes codecs) 17 (intBytes 4 (codecs.crc32c b.checked)) ∧
      Holds (b.bytes codecs) 21 b.checked := by
  have hholds : Holds (b.bytes codecs) 0 (b.bytes codecs) := List.prefix_refl _
  nth_rewrite 2 [WireBatch.bytes] at hholds
  simp only [holds_append, intBytes_length, List.length_singleton, Nat.reduceAdd] at hholds
  obtain ⟨hbase, hlength, -, hmagic, hcrc, hchecked⟩ := hholds
  exact ⟨hbase, hlength, hmagic, hcrc, hchecked⟩

theorem holds_checked {raw : Bytes} (h : Holds raw 21 b.checked) :
    Holds raw 21 (intBytes 2 b.attributes) ∧ Holds raw 23 (intBytes 4 b.lastOffsetDelta) ∧
      Holds raw 27 (intBytes 8 b.baseTimestamp) ∧ Holds raw 43 (intBytes 8 b.producerId) ∧
      Holds raw 57 (intBytes 4 b.records.length) ∧ Holds raw 61 b.body := by
  rw [WireBatch.checked] at h
  simp only [holds_append, intBytes_length, Nat.reduceAdd] at h
  obtain ⟨hattributes, hdelta, htimestamp, -, hproducer, -, -, hcount, hbody⟩ := h
  exact ⟨hattributes, hdelta, htimestamp, hproducer, hcount, hbody⟩

theorem eq_drop_of_holds {raw bytes : Bytes} {pos : ℕ} (h : Holds raw pos bytes)
    (hlength : raw.length = pos + bytes.length) : raw.drop pos = bytes := by
  apply (List.IsPrefix.eq_of_length h _).symm
  rw [List.length_drop]
  omega

/-- A batch that is laid out is one batch. -/
theorem framed_bytes (codecs : Codecs) (hvalid : b.Valid) : Framed (b.bytes codecs) := by
  have hlength := @WireBatch.bytes_length codecs b
  have hchecked := b.checked_length
  have hread := intAt_of_holds (holds_bytes codecs b).2.1 (by omega)
  rw [wrap32_eq_self (by omega) hvalid.length] at hread
  refine nextBatch_eq_some_iff.mpr ⟨_, hread, by omega, by omega, by omega, ?_, ?_⟩
  · rw [List.take_of_length_le (by omega)]
  · rw [List.drop_eq_nil_of_le (by omega)]

theorem attributes_bits (b : WireBatch) :
    wrap (8 * 2) b.attributes = b.attributes ∧ (b.attributes % 2 ^ 16).toNat &&& 0x07 = 0 ∧
      decide ((b.attributes % 2 ^ 16).toNat &&& 0x10 ≠ 0) = b.transactional ∧
      decide ((b.attributes % 2 ^ 16).toNat &&& 0x20 ≠ 0) = b.control := by
  rw [WireBatch.attributes]
  rcases b.logAppendTime with _ | _ <;> rcases b.transactional with _ | _ <;>
    rcases b.control with _ | _ <;> decide

/-- The checksum is read back as the unsigned value that was written. -/
theorem toNat_wrap32 {n : ℕ} (hn : n < 2 ^ 32) : (wrap (8 * 4) n % 2 ^ 32).toNat = n := by
  have hmod := Int.bmod_emod (x := n) (m := 2 ^ 32)
  push_cast at hmod
  rw [wrap]
  norm_num at hmod ⊢
  omega

theorem WireRecord.bytes_length_pos (r : WireRecord) : 0 < r.bytes.length := by
  have hpos := varintBytes_length_pos r.inner.length
  rw [WireRecord.bytes, List.length_append]
  omega

theorem records_length_le (hvalid : b.Valid) : (b.records.length : ℤ) ≤ i32Max := by
  have hle := length_le_flatMap WireRecord.bytes WireRecord.bytes_length_pos b.records
  change b.records.length ≤ b.body.length at hle
  have hchecked := b.checked_length
  have hmax := hvalid.length
  omega

theorem fieldOr_some (what : String) (x : ℤ) : fieldOr what (some x) = .ok x := rfl

/-- The header fields of a batch that is laid out. -/
structure HeaderRead (codecs : Codecs) (b : WireBatch) : Prop where
  magic : (b.bytes codecs)[Field.magic]? = some 2
  attributes : i16At (b.bytes codecs) Field.attributes = some b.attributes
  crc : i32At (b.bytes codecs) Field.crc = some (wrap (8 * 4) (codecs.crc32c b.checked))
  baseOffset : i64At (b.bytes codecs) Field.baseOffset = some b.baseOffset
  baseTimestamp : i64At (b.bytes codecs) Field.baseTimestamp = some b.baseTimestamp
  producerId : i64At (b.bytes codecs) Field.producerId = some b.producerId
  recordCount : i32At (b.bytes codecs) Field.recordCount = some (b.records.length : ℤ)
  checked : (b.bytes codecs).drop Field.crcFrom = b.checked
  body : (b.bytes codecs).drop Field.headerLen = b.body

theorem headerRead (codecs : Codecs) (hvalid : b.Valid) : HeaderRead codecs b := by
  have hlength := @WireBatch.bytes_length codecs b
  have hchecked := b.checked_length
  have hat : ∀ pos ≤ 61, pos ≤ (b.bytes codecs).length := fun pos hpos => by omega
  obtain ⟨hbase, -, hmagic, hcrc, hrest⟩ := holds_bytes codecs b
  obtain ⟨hattributes, -, htimestamp, hproducer, hcount, hbody⟩ := holds_checked hrest
  refine ⟨hmagic.getElem?, ?_, intAt_of_holds hcrc (hat _ (by decide)), ?_, ?_, ?_, ?_,
    eq_drop_of_holds hrest hlength, eq_drop_of_holds hbody ?_⟩
  · rw [← (attributes_bits b).1]
    exact intAt_of_holds hattributes (hat _ (by decide))
  · rw [← wrap_eq_self (w := 64) (by decide) hvalid.baseOffset]
    exact intAt_of_holds hbase (hat _ (by decide))
  · rw [← wrap_eq_self (w := 64) (by decide) hvalid.baseTimestamp]
    exact intAt_of_holds htimestamp (hat _ (by decide))
  · rw [← wrap_eq_self (w := 64) (by decide) hvalid.producerId]
    exact intAt_of_holds hproducer (hat _ (by decide))
  · rw [← wrap32_eq_self (by omega) (records_length_le hvalid)]
    exact intAt_of_holds hcount (hat _ (by decide))
  · rw [Field.headerLen]
    omega

/-- A batch that is laid out is decoded to what it was made of. -/
theorem decodeBatch_eq (hcrc : ∀ bytes, codecs.crc32c bytes < 2 ^ 32) (hvalid : b.Valid) :
    ∃ batch, decodeBatch codecs (b.bytes codecs) = .ok (some batch) ∧ Decodes b batch := by
  have hread := headerRead codecs hvalid
  obtain ⟨-, hcodec, htransactional, hcontrol⟩ := attributes_bits b
  have hbodyLength : b.body.length < u32Max := by
    have hchecked := b.checked_length
    have hmax := hvalid.length
    rw [i32Max] at hmax
    rw [u32Max]
    omega
  obtain ⟨qs, hqs, hall⟩ := decodeRecords_eq hbodyLength hvalid.deltas (Nat.zero_le _)
    (show Holds b.body 0 (b.records.flatMap WireRecord.bytes) from List.prefix_refl _)
    b.baseOffset b.baseTimestamp
  have hcountMax : (max (b.records.length : ℤ) 0).toNat = b.records.length := by omega
  refine ⟨⟨b.body, b.baseOffset, b.producerId, b.transactional, b.control, qs⟩, ?_, ?_⟩
  · rw [decodeBatch, hread.magic, if_neg (not_not.mpr rfl), hread.attributes, fieldOr_some, ok_bind,
      hread.crc, fieldOr_some, ok_bind]
    dsimp only
    rw [hread.checked, toNat_wrap32 (hcrc b.checked), if_neg (not_not.mpr rfl), hread.baseOffset,
      fieldOr_some, ok_bind, hread.baseTimestamp, fieldOr_some, ok_bind, hread.producerId,
      fieldOr_some, ok_bind, hread.recordCount, fieldOr_some, ok_bind]
    rw [hcodec, if_pos rfl, hread.body, hcountMax, pure_bind, hqs, ok_bind, htransactional, hcontrol]
    rfl
  · refine ⟨rfl, rfl, rfl, rfl, ?_⟩
    refine ((List.forall₂_and_left _ _).mpr ⟨hvalid.offsets, hall⟩).imp fun r q h => ?_
    obtain ⟨hfits, hreads⟩ := h
    refine ⟨?_, hreads.timestamp, hreads.key _ rfl, hreads.value _ rfl, hreads.headers _ rfl⟩
    rw [hreads.offset, wrap_eq_self (by decide) hfits]

end Batch

/-- `decode_lean` undoes the format: batches that are laid out one after the other, and
perhaps the beginning of one more, are read back as they were, the fields of every
record included. The checksum may be any function. -/
theorem decodeLean_layout {codecs : Codecs} (hcrc : ∀ bytes, codecs.crc32c bytes < 2 ^ 32)
    {batches : List WireBatch} (hbatches : ∀ b ∈ batches, b.Valid) {last : WireBatch}
    (hlast : last.Valid) {fragment : Bytes} (hfragment : fragment <+: last.bytes codecs)
    (hstrict : fragment ≠ last.bytes codecs) :
    ∃ decoded, decodeLean codecs (batches.flatMap (WireBatch.bytes codecs) ++ fragment) =
        .ok (some decoded) ∧ List.Forall₂ Decodes batches decoded := by
  -- The bytes of each batch, with what they are decoded to.
  obtain ⟨parts, hparts, hbytes, hdecodes⟩ : ∃ parts : List (Bytes × LeanBatch),
      (∀ part ∈ parts, Whole codecs part.1 part.2) ∧
      parts.map Prod.fst = batches.map (WireBatch.bytes codecs) ∧
      List.Forall₂ Decodes batches (parts.map Prod.snd) := by
    induction batches with
    | nil => exact ⟨[], by simp, rfl, .nil⟩
    | cons b batches ih =>
        obtain ⟨hb, hrest⟩ := List.forall_mem_cons.mp hbatches
        obtain ⟨batch, hbatch, hdecodes⟩ := decodeBatch_eq hcrc hb
        obtain ⟨parts, hparts, hbytes, hmore⟩ := ih hrest
        refine ⟨(b.bytes codecs, batch) :: parts, ?_, ?_, .cons hdecodes hmore⟩
        · exact List.forall_mem_cons.mpr ⟨⟨framed_bytes codecs hb, hbatch⟩, hparts⟩
        · rw [List.map_cons, List.map_cons, hbytes]
  have hnext := (framed_bytes codecs hlast).nextBatch_truncated hfragment hstrict
  have hrun := decodeLean_whole hparts hnext
  rw [List.flatMap_def, hbytes, ← List.flatMap_def] at hrun
  exact ⟨_, hrun, hdecodes⟩

/-- One batch of one record: a null key, an empty value and a header of a null value. -/
def sampleBatch : WireBatch where
  baseOffset := 5
  baseTimestamp := 1000
  producerId := -1
  transactional := false
  control := false
  records := [⟨0, 0, none, some [], [([104], none)]⟩]
  partitionLeaderEpoch := 0
  logAppendTime := false
  lastOffsetDelta := 0
  maxTimestamp := 1000
  producerEpoch := -1
  baseSequence := -1

theorem valid_sampleBatch : sampleBatch.Valid where
  baseOffset := by decide
  baseTimestamp := by decide
  producerId := by decide
  deltas := by decide
  offsets := by decide
  length := by decide

theorem crc32cBit_lt {crc : ℕ} (h : crc < 2 ^ 32) : crc32cBit crc < 2 ^ 32 := by
  have hhalf : crc / 2 < 2 ^ 32 := by omega
  rw [crc32cBit]
  split
  · exact Nat.xor_lt_two_pow hhalf (by decide)
  · exact hhalf

theorem crc32c_lt (bytes : Bytes) : crc32c bytes < 2 ^ 32 := by
  have hround : ∀ n crc, crc < 2 ^ 32 → Nat.iterate crc32cBit n crc < 2 ^ 32 := by
    intro n
    induction n with
    | zero => exact fun crc h => h
    | succ n ih => exact fun crc h => ih _ (crc32cBit_lt h)
  have hloop : ∀ crc < 2 ^ 32,
      bytes.foldl (fun crc b => Nat.iterate crc32cBit 8 (crc ^^^ b.toNat)) crc < 2 ^ 32 := by
    induction bytes with
    | nil => exact fun crc h => h
    | cons b bytes ih =>
        intro crc h
        have hb : b.toNat < 2 ^ 32 := lt_trans b.toNat_lt (by norm_num)
        exact ih _ (hround 8 _ (Nat.xor_lt_two_pow h hb))
  exact Nat.xor_lt_two_pow (hloop _ (by norm_num)) (by norm_num)

theorem decodeLean_layout_sample :
    ∃ decoded, decodeLean plainCodecs
        ([sampleBatch].flatMap (WireBatch.bytes plainCodecs) ++ [0, 0, 0]) = .ok (some decoded) ∧
      List.Forall₂ Decodes [sampleBatch] decoded := by
  refine decodeLean_layout crc32c_lt ?_ valid_sampleBatch ?_ ?_
  · intro b hb
    rw [List.mem_singleton.mp hb]
    exact valid_sampleBatch
  · decide
  · decide

end Barnabas.Core
