import Barnabas.Core.Error
import Barnabas.Lib.MachineInt
import Mathlib.Data.List.Basic

/-!
The record-batch reader (`barnabas-core/src/records.rs`): batches are read from
bytes, a record is an offset, a timestamp and ranges into the batch's buffer.

Bytes are lists of `UInt8`, positions are natural numbers, and the wire's
integers are `Int` reduced to their machine type. The checksum and the
compression codecs are third-party crates and stand as the parameter `Codecs`.
-/

namespace Barnabas.Core

open Barnabas.Lib

abbrev Bytes := List UInt8

/-- The third-party functions the reader calls: `crc32c`, and one decompressor
for each crate, which fails with that crate's message. -/
structure Codecs where
  crc32c : Bytes → ℕ
  gzip : Bytes → Except String Bytes
  snappyRaw : Bytes → Except String Bytes
  lz4 : Bytes → Except String Bytes
  zstd : Bytes → Except String Bytes

/-! ### Batch header layout (magic 2), by byte offset from the batch's start -/

namespace Field

def baseOffset : ℕ := 0
def length : ℕ := 8
def magic : ℕ := 16
def crc : ℕ := 17
def attributes : ℕ := 21
def baseTimestamp : ℕ := 27
def producerId : ℕ := 43
def recordCount : ℕ := 57
def headerLen : ℕ := 61
def crcFrom : ℕ := 21

end Field

/-- The largest `u32`, which marks an absent key or value. -/
def u32Max : ℕ := 2 ^ 32 - 1

/-- One record: where it is, not what it contains. Ranges are `u32` pairs of a
position in the batch's buffer and a length. -/
structure LeanRecord where
  offset : ℤ
  timestamp : ℤ
  key : ℕ × ℕ
  value : ℕ × ℕ
  headers : ℕ × ℕ
  headerCount : ℕ
  deriving DecidableEq, Repr

/-- One batch, with the facts that belong to the batch held once. -/
structure LeanBatch where
  buffer : Bytes
  baseOffset : ℤ
  producerId : ℤ
  transactional : Bool
  control : Bool
  records : List LeanRecord
  deriving DecidableEq, Repr

/-- `buf.get(from..to)`. -/
def getRange (buf : Bytes) (from' to' : ℕ) : Option Bytes :=
  if from' ≤ to' ∧ to' ≤ buf.length then some ((buf.drop from').take (to' - from')) else none

/-- The unsigned value of big-endian bytes. -/
def bigEndian (bytes : Bytes) : ℕ := bytes.foldl (fun acc b => acc * 256 + b.toNat) 0

/-- The signed big-endian integer of `width` bytes at `at'`. -/
def intAt (width : ℕ) (buf : Bytes) (at' : ℕ) : Option ℤ :=
  (getRange buf at' (at' + width)).map fun bytes => wrap (8 * width) (bigEndian bytes)

def i16At (buf : Bytes) (at' : ℕ) : Option ℤ := intAt 2 buf at'
def i32At (buf : Bytes) (at' : ℕ) : Option ℤ := intAt 4 buf at'
def i64At (buf : Bytes) (at' : ℕ) : Option ℤ := intAt 8 buf at'

namespace LeanBatch

/-- The bytes of a range; `u32::MAX` as the position marks an absent field.
(`Bytes::slice` panics on a range that leaves the buffer; here such a range is
cut off.) -/
def slice (batch : LeanBatch) (range : ℕ × ℕ) : Option Bytes :=
  if range.1 = u32Max then none else some ((batch.buffer.drop range.1).take range.2)

def key (batch : LeanBatch) (record : LeanRecord) : Option Bytes := batch.slice record.key

def value (batch : LeanBatch) (record : LeanRecord) : Option Bytes := batch.slice record.value

/-- The control-marker type, read from the marker's key: a 2-byte version, then
the 2-byte type. -/
def controlType (batch : LeanBatch) (record : LeanRecord) : Option ℤ := do
  let key ← batch.slice record.key
  if key.length < 4 then none else i16At key 2

end LeanBatch

/-- Zigzag LEB128: the value and the position after it. The loop gives up once
the shift passes 63, so it reads at most ten bytes; a shift that leaves the 64
bits of `raw` drops what it shifts out. -/
def varintLoop (buf : Bytes) : ℕ → ℕ → ℕ → UInt64 → Option (ℤ × ℕ)
  | 0, _, _, _ => none
  | fuel + 1, pos, shift, raw =>
      match buf[pos]? with
      | none => none
      | some byte =>
          let raw := raw ||| ((byte &&& 0x7f).toUInt64 <<< (UInt64.ofNat shift))
          if byte &&& 0x80 = 0 then
            let half : ℤ := (raw >>> 1).toNat
            some (if raw &&& 1 = 0 then half else -half - 1, pos + 1)
          else varintLoop buf fuel (pos + 1) (shift + 7) raw

/-- The shifts 0, 7, …, 63 are ten rounds of the loop. -/
def varint (buf : Bytes) (pos : ℕ) : Option (ℤ × ℕ) := varintLoop buf 10 pos 0 0

/-- `varint(..).ok_or_else(|| Error::Codec(what))`. -/
def varintOr (what : String) (buf : Bytes) (pos : ℕ) : Except Error (ℤ × ℕ) :=
  match varint buf pos with
  | none => .error (.codec what)
  | some r => .ok r

namespace LeanBatch

/-- The `for` loop of `headers`, over a block that begins at `at'` in the buffer. -/
def headersLoop (batch : LeanBatch) (at' : ℕ) (block : Bytes) :
    ℕ → ℕ → Except Error (List (Bytes × Option Bytes))
  | 0, _ => pure []
  | count + 1, pos => do
      let (keyLen, pos) ← varintOr "header key length" block pos
      let key := (batch.buffer.drop (at' + pos)).take (max keyLen 0).toNat
      let pos := pos + (max keyLen 0).toNat
      let (valueLen, pos) ← varintOr "header value length" block pos
      let value := if 0 ≤ valueLen then
        some ((batch.buffer.drop (at' + pos)).take valueLen.toNat) else none
      let pos := if 0 ≤ valueLen then pos + valueLen.toNat else pos
      let rest ← headersLoop batch at' block count pos
      pure ((key, value) :: rest)

/-- A record's headers, parsed on demand. -/
def headers (batch : LeanBatch) (record : LeanRecord) :
    Except Error (List (Bytes × Option Bytes)) :=
  if record.headerCount = 0 then pure []
  else
    match getRange batch.buffer record.headers.1 (record.headers.1 + record.headers.2) with
    | none => .error (.codec "header block")
    | some block => batch.headersLoop record.headers.1 block record.headerCount 0

end LeanBatch

/-- `.ok_or_else(|| Error::Codec(what))` for a header field. -/
def fieldOr (what : String) (field : Option ℤ) : Except Error ℤ :=
  match field with
  | none => .error (.codec what)
  | some x => .ok x

/-- A length-prefixed field of a record: its range, and the position after it. A
negative length is an absent field and takes no bytes. -/
def takeField (len : ℤ) (pos : ℕ) : (ℕ × ℕ) × ℕ :=
  if 0 ≤ len then ((pos % 2 ^ 32, len.toNat % 2 ^ 32), pos + len.toNat) else ((u32Max, 0), pos)

/-- One record of a body at `pos`, and the position after it. -/
def decodeRecord (body : Bytes) (baseOffset baseTimestamp : ℤ) (pos : ℕ) :
    Except Error (LeanRecord × ℕ) := do
  let (len, pos) ← varintOr "record length" body pos
  let recordEnd := pos + (max len 0).toNat
  if recordEnd > body.length then
    throw (.codec "record overruns its batch")
  -- The per-record attributes byte is unused in the format.
  let pos := pos + 1
  let (timestampDelta, pos) ← varintOr "timestamp delta" body pos
  let (offsetDelta, pos) ← varintOr "offset delta" body pos
  let (keyLen, pos) ← varintOr "key length" body pos
  let (key, pos) := takeField keyLen pos
  let (valueLen, pos) ← varintOr "value length" body pos
  let (value, pos) := takeField valueLen pos
  let (headerCount, pos) ← varintOr "header count" body pos
  -- The header block is recorded, not parsed.
  let headers := (pos % 2 ^ 32, (recordEnd - pos) % 2 ^ 32)
  pure ({ offset := wrap 64 (baseOffset + offsetDelta)
          timestamp := wrap 64 (baseTimestamp + timestampDelta)
          key, value, headers
          headerCount := (max headerCount 0).toNat % 2 ^ 32 }, recordEnd)

/-- `count` records of a body from `pos` on. -/
def decodeRecords (body : Bytes) (baseOffset baseTimestamp : ℤ) :
    ℕ → ℕ → Except Error (List LeanRecord)
  | 0, _ => pure []
  | count + 1, pos => do
      let (record, pos) ← decodeRecord body baseOffset baseTimestamp pos
      let records ← decodeRecords body baseOffset baseTimestamp count pos
      pure (record :: records)

section Codecs

variable (codecs : Codecs)

/-- Kafka's snappy is xerial-framed: this header, then `[u32 length][block]`
repeated. -/
def snappyMagic : Bytes :=
  [0x82, 0x53, 0x4e, 0x41, 0x50, 0x50, 0x59, 0, 0, 0, 0, 1, 0, 0, 0, 1]

def snappyRaw (bytes : Bytes) : Except Error Bytes :=
  (codecs.snappyRaw bytes).mapError fun e => .codec ("snappy: " ++ e)

/-- The blocks after the magic. Every block takes at least its four length
bytes, so the length of the input is fuel enough. -/
def snappyBlocks : ℕ → Bytes → Except Error Bytes
  | 0, _ => pure []
  | fuel + 1, rest =>
      if rest = [] then pure []
      else do
        let len ← match getRange rest 0 4 with
          | none => throw (.codec "snappy block length")
          | some bytes => pure (bigEndian bytes)
        let block ← match getRange rest 4 (4 + len) with
          | none => throw (.codec "snappy block overruns")
          | some block => pure block
        let out ← snappyRaw codecs block
        let more ← snappyBlocks fuel (rest.drop (4 + len))
        pure (out ++ more)

def snappy (compressed : Bytes) : Except Error Bytes :=
  if compressed.take snappyMagic.length = snappyMagic then
    let rest := compressed.drop snappyMagic.length
    snappyBlocks codecs rest.length rest
  else snappyRaw codecs compressed

/-- Decompress a batch's records section. -/
def decompress (codec : ℕ) (compressed : Bytes) : Except Error Bytes :=
  match codec with
  | 1 => (codecs.gzip compressed).mapError fun e => .codec ("gzip: " ++ e)
  | 2 => snappy codecs compressed
  | 3 => (codecs.lz4 compressed).mapError fun e => .codec ("lz4: " ++ e)
  | 4 => (codecs.zstd compressed).mapError fun e => .codec ("zstd: " ++ e)
  | other => .error (.codec ("unknown compression codec " ++ toString other))

/-- The `{:#x}` form of a checksum. -/
def hex (n : ℕ) : String := "0x" ++ String.ofList (Nat.toDigits 16 n)

/-- One whole batch, or `none` if it is not magic 2. The slice is known to hold
a full header. -/
def decodeBatch (batch : Bytes) : Except Error (Option LeanBatch) := do
  if batch[Field.magic]? ≠ some 2 then
    return none
  let attributes ← fieldOr "batch attributes" (i16At batch Field.attributes)
  let expected ← fieldOr "batch crc" (i32At batch Field.crc)
  let expected := (expected % 2 ^ 32).toNat
  let actual := codecs.crc32c (batch.drop Field.crcFrom)
  if expected ≠ actual then
    throw (.codec ("record batch crc: expected " ++ hex expected ++ ", got " ++ hex actual))
  let baseOffset ← fieldOr "base offset" (i64At batch Field.baseOffset)
  let baseTimestamp ← fieldOr "base timestamp" (i64At batch Field.baseTimestamp)
  let producerId ← fieldOr "producer id" (i64At batch Field.producerId)
  let count ← fieldOr "record count" (i32At batch Field.recordCount)
  -- The attribute bits are those of the two's-complement `i16`.
  let bits := (attributes % 2 ^ 16).toNat
  let body ← if bits &&& 0x07 = 0 then pure (batch.drop Field.headerLen)
    else decompress codecs (bits &&& 0x07) (batch.drop Field.headerLen)
  let records ← decodeRecords body baseOffset baseTimestamp (max count 0).toNat 0
  pure (some
    { buffer := body
      baseOffset, producerId
      transactional := bits &&& 0x10 ≠ 0
      control := bits &&& 0x20 ≠ 0
      records })

/-- What the framing of a buffer says about its first batch: the batch's slice
and the bytes after it, or `none` where the reader stops. A trailing partial
batch is normal and means "stop". -/
def nextBatch (buffer : Bytes) : Option (Bytes × Bytes) := do
  let length ← i32At buffer Field.length
  let end' := Field.length + 4 + (max length 0).toNat
  if length ≤ 0 ∨ end' > buffer.length then none
  else if end' < Field.headerLen then none
  else some (buffer.take end', buffer.drop end')

/-- The batches of a buffer. Every batch takes bytes, so the length of the
buffer is fuel enough. -/
def decodeLoop : ℕ → Bytes → Except Error (Option (List LeanBatch))
  | 0, _ => pure (some [])
  | fuel + 1, buffer =>
      match nextBatch buffer with
      | none => pure (some [])
      | some (batch, rest) => do
          match ← decodeBatch codecs batch with
          | none => pure none
          | some first =>
              match ← decodeLoop fuel rest with
              | none => pure none
              | some more => pure (some (first :: more))

/-- Decode every batch in a buffer; `none` hands the buffer back to the full
decoder. -/
def decodeLean (buffer : Bytes) : Except Error (Option (List LeanBatch)) :=
  decodeLoop codecs buffer.length buffer

end Codecs

/-! ### Framing -/

theorem getRange_append {buffer : Bytes} {from' to' : ℕ} (h : to' ≤ buffer.length)
    (tail : Bytes) : getRange (buffer ++ tail) from' to' = getRange buffer from' to' := by
  simp only [getRange, List.length_append]
  by_cases hle : from' ≤ to'
  · rw [if_pos ⟨hle, by omega⟩, if_pos ⟨hle, h⟩, List.drop_append_of_le_length (by omega),
      List.take_append_of_le_length (by simp; omega)]
  · rw [if_neg (by omega), if_neg (by omega)]

theorem intAt_append {width : ℕ} {buffer : Bytes} {at' : ℕ} (h : at' + width ≤ buffer.length)
    (tail : Bytes) : intAt width (buffer ++ tail) at' = intAt width buffer at' := by
  rw [intAt, intAt, getRange_append h]

/-- What the reader takes for a batch is as long as its length field says. -/
theorem nextBatch_eq_some_iff {buffer batch rest : Bytes} :
    nextBatch buffer = some (batch, rest) ↔
      ∃ length, i32At buffer Field.length = some length ∧ 0 < length ∧
        12 + length.toNat ≤ buffer.length ∧ 61 ≤ 12 + length.toNat ∧
        batch = buffer.take (12 + length.toNat) ∧ rest = buffer.drop (12 + length.toNat) := by
  simp only [nextBatch, Field.length, Field.headerLen, Option.bind_eq_bind]
  cases hlength : i32At buffer 8 with
  | none => simp
  | some length =>
      simp only [Option.bind_some, Option.some.injEq, exists_eq_left']
      by_cases hpos : 0 < length
      · have hmax : max length 0 = length := by omega
        simp only [hmax, Nat.reduceAdd]
        split
        · simp only [reduceCtorEq, false_iff]
          omega
        · split
          · simp only [reduceCtorEq, false_iff]
            omega
          · simp only [Option.some.injEq, Prod.mk.injEq]
            constructor
            · rintro ⟨rfl, rfl⟩
              exact ⟨hpos, by omega, by omega, rfl, rfl⟩
            · rintro ⟨-, -, -, rfl, rfl⟩
              exact ⟨rfl, rfl⟩
      · have hle : length ≤ 0 := by omega
        simp [hle, hpos]

/-- The bytes are one batch and nothing else. -/
def Framed (raw : Bytes) : Prop := nextBatch raw = some (raw, [])

instance (raw : Bytes) : Decidable (Framed raw) := inferInstanceAs (Decidable (_ = _))

theorem Framed.length_field {raw : Bytes} (h : Framed raw) :
    ∃ length, i32At raw Field.length = some length ∧ 0 < length ∧
      12 + length.toNat = raw.length ∧ 61 ≤ raw.length := by
  obtain ⟨length, hlength, hpos, hle, hheader, -, hrest⟩ := nextBatch_eq_some_iff.mp h
  have hge := List.drop_eq_nil_iff.mp hrest.symm
  exact ⟨length, hlength, hpos, by omega, by omega⟩

theorem Framed.nextBatch_append {raw : Bytes} (h : Framed raw) (tail : Bytes) :
    nextBatch (raw ++ tail) = some (raw, tail) := by
  obtain ⟨length, hlength, hpos, heq, hheader⟩ := h.length_field
  rw [nextBatch_eq_some_iff]
  refine ⟨length, ?_, hpos, by simp; omega, by omega, by simp [heq], by simp [heq]⟩
  rw [i32At, intAt_append (by simp only [Field.length]; omega)]
  exact hlength

/-- A batch cut off anywhere is no batch. -/
theorem Framed.nextBatch_truncated {raw fragment : Bytes} (h : Framed raw)
    (hfrag : fragment <+: raw) (hne : fragment ≠ raw) : nextBatch fragment = none := by
  obtain ⟨length, hlength, hpos, heq, -⟩ := h.length_field
  obtain ⟨tail, rfl⟩ := hfrag
  rw [Option.eq_none_iff_forall_ne_some]
  rintro ⟨batch, rest⟩ hsome
  obtain ⟨length', hlength', -, hle, hheader, -, -⟩ := nextBatch_eq_some_iff.mp hsome
  rw [i32At, intAt_append (by simp only [Field.length]; omega)] at hlength
  obtain rfl : length' = length := Option.some.inj (hlength'.symm.trans hlength)
  obtain rfl : tail = [] := by
    rw [List.length_append] at heq
    exact List.eq_nil_of_length_eq_zero (by omega)
  simp at hne

/-! ### Decoding a run of batches -/

section Run

variable {codecs : Codecs}

/-- The bytes are one batch, and this is what it holds. -/
def Whole (codecs : Codecs) (raw : Bytes) (batch : LeanBatch) : Prop :=
  Framed raw ∧ decodeBatch codecs raw = .ok (some batch)

theorem decodeLoop_whole {parts : List (Bytes × LeanBatch)}
    (hparts : ∀ part ∈ parts, Whole codecs part.1 part.2) {fragment : Bytes}
    (hfragment : nextBatch fragment = none) (fuel : ℕ) (hfuel : parts.length ≤ fuel) :
    decodeLoop codecs fuel (parts.flatMap Prod.fst ++ fragment) = .ok (some (parts.map Prod.snd)) := by
  induction parts generalizing fuel with
  | nil =>
      cases fuel with
      | zero => rfl
      | succ fuel => simp [decodeLoop, hfragment, pure, Except.pure]
  | cons part parts ih =>
      obtain ⟨hpart, hrest⟩ := List.forall_mem_cons.mp hparts
      obtain ⟨fuel, rfl⟩ : ∃ n, fuel = n + 1 :=
        Nat.exists_eq_succ_of_ne_zero (by simp at hfuel; omega)
      rw [List.flatMap_cons, List.append_assoc, decodeLoop, hpart.1.nextBatch_append]
      simp only [hpart.2, ih hrest fuel (by simpa using hfuel), bind, Except.bind, pure, Except.pure,
        List.map_cons]

/-- Whole batches are all decoded, and a fragment behind them is ignored. -/
theorem decodeLean_whole {parts : List (Bytes × LeanBatch)}
    (hparts : ∀ part ∈ parts, Whole codecs part.1 part.2) {fragment : Bytes}
    (hfragment : nextBatch fragment = none) :
    decodeLean codecs (parts.flatMap Prod.fst ++ fragment) = .ok (some (parts.map Prod.snd)) := by
  apply decodeLoop_whole hparts hfragment
  have hlength : parts.length ≤ (parts.flatMap Prod.fst).length := by
    induction parts with
    | nil => simp
    | cons part parts ih =>
        obtain ⟨hpart, hrest⟩ := List.forall_mem_cons.mp hparts
        obtain ⟨-, -, -, -, hraw⟩ := hpart.1.length_field
        have hmore := ih hrest
        simp only [List.flatMap_cons, List.length_append, List.length_cons]
        omega
  simp only [List.length_append]
  omega

end Run

end Barnabas.Core
