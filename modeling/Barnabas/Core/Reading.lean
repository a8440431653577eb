import Barnabas.Core.Framing
import Barnabas.Core.Progress

/-!
What `decode_lean` (`barnabas-core/src/records.rs`) reads, and where.

The reader keeps of a record what it will need. Here is everything it has seen of it: the
values of its fields and the positions they were read up to. The records of the model are
made of these, so that what holds of the one can be said of the other.
-/

namespace Barnabas.Core

open Barnabas.Lib

/-! ### One record -/

/-- The fields of a record as they were read. A position is the one behind its field; that
of `length` is where the record itself begins. -/
structure Fields where
  length : ℤ
  start : ℕ
  timestampDelta : ℤ
  timestampEnd : ℕ
  offsetDelta : ℤ
  offsetEnd : ℕ
  keyLen : ℤ
  keyAt : ℕ
  valueLen : ℤ
  valueAt : ℕ
  headerCount : ℤ
  headersAt : ℕ
  deriving DecidableEq, Repr

namespace Fields

/-- Where the reader goes on. -/
def recordEnd (f : Fields) : ℕ := f.start + (max f.length 0).toNat

def keyEnd (f : Fields) : ℕ := f.keyAt + (max f.keyLen 0).toNat

def valueEnd (f : Fields) : ℕ := f.valueAt + (max f.valueLen 0).toNat

/-- The ranges of the key and of the value, as they are kept. -/
def key (f : Fields) : ℕ × ℕ := (takeField f.keyLen f.keyAt).1

def value (f : Fields) : ℕ × ℕ := (takeField f.valueLen f.valueAt).1

/-- What is kept of the record. -/
def record (f : Fields) (baseOffset baseTimestamp : ℤ) : LeanRecord where
  offset := wrap 64 (baseOffset + f.offsetDelta)
  timestamp := wrap 64 (baseTimestamp + f.timestampDelta)
  key := f.key
  value := f.value
  headers := (f.headersAt % 2 ^ 32, (f.recordEnd - f.headersAt) % 2 ^ 32)
  headerCount := (max f.headerCount 0).toNat % 2 ^ 32

end Fields

/-- The fields of the record at `pos`. -/
def readFields (body : Bytes) (pos : ℕ) : Except Error Fields := do
  let (length, start) ← varintOr "record length" body pos
  if start + (max length 0).toNat > body.length then
    throw (.codec "record overruns its batch")
  let (timestampDelta, timestampEnd) ← varintOr "timestamp delta" body (start + 1)
  let (offsetDelta, offsetEnd) ← varintOr "offset delta" body timestampEnd
  let (keyLen, keyAt) ← varintOr "key length" body offsetEnd
  let (valueLen, valueAt) ← varintOr "value length" body (keyAt + (max keyLen 0).toNat)
  let (headerCount, headersAt) ← varintOr "header count" body (valueAt + (max valueLen 0).toNat)
  pure { length, start, timestampDelta, timestampEnd, offsetDelta, offsetEnd, keyLen, keyAt,
         valueLen, valueAt, headerCount, headersAt }

theorem takeField_snd (len : ℤ) (pos : ℕ) : (takeField len pos).2 = pos + (max len 0).toNat := by
  rw [takeField]
  split
  · dsimp only
    omega
  · dsimp only
    omega

theorem decodeRecord_eq_readFields (body : Bytes) (baseOffset baseTimestamp : ℤ) (pos : ℕ) :
    decodeRecord body baseOffset baseTimestamp pos =
      (readFields body pos).map fun f => (f.record baseOffset baseTimestamp, f.recordEnd) := by
  rw [decodeRecord, readFields]
  cases varintOr "record length" body pos with
  | error e => rfl
  | ok r =>
      obtain ⟨length, start⟩ := r
      simp only [ok_bind]
      split
      · rfl
      · cases varintOr "timestamp delta" body (start + 1) with
        | error e => rfl
        | ok r =>
            simp only [ok_bind]
            cases varintOr "offset delta" body r.2 with
            | error e => rfl
            | ok r =>
                simp only [ok_bind]
                cases varintOr "key length" body r.2 with
                | error e => rfl
                | ok r =>
                    simp only [ok_bind, takeField_snd]
                    cases varintOr "value length" body (r.2 + (max r.1 0).toNat) with
                    | error e => rfl
                    | ok r =>
                        simp only [ok_bind]
                        cases varintOr "header count" body (r.2 + (max r.1 0).toNat) with
                        | error e => rfl
                        | ok r => rfl

/-- A variable-length integer takes at least a byte, is read from within the buffer, and is
of the reader's type. -/
theorem varintLoop_bounds {buf : Bytes} {fuel pos shift : ℕ} {raw : UInt64} {x : ℤ} {next : ℕ}
    (h : varintLoop buf fuel pos shift raw = some (x, next)) :
    pos < next ∧ next ≤ buf.length ∧ Fits 64 x := by
  induction fuel generalizing pos shift raw with
  | zero => cases h
  | succ fuel ih =>
      rw [varintLoop] at h
      cases hbyte : buf[pos]? with
      | none =>
          rw [hbyte] at h
          cases h
      | some byte =>
          have hpos : pos < buf.length := (List.getElem?_eq_some_iff.mp hbyte).1
          rw [hbyte] at h
          dsimp only at h
          generalize raw ||| ((byte &&& 0x7f).toUInt64 <<< UInt64.ofNat shift) = more at h
          split at h
          · obtain ⟨rfl, rfl⟩ := Prod.mk.inj (Option.some.inj h)
            refine ⟨by omega, by omega, ?_⟩
            have hlt := more.toNat_lt
            rw [finish_eq, unzigzag]
            constructor
            · norm_num
              split <;> omega
            · norm_num
              split <;> omega
          · obtain ⟨hlow, hhigh, hfits⟩ := ih h
            exact ⟨by omega, hhigh, hfits⟩

theorem varintOr_bounds {what : String} {buf : Bytes} {pos : ℕ} {r : ℤ × ℕ}
    (h : varintOr what buf pos = .ok r) : pos < r.2 ∧ r.2 ≤ buf.length ∧ Fits 64 r.1 := by
  rw [varintOr] at h
  split at h
  · cases h
  · next r' hr =>
      obtain rfl : r' = r := by simpa using h
      exact varintLoop_bounds hr

/-- What has been read lies in the body, one field behind the other. -/
structure Fields.Read (f : Fields) (body : Bytes) (pos : ℕ) : Prop where
  start : pos < f.start
  timestampEnd : f.start + 1 < f.timestampEnd
  offsetEnd : f.timestampEnd < f.offsetEnd
  keyAt : f.offsetEnd < f.keyAt
  valueAt : f.keyEnd < f.valueAt
  headersAt : f.valueEnd < f.headersAt
  inBody : f.headersAt ≤ body.length
  recordEnd : f.recordEnd ≤ body.length
  lengthFits : Fits 64 f.length
  keyFits : Fits 64 f.keyLen
  valueFits : Fits 64 f.valueLen

theorem readFields_read {body : Bytes} {pos : ℕ} {f : Fields} (h : readFields body pos = .ok f) :
    f.Read body pos := by
  obtain ⟨length, hlength, h⟩ := exists_of_bind_ok h
  dsimp only at h
  split at h
  · cases h
  · next hend =>
      obtain ⟨timestampDelta, htimestamp, h⟩ := exists_of_bind_ok h
      obtain ⟨offsetDelta, hoffset, h⟩ := exists_of_bind_ok h
      obtain ⟨keyLen, hkey, h⟩ := exists_of_bind_ok h
      obtain ⟨valueLen, hvalue, h⟩ := exists_of_bind_ok h
      obtain ⟨headerCount, hheaders, h⟩ := exists_of_bind_ok h
      cases h
      have hlengthBounds := varintOr_bounds hlength
      have hkeyBounds := varintOr_bounds hkey
      have hvalueBounds := varintOr_bounds hvalue
      have hheadersBounds := varintOr_bounds hheaders
      exact
        { start := hlengthBounds.1
          timestampEnd := (varintOr_bounds htimestamp).1
          offsetEnd := (varintOr_bounds hoffset).1
          keyAt := hkeyBounds.1
          valueAt := hvalueBounds.1
          headersAt := hheadersBounds.1
          inBody := hheadersBounds.2.1
          recordEnd := not_lt.mp hend
          lengthFits := hlengthBounds.2.2
          keyFits := hkeyBounds.2.2
          valueFits := hvalueBounds.2.2 }

/-! ### The records of a batch -/

/-- All the records of a body. -/
def readRecords (body : Bytes) : ℕ → ℕ → Except Error (List Fields)
  | 0, _ => pure []
  | count + 1, pos => do
      let f ← readFields body pos
      let fs ← readRecords body count f.recordEnd
      pure (f :: fs)

theorem decodeRecords_eq_readRecords (body : Bytes) (baseOffset baseTimestamp : ℤ)
    (count pos : ℕ) :
    decodeRecords body baseOffset baseTimestamp count pos =
      (readRecords body count pos).map (List.map fun f => f.record baseOffset baseTimestamp) := by
  induction count generalizing pos with
  | zero => rfl
  | succ count ih =>
      rw [decodeRecords, readRecords, decodeRecord_eq_readFields]
      cases readFields body pos with
      | error e => rfl
      | ok f =>
          simp only [Except.map, ok_bind, ih]
          cases readRecords body count f.recordEnd with
          | error e => rfl
          | ok fs => rfl

/-- The records that are read before the first that is refused. -/
def recordsRead (body : Bytes) : ℕ → ℕ → List Fields
  | 0, _ => []
  | count + 1, pos =>
      match readFields body pos with
      | .error _ => []
      | .ok f => f :: recordsRead body count f.recordEnd

theorem recordsRead_of_ok {body : Bytes} {count pos : ℕ} {fs : List Fields}
    (h : readRecords body count pos = .ok fs) : recordsRead body count pos = fs := by
  induction count generalizing pos fs with
  | zero =>
      cases h
      rfl
  | succ count ih =>
      obtain ⟨f, hf, h⟩ := exists_of_bind_ok h
      obtain ⟨more, hmore, h⟩ := exists_of_bind_ok h
      cases h
      rw [recordsRead, hf]
      dsimp only
      rw [ih hmore]

theorem read_of_mem_recordsRead {body : Bytes} {count pos : ℕ} {f : Fields}
    (h : f ∈ recordsRead body count pos) : ∃ at', f.Read body at' := by
  induction count generalizing pos with
  | zero => cases h
  | succ count ih =>
      rw [recordsRead] at h
      cases hread : readFields body pos with
      | error e =>
          rw [hread] at h
          cases h
      | ok first =>
          rw [hread] at h
          rcases List.mem_cons.mp h with rfl | h
          · exact ⟨pos, readFields_read hread⟩
          · exact ih h

/-! ### A batch in front of its records -/

/-- The facts of a batch, and the body its records are read from. -/
structure Opened where
  body : Bytes
  baseOffset : ℤ
  baseTimestamp : ℤ
  producerId : ℤ
  bits : ℕ
  count : ℕ
  deriving DecidableEq, Repr

def Opened.batch (o : Opened) (records : List LeanRecord) : LeanBatch where
  buffer := o.body
  baseOffset := o.baseOffset
  producerId := o.producerId
  transactional := o.bits &&& 0x10 ≠ 0
  control := o.bits &&& 0x20 ≠ 0
  records := records

section Codecs

variable (codecs : Codecs)

/-- A batch up to its records, or `none` if it is not magic 2. -/
def readBatch (raw : Bytes) : Except Error (Option Opened) := do
  if raw[Field.magic]? ≠ some 2 then
    return none
  let attributes ← fieldOr "batch attributes" (i16At raw Field.attributes)
  let expected ← fieldOr "batch crc" (i32At raw Field.crc)
  let expected := (expected % 2 ^ 32).toNat
  let actual := codecs.crc32c (raw.drop Field.crcFrom)
  if expected ≠ actual then
    throw (.codec ("record batch crc: expected " ++ hex expected ++ ", got " ++ hex actual))
  let baseOffset ← fieldOr "base offset" (i64At raw Field.baseOffset)
  let baseTimestamp ← fieldOr "base timestamp" (i64At raw Field.baseTimestamp)
  let producerId ← fieldOr "producer id" (i64At raw Field.producerId)
  let count ← fieldOr "record count" (i32At raw Field.recordCount)
  let bits := (attributes % 2 ^ 16).toNat
  let body ← if bits &&& 0x07 = 0 then pure (raw.drop Field.headerLen)
    else decompress codecs (bits &&& 0x07) (raw.drop Field.headerLen)
  pure (some { body, baseOffset, baseTimestamp, producerId, bits, count := (max count 0).toNat })

/-- The rest of `decodeBatch`. -/
def decodeOpened : Option Opened → Except Error (Option LeanBatch)
  | none => pure none
  | some o => do
      let records ← decodeRecords o.body o.baseOffset o.baseTimestamp o.count 0
      pure (some (o.batch records))

theorem decodeBatch_eq_readBatch (raw : Bytes) :
    decodeBatch codecs raw = readBatch codecs raw >>= decodeOpened := by
  rw [decodeBatch, readBatch]
  split
  · rfl
  · cases fieldOr "batch attributes" (i16At raw Field.attributes) with
    | error e => rfl
    | ok attributes =>
        cases fieldOr "batch crc" (i32At raw Field.crc) with
        | error e => rfl
        | ok expected =>
            simp only [ok_bind]
            split
            · rfl
            · cases fieldOr "base offset" (i64At raw Field.baseOffset) with
              | error e => rfl
              | ok baseOffset =>
                  cases fieldOr "base timestamp" (i64At raw Field.baseTimestamp) with
                  | error e => rfl
                  | ok baseTimestamp =>
                      cases fieldOr "producer id" (i64At raw Field.producerId) with
                      | error e => rfl
                      | ok producerId =>
                          cases fieldOr "record count" (i32At raw Field.recordCount) with
                          | error e => rfl
                          | ok count =>
                              simp only [ok_bind]
                              split
                              · rfl
                              · cases decompress codecs ((attributes % 2 ^ 16).toNat &&& 0x07)
                                  (raw.drop Field.headerLen) with
                                | error e => rfl
                                | ok body => rfl

/-- The records `decode_lean` takes out of a run of batches, each with its batch, until
one is refused or a batch is of another magic. -/
def takenFrom : List Bytes → List (Opened × Fields)
  | [] => []
  | raw :: raws =>
      match readBatch codecs raw with
      | .ok (some o) =>
          (recordsRead o.body o.count 0).map (o, ·) ++
            match readRecords o.body o.count 0 with
            | .ok _ => takenFrom raws
            | .error _ => []
      | _ => []

/-- The records `decode_lean` takes out of a buffer. -/
def taken (buffer : Bytes) : List (Opened × Fields) := takenFrom codecs (cut buffer).1

variable {codecs}

theorem decodeBatch_eq_some_iff {raw : Bytes} {batch : LeanBatch} :
    decodeBatch codecs raw = .ok (some batch) ↔
      ∃ o fs, readBatch codecs raw = .ok (some o) ∧ readRecords o.body o.count 0 = .ok fs ∧
        batch = o.batch (fs.map fun f => f.record o.baseOffset o.baseTimestamp) := by
  rw [decodeBatch_eq_readBatch]
  constructor
  · intro h
    obtain ⟨o, ho, h⟩ := exists_of_bind_ok h
    cases o with
    | none => cases h
    | some o =>
        obtain ⟨records, hrecords, h⟩ := exists_of_bind_ok h
        rw [decodeRecords_eq_readRecords] at hrecords
        cases hfs : readRecords o.body o.count 0 with
        | error e =>
            rw [hfs] at hrecords
            cases hrecords
        | ok fs =>
            rw [hfs] at hrecords
            cases hrecords
            cases h
            exact ⟨o, fs, ho, hfs, rfl⟩
  · rintro ⟨o, fs, ho, hfs, rfl⟩
    rw [ho, ok_bind, decodeOpened, decodeRecords_eq_readRecords, hfs]
    rfl

/-- A batch of another magic is handed back. One of magic 2 is opened, its records as they
are or decompressed. -/
theorem readBatch_cases {raw : Bytes} {opened : Option Opened}
    (h : readBatch codecs raw = .ok opened) :
    (raw[Field.magic]? ≠ some 2 ∧ opened = none) ∨
      raw[Field.magic]? = some 2 ∧ ∃ o, opened = some o ∧
        (o.body = raw.drop Field.headerLen ∨
          ∃ codec, decompress codecs codec (raw.drop Field.headerLen) = .ok o.body) := by
  rw [readBatch] at h
  split at h
  · next hmagic =>
      cases h
      exact .inl ⟨hmagic, rfl⟩
  · next hmagic =>
      refine .inr ⟨not_not.mp hmagic, ?_⟩
      obtain ⟨attributes, -, h⟩ := exists_of_bind_ok h
      obtain ⟨expected, -, h⟩ := exists_of_bind_ok h
      dsimp only at h
      split at h
      · cases h
      · obtain ⟨baseOffset, -, h⟩ := exists_of_bind_ok h
        obtain ⟨baseTimestamp, -, h⟩ := exists_of_bind_ok h
        obtain ⟨producerId, -, h⟩ := exists_of_bind_ok h
        obtain ⟨count, -, h⟩ := exists_of_bind_ok h
        split at h
        · cases h
          exact ⟨_, rfl, .inl rfl⟩
        · obtain ⟨body, hbody, h⟩ := exists_of_bind_ok h
          cases h
          exact ⟨_, rfl, .inr ⟨_, hbody⟩⟩

/-- Only a batch of another magic is handed back. -/
theorem magic_of_readBatch {raw : Bytes} {opened : Option Opened}
    (h : readBatch codecs raw = .ok opened) : raw[Field.magic]? = some 2 ↔ opened.isSome := by
  rcases readBatch_cases h with ⟨hmagic, rfl⟩ | ⟨hmagic, o, rfl, -⟩
  · exact iff_of_false hmagic (by simp)
  · exact iff_of_true hmagic rfl

theorem magic_of_decodeBatch {raw : Bytes} {decoded : Option LeanBatch}
    (h : decodeBatch codecs raw = .ok decoded) : raw[Field.magic]? = some 2 ↔ decoded.isSome := by
  rw [decodeBatch_eq_readBatch] at h
  obtain ⟨opened, hopened, h⟩ := exists_of_bind_ok h
  rw [magic_of_readBatch hopened]
  cases opened with
  | none =>
      cases h
      rfl
  | some o =>
      obtain ⟨records, -, h⟩ := exists_of_bind_ok h
      cases h
      rfl

theorem read_of_mem_takenFrom {raws : List Bytes} {p : Opened × Fields}
    (h : p ∈ takenFrom codecs raws) : ∃ pos, p.2.Read p.1.body pos := by
  induction raws with
  | nil => cases h
  | cons raw raws ih =>
      rw [takenFrom] at h
      split at h
      · next o ho =>
          rcases List.mem_append.mp h with h | h
          · obtain ⟨f, hf, rfl⟩ := List.mem_map.mp h
            exact read_of_mem_recordsRead hf
          · split at h
            · exact ih h
            · cases h
      · cases h

theorem read_of_mem_taken {buffer : Bytes} {p : Opened × Fields} (h : p ∈ taken codecs buffer) :
    ∃ pos, p.2.Read p.1.body pos :=
  read_of_mem_takenFrom h

/-- The records of the batches are those that were taken, in this order. -/
theorem takenFrom_eq {raws : List Bytes} {batches : List LeanBatch}
    (h : List.Forall₂ (fun raw batch => decodeBatch codecs raw = .ok (some batch)) raws batches) :
    (takenFrom codecs raws).map (fun p => (p.1.body, p.2.record p.1.baseOffset p.1.baseTimestamp)) =
      batches.flatMap fun batch => batch.records.map fun r => (batch.buffer, r) := by
  induction h with
  | nil => rfl
  | cons hbatch _ ih =>
      obtain ⟨o, fs, ho, hfs, rfl⟩ := decodeBatch_eq_some_iff.mp hbatch
      rw [takenFrom, ho]
      dsimp only
      rw [hfs, recordsRead_of_ok hfs]
      dsimp only
      rw [List.map_append, ih, List.flatMap_cons, List.map_map, Opened.batch, List.map_map]
      rfl

theorem taken_eq {buffer : Bytes} {batches : List LeanBatch}
    (h : decodeLean codecs buffer = .ok (some batches)) :
    (taken codecs buffer).map (fun p => (p.1.body, p.2.record p.1.baseOffset p.1.baseTimestamp)) =
      batches.flatMap fun batch => batch.records.map fun r => (batch.buffer, r) :=
  takenFrom_eq (decodeLean_eq_some_iff.mp h)

end Codecs

/-! ### Errors -/

/-- Every error is one of the codec. -/
def OnlyCodec {α : Type} (x : Except Error α) : Prop :=
  ∀ e, x = .error e → ∃ what, e = .codec what

namespace OnlyCodec

variable {α β : Type}

theorem ok (a : α) : OnlyCodec (.ok a : Except Error α) := fun _ h => by cases h

theorem codec (what : String) : OnlyCodec (.error (.codec what) : Except Error α) := by
  intro e h
  cases h
  exact ⟨what, rfl⟩

theorem bind {x : Except Error α} {f : α → Except Error β} (hx : OnlyCodec x)
    (hf : ∀ a, x = .ok a → OnlyCodec (f a)) : OnlyCodec (x >>= f) := by
  intro e h
  cases hx' : x with
  | error e' =>
      rw [hx'] at h
      cases h
      exact hx _ hx'
  | ok a =>
      rw [hx'] at h
      exact hf a hx' e h

theorem mapError {γ : Type} (x : Except γ α) (f : γ → String) :
    OnlyCodec (x.mapError fun e => .codec (f e)) := by
  cases x with
  | error e => exact codec (f e)
  | ok a => exact ok a

theorem varintOr (what : String) (buf : Bytes) (pos : ℕ) : OnlyCodec (varintOr what buf pos) := by
  rw [Core.varintOr]
  split
  · exact codec what
  · exact ok _

theorem fieldOr (what : String) (field : Option ℤ) : OnlyCodec (fieldOr what field) := by
  rw [Core.fieldOr.eq_def]
  split
  · exact codec what
  · exact ok _

theorem readFields (body : Bytes) (pos : ℕ) : OnlyCodec (readFields body pos) := by
  rw [Core.readFields]
  refine (varintOr _ _ _).bind fun length _ => ?_
  dsimp only
  split
  · exact codec _
  · exact (varintOr _ _ _).bind fun _ _ => (varintOr _ _ _).bind fun _ _ =>
      (varintOr _ _ _).bind fun _ _ => (varintOr _ _ _).bind fun _ _ =>
        (varintOr _ _ _).bind fun _ _ => ok _

theorem readRecords (body : Bytes) (count pos : ℕ) : OnlyCodec (readRecords body count pos) := by
  induction count generalizing pos with
  | zero => exact ok _
  | succ count ih => exact (readFields _ _).bind fun _ _ => (ih _).bind fun _ _ => ok _

section Codecs

variable (codecs : Codecs)

theorem snappyBlocks (fuel : ℕ) (rest : Bytes) : OnlyCodec (snappyBlocks codecs fuel rest) := by
  induction fuel generalizing rest with
  | zero => exact ok _
  | succ fuel ih =>
      rw [Core.snappyBlocks]
      split
      · exact ok _
      · cases getRange rest 0 4 with
        | none => exact codec _
        | some bytes =>
            dsimp only
            rw [pure_bind]
            cases getRange rest 4 (4 + bigEndian bytes) with
            | none => exact codec _
            | some block =>
                dsimp only
                rw [pure_bind]
                exact (mapError _ _).bind fun _ _ => (ih _).bind fun _ _ => ok _

theorem decompress (codec' : ℕ) (compressed : Bytes) :
    OnlyCodec (decompress codecs codec' compressed) := by
  rw [Core.decompress.eq_def]
  split
  · exact mapError _ _
  · rw [snappy]
    split
    · exact snappyBlocks codecs _ _
    · exact mapError _ _
  · exact mapError _ _
  · exact mapError _ _
  · exact codec _

theorem readBatch (raw : Bytes) : OnlyCodec (readBatch codecs raw) := by
  rw [Core.readBatch]
  split
  · exact ok _
  · refine (fieldOr _ _).bind fun attributes _ => (fieldOr _ _).bind fun expected _ => ?_
    dsimp only
    split
    · exact codec _
    · refine (fieldOr _ _).bind fun _ _ => (fieldOr _ _).bind fun _ _ => (fieldOr _ _).bind fun _ _ =>
        (fieldOr _ _).bind fun _ _ => ?_
      split
      · exact ok _
      · exact (decompress codecs _ _).bind fun _ _ => ok _

theorem decodeBatch (raw : Bytes) : OnlyCodec (decodeBatch codecs raw) := by
  rw [decodeBatch_eq_readBatch]
  refine (readBatch codecs raw).bind fun o _ => ?_
  cases o with
  | none => exact ok _
  | some o =>
      rw [decodeOpened, decodeRecords_eq_readRecords]
      refine bind ?_ fun _ _ => ok _
      intro e h
      cases hread : Core.readRecords o.body o.count 0 with
      | error e' =>
          rw [hread] at h
          cases h
          exact readRecords _ _ _ _ hread
      | ok fs =>
          rw [hread] at h
          cases h

theorem decoded (buffer : Bytes) : OnlyCodec ( decodeLean codecs buffer) := by
  rw [decodeLean_eq_decodeAll]
  induction (cut buffer).1 with
  | nil => exact ok _
  | cons raw raws ih =>
      rw [decodeAll]
      refine (decodeBatch codecs raw).bind fun opened _ => ?_
      cases opened with
      | none => exact ok _
      | some first =>
          refine ih.bind fun more _ => ?_
          cases more with
          | none => exact ok _
          | some more => exact ok _

end Codecs

end OnlyCodec

/-! ### A batch of any body -/

/-- An uncompressed batch of magic 2 whose records are whatever the body holds. -/
def rawBatch (codecs : Codecs) (baseOffset baseTimestamp count : ℤ) (body : Bytes) : Bytes :=
  let checked := intBytes 2 0 ++ intBytes 4 0 ++ intBytes 8 baseTimestamp ++ intBytes 8 0 ++
    intBytes 8 (-1) ++ intBytes 2 (-1) ++ intBytes 4 (-1) ++ intBytes 4 count ++ body
  intBytes 8 baseOffset ++ intBytes 4 (9 + checked.length) ++ intBytes 4 0 ++ [2] ++
    intBytes 4 (codecs.crc32c checked) ++ checked

end Barnabas.Core
