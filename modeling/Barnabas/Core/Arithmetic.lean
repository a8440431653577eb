import Barnabas.Core.Reading

/-!
The additions of the reader and of the filters, checked.

`decode_lean` and `filter_batches` (`barnabas-core/src/records.rs`) and `filter`
(`barnabas-core/src/consumer.rs`) add numbers from the wire with a plain `+`, which panics
in a debug build where the sum leaves its type, and wraps in a release build. Here they are
once more with every addition checked. The indices never leave `usize`: an index is
compared with the length of its buffer before the next one is made of it. The offsets and
timestamps are never compared with anything.
-/

namespace Barnabas.Core

open Barnabas.Lib

/-- A computation that may fail, or stop at an addition that leaves its type. -/
abbrev Checked (α : Type) : Type := ExceptT Error Option α

/-- The largest length of a slice, `isize::MAX`. -/
def isizeMax : ℕ := 2 ^ 63 - 1

namespace Checked

variable {α β : Type}

def overflow : Checked α := (none : Option (Except Error α))

/-- A computation without an addition. -/
def of (x : Except Error α) : Checked α := (some x : Option (Except Error α))

/-- An addition in `usize`. -/
def addIndex (a b : ℕ) : Checked ℕ := if a + b < 2 ^ 64 then of (.ok (a + b)) else overflow

/-- An addition in `i64`. -/
def addWire (a b : ℤ) : Checked ℤ := if Fits 64 (a + b) then of (.ok (a + b)) else overflow

@[simp] theorem of_ok_bind (a : α) (f : α → Checked β) : (of (.ok a) >>= f) = f a := rfl

@[simp] theorem of_error_bind (e : Error) (f : α → Checked β) :
    (of (.error e) >>= f) = of (.error e) := rfl

@[simp] theorem overflow_bind (f : α → Checked β) : ((overflow : Checked α) >>= f) = overflow := rfl

theorem addIndex_eq {a b : ℕ} (h : a + b < 2 ^ 64) : addIndex a b = of (.ok (a + b)) := if_pos h

/-- Two sums, and what is made of them. -/
theorem addWire_addWire (a b c d : ℤ) (k : ℤ → ℤ → α) :
    (do
      let first ← addWire a b
      let second ← addWire c d
      of (.ok (k first second))) =
      if Fits 64 (a + b) ∧ Fits 64 (c + d) then of (.ok (k (wrap 64 (a + b)) (wrap 64 (c + d))))
      else overflow := by
  rw [addWire, addWire]
  by_cases hfirst : Fits 64 (a + b)
  · rw [if_pos hfirst, of_ok_bind]
    by_cases hsecond : Fits 64 (c + d)
    · rw [if_pos hsecond, of_ok_bind, if_pos ⟨hfirst, hsecond⟩, wrap_eq_self (by decide) hfirst,
        wrap_eq_self (by decide) hsecond]
    · rw [if_neg hsecond, overflow_bind, if_neg (fun h : _ ∧ Fits 64 (c + d) => hsecond h.2)]
  · rw [if_neg hfirst, overflow_bind, if_neg (fun h : Fits 64 (a + b) ∧ _ => hfirst h.1)]

theorem of_ne_overflow (x : Except Error α) : of x ≠ overflow := fun h => by cases h

end Checked

open Checked

/-! ### The reader -/

/-- The loop of `varint`; the position moves by one byte at a time. -/
def varintLoopChecked (buf : Bytes) : ℕ → ℕ → ℕ → UInt64 → Option (Option (ℤ × ℕ))
  | 0, _, _, _ => some none
  | fuel + 1, pos, shift, raw =>
      match buf[pos]? with
      | none => some none
      | some byte =>
          if 2 ^ 64 ≤ pos + 1 then none
          else
            let raw := raw ||| ((byte &&& 0x7f).toUInt64 <<< (UInt64.ofNat shift))
            if byte &&& 0x80 = 0 then
              let half : ℤ := (raw >>> 1).toNat
              some (some (if raw &&& 1 = 0 then half else -half - 1, pos + 1))
            else varintLoopChecked buf fuel (pos + 1) (shift + 7) raw

def varintOrChecked (what : String) (buf : Bytes) (pos : ℕ) : Checked (ℤ × ℕ) :=
  match varintLoopChecked buf 10 pos 0 0 with
  | none => overflow
  | some none => of (.error (.codec what))
  | some (some r) => of (.ok r)

def takeFieldChecked (len : ℤ) (pos : ℕ) : Checked ((ℕ × ℕ) × ℕ) :=
  if 0 ≤ len then do
    let next ← addIndex pos len.toNat
    of (.ok ((pos % 2 ^ 32, len.toNat % 2 ^ 32), next))
  else of (.ok ((u32Max, 0), pos))

def decodeRecordChecked (body : Bytes) (baseOffset baseTimestamp : ℤ) (pos : ℕ) :
    Checked (LeanRecord × ℕ) := do
  let (len, pos) ← varintOrChecked "record length" body pos
  let recordEnd ← addIndex pos (max len 0).toNat
  if recordEnd > body.length then
    of (.error (.codec "record overruns its batch"))
  else do
    let pos ← addIndex pos 1
    let (timestampDelta, pos) ← varintOrChecked "timestamp delta" body pos
    let (offsetDelta, pos) ← varintOrChecked "offset delta" body pos
    let (keyLen, pos) ← varintOrChecked "key length" body pos
    let (key, pos) ← takeFieldChecked keyLen pos
    let (valueLen, pos) ← varintOrChecked "value length" body pos
    let (value, pos) ← takeFieldChecked valueLen pos
    let (headerCount, pos) ← varintOrChecked "header count" body pos
    let offset ← addWire baseOffset offsetDelta
    let timestamp ← addWire baseTimestamp timestampDelta
    of (.ok ({ offset, timestamp, key, value
               headers := (pos % 2 ^ 32, (recordEnd - pos) % 2 ^ 32)
               headerCount := (max headerCount 0).toNat % 2 ^ 32 }, recordEnd))

def decodeRecordsChecked (body : Bytes) (baseOffset baseTimestamp : ℤ) :
    ℕ → ℕ → Checked (List LeanRecord)
  | 0, _ => of (.ok [])
  | count + 1, pos => do
      let (record, pos) ← decodeRecordChecked body baseOffset baseTimestamp pos
      let records ← decodeRecordsChecked body baseOffset baseTimestamp count pos
      of (.ok (record :: records))

/-- The fields a batch begins with are at constant positions; only where an uncompressed
body begins in the whole buffer is a sum. -/
def decodeBatchChecked (codecs : Codecs) (at' : ℕ) (raw : Bytes) : Checked (Option LeanBatch) := do
  match ← of (readBatch codecs raw) with
  | none => of (.ok none)
  | some o => do
      let _ ← addIndex at' Field.headerLen
      let records ← decodeRecordsChecked o.body o.baseOffset o.baseTimestamp o.count 0
      of (.ok (some (o.batch records)))

/-- The `while` loop, at a position of the whole buffer. -/
def decodeLoopChecked (codecs : Codecs) (buffer : Bytes) :
    ℕ → ℕ → Checked (Option (List LeanBatch))
  | 0, _ => of (.ok (some []))
  | fuel + 1, at' =>
      if buffer.length ≤ at' then of (.ok (some []))
      else do
        let lengthAt ← addIndex at' Field.length
        let _ ← addIndex lengthAt 4
        match i32At buffer lengthAt with
        | none => of (.ok (some []))
        | some length => do
            let lengthEnd ← addIndex lengthAt 4
            let end' ← addIndex lengthEnd (max length 0).toNat
            if length ≤ 0 ∨ end' > buffer.length then of (.ok (some []))
            else if end' - at' < Field.headerLen then of (.ok (some []))
            else do
              match ← decodeBatchChecked codecs at' ((buffer.drop at').take (end' - at')) with
              | none => of (.ok none)
              | some first => do
                  match ← decodeLoopChecked codecs buffer fuel end' with
                  | none => of (.ok none)
                  | some more => of (.ok (some (first :: more)))

/-- `decode_lean`, with every addition checked. -/
def decodeLeanChecked (codecs : Codecs) (buffer : Bytes) : Checked (Option (List LeanBatch)) :=
  decodeLoopChecked codecs buffer buffer.length 0

section Record

variable {body : Bytes}

theorem varintLoopChecked_eq (hbody : body.length ≤ isizeMax) (fuel pos shift : ℕ) (raw : UInt64) :
    varintLoopChecked body fuel pos shift raw = some (varintLoop body fuel pos shift raw) := by
  induction fuel generalizing pos shift raw with
  | zero => rfl
  | succ fuel ih =>
      rw [varintLoopChecked, varintLoop]
      cases hbyte : body[pos]? with
      | none => rfl
      | some byte =>
          have hpos : pos < body.length := (List.getElem?_eq_some_iff.mp hbyte).1
          rw [isizeMax] at hbody
          dsimp only
          rw [if_neg (by omega), ih]
          split <;> rfl

theorem varintOrChecked_eq (hbody : body.length ≤ isizeMax) (what : String) (pos : ℕ) :
    varintOrChecked what body pos = of (varintOr what body pos) := by
  rw [varintOrChecked, varintLoopChecked_eq hbody, varintOr, varint]
  cases varintLoop body 10 pos 0 0 with
  | none => rfl
  | some r => rfl

theorem takeFieldChecked_eq {len : ℤ} {pos : ℕ} (hlen : Fits 64 len) (hpos : pos ≤ isizeMax) :
    takeFieldChecked len pos = of (.ok (takeField len pos)) := by
  obtain ⟨-, hhigh⟩ := hlen
  rw [isizeMax] at hpos
  norm_num at hhigh hpos
  rw [takeFieldChecked, takeField]
  split
  · rw [addIndex_eq (by norm_num; omega), of_ok_bind]
  · rfl

/-- The sums that are made for a record. -/
def Fields.SumsFit (f : Fields) (baseOffset baseTimestamp : ℤ) : Prop :=
  Fits 64 (baseOffset + f.offsetDelta) ∧ Fits 64 (baseTimestamp + f.timestampDelta)

instance (f : Fields) (baseOffset baseTimestamp : ℤ) :
    Decidable (f.SumsFit baseOffset baseTimestamp) :=
  inferInstanceAs (Decidable (_ ∧ _))

/-- A record that can be read overflows exactly in its offset or its timestamp. -/
theorem decodeRecordChecked_eq (hbody : body.length ≤ isizeMax) (baseOffset baseTimestamp : ℤ)
    (pos : ℕ) :
    decodeRecordChecked body baseOffset baseTimestamp pos =
      match readFields body pos with
      | .error e => of (.error e)
      | .ok f => if f.SumsFit baseOffset baseTimestamp then
          of (.ok (f.record baseOffset baseTimestamp, f.recordEnd)) else overflow := by
  have hmax : isizeMax < 2 ^ 63 := by decide
  rw [decodeRecordChecked, readFields, varintOrChecked_eq hbody]
  cases hlength : varintOr "record length" body pos with
  | error e => rfl
  | ok r =>
      obtain ⟨length, start⟩ := r
      obtain ⟨-, hstart, hlengthFits⟩ := varintOr_bounds hlength
      obtain ⟨-, hlengthMax⟩ := hlengthFits
      norm_num at hlengthMax
      simp only [of_ok_bind, ok_bind]
      rw [addIndex_eq (by omega), of_ok_bind]
      split
      · rfl
      · rw [addIndex_eq (by omega), of_ok_bind, varintOrChecked_eq hbody]
        cases varintOr "timestamp delta" body (start + 1) with
        | error e => rfl
        | ok timestampDelta =>
            simp only [of_ok_bind, ok_bind]
            rw [varintOrChecked_eq hbody]
            cases varintOr "offset delta" body timestampDelta.2 with
            | error e => rfl
            | ok offsetDelta =>
                simp only [of_ok_bind, ok_bind]
                rw [varintOrChecked_eq hbody]
                cases hkey : varintOr "key length" body offsetDelta.2 with
                | error e => rfl
                | ok r =>
                    obtain ⟨-, hkeyAt, hkeyFits⟩ := varintOr_bounds hkey
                    simp only [of_ok_bind, ok_bind]
                    rw [takeFieldChecked_eq hkeyFits (by omega), of_ok_bind, takeField_snd,
                      varintOrChecked_eq hbody]
                    cases hvalue : varintOr "value length" body (r.2 + (max r.1 0).toNat) with
                    | error e => rfl
                    | ok r =>
                        obtain ⟨-, hvalueAt, hvalueFits⟩ := varintOr_bounds hvalue
                        simp only [of_ok_bind, ok_bind]
                        rw [takeFieldChecked_eq hvalueFits (by omega), of_ok_bind, takeField_snd,
                          varintOrChecked_eq hbody]
                        cases varintOr "header count" body (r.2 + (max r.1 0).toNat) with
                        | error e => rfl
                        | ok r =>
                            simp only [of_ok_bind]
                            rw [addWire_addWire]
                            rfl

theorem decodeRecordsChecked_eq (hbody : body.length ≤ isizeMax) (baseOffset baseTimestamp : ℤ)
    (count pos : ℕ) :
    decodeRecordsChecked body baseOffset baseTimestamp count pos =
      if ∀ f ∈ recordsRead body count pos, f.SumsFit baseOffset baseTimestamp then
        of (decodeRecords body baseOffset baseTimestamp count pos)
      else overflow := by
  induction count generalizing pos with
  | zero => simp [decodeRecordsChecked, recordsRead, decodeRecords, pure, Except.pure]
  | succ count ih =>
      rw [decodeRecordsChecked, decodeRecords, recordsRead, decodeRecordChecked_eq hbody,
        decodeRecord_eq_readFields]
      cases readFields body pos with
      | error e =>
          dsimp only
          rw [if_pos (by simp)]
          rfl
      | ok f =>
          simp only [List.forall_mem_cons, Except.map, ok_bind]
          by_cases hfirst : f.SumsFit baseOffset baseTimestamp
          · rw [if_pos hfirst, of_ok_bind]
            dsimp only
            rw [ih]
            by_cases hrest : ∀ g ∈ recordsRead body count f.recordEnd,
                g.SumsFit baseOffset baseTimestamp
            · rw [if_pos hrest, if_pos ⟨hfirst, hrest⟩]
              cases decodeRecords body baseOffset baseTimestamp count f.recordEnd with
              | error e => rfl
              | ok records => rfl
            · rw [if_neg hrest, overflow_bind, if_neg fun h => hrest h.2]
          · rw [if_neg hfirst, overflow_bind, if_neg fun h => hfirst h.1]

end Record

section Buffer

variable {codecs : Codecs}

/-- No slice is longer than a slice can be, what the decompressors return included. -/
def Sized (codecs : Codecs) : Prop :=
  ∀ codec compressed body, decompress codecs codec compressed = .ok body → body.length ≤ isizeMax

theorem Sized.readBatch (hsized : Sized codecs) {raw : Bytes} (hraw : raw.length ≤ isizeMax)
    {o : Opened} (h : readBatch codecs raw = .ok (some o)) : o.body.length ≤ isizeMax := by
  rcases readBatch_cases h with ⟨-, hnone⟩ | ⟨-, o', hsome, hbody⟩
  · cases hnone
  · obtain rfl := Option.some.inj hsome
    rcases hbody with hbody | ⟨codec, hbody⟩
    · rw [hbody, List.length_drop]
      omega
    · exact hsized _ _ _ hbody

/-- Every sum that is made for the records of these batches is one of `i64`. -/
def SumsFit (codecs : Codecs) (raws : List Bytes) : Prop :=
  ∀ p ∈ takenFrom codecs raws, p.2.SumsFit p.1.baseOffset p.1.baseTimestamp

instance (raws : List Bytes) : Decidable (SumsFit codecs raws) :=
  inferInstanceAs (Decidable (∀ p ∈ _, _))

theorem sumsFit_cons_iff {raw : Bytes} {raws : List Bytes} {o : Opened}
    (h : readBatch codecs raw = .ok (some o)) :
    SumsFit codecs (raw :: raws) ↔
      (∀ f ∈ recordsRead o.body o.count 0, f.SumsFit o.baseOffset o.baseTimestamp) ∧
        ((∃ fs, readRecords o.body o.count 0 = .ok fs) → SumsFit codecs raws) := by
  simp only [SumsFit, takenFrom, h, List.forall_mem_append, List.forall_mem_map]
  refine and_congr_right fun _ => ?_
  cases readRecords o.body o.count 0 with
  | error e => simp
  | ok fs => simp

theorem decodeBatchChecked_eq (hsized : Sized codecs) {at' : ℕ} (hat : at' ≤ isizeMax) {raw : Bytes}
    (hraw : raw.length ≤ isizeMax) :
    decodeBatchChecked codecs at' raw =
      if SumsFit codecs [raw] then of (decodeBatch codecs raw) else overflow := by
  have hmax : isizeMax < 2 ^ 63 := by decide
  rw [decodeBatchChecked, decodeBatch_eq_readBatch]
  cases hread : readBatch codecs raw with
  | error e =>
      rw [if_pos (by simp [SumsFit, takenFrom, hread])]
      rfl
  | ok opened =>
      cases opened with
      | none =>
          rw [if_pos (by simp [SumsFit, takenFrom, hread])]
          rfl
      | some o =>
          have hiff : SumsFit codecs [raw] ↔
              ∀ f ∈ recordsRead o.body o.count 0, f.SumsFit o.baseOffset o.baseTimestamp := by
            rw [sumsFit_cons_iff hread]
            exact and_iff_left fun _ => by simp [SumsFit, takenFrom]
          simp only [of_ok_bind, hiff]
          rw [addIndex_eq (by rw [Field.headerLen]; omega), of_ok_bind,
            decodeRecordsChecked_eq (hsized.readBatch hraw hread), ok_bind, decodeOpened]
          split
          · cases decodeRecords o.body o.baseOffset o.baseTimestamp o.count 0 with
            | error e => rfl
            | ok records => rfl
          · rfl

/-- A batch, and then the others. -/
theorem decodeAll_step {raw : Bytes} {raws : List Bytes}
    {rest : Checked (Option (List LeanBatch))}
    (h : rest = if SumsFit codecs raws then of (decodeAll codecs raws) else overflow) :
    (do
      match ← (if SumsFit codecs [raw] then of (decodeBatch codecs raw) else overflow) with
      | none => of (.ok none)
      | some first => do
          match ← rest with
          | none => of (.ok none)
          | some more => of (.ok (some (first :: more)))) =
      if SumsFit codecs (raw :: raws) then of (decodeAll codecs (raw :: raws)) else overflow := by
  rw [decodeAll, decodeBatch_eq_readBatch]
  cases hread : readBatch codecs raw with
  | error e =>
      rw [if_pos (by simp [SumsFit, takenFrom, hread]), if_pos (by simp [SumsFit, takenFrom, hread])]
      rfl
  | ok opened =>
      cases opened with
      | none =>
          rw [if_pos (by simp [SumsFit, takenFrom, hread]),
            if_pos (by simp [SumsFit, takenFrom, hread])]
          rfl
      | some o =>
          have hcons := @sumsFit_cons_iff codecs raw raws o hread
          have hsingle := @sumsFit_cons_iff codecs raw [] o hread
          rw [ok_bind, decodeOpened, decodeRecords_eq_readRecords]
          by_cases hfirst : ∀ f ∈ recordsRead o.body o.count 0, f.SumsFit o.baseOffset o.baseTimestamp
          · rw [if_pos (hsingle.mpr ⟨hfirst, fun _ => by simp [SumsFit, takenFrom]⟩)]
            cases hrecords : readRecords o.body o.count 0 with
            | error e =>
                rw [if_pos (hcons.mpr ⟨hfirst, by rw [hrecords]; rintro ⟨fs, hfs⟩; cases hfs⟩)]
                rfl
            | ok fs =>
                by_cases hmore : SumsFit codecs raws
                · rw [if_pos (hcons.mpr ⟨hfirst, fun _ => hmore⟩), h, if_pos hmore]
                  cases decodeAll codecs raws with
                  | error e => rfl
                  | ok more => cases more <;> rfl
                · rw [if_neg fun hall => hmore ((hcons.mp hall).2 ⟨fs, hrecords⟩), h, if_neg hmore]
                  rfl
          · rw [if_neg fun hall => hfirst (hsingle.mp hall).1, if_neg fun hall => hfirst (hcons.mp hall).1]
            rfl

theorem getRange_drop (buffer : Bytes) {at' : ℕ} (hat : at' ≤ buffer.length) (low high : ℕ) :
    getRange (buffer.drop at') low high = getRange buffer (at' + low) (at' + high) := by
  rw [getRange, getRange, List.length_drop, List.drop_drop]
  have hsize : at' + high - (at' + low) = high - low := by omega
  rw [hsize]
  refine if_congr ?_ rfl rfl
  omega

/-- The loop overflows exactly where the records do. -/
theorem decodeLoopChecked_eq (hsized : Sized codecs) {buffer : Bytes}
    (hbuffer : buffer.length ≤ isizeMax) (fuel at' : ℕ) :
    decodeLoopChecked codecs buffer fuel at' =
      if SumsFit codecs (cutLoop fuel (buffer.drop at')).1 then
        of (decodeAll codecs (cutLoop fuel (buffer.drop at')).1)
      else overflow := by
  have hmax : isizeMax < 2 ^ 63 := by decide
  have hnil : SumsFit codecs [] := by simp [SumsFit, takenFrom]
  induction fuel generalizing at' with
  | zero => exact (if_pos hnil).symm
  | succ fuel ih =>
      rw [decodeLoopChecked, cutLoop]
      by_cases hend : buffer.length ≤ at'
      · have hnone : nextBatch (buffer.drop at') = none := by
          rw [List.drop_eq_nil_of_le hend]
          rfl
        rw [if_pos hend, hnone]
        exact (if_pos hnil).symm
      · have hlength : i32At (buffer.drop at') Field.length = i32At buffer (at' + Field.length) := by
          rw [i32At, i32At, intAt, intAt, getRange_drop buffer (by omega), add_assoc]
        rw [if_neg hend, addIndex_eq (by rw [Field.length]; omega), of_ok_bind,
          addIndex_eq (by rw [Field.length]; omega), of_ok_bind, nextBatch, hlength]
        cases hfield : i32At buffer (at' + Field.length) with
        | none => exact (if_pos hnil).symm
        | some length =>
            have hfits : length < 2 ^ 31 := by
              rw [i32At, intAt] at hfield
              obtain ⟨bytes, -, rfl⟩ := Option.map_eq_some_iff.mp hfield
              exact (fits_wrap (w := 32) (by decide) _).2
            have hdrop : (buffer.drop at').length = buffer.length - at' := List.length_drop
            simp only [of_ok_bind, Option.bind_eq_bind, Option.bind_some]
            rw [addIndex_eq (by rw [Field.length]; omega), of_ok_bind, hdrop]
            generalize hsize : Field.length + 4 + (max length 0).toNat = size
            have hnext : at' + Field.length + 4 + (max length 0).toNat = at' + size := by omega
            rw [hnext, Nat.add_sub_cancel_left]
            by_cases hstop : length ≤ 0 ∨ size > buffer.length - at'
            · rw [if_pos (by omega), if_pos hstop]
              exact (if_pos hnil).symm
            · rw [if_neg (by omega), if_neg hstop]
              by_cases hheader : size < Field.headerLen
              · rw [if_pos hheader, if_pos hheader]
                exact (if_pos hnil).symm
              · have hraw : ((buffer.drop at').take size).length ≤ isizeMax := by
                  rw [List.length_take]
                  omega
                rw [if_neg hheader, if_neg hheader, List.drop_drop,
                  decodeBatchChecked_eq hsized (by omega) hraw]
                exact decodeAll_step (ih _)

theorem decodeLeanChecked_eq (hsized : Sized codecs) {buffer : Bytes}
    (hbuffer : buffer.length ≤ isizeMax) :
    decodeLeanChecked codecs buffer =
      if SumsFit codecs (cut buffer).1 then of ( decodeLean codecs buffer) else overflow := by
  rw [decodeLeanChecked, decodeLoopChecked_eq hsized hbuffer, List.drop_zero,
    decodeLean_eq_decodeAll]
  rfl

/-- An offset that was decoded is a value of its type, whether its sum was or not. -/
theorem fits_of_decodeLean {buffer : Bytes} {batches : List LeanBatch}
    (h : decodeLean codecs buffer = .ok (some batches)) :
    ∀ batch ∈ batches, ∀ r ∈ batch.records, Fits 64 r.offset := by
  intro batch hbatch r hr
  have hmem : (batch.buffer, r) ∈ batches.flatMap fun batch =>
      batch.records.map fun r => (batch.buffer, r) :=
    List.mem_flatMap.mpr ⟨batch, hbatch, List.mem_map.mpr ⟨r, hr, rfl⟩⟩
  rw [← taken_eq h] at hmem
  obtain ⟨p, -, heq⟩ := List.mem_map.mp hmem
  obtain ⟨-, rfl⟩ := Prod.mk.inj heq
  exact fits_wrap (by decide) _

end Buffer

/-! ### The filters -/

section Filters

variable (lastStableOffset : ℤ) (isolation : IsolationLevel) (fetchOffset : ℤ)

/-- The offset behind one. -/
def nextChecked (offset : ℤ) : Option ℤ :=
  if Fits 64 (offset + 1) then some (offset + 1) else none

theorem nextChecked_eq (offset : ℤ) :
    nextChecked offset = if Fits 64 (offset + 1) then some (wrap 64 (offset + 1)) else none := by
  rw [nextChecked]
  split
  · next hfits => rw [wrap_eq_self (by decide) hfits]
  · rfl

/-- The loop of `filter_batches`, with its addition checked. -/
def filterBatchesLoopChecked :
    AbortTracker → ℤ → List LeanBatch → Option (List LeanBatch × ℤ)
  | _, nextOffset, [] => some ([], nextOffset)
  | tracker, nextOffset, batch :: batches =>
      match batch.records.head? with
      | none => filterBatchesLoopChecked tracker nextOffset batches
      | some r =>
          if isolation = .readCommitted ∧ lastStableOffset ≤ r.offset then some ([], nextOffset)
          else
            let tracker := tracker.openUpTo r.offset
            let last := match batch.records.getLast? with
              | none => r.offset
              | some r => r.offset
            (nextChecked last).bind fun nextOffset =>
              if batch.control then
                filterBatchesLoopChecked (closeMarkers batch batch.records tracker) nextOffset batches
              else if isolation = .readCommitted ∧ batch.transactional ∧
                  batch.producerId ∈ tracker.producers then
                filterBatchesLoopChecked tracker nextOffset batches
              else
                let records :=
                  retain lastStableOffset isolation fetchOffset batch.records r.offset
                (filterBatchesLoopChecked tracker nextOffset batches).map fun rest =>
                  if records.isEmpty then rest else ({ batch with records } :: rest.1, rest.2)

def filterBatchesChecked (batches : List LeanBatch) (aborted : List AbortedTransaction) :
    Option (List LeanBatch × ℤ) :=
  filterBatchesLoopChecked lastStableOffset isolation fetchOffset (.new aborted) fetchOffset batches

/-- The loop of `filter`, with its addition checked. -/
def filterLoopChecked : AbortTracker → ℤ → List Record → Option Fetched
  | _, nextOffset, [] => some ⟨[], nextOffset⟩
  | tracker, nextOffset, record :: records =>
      if isolation = .readCommitted ∧ lastStableOffset ≤ record.offset then some ⟨[], nextOffset⟩
      else
        (nextChecked record.offset).bind fun nextOffset =>
          let tracker := tracker.openUpTo record.offset
          if record.control then
            let tracker :=
              if controlType record = some controlAbort then tracker.close record.producerId
              else tracker
            filterLoopChecked tracker nextOffset records
          else if isolation = .readCommitted ∧ record.transactional ∧
              record.producerId ∈ tracker.producers then
            filterLoopChecked tracker nextOffset records
          else if record.offset < fetchOffset then filterLoopChecked tracker nextOffset records
          else
            (filterLoopChecked tracker nextOffset records).map fun rest =>
              ⟨record :: rest.records, rest.nextOffset⟩

/-- The scan ahead of the loop of `filter` finds nothing to drop. -/
def Untouched (records : List Record) (aborted : List AbortedTransaction) : Prop :=
  aborted.isEmpty ∧ !records.any (fun r => r.control || r.offset < fetchOffset ||
    (isolation = .readCommitted && lastStableOffset ≤ r.offset))

instance (records : List Record) (aborted : List AbortedTransaction) :
    Decidable (Untouched lastStableOffset isolation fetchOffset records aborted) :=
  inferInstanceAs (Decidable (_ ∧ _))

/-- `filter`, with its additions checked. -/
def filterChecked (records : List Record) (aborted : List AbortedTransaction) : Option Fetched :=
  if Untouched lastStableOffset isolation fetchOffset records aborted then
    match records.getLast? with
    | none => some ⟨records, fetchOffset⟩
    | some r => (nextChecked r.offset).map (⟨records, ·⟩)
  else
    filterLoopChecked lastStableOffset isolation fetchOffset (.new aborted) fetchOffset records

/-- The last offsets of the batches that `filter_batches` gets past. -/
def batchEnds : List LeanBatch → List ℤ
  | [] => []
  | batch :: batches =>
      match batch.records.head? with
      | none => batchEnds batches
      | some r =>
          if isolation = .readCommitted ∧ lastStableOffset ≤ r.offset then []
          else (match batch.records.getLast? with
            | none => r.offset
            | some r => r.offset) :: batchEnds batches

/-- The offsets of the records that the loop of `filter` gets past. -/
def recordEnds : List Record → List ℤ
  | [] => []
  | record :: records =>
      if isolation = .readCommitted ∧ lastStableOffset ≤ record.offset then []
      else record.offset :: recordEnds records

/-- The offsets that `filter` makes a next one of. -/
def filterEnds (records : List Record) (aborted : List AbortedTransaction) : List ℤ :=
  if Untouched lastStableOffset isolation fetchOffset records aborted then
    records.getLast?.toList.map Record.offset
  else recordEnds lastStableOffset isolation records

theorem filterBatchesLoopChecked_eq (tracker : AbortTracker) (nextOffset : ℤ)
    (batches : List LeanBatch) :
    filterBatchesLoopChecked lastStableOffset isolation fetchOffset tracker nextOffset batches =
      if ∀ offset ∈ batchEnds lastStableOffset isolation batches, Fits 64 (offset + 1) then
        some (filterBatchesLoop lastStableOffset isolation fetchOffset tracker nextOffset batches)
      else none := by
  induction batches generalizing tracker nextOffset with
  | nil => simp [filterBatchesLoopChecked, batchEnds, filterBatchesLoop]
  | cons batch batches ih =>
      rw [filterBatchesLoopChecked, batchEnds, filterBatchesLoop]
      cases hrecords : batch.records with
      | nil => exact ih tracker nextOffset
      | cons q qs =>
          have hlast : (q :: qs).getLast? = some ((q :: qs).getLast (by simp)) :=
            List.getLast?_eq_some_getLast _
          simp only [List.head?_cons, hlast]
          generalize ((q :: qs).getLast (by simp)).offset = last
          split
          · rw [if_pos (by simp)]
          · simp only [nextChecked_eq, List.forall_mem_cons]
            by_cases hfits : Fits 64 (last + 1)
            · rw [if_pos hfits, Option.bind_some]
              simp only [hfits, true_and, ih]
              by_cases hrest : ∀ offset ∈ batchEnds lastStableOffset isolation batches,
                  Fits 64 (offset + 1)
              · simp only [if_pos hrest, Option.map_some]
                split
                · rfl
                · split
                  · rfl
                  · split <;> rfl
              · simp only [if_neg hrest, Option.map_none, ite_self]
            · rw [if_neg hfits, Option.bind_none, if_neg (fun h : Fits 64 (last + 1) ∧ _ => hfits h.1)]

theorem filterLoopChecked_eq (tracker : AbortTracker) (nextOffset : ℤ) (records : List Record) :
    filterLoopChecked lastStableOffset isolation fetchOffset tracker nextOffset records =
      if ∀ offset ∈ recordEnds lastStableOffset isolation records, Fits 64 (offset + 1) then
        some (filterLoop lastStableOffset isolation fetchOffset tracker nextOffset records)
      else none := by
  induction records generalizing tracker nextOffset with
  | nil => simp [filterLoopChecked, recordEnds, filterLoop]
  | cons r records ih =>
      rw [filterLoopChecked, recordEnds, filterLoop]
      split
      · rw [if_pos (by simp)]
      · rw [nextChecked_eq]
        simp only [List.forall_mem_cons]
        by_cases hlast : Fits 64 (r.offset + 1)
        · rw [if_pos hlast, Option.bind_some]
          simp only [hlast, true_and, ih]
          by_cases hrest : ∀ offset ∈ recordEnds lastStableOffset isolation records,
              Fits 64 (offset + 1)
          · simp only [if_pos hrest, Option.map_some]
            split
            · rfl
            · split
              · rfl
              · split <;> rfl
          · simp only [if_neg hrest, Option.map_none, ite_self]
        · rw [if_neg hlast, Option.bind_none, if_neg (fun h : Fits 64 (r.offset + 1) ∧ _ => hlast h.1)]

theorem filterChecked_eq (records : List Record) (aborted : List AbortedTransaction) :
    filterChecked lastStableOffset isolation fetchOffset records aborted =
      if ∀ offset ∈ filterEnds lastStableOffset isolation fetchOffset records aborted,
          Fits 64 (offset + 1) then
        some (filter lastStableOffset isolation fetchOffset records aborted)
      else none := by
  rw [filterChecked, filterEnds]
  by_cases hfast : Untouched lastStableOffset isolation fetchOffset records aborted
  · have hfilter : filter lastStableOffset isolation fetchOffset records aborted =
        ⟨records, match records.getLast? with
          | none => fetchOffset
          | some r => wrap 64 (r.offset + 1)⟩ := if_pos hfast
    rw [if_pos hfast, if_pos hfast, hfilter]
    cases records.getLast? with
    | none => simp
    | some r =>
        simp only [nextChecked_eq, Option.toList_some, List.map_cons, List.map_nil,
          List.forall_mem_singleton]
        split <;> rfl
  · have hfilter : filter lastStableOffset isolation fetchOffset records aborted =
        filterLoop lastStableOffset isolation fetchOffset (.new aborted) fetchOffset records :=
      if_neg hfast
    rw [if_neg hfast, if_neg hfast, hfilter]
    exact filterLoopChecked_eq lastStableOffset isolation fetchOffset _ _ _

theorem mem_batchEnds {batches : List LeanBatch} {offset : ℤ}
    (h : offset ∈ batchEnds lastStableOffset isolation batches) :
    ∃ batch ∈ batches, ∃ r ∈ batch.records, r.offset = offset := by
  induction batches with
  | nil => cases h
  | cons batch batches ih =>
      rw [batchEnds] at h
      cases hrecords : batch.records with
      | nil =>
          rw [hrecords] at h
          obtain ⟨other, hother, hr⟩ := ih h
          exact ⟨other, List.mem_cons_of_mem _ hother, hr⟩
      | cons q qs =>
          have hlast : (q :: qs).getLast? = some ((q :: qs).getLast (by simp)) :=
            List.getLast?_eq_some_getLast _
          simp only [hrecords, List.head?_cons, hlast] at h
          split at h
          · cases h
          · rcases List.mem_cons.mp h with rfl | h
            · refine ⟨batch, List.mem_cons_self, (q :: qs).getLast (by simp), ?_, rfl⟩
              rw [hrecords]
              exact List.getLast_mem _
            · obtain ⟨other, hother, hr⟩ := ih h
              exact ⟨other, List.mem_cons_of_mem _ hother, hr⟩

theorem mem_recordEnds {records : List Record} {offset : ℤ}
    (h : offset ∈ recordEnds lastStableOffset isolation records) :
    ∃ r ∈ records, r.offset = offset := by
  induction records with
  | nil => cases h
  | cons r records ih =>
      rw [recordEnds] at h
      split at h
      · cases h
      · rcases List.mem_cons.mp h with rfl | h
        · exact ⟨r, List.mem_cons_self, rfl⟩
        · obtain ⟨other, hother, heq⟩ := ih h
          exact ⟨other, List.mem_cons_of_mem _ hother, heq⟩

theorem mem_filterEnds {records : List Record} {aborted : List AbortedTransaction} {offset : ℤ}
    (h : offset ∈ filterEnds lastStableOffset isolation fetchOffset records aborted) :
    ∃ r ∈ records, r.offset = offset := by
  rw [filterEnds] at h
  split at h
  · obtain ⟨r, hr, heq⟩ := List.mem_map.mp h
    exact ⟨r, List.mem_of_getLast? (Option.mem_toList.mp hr), heq⟩
  · exact mem_recordEnds _ _ h

end Filters

/-- The additions of a fetch stay in their types if and only if every offset and timestamp
that the wire spells out is one, and no batch and no record that a filter gets past is at
the largest offset there is. Without an overflow the results are those of the plain
functions. -/
theorem no_overflow_iff {codecs : Codecs} (hsized : Sized codecs) {buffer : Bytes}
    (hbuffer : buffer.length ≤ isizeMax) (lastStableOffset : ℤ) (isolation : IsolationLevel)
    (fetchOffset : ℤ) (aborted : List AbortedTransaction) {records : List Record}
    (hrecords : ∀ r ∈ records, Fits 64 r.offset) :
    (decodeLeanChecked codecs buffer = of ( decodeLean codecs buffer) ∧
      (∀ batches, decodeLean codecs buffer = .ok (some batches) →
        filterBatchesChecked lastStableOffset isolation fetchOffset batches aborted =
          some (filterBatches lastStableOffset isolation fetchOffset batches aborted)) ∧
      filterChecked lastStableOffset isolation fetchOffset records aborted =
        some (filter lastStableOffset isolation fetchOffset records aborted)) ↔
    SumsFit codecs (cut buffer).1 ∧
      (∀ batches, decodeLean codecs buffer = .ok (some batches) →
        ∀ offset ∈ batchEnds lastStableOffset isolation batches, offset ≠ i64Max) ∧
      ∀ offset ∈ filterEnds lastStableOffset isolation fetchOffset records aborted,
        offset ≠ i64Max := by
  have hiff : ∀ {p : Prop} [Decidable p] {α : Type} (a : α),
      ((if p then some a else none) = some a ↔ p) := by
    intro p _ α a
    by_cases hp : p
    · simp [hp]
    · simp [hp]
  refine and_congr ?_ (and_congr (forall₂_congr fun batches hdecode => ?_) ?_)
  · rw [decodeLeanChecked_eq hsized hbuffer]
    exact hiff ( decodeLean codecs buffer)
  · rw [filterBatchesChecked, filterBatchesLoopChecked_eq, filterBatches, hiff]
    refine forall₂_congr fun offset hoffset => fits64_succ_iff ?_
    obtain ⟨batch, hbatch, r, hr, rfl⟩ := mem_batchEnds _ _ hoffset
    exact fits_of_decodeLean hdecode batch hbatch r hr
  · rw [filterChecked_eq, hiff]
    refine forall₂_congr fun offset hoffset => fits64_succ_iff ?_
    obtain ⟨r, hr, rfl⟩ := mem_filterEnds _ _ _ hoffset
    exact hrecords r hr

/-! ### Sums at the end of the range -/

theorem snappyBlocks_plainCodecs {fuel : ℕ} {rest body : Bytes}
    (h : snappyBlocks plainCodecs fuel rest = .ok body) : body = [] := by
  cases fuel with
  | zero =>
      cases h
      rfl
  | succ fuel =>
      rw [snappyBlocks] at h
      split at h
      · cases h
        rfl
      · cases hlen : getRange rest 0 4 with
        | none =>
            rw [hlen] at h
            cases h
        | some bytes =>
            rw [hlen] at h
            dsimp only at h
            rw [pure_bind] at h
            cases hblock : getRange rest 4 (4 + bigEndian bytes) with
            | none =>
                rw [hblock] at h
                cases h
            | some block =>
                rw [hblock] at h
                cases h

theorem sized_plainCodecs : Sized plainCodecs := by
  intro codec compressed body h
  rw [decompress.eq_def] at h
  split at h
  · cases h
  · rw [snappy] at h
    split at h
    · rw [snappyBlocks_plainCodecs h]
      exact Nat.zero_le _
    · cases h
  · cases h
  · cases h
  · cases h

/-- For the batch of `sampleBatch` nothing overflows. -/
theorem no_overflow_iff_sample :
    decodeLeanChecked plainCodecs (sampleBatch.bytes plainCodecs) =
      of ( decodeLean plainCodecs (sampleBatch.bytes plainCodecs)) := by
  have hiff := no_overflow_iff sized_plainCodecs
    (show (sampleBatch.bytes plainCodecs).length ≤ isizeMax by decide) 10 .readCommitted 0 []
    (show ∀ r ∈ [plainRecord 5 7 false false []], Fits 64 r.offset by decide)
  refine (hiff.mpr ⟨by decide +kernel, ?_, by decide⟩).1
  intro batches hdecode offset hoffset
  obtain rfl : [⟨[18, 0, 0, 0, 1, 0, 2, 2, 104, 1], 5, -1, false, false,
      [⟨5, 1000, (u32Max, 0), (6, 0), (7, 3), 1⟩]⟩] = batches :=
    Option.some.inj (Except.ok.inj ((by decide +kernel : decodeLean plainCodecs
      (sampleBatch.bytes plainCodecs) = .ok (some _)).symm.trans hdecode))
  obtain rfl : offset = 5 := List.mem_singleton.mp hoffset
  decide

/-- A batch at the largest offset, and in it a record one further on. -/
def beyond : Bytes := rawBatch plainCodecs i64Max 0 1 [12, 0, 0, 2, 1, 1, 0]

/-- The sum overflows: a panic, or in a release build the offset `-2 ^ 63`. -/
theorem offset_overflows :
    decodeLeanChecked plainCodecs beyond = overflow ∧
      (∃ batch, decodeLean plainCodecs beyond = .ok (some [batch]) ∧
        batch.records.map LeanRecord.offset = [-2 ^ 63]) ∧
      decodeLeanChecked plainCodecs beyond ≠ of ( decodeLean plainCodecs beyond) := by
  have hoverflow : decodeLeanChecked plainCodecs beyond = overflow := by
    rw [decodeLeanChecked_eq sized_plainCodecs (by decide)]
    exact if_neg (by decide +kernel)
  refine ⟨hoverflow, ⟨⟨[12, 0, 0, 2, 1, 1, 0], i64Max, -1, false, false,
    [⟨-2 ^ 63, 0, (u32Max, 0), (u32Max, 0), (7, 0), 0⟩]⟩, by decide +kernel, by decide⟩, ?_⟩
  rw [hoverflow]
  exact (of_ne_overflow _).symm

end Barnabas.Core
