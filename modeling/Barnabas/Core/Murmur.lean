import Barnabas.Core.Partitioner

/-!
murmur2 by index, as `barnabas-core/src/partitioner.rs` writes it, beside the
`Utils.murmur2` of the Java client. Java has no unsigned integers: a byte is
sign-extended and masked, `>>>` is a shift of its own, the four bytes of a block
are added and the cases of the tail fall through. The two agree on every key.
-/

namespace Barnabas.Core

open Barnabas.Lib

/-! ### The loop over indices -/

/-- `u32::from(data[i])`. There is none where the index is out of bounds, which
is a panic. -/
def octetAt (data : Bytes) (i : ℕ) : Option UInt32 := data[i]?.map UInt8.toUInt32

/-- One turn of the loop over the blocks. -/
def murmurBlock (data : Bytes) (h : UInt32) (i : ℕ) : Option UInt32 := do
  let i4 := i * 4
  let k := (← octetAt data i4) ||| ((← octetAt data (i4 + 1)) <<< 8) |||
    ((← octetAt data (i4 + 2)) <<< 16) ||| ((← octetAt data (i4 + 3)) <<< 24)
  let k := k * murmurM
  let k := k ^^^ (k >>> 24)
  let k := k * murmurM
  return (h * murmurM) ^^^ k

/-- The last one to three bytes, a branch for each count. -/
def murmurTail (data : Bytes) (h : UInt32) : Option UInt32 := do
  -- `length & !3`
  let tail := data.length / 4 * 4
  match data.length % 4 with
  | 3 =>
      let h := h ^^^ ((← octetAt data (tail + 2)) <<< 16)
      let h := h ^^^ ((← octetAt data (tail + 1)) <<< 8)
      let h := h ^^^ (← octetAt data tail)
      return h * murmurM
  | 2 =>
      let h := h ^^^ ((← octetAt data (tail + 1)) <<< 8)
      let h := h ^^^ (← octetAt data tail)
      return h * murmurM
  | 1 =>
      let h := h ^^^ (← octetAt data tail)
      return h * murmurM
  | _ => return h

/-- The last mix. -/
def murmurMix (h : UInt32) : UInt32 :=
  let h := h ^^^ (h >>> 13)
  let h := h * murmurM
  h ^^^ (h >>> 15)

/-- `murmur2` with every slice index checked. -/
def murmur2Indexed (data : Bytes) : Option UInt32 := do
  let h ← (List.range (data.length / 4)).foldlM (murmurBlock data)
    (0x9747b28c ^^^ UInt32.ofNat data.length)
  let h ← murmurTail data h
  return murmurMix h

/-- The four bytes of a block as one word. -/
def word (a b c d : UInt8) : UInt32 :=
  a.toUInt32 ||| (b.toUInt32 <<< 8) ||| (c.toUInt32 <<< 16) ||| (d.toUInt32 <<< 24)

/-- The hash after a block. -/
def mixed (h k : UInt32) : UInt32 :=
  let k := k * murmurM
  let k := k ^^^ (k >>> 24)
  let k := k * murmurM
  (h * murmurM) ^^^ k

theorem murmurLoop_block (a b c d : UInt8) (rest : Bytes) (h : UInt32) :
    murmurLoop (a :: b :: c :: d :: rest) h = murmurLoop rest (mixed h (word a b c d)) := by
  rw [mixed, word]
  conv => lhs; unfold murmurLoop

theorem octetAt_eq {data : Bytes} {i : ℕ} {a : UInt8} (ha : data[i]? = some a) :
    octetAt data i = some a.toUInt32 := by
  rw [octetAt, ha, Option.map_some]

/-- An index past what the blocks before it took is one into the rest. -/
theorem getElem?_past {pre : Bytes} {j : ℕ} (hpre : pre.length = j * 4) (rest : Bytes) (i : ℕ) :
    (pre ++ rest)[j * 4 + i]? = rest[i]? := by
  rw [List.getElem?_append_right (by omega), hpre, Nat.add_sub_cancel_left]

theorem murmurBlock_past {pre : Bytes} {j : ℕ} (hpre : pre.length = j * 4)
    (a b c d : UInt8) (rest : Bytes) (h : UInt32) :
    murmurBlock (pre ++ a :: b :: c :: d :: rest) h j = some (mixed h (word a b c d)) := by
  have hpast := getElem?_past hpre (a :: b :: c :: d :: rest)
  simp only [murmurBlock, octetAt_eq (i := j * 4) (hpast 0), octetAt_eq (hpast 1), octetAt_eq (hpast 2),
    octetAt_eq (hpast 3), Option.bind_eq_bind, Option.bind_some, Option.pure_def, mixed, word]

/-- The tail of a message whose blocks are read is the loop on its last bytes. -/
theorem murmurTail_past {pre : Bytes} {j : ℕ} (hpre : pre.length = j * 4) (rest : Bytes)
    (hrest : rest.length < 4) (h : UInt32) :
    murmurTail (pre ++ rest) h = some (murmurLoop rest h) := by
  have htail : (pre ++ rest).length / 4 * 4 = j * 4 := by
    rw [List.length_append, hpre]
    omega
  have hcount : (pre ++ rest).length % 4 = rest.length := by
    rw [List.length_append, hpre]
    omega
  have hpast := getElem?_past hpre rest
  rw [murmurTail, htail, hcount]
  match rest, hrest with
  | [], _ =>
      unfold murmurLoop
      rfl
  | [a], _ =>
      unfold murmurLoop
      simp only [List.length_singleton, octetAt_eq (i := j * 4) (hpast 0), Option.bind_eq_bind,
        Option.bind_some, Option.pure_def]
  | [a, b], _ =>
      unfold murmurLoop
      simp only [List.length_cons, List.length_nil, octetAt_eq (i := j * 4) (hpast 0), octetAt_eq (hpast 1),
        Option.bind_eq_bind, Option.bind_some, Option.pure_def]
  | [a, b, c], _ =>
      unfold murmurLoop
      simp only [List.length_cons, List.length_nil, octetAt_eq (i := j * 4) (hpast 0), octetAt_eq (hpast 1),
        octetAt_eq (hpast 2), Option.bind_eq_bind, Option.bind_some, Option.pure_def]

theorem indexed_end {pre : Bytes} {j : ℕ} (hpre : pre.length = j * 4) (rest : Bytes)
    (hrest : rest.length < 4) (h : UInt32) :
    ((List.range' j (rest.length / 4)).foldlM (murmurBlock (pre ++ rest)) h).bind
      (murmurTail (pre ++ rest)) = some (murmurLoop rest h) := by
  have hnone : rest.length / 4 = 0 := by omega
  rw [hnone, List.range'_zero, List.foldlM_nil]
  exact murmurTail_past hpre rest hrest h

/-- The blocks from the `j`-th on and the tail are the loop over what is left. -/
theorem indexed_eq_murmurLoop (rest : Bytes) (h : UInt32) :
    ∀ (pre : Bytes) (j : ℕ), pre.length = j * 4 →
      ((List.range' j (rest.length / 4)).foldlM (murmurBlock (pre ++ rest)) h).bind
        (murmurTail (pre ++ rest)) = some (murmurLoop rest h) := by
  induction rest, h using murmurLoop.induct with
  | case1 a b c d rest h k₀ k₁ k₂ k₃ ih =>
      intro pre j hpre
      have hlength : (a :: b :: c :: d :: rest).length / 4 = rest.length / 4 + 1 := by
        simp only [List.length_cons]
        omega
      have hsplit : pre ++ a :: b :: c :: d :: rest = (pre ++ [a, b, c, d]) ++ rest := by simp
      have hblock := murmurBlock_past hpre a b c d rest h
      have htaken : (pre ++ [a, b, c, d]).length = (j + 1) * 4 := by
        simp only [List.length_append, List.length_cons, List.length_nil, hpre]
        omega
      rw [hlength, List.range'_succ, List.foldlM_cons, hblock, murmurLoop_block, hsplit]
      exact ih (pre ++ [a, b, c, d]) (j + 1) htaken
  | case2 a b c h => exact fun pre j hpre => indexed_end hpre [a, b, c] (by simp) h
  | case3 a b h => exact fun pre j hpre => indexed_end hpre [a, b] (by simp) h
  | case4 a h => exact fun pre j hpre => indexed_end hpre [a] (by simp) h
  | case5 h => exact fun pre j hpre => indexed_end hpre [] (by simp) h

/-- No index is out of bounds, whatever the length of the key, and the loop over
indices is the loop over the list. -/
theorem murmur2Indexed_eq (data : Bytes) :
    murmur2Indexed data = some (murmurMix
      (murmurLoop data (0x9747b28c ^^^ UInt32.ofNat data.length))) := by
  have hloop := indexed_eq_murmurLoop data (0x9747b28c ^^^ UInt32.ofNat data.length) [] 0 rfl
  rw [List.nil_append, ← List.range_eq_range'] at hloop
  obtain ⟨h, hfold, htail⟩ := Option.bind_eq_some_iff.mp hloop
  simp only [murmur2Indexed, hfold, Option.bind_eq_bind, Option.bind_some, htail,
    Option.pure_def]

/-- The hash of the model is the word the code computes, as an `i32`. -/
theorem murmur2_eq {data : Bytes} {h : UInt32} (hrun : murmur2Indexed data = some h) :
    murmur2 data = h.toInt32.toInt := by
  rw [murmur2Indexed_eq, Option.some.injEq] at hrun
  show wrap 32 (murmurMix _).toNat = h.toBitVec.toInt
  rw [hrun, wrap, BitVec.toInt_eq_toNat_bmod]
  rfl

/-! ### The Java client -/

namespace Java

/-- `data[i] & 0xff`, an `int`. There is none where Java throws. -/
def octet (data : List Int8) (i : ℕ) : Option Int32 := data[i]?.map fun b => b.toInt32 &&& 0xff

/-- `x >>> s` on an `int`: the arithmetic shift, and for a negative `x` the sign
bits it shifted in are added away. -/
def ushr (x s : Int32) : Int32 := if 0 ≤ x then x >>> s else (x >>> s) + (2 <<< ~~~s)

def m : Int32 := 0x5bd1e995

def r : Int32 := 24

/-- One turn of the loop over the blocks. An index of an array is below `2 ^ 31`,
so its arithmetic does not wrap. -/
def block (data : List Int8) (h : Int32) (i : ℕ) : Option Int32 := do
  let i4 := i * 4
  let k := (← octet data (i4 + 0)) + ((← octet data (i4 + 1)) <<< 8) +
    ((← octet data (i4 + 2)) <<< 16) + ((← octet data (i4 + 3)) <<< 24)
  let k := k * m
  let k := k ^^^ ushr k r
  let k := k * m
  let h := h * m
  return h ^^^ k

/-- `case 1`, the last of the switch. -/
def case1 (data : List Int8) (h : Int32) : Option Int32 := do
  let h := h ^^^ (← octet data (data.length / 4 * 4))
  return h * m

/-- `case 2`, which falls through. -/
def case2 (data : List Int8) (h : Int32) : Option Int32 := do
  let h := h ^^^ ((← octet data (data.length / 4 * 4 + 1)) <<< 8)
  case1 data h

/-- `case 3`, which falls through. -/
def case3 (data : List Int8) (h : Int32) : Option Int32 := do
  let h := h ^^^ ((← octet data (data.length / 4 * 4 + 2)) <<< 16)
  case2 data h

def tail (data : List Int8) (h : Int32) : Option Int32 :=
  match data.length % 4 with
  | 3 => case3 data h
  | 2 => case2 data h
  | 1 => case1 data h
  | _ => some h

/-- `Utils.murmur2`. -/
def murmur2 (data : List Int8) : Option Int32 := do
  let seed : Int32 := 0x9747b28c
  let h := seed ^^^ Int32.ofNat data.length
  let h ← (List.range (data.length / 4)).foldlM (block data) h
  let h ← tail data h
  let h := h ^^^ ushr h 13
  let h := h * m
  return h ^^^ ushr h 15

/-- `Utils.toPositive`. -/
def toPositive (number : Int32) : Int32 := number &&& 0x7fffffff

theorem nonneg_iff (x : UInt32) : 0 ≤ x.toInt32 ↔ x.toBitVec.msb = false := by
  rw [Int32.le_iff_toInt_le]
  show (0 : ℤ) ≤ x.toBitVec.toInt ↔ _
  simp [BitVec.msb_eq_toInt]

/-- Adding one bit above what is left clears the sign bits of a shift. -/
theorem sshiftRight_add_eq {x : BitVec 32} {n : ℕ} (hx : x.msb = true) (hpos : 0 < n)
    (hlt : n < 32) : x.sshiftRight n + BitVec.ofNat 32 (2 ^ (32 - n)) = x >>> n := by
  have hword : 2 ^ n * 2 ^ (32 - n) = 2 ^ 32 := by
    rw [← pow_add, show n + (32 - n) = 32 by omega]
  have hrange : x.toNat < 2 ^ n * 2 ^ (32 - n) := by
    rw [hword]
    exact x.isLt
  have hquot : x.toNat / 2 ^ n < 2 ^ (32 - n) := Nat.div_lt_of_lt_mul hrange
  have hsub := Nat.mul_sub_div x.toNat (2 ^ n) (2 ^ (32 - n)) hrange
  have hfill : 2 ^ (32 - n) < 2 ^ 32 := Nat.pow_lt_pow_right (by omega) (by omega)
  have hnot : (~~~(~~~x >>> n)).toNat = 2 ^ 32 - 1 - (2 ^ (32 - n) - (x.toNat / 2 ^ n + 1)) := by
    rw [BitVec.toNat_not, BitVec.toNat_ushiftRight, BitVec.toNat_not, Nat.shiftRight_eq_div_pow,
      ← hsub, hword, Nat.add_comm x.toNat, ← Nat.sub_sub (2 ^ 32)]
  apply BitVec.eq_of_toNat_eq
  rw [BitVec.sshiftRight_eq_of_msb_true hx, BitVec.toNat_add, hnot, BitVec.toNat_ofNat,
    Nat.mod_eq_of_lt hfill, BitVec.toNat_ushiftRight, Nat.shiftRight_eq_div_pow]
  generalize 2 ^ (32 - n) = fill at *
  generalize x.toNat / 2 ^ n = quot at *
  omega

/-- `>>>` is the shift of unsigned words. -/
theorem ushr_toInt32 (x : UInt32) {s : Int32} {n : UInt32} (hpos : 0 < n) (hlt : n < 32)
    (hs : (s.toBitVec.smod 32).toNat = n.toNat)
    (hfill : 2 <<< ~~~s = (UInt32.ofNat (2 ^ (32 - n.toNat))).toInt32) :
    ushr x.toInt32 s = (x >>> n).toInt32 := by
  apply Int32.toBitVec_inj.mp
  have hshift : (x.toInt32 >>> s).toBitVec = x.toBitVec.sshiftRight n.toNat := by
    rw [Int32.toBitVec_shiftRight, BitVec.sshiftRight_eq', hs, UInt32.toBitVec_toInt32]
  have hright : (x >>> n).toInt32.toBitVec = x.toBitVec >>> n.toNat := by
    rw [UInt32.toBitVec_toInt32, UInt32.toBitVec_shiftRight, BitVec.ushiftRight_eq']
    congr 1
    exact Nat.mod_eq_of_lt hlt
  rw [hright, ushr]
  simp only [nonneg_iff]
  cases hmsb : x.toBitVec.msb with
  | false => rw [if_pos rfl, hshift, BitVec.sshiftRight_eq_of_msb_false hmsb]
  | true =>
      rw [if_neg (by decide), Int32.toBitVec_add, hshift, hfill]
      exact sshiftRight_add_eq hmsb hpos hlt

/-- The mask undoes the sign extension. -/
theorem mask_toInt32 (b : UInt8) : b.toInt8.toInt32 &&& 0xff = b.toUInt32.toInt32 := by
  apply Int32.toBitVec_inj.mp
  show (b.toBitVec.signExtend 32 &&& 255#32) = b.toBitVec.setWidth 32
  generalize b.toBitVec = v
  revert v
  decide

/-- A byte above the bits of `x` is added by `|` as by `+`. -/
theorem or_shiftLeft {x : UInt32} {b : UInt8} {n : UInt32} (hx : x.toNat < 2 ^ n.toNat)
    (hn : n.toNat ≤ 24) :
    x ||| (b.toUInt32 <<< n) = x + (b.toUInt32 <<< n) ∧
      (x + (b.toUInt32 <<< n)).toNat < 2 ^ (n.toNat + 8) := by
  have hb := b.toNat_lt
  have hfit : b.toNat * 2 ^ n.toNat + x.toNat < 2 ^ (n.toNat + 8) :=
    calc b.toNat * 2 ^ n.toNat + x.toNat
      _ < (b.toNat + 1) * 2 ^ n.toNat := by rw [Nat.add_one_mul]; omega
      _ ≤ 2 ^ 8 * 2 ^ n.toNat := Nat.mul_le_mul_right _ hb
      _ = 2 ^ (n.toNat + 8) := by rw [← pow_add, Nat.add_comm]
  have hroom : 2 ^ (n.toNat + 8) ≤ 2 ^ 32 := Nat.pow_le_pow_right (by omega) (by omega)
  have hshift : (b.toUInt32 <<< n).toNat = b.toNat * 2 ^ n.toNat := by
    rw [UInt32.toNat_shiftLeft, UInt8.toNat_toUInt32, Nat.mod_eq_of_lt (by omega : n.toNat < 32),
      Nat.shiftLeft_eq]
    exact Nat.mod_eq_of_lt (by omega)
  have hsum : (x + (b.toUInt32 <<< n)).toNat = x.toNat + b.toNat * 2 ^ n.toNat := by
    rw [UInt32.toNat_add, hshift]
    exact Nat.mod_eq_of_lt (by omega)
  constructor
  · apply UInt32.toNat_inj.mp
    rw [hsum, UInt32.toNat_or, hshift, Nat.or_comm, Nat.mul_comm,
      ← Nat.two_pow_add_eq_or_of_lt hx, Nat.add_comm]
  · omega

theorem word_eq (a b c d : UInt8) :
    word a b c d =
      a.toUInt32 + (b.toUInt32 <<< 8) + (c.toUInt32 <<< 16) + (d.toUInt32 <<< 24) := by
  have ha : a.toUInt32.toNat < 2 ^ (8 : UInt32).toNat := by simpa using a.toNat_lt
  obtain ⟨hb, hb'⟩ := or_shiftLeft (b := b) ha (by decide)
  obtain ⟨hc, hc'⟩ := or_shiftLeft (b := c) (n := 16) hb' (by decide)
  obtain ⟨hd, -⟩ := or_shiftLeft (b := d) (n := 24) hc' (by decide)
  rw [word, hb, hc, hd]

/-- The bytes of a key as Java has them. -/
def signed (data : Bytes) : List Int8 := data.map UInt8.toInt8

@[simp] theorem length_signed (data : Bytes) : (signed data).length = data.length :=
  List.length_map _

theorem octet_signed (data : Bytes) (i : ℕ) :
    octet (signed data) i = (octetAt data i).map UInt32.toInt32 := by
  rw [octet, signed, octetAt, List.getElem?_map, Option.map_map, Option.map_map]
  congr 1
  funext b
  exact mask_toInt32 b

theorem mixed_toInt32 (h k : UInt32) :
    (mixed h k).toInt32 =
      (h.toInt32 * m) ^^^ ((k.toInt32 * m ^^^ ushr (k.toInt32 * m) r) * m) := by
  have hm : m = murmurM.toInt32 := rfl
  rw [hm, ← UInt32.toInt32_mul, ← UInt32.toInt32_mul,
    ushr_toInt32 (k * murmurM) (s := r) (n := 24) (by decide) (by decide) (by decide) (by decide)]
  rfl

theorem word_toInt32 (a b c d : UInt8) :
    (word a b c d).toInt32 = a.toUInt32.toInt32 + (b.toUInt32.toInt32 <<< 8) +
      (c.toUInt32.toInt32 <<< 16) + (d.toUInt32.toInt32 <<< 24) := by
  rw [word_eq, UInt32.toInt32_add, UInt32.toInt32_add, UInt32.toInt32_add]
  rfl

/-- Both read a byte, or neither does. -/
theorem octet_bind_signed (data : Bytes) (i : ℕ) {f : UInt32 → Option UInt32}
    {g : Int32 → Option Int32}
    (hfg : ∀ a : UInt8, g a.toUInt32.toInt32 = (f a.toUInt32).map UInt32.toInt32) :
    (octet (signed data) i).bind g = ((octetAt data i).bind f).map UInt32.toInt32 := by
  rw [octet_signed, octetAt]
  cases data[i]? with
  | none => rfl
  | some a => exact hfg a

/-- A turn of Java's loop is a turn of the code's, also where an index is out of
bounds. -/
theorem block_signed (data : Bytes) (h : UInt32) (i : ℕ) :
    block (signed data) h.toInt32 i = (murmurBlock data h i).map UInt32.toInt32 := by
  apply octet_bind_signed
  intro a
  apply octet_bind_signed
  intro b
  apply octet_bind_signed
  intro c
  apply octet_bind_signed
  intro d
  have hmixed := mixed_toInt32 h (word a b c d)
  rw [word_toInt32] at hmixed
  exact congrArg some hmixed.symm

/-- The labels of the switch, fallen through, are the branches of the code. -/
theorem tail_signed (data : Bytes) (h : UInt32) :
    tail (signed data) h.toInt32 = (murmurTail data h).map UInt32.toInt32 := by
  rw [tail, murmurTail, length_signed]
  simp only [case3, case2, case1, length_signed]
  split
  · apply octet_bind_signed
    intro c
    apply octet_bind_signed
    intro b
    apply octet_bind_signed
    exact fun _ => rfl
  · apply octet_bind_signed
    intro b
    apply octet_bind_signed
    exact fun _ => rfl
  · apply octet_bind_signed
    exact fun _ => rfl
  · rfl

/-- A loop whose turns are simulated is simulated. -/
theorem foldlM_map {α β ι : Type} {f : α → ι → Option α} {g : β → ι → Option β} {t : α → β}
    (hturn : ∀ a i, g (t a) i = (f a i).map t) (is : List ι) (a : α) :
    is.foldlM g (t a) = (is.foldlM f a).map t := by
  induction is generalizing a with
  | nil => rfl
  | cons i is ih =>
      rw [List.foldlM_cons, List.foldlM_cons, hturn]
      cases f a i with
      | none => rfl
      | some a' => exact ih a'

theorem murmurMix_toInt32 (h : UInt32) :
    (murmurMix h).toInt32 =
      let h := h.toInt32 ^^^ ushr h.toInt32 13
      let h := h * m
      h ^^^ ushr h 15 := by
  have hm : m = murmurM.toInt32 := rfl
  have hxor (x y : UInt32) : (x ^^^ y).toInt32 = x.toInt32 ^^^ y.toInt32 := rfl
  have h13 := ushr_toInt32 h (s := 13) (n := 13) (by decide) (by decide) (by decide) (by decide)
  have h15 (x : UInt32) := ushr_toInt32 x (s := 15) (n := 15) (by decide) (by decide)
    (by decide) (by decide)
  simp only [murmurMix]
  rw [h13, ← hxor, hm, ← UInt32.toInt32_mul, h15, ← hxor]

/-- The hash of Java is the hash of the code, in the other reading of the word. -/
theorem murmur2_signed (data : Bytes) :
    murmur2 (signed data) = (murmur2Indexed data).map UInt32.toInt32 := by
  have hseed : (0x9747b28c : Int32) ^^^ Int32.ofNat data.length =
      ((0x9747b28c : UInt32) ^^^ UInt32.ofNat data.length).toInt32 := rfl
  simp only [murmur2, murmur2Indexed, length_signed, hseed, foldlM_map (block_signed data)]
  cases (List.range (data.length / 4)).foldlM (murmurBlock data)
      (0x9747b28c ^^^ UInt32.ofNat data.length) with
  | none => rfl
  | some h =>
      simp only [Option.map_some, Option.bind_eq_bind, Option.bind_some, tail_signed]
      cases murmurTail data h with
      | none => rfl
      | some h' =>
          have hmix := murmurMix_toInt32 h'
          simp only [Option.map_some, Option.bind_some, Option.pure_def, hmix]

/-- Masking the sign bit off leaves what is left modulo `2 ^ 31`. -/
theorem toInt_toPositive (h : Int32) : (toPositive h).toInt = (Core.toPositive h.toInt : ℤ) := by
  have hlow : (toPositive h).toBitVec.toNat = h.toBitVec.toNat % 2 ^ 31 := by
    show (h.toBitVec &&& 0x7fffffff#32).toNat = _
    rw [BitVec.toNat_and]
    exact Nat.and_two_pow_sub_one_eq_mod _ 31
  have hvalue : (toPositive h).toInt = ((h.toBitVec.toNat % 2 ^ 31 : ℕ) : ℤ) := by
    show (toPositive h).toBitVec.toInt = _
    rw [BitVec.toInt_eq_toNat_cond, hlow, if_pos (by omega)]
  have hres : h.toInt % 2 ^ 31 = ((h.toBitVec.toNat % 2 ^ 31 : ℕ) : ℤ) := by
    show h.toBitVec.toInt % 2 ^ 31 = _
    rw [BitVec.toInt_eq_toNat_cond]
    split <;> omega
  rw [hvalue, Core.toPositive, hres, Int.toNat_natCast]

end Java

/-- murmur2 places a key where the Java client does: at `toPositive(murmur2(key)) % n`
in Java's arithmetic, which is a partition. Every index of the code is in bounds. -/
theorem Partitioner.murmur2_places_as_java (key : Bytes) {n : Int32} (hn : 0 < n) (next : ℕ) :
    ∃ h : Int32, Java.murmur2 (Java.signed key) = some h ∧
      murmur2Indexed key = some h.toUInt32 ∧ Core.murmur2 key = h.toInt ∧
      Partitioner.murmur2.partitionFor (some key) n.toInt next =
        (some (Java.toPositive h % n).toInt, next) ∧
      0 ≤ (Java.toPositive h % n).toInt ∧ (Java.toPositive h % n).toInt < n.toInt := by
  have hindexed := murmur2Indexed_eq key
  generalize murmurMix _ = w at hindexed
  have hjava := Java.murmur2_signed key
  rw [hindexed, Option.map_some] at hjava
  have hhash := murmur2_eq hindexed
  have hpos : 0 < n.toInt := Int32.lt_iff_toInt_lt.mp hn
  have hslot : (Java.toPositive w.toInt32 % n).toInt =
      (Core.toPositive (Core.murmur2 key) : ℤ) % (n.toInt.toNat : ℤ) := by
    rw [Int32.toInt_mod, Java.toInt_toPositive, hhash, Int.tmod_eq_emod_of_nonneg (by omega),
      Int.toNat_of_nonneg hpos.le]
  have hcount : (n.toInt.toNat : ℤ) = n.toInt := Int.toNat_of_nonneg hpos.le
  refine ⟨w.toInt32, hjava, hindexed, hhash, ?_, ?_, ?_⟩
  · rw [Partitioner.partitionFor, if_neg (by omega), hslot]
  · rw [hslot, hcount]
    exact Int.emod_nonneg _ hpos.ne'
  · rw [hslot, hcount]
    exact Int.emod_lt_of_pos _ hpos

/-- A key of five bytes, two of them negative in Java, among three partitions. -/
theorem Partitioner.murmur2_places_as_java_five :
    ∃ h : Int32, Java.murmur2 (Java.signed [0x80, 0x61, 0xff, 0x62, 0x63]) = some h ∧
      murmur2Indexed [0x80, 0x61, 0xff, 0x62, 0x63] = some h.toUInt32 ∧
      Core.murmur2 [0x80, 0x61, 0xff, 0x62, 0x63] = h.toInt ∧
      Partitioner.murmur2.partitionFor (some [0x80, 0x61, 0xff, 0x62, 0x63]) (3 : Int32).toInt 0 =
        (some (Java.toPositive h % 3).toInt, 0) ∧
      0 ≤ (Java.toPositive h % 3).toInt ∧ (Java.toPositive h % 3).toInt < (3 : Int32).toInt :=
  Partitioner.murmur2_places_as_java [0x80, 0x61, 0xff, 0x62, 0x63] (by decide) 0

end Barnabas.Core
