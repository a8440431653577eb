import Barnabas.Core.Partitioner
import Barnabas.Lib.Crc
import Mathlib.Algebra.Ring.GeomSum

/-!
What `crc32` computes (`barnabas-core/src/partitioner.rs`).

The register is the remainder of a division of polynomials over the field of two
elements: of the message, each byte with its least significant bit first, times `X ^ 32`,
and of the register's first value in front of it.
-/

namespace Barnabas.Core

open Barnabas.Lib Polynomial

/-- The constant of the loop: the terms of the generator below `X ^ 32`, reflected. -/
def crc32Taps : BitVec 32 := 0xEDB88320

/-- The generator of CRC-32. -/
noncomputable def crc32Generator : (ZMod 2)[X] :=
  X ^ 32 + X ^ 26 + X ^ 23 + X ^ 22 + X ^ 16 + X ^ 12 + X ^ 11 + X ^ 10 + X ^ 8 + X ^ 7 +
    X ^ 5 + X ^ 4 + X ^ 2 + X + 1

theorem generator_crc32Taps : generator crc32Taps = crc32Generator := by
  have hbits : (List.range 32).map crc32Taps.getLsbD =
      [false, false, false, false, false, true, false, false, true, true, false, false, false,
        false, false, true, false, false, false, true, true, true, false, true, true, false, true,
        true, false, true, true, true] := by decide
  rw [generator, registerPoly, polyOf, hbits, crc32Generator]
  simp only [bitsPoly, List.foldl_cons, List.foldl_nil, bitValue_true, bitValue_false, C_0, C_1]
  ring

/-- The mask of the source is all ones exactly if the bit that leaves is set. -/
theorem toBitVec_crc32Bit (crc : UInt32) :
    (crc32Bit crc).toBitVec = shiftStep crc32Taps crc.toBitVec := by
  have hmask : (-(crc &&& 1)).toBitVec =
      if crc.toBitVec.getLsbD 0 then BitVec.allOnes 32 else 0 := by
    rw [UInt32.toBitVec_neg, UInt32.toBitVec_and]
    show -(crc.toBitVec &&& 1#32) = _
    rw [BitVec.and_one_eq_setWidth_ofBool_getLsbD]
    cases crc.toBitVec.getLsbD 0
    · decide
    · decide
  rw [crc32Bit, UInt32.toBitVec_xor, UInt32.toBitVec_and, hmask, shiftStep]
  congr 1
  split
  · exact BitVec.and_allOnes
  · exact BitVec.and_zero

/-- The bits of a message, each byte with its least significant bit first. -/
def crc32Bits (data : Bytes) : List Bool :=
  data.flatMap fun byte => (List.range 8).map byte.toBitVec.getLsbD

theorem messageBits_eq_crc32Bits (data : Bytes) :
    messageBits 8 (data.map fun byte => byte.toUInt32.toBitVec) = crc32Bits data := by
  rw [messageBits, crc32Bits, List.flatMap_map]
  apply List.flatMap_congr
  intro byte _
  apply List.map_congr_left
  intro i hi
  have hi := List.mem_range.mp hi
  rw [UInt8.toBitVec_toUInt32, BitVec.getLsbD_setWidth]
  simp [show i < 32 by omega]

theorem toBitVec_foldl_crc32 (data : Bytes) (crc : UInt32) :
    (data.foldl (fun crc byte => crc32Bit^[8] (crc ^^^ byte.toUInt32)) crc).toBitVec =
      (data.map fun byte => byte.toUInt32.toBitVec).foldl (absorb crc32Taps 8) crc.toBitVec := by
  induction data generalizing crc with
  | nil => rfl
  | cons byte data ih =>
      have hiterate : ∀ n (crc : UInt32), (crc32Bit^[n] crc).toBitVec =
          (shiftStep crc32Taps)^[n] crc.toBitVec := by
        intro n
        induction n with
        | zero => exact fun _ => rfl
        | succ n ih =>
            intro crc
            rw [Function.iterate_succ_apply, Function.iterate_succ_apply, ih, toBitVec_crc32Bit]
      rw [List.foldl_cons, ih, hiterate, List.map_cons, List.foldl_cons, absorb,
        UInt32.toBitVec_xor]

/-- The register's first value, all ones. -/
theorem registerPoly_allOnes (w : ℕ) :
    registerPoly (BitVec.allOnes w) = ∑ i ∈ Finset.range w, (X : (ZMod 2)[X]) ^ i := by
  have hones : ∀ n ≤ w, polyOf (BitVec.allOnes w).getLsbD n =
      ∑ i ∈ Finset.range n, (X : (ZMod 2)[X]) ^ i := by
    intro n hn
    induction n with
    | zero => rfl
    | succ n ih =>
        have hset : (BitVec.allOnes w).getLsbD n = true := by
          rw [BitVec.getLsbD_allOnes]
          simpa using hn
        rw [polyOf_succ, ih (by omega), hset, bitValue_true, C_1, geom_sum_succ, mul_comm]
  exact hones w le_rfl

/-- **`crc32` is the CRC-32 remainder.** For every byte string: the message, with the
register's first value, all ones, in front of it, is divided by the generator, and the
remainder is reflected and complemented. -/
theorem crc32_eq_remainder (data : Bytes) :
    crc32 data = ~~~(UInt32.ofBitVec (reflect 32
      ((bitsPoly (crc32Bits data) * X ^ 32 +
        (∑ i ∈ Finset.range 32, X ^ i) * X ^ (8 * data.length)) %ₘ crc32Generator))) := by
  have hchunks : ∀ chunk ∈ data.map fun byte => byte.toUInt32.toBitVec,
      ∀ i, 8 ≤ i → chunk.getLsbD i = false := by
    intro chunk hchunk i hi
    obtain ⟨byte, -, rfl⟩ := List.mem_map.mp hchunk
    rw [UInt8.toBitVec_toUInt32, BitVec.getLsbD_setWidth, BitVec.getLsbD_of_ge _ _ hi,
      Bool.and_false]
  have hremainder := registerPoly_foldl_absorb crc32Taps (BitVec.allOnes 32) (by decide) hchunks
  rw [messageBits_eq_crc32Bits, registerPoly_allOnes, List.length_map, generator_crc32Taps]
    at hremainder
  rw [← hremainder, reflect_registerPoly, crc32]
  congr 1
  apply UInt32.toBitVec_inj.mp
  exact toBitVec_foldl_crc32 data 0xFFFFFFFF

end Barnabas.Core
