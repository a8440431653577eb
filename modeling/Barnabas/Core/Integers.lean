import Barnabas.Core.Records
import Mathlib.Algebra.Order.Ring.Int
import Mathlib.Tactic.Positivity

/-!
Integers on the wire: the bytes an integer is written as, and that the readers of
`barnabas-core/src/records.rs` read it back from wherever it stands.
-/

namespace Barnabas.Core

open Barnabas.Lib

/-- The `width` low bytes of a number, the highest first. -/
def bytesOf : ℕ → ℕ → Bytes
  | 0, _ => []
  | width + 1, n => bytesOf width (n / 256) ++ [UInt8.ofNat n]

@[simp] theorem bytesOf_length (width n : ℕ) : (bytesOf width n).length = width := by
  induction width generalizing n with
  | zero => rfl
  | succ width ih => simp [bytesOf, ih]

theorem bigEndian_concat (bytes : Bytes) (b : UInt8) :
    bigEndian (bytes ++ [b]) = bigEndian bytes * 256 + b.toNat := by
  simp [bigEndian]

theorem bigEndian_lt (bytes : Bytes) : bigEndian bytes < 256 ^ bytes.length := by
  induction bytes using List.reverseRecOn with
  | nil => simp [bigEndian]
  | append_singleton bytes b ih =>
      have hb := b.toNat_lt
      rw [bigEndian_concat, List.length_append, List.length_singleton, pow_succ]
      omega

theorem bigEndian_bytesOf (width n : ℕ) : bigEndian (bytesOf width n) = n % 256 ^ width := by
  induction width generalizing n with
  | zero => simp [bytesOf, bigEndian, Nat.mod_one]
  | succ width ih =>
      have hbyte : (UInt8.ofNat n).toNat = n % 256 := by simp
      calc bigEndian (bytesOf (width + 1) n)
          = n / 256 % 256 ^ width * 256 + n % 256 := by rw [bytesOf, bigEndian_concat, ih, hbyte]
        _ = n % 256 + 256 * (n / 256 % 256 ^ width) := by omega
        _ = n % 256 ^ (width + 1) := by rw [← Nat.mod_mul, pow_succ']

/-- Bytes are determined by their number and their value. -/
theorem bytesOf_bigEndian (bytes : Bytes) : bytesOf bytes.length (bigEndian bytes) = bytes := by
  induction bytes using List.reverseRecOn with
  | nil => rfl
  | append_singleton bytes b ih =>
      have hb := b.toNat_lt
      have hdiv : (bigEndian bytes * 256 + b.toNat) / 256 = bigEndian bytes := by omega
      have hlast : UInt8.ofNat (bigEndian bytes * 256 + b.toNat) = b := by
        apply UInt8.toNat_inj.mp
        simp
      rw [bigEndian_concat, List.length_append, List.length_singleton, bytesOf, hdiv, ih, hlast]

theorem getRange_middle (before bytes after : Bytes) :
    getRange (before ++ (bytes ++ after)) before.length (before.length + bytes.length) =
      some bytes := by
  rw [getRange, if_pos (by simp)]
  simp

/-- The bytes of a two's-complement integer. -/
def intBytes (width : ℕ) (x : ℤ) : Bytes := bytesOf width (x % 2 ^ (8 * width)).toNat

@[simp] theorem intBytes_length (width : ℕ) (x : ℤ) : (intBytes width x).length = width :=
  bytesOf_length _ _

theorem wrap_bigEndian_intBytes (width : ℕ) (x : ℤ) :
    wrap (8 * width) (bigEndian (intBytes width x)) = wrap (8 * width) x := by
  have hpow : (256 : ℕ) ^ width = 2 ^ (8 * width) := by
    rw [show (256 : ℕ) = 2 ^ 8 by norm_num, ← pow_mul]
  have hpos : (0 : ℤ) < 2 ^ (8 * width) := by positivity
  have hnonneg := Int.emod_nonneg x hpos.ne'
  have hlt := Int.emod_lt_of_pos x hpos
  have hvalue : (bigEndian (intBytes width x) : ℤ) = x % 2 ^ (8 * width) := by
    rw [intBytes, bigEndian_bytesOf, hpow, Nat.mod_eq_of_lt, Int.toNat_of_nonneg hnonneg]
    rw [← Int.ofNat_lt, Int.toNat_of_nonneg hnonneg]
    push_cast
    exact hlt
  have hmod := Int.emod_bmod (x := x) (n := 2 ^ (8 * width))
  push_cast at hmod
  rw [hvalue, wrap, wrap, hmod]

/-- An integer is read back, as a value of the reader's type, from where it was laid
out. -/
theorem intAt_intBytes_wrap (width : ℕ) (x : ℤ) (before after : Bytes) :
    intAt width (before ++ (intBytes width x ++ after)) before.length =
      some (wrap (8 * width) x) := by
  have hrange := getRange_middle before (intBytes width x) after
  rw [intBytes_length] at hrange
  rw [intAt, hrange, Option.map_some, wrap_bigEndian_intBytes]

theorem intAt_intBytes {width : ℕ} (hwidth : 0 < width) {x : ℤ} (hx : Fits (8 * width) x)
    (before after : Bytes) :
    intAt width (before ++ (intBytes width x ++ after)) before.length = some x := by
  rw [intAt_intBytes_wrap, wrap_eq_self (by omega) hx]

end Barnabas.Core
