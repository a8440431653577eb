import Mathlib.Data.Int.Basic
import Mathlib.Algebra.Order.Ring.Int
import Mathlib.Tactic.NormNum
import Mathlib.Tactic.Positivity

/-!
Two's-complement machine integers, carried as `Int`.

A value of a signed machine type of width `w` is an integer in
`[-2 ^ (w - 1), 2 ^ (w - 1))`. An arithmetic operation of a program is the
operation on integers followed by `wrap w`, which is the identity exactly on
that interval; a claim that an operation does not overflow is the claim that
its integer result is `Fits w`.
-/

namespace Barnabas.Lib

/-- Reduce an integer to the signed machine type of width `w`. -/
def wrap (w : ℕ) (x : ℤ) : ℤ := x.bmod (2 ^ w)

/-- The integers that a signed machine type of width `w` holds. -/
def Fits (w : ℕ) (x : ℤ) : Prop := -2 ^ (w - 1) ≤ x ∧ x < 2 ^ (w - 1)

instance (w : ℕ) (x : ℤ) : Decidable (Fits w x) := inferInstanceAs (Decidable (_ ∧ _))

/-- The largest value of the 32-bit signed type. -/
def i32Max : ℤ := 2 ^ 31 - 1

/-- The largest value of the 64-bit signed type. -/
def i64Max : ℤ := 2 ^ 63 - 1

theorem wrap_eq_self {w : ℕ} {x : ℤ} (hw : 0 < w) (h : Fits w x) : wrap w x = x := by
  obtain ⟨n, rfl⟩ : ∃ n, w = n + 1 := ⟨w - 1, by omega⟩
  obtain ⟨hlow, hhigh⟩ := h
  simp only [Nat.add_sub_cancel] at hlow hhigh
  have hhalf : (2 : ℤ) ^ (n + 1) = 2 * 2 ^ n := by rw [pow_succ, mul_comm]
  apply Int.bmod_eq_of_le
  · push_cast
    omega
  · push_cast
    omega

theorem fits_wrap {w : ℕ} (hw : 0 < w) (x : ℤ) : Fits w (wrap w x) := by
  obtain ⟨n, rfl⟩ : ∃ n, w = n + 1 := ⟨w - 1, by omega⟩
  have hpos : 0 < 2 ^ (n + 1) := by positivity
  have hhalf : (2 : ℤ) ^ (n + 1) = 2 * 2 ^ n := by rw [pow_succ, mul_comm]
  have hlow := Int.le_bmod (x := x) hpos
  have hhigh := Int.bmod_lt (x := x) hpos
  push_cast at hlow hhigh
  rw [Fits, wrap, Nat.add_sub_cancel]
  constructor
  · omega
  · omega

/-- Only what the type does not hold is changed by reducing it. -/
theorem wrap_eq_self_iff {w : ℕ} {x : ℤ} (hw : 0 < w) : wrap w x = x ↔ Fits w x := by
  refine ⟨fun h => ?_, wrap_eq_self hw⟩
  rw [← h]
  exact fits_wrap hw x

/-- The largest value is the only one that has no successor in the type. -/
theorem fits64_succ_iff {x : ℤ} (h : Fits 64 x) : Fits 64 (x + 1) ↔ x ≠ i64Max := by
  obtain ⟨hlow, hhigh⟩ := h
  simp only [Fits, i64Max]
  norm_num at hlow hhigh ⊢
  omega

/-- A machine addition of the same amount to two machine values is injective. -/
theorem wrap_add_inj {w : ℕ} {x y d : ℤ} (hw : 0 < w) (hx : Fits w x) (hy : Fits w y)
    (h : wrap w (x + d) = wrap w (y + d)) : x = y := by
  have hxy : wrap w x = wrap w y := (Int.bmod_add_cancel_right d).mp h
  rwa [wrap_eq_self hw hx, wrap_eq_self hw hy] at hxy

theorem wrap32_eq_self {x : ℤ} (hlow : 0 ≤ x) (hhigh : x ≤ i32Max) : wrap 32 x = x := by
  apply wrap_eq_self (by decide)
  simp only [i32Max] at hhigh
  constructor
  · norm_num
    omega
  · norm_num at hhigh ⊢
    omega

end Barnabas.Lib
