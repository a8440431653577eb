import Mathlib.Algebra.BigOperators.Ring.Finset

/-!
Filling up: each unit goes to one of those that hold fewest.

The measure is the shortfall below a level, that is what is still missing until
everybody holds that much. A unit given to the lightest reduces it by one as long as
there is one, whatever the loads were before.
-/

namespace Barnabas.Lib

variable {ι : Type*} {s : Finset ι} {load : ι → ℕ}

/-- How much is missing until everybody in `s` holds `level`. -/
def shortfall (level : ℕ) (s : Finset ι) (load : ι → ℕ) : ℕ := ∑ i ∈ s, (level - load i)

theorem shortfall_eq_zero {level : ℕ} : shortfall level s load = 0 ↔ ∀ i ∈ s, level ≤ load i := by
  simp [shortfall, Finset.sum_eq_zero_iff, Nat.sub_eq_zero_iff_le]

/-- What is missing below the level and what is held make up the level, and what is
held above it. -/
theorem shortfall_add_sum (level : ℕ) (s : Finset ι) (load : ι → ℕ) :
    shortfall level s load + ∑ i ∈ s, load i = s.card * level + ∑ i ∈ s, (load i - level) := by
  have hlevel : ∑ _i ∈ s, level = s.card * level := Finset.sum_const_nat fun _ _ => rfl
  rw [shortfall, ← Finset.sum_add_distrib, ← hlevel, ← Finset.sum_add_distrib]
  apply Finset.sum_congr rfl
  intro i _
  omega

/-- If nobody holds more than one above the level, the surplus is the number of those
who do. -/
theorem sum_surplus {level : ℕ} (h : ∀ i ∈ s, load i ≤ level + 1) :
    ∑ i ∈ s, (load i - level) = (s.filter fun i => load i = level + 1).card := by
  rw [Finset.card_filter]
  apply Finset.sum_congr rfl
  intro i hi
  have hle := h i hi
  split <;> omega

variable [DecidableEq ι]

/-- A unit for the lightest reduces the shortfall by one, if there is one. -/
theorem shortfall_give {level : ℕ} {i : ι} (hi : i ∈ s) (hmin : ∀ j ∈ s, load i ≤ load j) :
    shortfall level s (Function.update load i (load i + 1)) = shortfall level s load - 1 := by
  have hothers : ∑ j ∈ s.erase i, (level - Function.update load i (load i + 1) j) =
      ∑ j ∈ s.erase i, (level - load j) := by
    apply Finset.sum_congr rfl
    intro j hj
    rw [Function.update_of_ne (Finset.ne_of_mem_erase hj)]
  rw [shortfall, shortfall, ← Finset.add_sum_erase s _ hi, ← Finset.add_sum_erase s _ hi, hothers,
    Function.update_self]
  by_cases hlevel : load i < level
  · omega
  · -- the lightest is at the level, so nothing is missing anywhere
    have hzero : ∑ j ∈ s.erase i, (level - load j) = 0 := by
      apply Finset.sum_eq_zero
      intro j hj
      have hle := hmin j (Finset.mem_of_mem_erase hj)
      omega
    omega

end Barnabas.Lib
