import Mathlib.Data.Int.CardIntervalMod
import Mathlib.Data.List.Count

/-!
Taking turns.

A counter that goes around `n` slots, one at a time, fills them evenly: after any number
of turns, and wherever it started, no slot has had two turns more than another.
-/

namespace Barnabas.Lib

/-- The slots of the next `m` turns, with the counter at `c`. -/
def turns (n c m : ℕ) : List ℕ := (List.range m).map fun k => (c + k) % n

@[simp] theorem length_turns (n c m : ℕ) : (turns n c m).length = m := by
  simp [turns]

theorem turns_append (n c m m' : ℕ) : turns n c (m + m') = turns n c m ++ turns n (c + m) m' := by
  simp [turns, List.range_add, Function.comp_def, Nat.add_assoc]

theorem turns_one (n c : ℕ) : turns n c 1 = [c % n] := by
  simp [turns]

/-- A list of slots is one of turns if it is so at every position. -/
theorem eq_turns_iff {n c : ℕ} {slots : List ℕ} :
    slots = turns n c slots.length ↔ ∀ k slot, slots[k]? = some slot → slot = (c + k) % n := by
  constructor
  · intro h k slot hslot
    have hk := (List.getElem?_eq_some_iff.mp hslot).1
    rw [h, turns, List.getElem?_map, List.getElem?_range hk] at hslot
    exact (Option.some.inj hslot).symm
  · intro h
    apply List.ext_getElem?
    intro k
    by_cases hk : k < slots.length
    · rw [turns, List.getElem?_map, List.getElem?_range hk, List.getElem?_eq_getElem hk]
      exact congrArg some (h k _ (List.getElem?_eq_getElem hk))
    · have hk' : slots.length ≤ k := Nat.not_lt.mp hk
      rw [List.getElem?_eq_none hk', List.getElem?_eq_none (by simpa using hk')]

theorem countP_range (P : ℕ → Prop) [DecidablePred P] (m : ℕ) :
    (List.range m).countP (fun k => decide (P k)) = Nat.count P m := by
  induction m with
  | zero => rfl
  | succ m ih => simp [List.range_succ, Nat.count_succ, ih]

/-- How often a slot has its turn: the counts up to the last turn, less those before the
first one. -/
theorem count_turns {n c m i : ℕ} (hi : i < n) :
    Nat.count (· ≡ i [MOD n]) c + (turns n c m).count i = Nat.count (· ≡ i [MOD n]) (c + m) := by
  have hcount : (turns n c m).count i = Nat.count (fun k => c + k ≡ i [MOD n]) m := by
    rw [turns, List.count, List.countP_map, ← countP_range]
    apply List.countP_congr
    intro k _
    simp [Nat.ModEq, Nat.mod_eq_of_lt hi]
  rw [hcount, Nat.count_add]

/-- **Turns are shared out evenly.** -/
theorem count_turns_le {n c m i j : ℕ} (hi : i < n) (hj : j < n) :
    (turns n c m).count i ≤ (turns n c m).count j + 1 := by
  have hn : 0 < n := Nat.zero_lt_of_lt hi
  have hci := count_turns (c := c) (m := m) hi
  have hcj := count_turns (c := c) (m := m) hj
  rw [Nat.count_modEq_card _ hn, Nat.count_modEq_card _ hn, Nat.mod_eq_of_lt hi] at hci
  rw [Nat.count_modEq_card _ hn, Nat.count_modEq_card _ hn, Nat.mod_eq_of_lt hj] at hcj
  split_ifs at hci hcj <;> omega

end Barnabas.Lib
