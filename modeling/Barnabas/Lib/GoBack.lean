import Mathlib.Data.List.Infix
import Mathlib.Logic.Relation

/-!
Pipelining to a receiver that takes items in order.

A sender numbers what it sends and keeps it until it knows that it was written. The
receiver takes an item only if it is the next one, so that of what was sent it holds
a prefix, whatever arrives in between, late or twice. How far the receiver can be
ahead of what the sender knows is bounded by the sender's window, and a receiver
that remembers as many items as the window has places therefore recognises every
item of the window that it holds already: the items of a window are refused only
behind one that was lost.
-/

namespace Barnabas.Lib.GoBack

/-- A sender and a receiver. Of the items in `sent`, the receiver holds the first
`written`, and the sender knows it of the first `acked`. -/
structure Channel (α : Type*) where
  sent : List α
  acked : ℕ
  written : ℕ

variable {α : Type*}

namespace Channel

/-- What the receiver holds. -/
def log (c : Channel α) : List α := c.sent.take c.written

/-- What the sender keeps. -/
def pending (c : Channel α) : List α := c.sent.drop c.acked

end Channel

/-- How much is written when item `i` arrives. -/
def arrived (written i : ℕ) : ℕ := if i = written then written + 1 else written

/-- What can happen with a window of `w` items: another item is sent, one of the
window arrives, or the sender learns of some that were written. -/
inductive Step (w : ℕ) : Channel α → Channel α → Prop
  | send (c : Channel α) (x : α) : Step w c { c with sent := c.sent ++ [x] }
  | arrive (c : Channel α) (i : ℕ) (hsent : i < c.sent.length) (hwindow : i < c.acked + w) :
      Step w c { c with written := arrived c.written i }
  | ack (c : Channel α) (n : ℕ) (hacked : c.acked ≤ n) (hwritten : n ≤ c.written) :
      Step w c { c with acked := n }

/-- Any number of steps. -/
abbrev Steps (w : ℕ) : Channel α → Channel α → Prop := Relation.ReflTransGen (Step w)

def empty : Channel α := ⟨[], 0, 0⟩

/-- What was acknowledged is written, and no more is written than the window allows. -/
structure Sound (w : ℕ) (c : Channel α) : Prop where
  acked : c.acked ≤ c.written
  window : c.written ≤ c.acked + w
  sent : c.written ≤ c.sent.length

theorem arrived_self (written : ℕ) : arrived written written = written + 1 := if_pos rfl

theorem arrived_of_ne {written i : ℕ} (h : i ≠ written) : arrived written i = written := if_neg h

theorem le_arrived (written i : ℕ) : written ≤ arrived written i := by
  rw [arrived]
  split <;> omega

variable {w : ℕ} {c c' : Channel α}

theorem sound_empty (w : ℕ) : Sound w (empty : Channel α) := ⟨le_rfl, Nat.zero_le _, le_rfl⟩

theorem Sound.step (h : Sound w c) (hstep : Step w c c') : Sound w c' := by
  cases hstep with
  | send x =>
      refine ⟨h.acked, h.window, ?_⟩
      show c.written ≤ (c.sent ++ [x]).length
      rw [List.length_append]
      exact h.sent.trans (Nat.le_add_right ..)
  | arrive i hsent hwindow =>
      refine ⟨h.acked.trans (le_arrived ..), ?_, ?_⟩
      · show arrived c.written i ≤ c.acked + w
        rw [arrived]
        split
        · omega
        · exact h.window
      · show arrived c.written i ≤ c.sent.length
        rw [arrived]
        split
        · omega
        · exact h.sent
  | ack n hacked hwritten =>
      exact ⟨hwritten, h.window.trans (Nat.add_le_add_right hacked w), h.sent⟩

theorem Sound.steps (h : Sound w c) (hsteps : Steps w c c') : Sound w c' := by
  induction hsteps with
  | refl => exact h
  | tail _ hstep ih => exact ih.step hstep

/-- The items from `written` on arrive one after the other. -/
theorem steps_arrive (c : Channel α) {k : ℕ} (hsent : c.written + k ≤ c.sent.length)
    (hwindow : c.written + k ≤ c.acked + w) : Steps w c { c with written := c.written + k } := by
  induction k with
  | zero => exact .refl
  | succ k ih =>
      refine .tail (ih (by omega) (by omega)) ?_
      have hnext := Step.arrive (w := w) { c with written := c.written + k } (c.written + k)
        (Nat.lt_of_succ_le hsent) (Nat.lt_of_succ_le hwindow)
      rwa [arrived_self] at hnext

end Barnabas.Lib.GoBack
