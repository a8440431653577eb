import Mathlib.Order.WellFounded
import Mathlib.Logic.Relation

/-!
Infinite behaviours of a transition system, with stuttering and weak fairness.

A behaviour may repeat its state at any point, so that it also describes a system
that does nothing for a while. What keeps such a system going is fairness: an action
that stays enabled is taken. Safety is an induction over the steps; liveness is a
variant that the fair action lowers and that nothing raises.
-/

namespace Barnabas.Lib

variable {σ : Type*}

/-- `next` or a repetition of the state. -/
def Stutters (next : σ → σ → Prop) (s s' : σ) : Prop := next s s' ∨ s' = s

/-- The behaviours of an initial condition and a next-state relation. -/
structure Behaves (init : σ → Prop) (next : σ → σ → Prop) (b : ℕ → σ) : Prop where
  init : init (b 0)
  next : ∀ n, Stutters next (b n) (b (n + 1))

/-- The action has a step that changes the state. -/
def Enabled (action : σ → σ → Prop) (s : σ) : Prop := ∃ s', action s s' ∧ s' ≠ s

/-- An action that stays enabled from some point on is taken after it. -/
def WeaklyFair (action : σ → σ → Prop) (b : ℕ → σ) : Prop :=
  ∀ n, (∀ m, n ≤ m → Enabled action (b m)) → ∃ m, n ≤ m ∧ action (b m) (b (m + 1)) ∧ b (m + 1) ≠ b m

variable {init : σ → Prop} {next action : σ → σ → Prop} {b : ℕ → σ}

/-- What holds at the beginning and across every step holds always. -/
theorem Behaves.always {I : σ → Prop} (h : Behaves init next b) (hinit : ∀ s, init s → I s)
    (hnext : ∀ s s', I s → next s s' → I s') (n : ℕ) : I (b n) := by
  induction n with
  | zero => exact hinit _ h.init
  | succ n ih =>
      rcases h.next n with hstep | hstay
      · exact hnext _ _ ih hstep
      · rw [hstay]
        exact ih

/-- If the fair action is enabled until the goal is reached, and lowers a variant that no
step raises, the goal is reached. -/
theorem Behaves.eventually {I goal : σ → Prop} (h : Behaves init next b)
    (hfair : WeaklyFair action b) (hI : ∀ n, I (b n)) (variant : σ → ℕ)
    (henabled : ∀ s, I s → ¬goal s → Enabled action s)
    (hlower : ∀ s s', I s → action s s' → s' ≠ s → variant s' < variant s)
    (hkeep : ∀ s s', I s → next s s' → variant s' ≤ variant s) : ∃ n, goal (b n) := by
  by_contra hnever
  have hnever : ∀ n, ¬goal (b n) := fun n hn => hnever ⟨n, hn⟩
  have hkept : ∀ n, variant (b (n + 1)) ≤ variant (b n) := by
    intro n
    rcases h.next n with hstep | hstay
    · exact hkeep _ _ (hI n) hstep
    · rw [hstay]
  -- the variant would fall below any bound
  have hfalls : ∀ v n, variant (b n) = v → False := by
    intro v
    induction v using Nat.strong_induction_on with
    | _ v ih =>
        intro n hv
        obtain ⟨m, hm, hstep, hne⟩ := hfair n fun m _ => henabled _ (hI m) (hnever m)
        have hle : variant (b m) ≤ variant (b n) :=
          antitone_nat_of_succ_le (f := fun n => variant (b n)) hkept hm
        have hlt := hlower _ _ (hI m) hstep hne
        exact ih (variant (b (m + 1))) (by omega) (m + 1) rfl
  exact hfalls _ 0 rfl

end Barnabas.Lib
