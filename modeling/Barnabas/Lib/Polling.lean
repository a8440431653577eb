import Mathlib.Data.Nat.Notation
import Mathlib.Data.List.Induction

/-!
Futures as machines that are polled.

A future is a state with a poll function. At a wake it sees what the world shows it, and is
then ready with an output, or still pending and in another state. A future that is ready
is gone, so that there is no way to poll it again. `drive` polls a future at one wake after
another. The rules relate the wakes of one future, cut in two, and the wakes of two futures
that go in step.
-/

namespace Barnabas.Lib

variable {ε σ τ α β : Type}

/-- Poll a future at one wake after another, until it is ready. -/
def drive (poll : σ → ε → α ⊕ σ) : σ → List ε → α ⊕ σ
  | fut, [] => .inr fut
  | fut, e :: wakes =>
      match poll fut e with
      | .inl out => .inl out
      | .inr fut => drive poll fut wakes

/-- Poll what is not ready yet. -/
def advance (poll : σ → ε → α ⊕ σ) (e : ε) : α ⊕ σ → α ⊕ σ
  | .inl out => .inl out
  | .inr fut => poll fut e

section

variable {poll : σ → ε → α ⊕ σ}

@[simp] theorem drive_nil (fut : σ) : drive poll fut [] = .inr fut := rfl

theorem drive_of_ready {fut : σ} {e : ε} {out : α} (h : poll fut e = .inl out) (wakes : List ε) :
    drive poll fut (e :: wakes) = .inl out := by
  rw [drive, h]

theorem drive_of_pending {fut fut' : σ} {e : ε} (h : poll fut e = .inr fut') (wakes : List ε) :
    drive poll fut (e :: wakes) = drive poll fut' wakes := by
  rw [drive, h]

theorem drive_append_of_ready {fut : σ} {wakes : List ε} {out : α}
    (h : drive poll fut wakes = .inl out) (wakes' : List ε) :
    drive poll fut (wakes ++ wakes') = .inl out := by
  induction wakes generalizing fut with
  | nil => cases h
  | cons e wakes ih =>
      rcases he : poll fut e with out' | fut'
      · rw [drive_of_ready he] at h
        rw [List.cons_append, drive_of_ready he, h]
      · rw [drive_of_pending he] at h
        rw [List.cons_append, drive_of_pending he, ih h]

theorem drive_append_of_pending {fut fut' : σ} {wakes : List ε}
    (h : drive poll fut wakes = .inr fut') (wakes' : List ε) :
    drive poll fut (wakes ++ wakes') = drive poll fut' wakes' := by
  induction wakes generalizing fut with
  | nil =>
      cases h
      rfl
  | cons e wakes ih =>
      rcases he : poll fut e with out | fut₁
      · rw [drive_of_ready he] at h
        cases h
      · rw [drive_of_pending he] at h
        rw [List.cons_append, drive_of_pending he, ih h]

/-- One more wake. -/
theorem drive_concat (fut : σ) (wakes : List ε) (e : ε) :
    drive poll fut (wakes ++ [e]) = advance poll e (drive poll fut wakes) := by
  rcases h : drive poll fut wakes with out | fut'
  · exact drive_append_of_ready h [e]
  · rw [drive_append_of_pending h, advance]
    rcases he : poll fut' e with out | fut''
    · exact drive_of_ready he []
    · exact drive_of_pending he []

/-- A future that is ready stays so, with its output. -/
theorem drive_of_begun {fut : σ} {wakes wakes' : List ε} {out : α}
    (h : drive poll fut wakes = .inl out) (hbegun : wakes <+: wakes') :
    drive poll fut wakes' = .inl out := by
  obtain ⟨later, rfl⟩ := hbegun
  exact drive_append_of_ready h later

/-- A future that is pending was so all the time. -/
theorem pending_of_begun {fut : σ} {wakes wakes' : List ε}
    (h : (drive poll fut wakes').isRight) (hbegun : wakes <+: wakes') :
    (drive poll fut wakes).isRight := by
  rcases hdrive : drive poll fut wakes with out | fut'
  · rw [drive_of_begun hdrive hbegun] at h
    cases h
  · rfl

/-- A future that is ready became so at some wake. -/
theorem drive_eq_inl_iff {fut : σ} {wakes : List ε} {out : α} :
    drive poll fut wakes = .inl out ↔ ∃ before e fut', before ++ [e] <+: wakes ∧
      drive poll fut before = .inr fut' ∧ poll fut' e = .inl out := by
  constructor
  · intro h
    induction wakes using List.reverseRecOn with
    | nil => cases h
    | append_singleton wakes e ih =>
        rcases hwakes : drive poll fut wakes with out' | fut'
        · have hsame : out' = out := by
            rw [drive_append_of_ready hwakes] at h
            exact Sum.inl.inj h
          obtain ⟨before, e', fut', hbegun, hbefore, he'⟩ := ih (hsame ▸ hwakes)
          exact ⟨before, e', fut', hbegun.trans (List.prefix_append wakes [e]), hbefore, he'⟩
        · rw [drive_concat, hwakes] at h
          exact ⟨wakes, e, fut', List.prefix_refl _, hwakes, h⟩
  · rintro ⟨before, e, fut', hbegun, hbefore, he⟩
    refine drive_of_begun ?_ hbegun
    rw [drive_concat, hbefore]
    exact he

end

end Barnabas.Lib
