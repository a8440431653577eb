import Barnabas.Lib.Run

/-!
Registers.

Every event leaves a register alone, clears it or writes to it. What a run of events
leaves in a register is told by one event of the run, the last one that does not leave
it alone.
-/

namespace Barnabas.Lib

variable {σ ε α : Type*}

/-- What an event does to a register. -/
inductive Effect (α : Type*)
  | leave
  | clear
  | write (a : α)
  deriving DecidableEq, Repr

def Effect.apply : Effect α → Option α → Option α
  | leave, held => held
  | clear, _ => none
  | write a, _ => some a

@[simp] theorem Effect.apply_leave (held : Option α) : leave.apply held = held := rfl

@[simp] theorem Effect.apply_clear (held : Option α) : clear.apply held = none := rfl

@[simp] theorem Effect.apply_write (a : α) (held : Option α) :
    (write a).apply held = some a := rfl

/-- `a` was written by the last event that did not leave the register alone. -/
def LastWritten (effect : ε → Effect α) (a : α) (events : List ε) : Prop :=
  ∃ before event after, events = before ++ event :: after ∧ effect event = .write a ∧
    ∀ later ∈ after, effect later = .leave

theorem not_lastWritten_nil {effect : ε → Effect α} {a : α} : ¬LastWritten effect a [] := by
  rintro ⟨before, event, after, heq, -⟩
  simp at heq

theorem lastWritten_concat {effect : ε → Effect α} {a : α} {events : List ε} {event : ε} :
    LastWritten effect a (events ++ [event]) ↔
      effect event = .write a ∨ effect event = .leave ∧ LastWritten effect a events := by
  constructor
  · rintro ⟨before, written, after, heq, hwrite, hafter⟩
    rcases List.eq_nil_or_concat after with rfl | ⟨after, last, rfl⟩
    · left
      obtain ⟨-, hlast⟩ := List.append_inj' heq rfl
      rwa [List.singleton_inj.mp hlast]
    · right
      rw [List.concat_eq_append, ← List.cons_append, ← List.append_assoc] at heq
      obtain ⟨hevents, hlast⟩ := List.append_inj' heq rfl
      rw [List.concat_eq_append] at hafter
      constructor
      · rw [List.singleton_inj.mp hlast]
        exact hafter last (by simp)
      · exact ⟨before, written, after, hevents, hwrite, fun later hlater =>
          hafter later (List.mem_append_left _ hlater)⟩
  · rintro (hwrite | ⟨hleave, before, written, after, rfl, hwrite, hafter⟩)
    · exact ⟨events, event, [], rfl, hwrite, by simp⟩
    · refine ⟨before, written, after ++ [event], by simp, hwrite, ?_⟩
      intro later hlater
      rcases List.mem_append.mp hlater with hlater | hlater
      · exact hafter later hlater
      · rwa [List.mem_singleton.mp hlater]

/-- A register that no event clears holds something as soon as one event writes. -/
theorem exists_lastWritten_iff {effect : ε → Effect α} {events : List ε}
    (hkept : ∀ event ∈ events, effect event ≠ .clear) :
    (∃ a, LastWritten effect a events) ↔ ∃ event ∈ events, ∃ a, effect event = .write a := by
  constructor
  · rintro ⟨a, before, event, after, rfl, hwrite, -⟩
    exact ⟨event, by simp, a, hwrite⟩
  · induction events using List.reverseRecOn with
    | nil => simp
    | append_singleton events event ih =>
        rintro ⟨written, hmem, a, hwrite⟩
        cases hevent : effect event with
        | write b => exact ⟨b, lastWritten_concat.mpr (.inl hevent)⟩
        | clear => exact absurd hevent (hkept event (by simp))
        | leave =>
            have hin : written ∈ events := by
              rcases List.mem_append.mp hmem with hin | heq
              · exact hin
              · rw [List.mem_singleton.mp heq, hevent] at hwrite
                cases hwrite
            obtain ⟨b, hb⟩ := ih (fun e he => hkept e (List.mem_append_left _ he))
              ⟨written, hin, a, hwrite⟩
            exact ⟨b, lastWritten_concat.mpr (.inr ⟨hevent, hb⟩)⟩

/-! ### A register in a state

`read` sees a register of the state that `step` keeps as `effect` says. -/

variable {step : σ → ε → σ} (read : σ → Option α) {effect : ε → Effect α}

theorem read_run_eq_some (hstep : ∀ s e, read (step s e) = (effect e).apply (read s)) {s : σ}
    (hstart : read s = none) (events : List ε) (a : α) :
    read (run step s events) = some a ↔ LastWritten effect a events := by
  induction events using List.reverseRecOn with
  | nil => simp [hstart, not_lastWritten_nil]
  | append_singleton events event ih =>
      rw [run_concat, hstep, lastWritten_concat]
      cases heffect : effect event with
      | leave => simp [ih]
      | clear => simp
      | write b => simp

/-- Where no event writes, what a register holds at the end it has held all along. -/
theorem held_of_no_write (hstep : ∀ s e, read (step s e) = (effect e).apply (read s)) {s : σ}
    {events : List ε} (hno : ∀ event ∈ events, ∀ a, effect event ≠ .write a) {a : α}
    (h : read (run step s events) = some a) :
    read s = some a ∧ ∀ event ∈ events, effect event = .leave := by
  induction events using List.reverseRecOn with
  | nil => exact ⟨h, by simp⟩
  | append_singleton events event ih =>
      rw [run_concat, hstep] at h
      cases hevent : effect event with
      | leave =>
          rw [hevent, Effect.apply_leave] at h
          obtain ⟨hheld, hleave⟩ := ih (fun e he => hno e (List.mem_append_left _ he)) h
          refine ⟨hheld, fun e he => ?_⟩
          rcases List.mem_append.mp he with he | he
          · exact hleave e he
          · rwa [List.mem_singleton.mp he]
      | clear =>
          rw [hevent, Effect.apply_clear] at h
          cases h
      | write b => exact absurd hevent (hno event (by simp) b)

/-- Events that leave a register alone leave in it what was there. -/
theorem read_run_of_leave (hstep : ∀ s e, read (step s e) = (effect e).apply (read s)) (s : σ)
    {events : List ε} (hleave : ∀ event ∈ events, effect event = .leave) :
    read (run step s events) = read s := by
  induction events using List.reverseRecOn with
  | nil => rfl
  | append_singleton events event ih =>
      rw [run_concat, hstep, hleave event (by simp), Effect.apply_leave]
      exact ih fun e he => hleave e (List.mem_append_left _ he)

end Barnabas.Lib
