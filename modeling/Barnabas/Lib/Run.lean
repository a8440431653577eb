import Mathlib.Data.List.Infix

/-!
Runs of a deterministic step function over a list of inputs.

Every safety statement about a state machine is proved the same way: a
property of the initial state that one step preserves holds after every run.
`run_induction` is that argument once and for all; `run_induction_of_prefix`
is the form for a step that keeps the property only under a condition on the
prefix of the run read so far.
-/

namespace Barnabas.Lib

variable {σ α : Type*}

/-- The state reached from `s` by taking the inputs in order. -/
def run (step : σ → α → σ) (s : σ) (inputs : List α) : σ := inputs.foldl step s

@[simp] theorem run_nil (step : σ → α → σ) (s : σ) : run step s [] = s := rfl

@[simp] theorem run_concat (step : σ → α → σ) (s : σ) (inputs : List α) (a : α) :
    run step s (inputs ++ [a]) = step (run step s inputs) a := by
  simp [run]

theorem run_append (step : σ → α → σ) (s : σ) (inputs inputs' : List α) :
    run step s (inputs ++ inputs') = run step (run step s inputs) inputs' :=
  List.foldl_append

theorem run_induction {step : σ → α → σ} {I : σ → Prop} {s : σ} (hinit : I s)
    (hstep : ∀ s a, I s → I (step s a)) (inputs : List α) : I (run step s inputs) := by
  induction inputs using List.reverseRecOn with
  | nil => exact hinit
  | append_singleton inputs a ih =>
      rw [run_concat]
      exact hstep _ a ih

/-- A property of a run may depend on the inputs read: it is enough that every
prefix of the run hands it on to the next input. -/
theorem run_induction_of_prefix {step : σ → α → σ} {I : List α → σ → Prop} {s : σ}
    (hinit : I [] s) (inputs : List α)
    (hstep : ∀ pre a, pre ++ [a] <+: inputs → I pre (run step s pre) →
      I (pre ++ [a]) (step (run step s pre) a)) :
    I inputs (run step s inputs) := by
  suffices H : ∀ pre, pre <+: inputs → I pre (run step s pre) from H inputs (List.prefix_refl _)
  intro pre
  induction pre using List.reverseRecOn with
  | nil => exact fun _ => hinit
  | append_singleton pre a ih =>
      intro hpre
      rw [run_concat]
      exact hstep pre a hpre (ih ((List.prefix_append pre [a]).trans hpre))

/-- The inputs of a run with what was read before them, position by position. -/
theorem forall_position {P : List α → α → Prop} {inputs : List α}
    (h : ∀ i (hi : i < inputs.length), P (inputs.take i) inputs[i]) :
    ∀ pre a, pre ++ [a] <+: inputs → P pre a := by
  rintro pre a ⟨rest, rfl⟩
  simpa using h pre.length (by simp)

/-- `P` holds of every input, after the ones given and those before it. -/
def Along (P : List α → α → Prop) : List α → List α → Prop
  | _, [] => True
  | done, a :: rest => P done a ∧ Along P (done ++ [a]) rest

theorem Along.forall {P : List α → α → Prop} {done inputs : List α} (h : Along P done inputs) :
    ∀ pre a, pre ++ [a] <+: inputs → P (done ++ pre) a := by
  induction inputs generalizing done with
  | nil => simp
  | cons b rest ih =>
      intro pre a hpre
      cases pre with
      | nil =>
          obtain ⟨rfl, -⟩ := List.cons_prefix_cons.mp hpre
          simpa using h.1
      | cons b' pre =>
          obtain ⟨rfl, hpre'⟩ := List.cons_prefix_cons.mp hpre
          simpa using ih h.2 pre a hpre'

theorem forall_along {P : List α → α → Prop} {inputs : List α} (h : Along P [] inputs) :
    ∀ pre a, pre ++ [a] <+: inputs → P pre a := h.forall

/-- The beginnings of a run, by their length. -/
theorem forall_prefix {P : List α → Prop} {inputs : List α}
    (h : ∀ i ≤ inputs.length, P (inputs.take i)) : ∀ pre, pre <+: inputs → P pre := by
  intro pre hpre
  rw [List.prefix_iff_eq_take.mp hpre]
  exact h _ hpre.length_le

end Barnabas.Lib
