import Barnabas.Lib.Action

/-!
The attempts of a bounded loop.

`Act.trail` lists what a loop of `Act.attempts` starts each of its attempts from: the
number of the attempt, the value carried into it and the state. What one attempt keeps
of the carried value then holds throughout the list, and a result of the loop is a
result of one entry of it.
-/

namespace Barnabas.Lib

/-- What an attempt starts from. -/
structure Attempt (σ β : Type) where
  index : ℕ
  carried : β
  start : σ

namespace Act

variable {σ ε α β : Type} {body : ℕ → β → Act σ ε (β ⊕ α)} {exhausted : β → Act σ ε α}
  {I : β → Prop}

/-- The attempts the loop makes, in order. -/
def trail (body : ℕ → β → Act σ ε (β ⊕ α)) : ℕ → ℕ → β → σ → List (Attempt σ β)
  | 0, _, _, _ => []
  | left + 1, i, b, s =>
      ⟨i, b, s⟩ :: match body i b s with
        | (.ok (.inl b'), s') => trail body left (i + 1) b' s'
        | _ => []

theorem trail_succ (left i : ℕ) (b : β) (s : σ) :
    trail body (left + 1) i b s = ⟨i, b, s⟩ :: match body i b s with
      | (.ok (.inl b'), s') => trail body left (i + 1) b' s'
      | _ => [] := rfl

/-- What an attempt hands on to the next holds of every value carried. -/
theorem carried_of_mem_trail : ∀ {left i : ℕ} {b : β} {s : σ}, I b →
    (∀ x ∈ trail body left i b s, ∀ b' s', I x.carried →
      body x.index x.carried x.start = (.ok (.inl b'), s') → I b') →
    ∀ x ∈ trail body left i b s, I x.carried
  | 0, _, _, _, _, _, _, hx => by cases hx
  | left + 1, i, b, s, hb, hstep, x, hx => by
      rw [trail_succ] at hx hstep
      rcases List.mem_cons.mp hx with rfl | hx
      · exact hb
      · rcases hbody : body i b s with ⟨e | b' | a, s'⟩
        · simp [hbody] at hx
        · rw [hbody] at hx hstep
          have hb' : I b' := hstep ⟨i, b, s⟩ List.mem_cons_self b' s' hb hbody
          apply carried_of_mem_trail hb' (fun y hy => ?_) x hx
          exact hstep y (List.mem_cons_of_mem _ hy)
        · simp [hbody] at hx

theorem length_trail_le : ∀ (left i : ℕ) (b : β) (s : σ), (trail body left i b s).length ≤ left
  | 0, _, _, _ => Nat.le_refl 0
  | left + 1, i, b, s => by
      rw [trail_succ, List.length_cons]
      split
      · exact Nat.succ_le_succ (length_trail_le left _ _ _)
      · exact Nat.succ_le_succ (Nat.zero_le left)

theorem index_of_trail : ∀ {left i k : ℕ} {b : β} {s : σ} {x : Attempt σ β},
    (trail body left i b s)[k]? = some x → x.index = i + k
  | 0, _, _, _, _, _, h => by simp [trail] at h
  | left + 1, i, 0, b, s, x, h => by
      cases h
      rfl
  | left + 1, i, k + 1, b, s, x, h => by
      rw [trail_succ, List.getElem?_cons_succ] at h
      split at h
      · rw [index_of_trail h]
        omega
      · cases h

/-- Each attempt starts from what the one before it hands on. -/
theorem trail_next : ∀ {left i k : ℕ} {b : β} {s : σ} {x y : Attempt σ β},
    (trail body left i b s)[k]? = some x → (trail body left i b s)[k + 1]? = some y →
    body x.index x.carried x.start = (.ok (.inl y.carried), y.start)
  | 0, _, _, _, _, _, _, h, _ => by simp [trail] at h
  | left + 1, i, k, b, s, x, y, hx, hy => by
      rw [trail_succ, List.getElem?_cons_succ] at hy
      rcases hbody : body i b s with ⟨e | b' | a, s'⟩
      · simp [hbody] at hy
      · rw [hbody] at hy
        cases k with
        | zero =>
            cases hx
            cases left with
            | zero => cases hy
            | succ left =>
                cases hy
                exact hbody
        | succ k =>
            rw [trail_succ, List.getElem?_cons_succ, hbody] at hx
            exact trail_next hx hy
      · simp [hbody] at hy

/-- The outcome of a loop is that of its last attempt, or follows an attempt that asks for
another when there are none left. -/
theorem trail_last : ∀ (left i : ℕ) (b : β) (s : σ), ∃ x,
    (trail body (left + 1) i b s).getLast? = some x ∧
      ((∃ e s', body x.index x.carried x.start = (.error e, s') ∧
          attempts body exhausted (left + 1) i b s = (.error e, s')) ∨
        (∃ a s', body x.index x.carried x.start = (.ok (.inr a), s') ∧
          attempts body exhausted (left + 1) i b s = (.ok a, s')) ∨
        ∃ b' s', body x.index x.carried x.start = (.ok (.inl b'), s') ∧
          attempts body exhausted (left + 1) i b s = exhausted b' s' ∧
          (trail body (left + 1) i b s).length = left + 1)
  | left, i, b, s => by
      rw [trail_succ, attempts, andThen]
      rcases hbody : body i b s with ⟨e | b' | a, s'⟩
      · exact ⟨⟨i, b, s⟩, rfl, .inl ⟨e, s', hbody, rfl⟩⟩
      · cases left with
        | zero => exact ⟨⟨i, b, s⟩, rfl, .inr (.inr ⟨b', s', hbody, rfl, rfl⟩)⟩
        | succ left =>
            obtain ⟨x, hx, hlast⟩ := trail_last left (i + 1) b' s'
            refine ⟨x, ?_, ?_⟩
            · dsimp only
              rw [List.getLast?_cons, hx]
              rfl
            · rcases hlast with herror | hok | ⟨b'', s'', hx', hrest, hlength⟩
              · exact .inl herror
              · exact .inr (.inl hok)
              · refine .inr (.inr ⟨b'', s'', hx', hrest, ?_⟩)
                dsimp only
                rw [List.length_cons, hlength]
      · exact ⟨⟨i, b, s⟩, rfl, .inr (.inl ⟨a, s', hbody, rfl⟩)⟩

/-- A loop with a result has it from one of its attempts, or from what follows them. -/
theorem exists_trail_of_attempts {a : α} {s' : σ} : ∀ {left i : ℕ} {b : β} {s : σ},
    attempts body exhausted left i b s = (.ok a, s') →
    (∃ x ∈ trail body left i b s, body x.index x.carried x.start = (.ok (.inr a), s')) ∨
      ∃ b₁ s₁, exhausted b₁ s₁ = (.ok a, s')
  | 0, _, b, s, h => .inr ⟨b, s, h⟩
  | left + 1, i, b, s, h => by
      obtain ⟨b' | a', s₁, hbody, hrest⟩ := bind_eq_ok h
      · rcases exists_trail_of_attempts hrest with ⟨x, hx, hlast⟩ | hexhausted
        · refine .inl ⟨x, ?_, hlast⟩
          rw [trail_succ, hbody]
          exact List.mem_cons_of_mem _ hx
        · exact .inr hexhausted
      · cases hrest
        exact .inl ⟨⟨i, b, s⟩, List.mem_cons_self, hbody⟩

/-- Where the last attempt does not ask for another, nothing follows it. -/
theorem attempts_congr {exhausted' : β → Act σ ε α} : ∀ {left i : ℕ} {b : β} {s : σ},
    (∀ b b' s s', body (i + left) b s ≠ (.ok (.inl b'), s')) →
    attempts body exhausted (left + 1) i b s = attempts body exhausted' (left + 1) i b s
  | 0, i, b, s, hlast => by
      rcases hbody : body i b s with ⟨e | b' | a, s'⟩
      · rw [attempts, attempts, andThen, andThen, hbody]
      · exact absurd hbody (hlast b b' s s')
      · rw [attempts, attempts, andThen, andThen, hbody]
  | left + 1, i, b, s, hlast => by
      rw [attempts, attempts, andThen, andThen]
      rcases hbody : body i b s with ⟨e | b' | a, s'⟩
      · rfl
      · apply attempts_congr
        rwa [Nat.add_right_comm i 1 left]
      · rfl

end Act

end Barnabas.Lib
