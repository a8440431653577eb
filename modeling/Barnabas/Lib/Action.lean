import Mathlib.Data.Nat.Notation
import Mathlib.Order.Defs.Unbundled

/-!
Fallible actions over a state, and the rules that reason about them.

`Act σ ε α` is the embedding of a method that may fail: it maps the state
before the call to a result or an error *and* the state after it. An error does
not roll the state back, so what a failing call leaves behind is part of the
meaning of the call and can be stated and proved.

Two judgments are used throughout. `Triple P m Q E` is the usual
pre- and postcondition, with a second postcondition for the error exit.
`Moves R m` says that whatever `m` does, and however it ends, it relates the
state before to the state after by `R`; for a reflexive and transitive `R` the
judgment composes with no side condition at all, so a frame condition ("this
field is untouched", "this list only grows") or an invariant is proved once for
every primitive and then carried through by the shape of the program.
-/

namespace Barnabas.Lib

variable {σ τ ε ε' α β γ : Type}

/-- An action on a state `σ` with result `α` that may fail with `ε`. -/
def Act (σ ε α : Type) : Type := σ → Except ε α × σ

namespace Act

/-- Run `m`, and continue with its result if it has one. -/
def andThen (m : Act σ ε α) (f : α → Act σ ε β) : Act σ ε β := fun s =>
  match m s with
  | (.ok a, s') => f a s'
  | (.error e, s') => (.error e, s')

instance : Monad (Act σ ε) where
  pure a := fun s => (.ok a, s)
  bind := andThen

instance : MonadExceptOf ε (Act σ ε) where
  throw e := fun s => (.error e, s)
  tryCatch m h := fun s =>
    match m s with
    | (.ok a, s') => (.ok a, s')
    | (.error e, s') => h e s'

instance : MonadStateOf σ (Act σ ε) where
  get := fun s => (.ok s, s)
  set s := fun _ => (.ok (), s)
  modifyGet f := fun s => (.ok (f s).1, (f s).2)

/-- Run `m` and hand its outcome, error or not, to the caller. -/
def attempt (m : Act σ ε α) : Act σ ε' (Except ε α) := fun s => (.ok (m s).1, (m s).2)

/-- Run `m` under another type of errors. -/
def mapError (f : ε → ε') (m : Act σ ε α) : Act σ ε' α := fun s =>
  ((m s).1.mapError f, (m s).2)

/-- Run a step that cannot fail on a part of the state. -/
def lift (part : τ → σ) (put : τ → σ → τ) (f : σ → α × σ) : Act τ ε α := fun t =>
  (.ok (f (part t)).1, put t (f (part t)).2)

/-- A loop of at most so many attempts, numbered from `i`, that carries a value
of type `β` from one attempt to the next. An attempt that ends in `.inr` ends
the loop; `exhausted` is what follows the last one. -/
def attempts (body : ℕ → β → Act σ ε (β ⊕ α)) (exhausted : β → Act σ ε α) :
    ℕ → ℕ → β → Act σ ε α
  | 0, _, b => exhausted b
  | left + 1, i, b => andThen (body i b) fun
      | .inl b' => attempts body exhausted left (i + 1) b'
      | .inr a => fun s => (.ok a, s)

/-- Run an action on a part of the state. -/
def zoom (part : τ → σ) (put : τ → σ → τ) (m : Act σ ε α) : Act τ ε α := fun t =>
  ((m (part t)).1, put t (m (part t)).2)

/-- The result of an `Except` computed without touching the state. -/
def ofExcept (r : Except ε α) : Act σ ε α := fun s => (r, s)

@[simp] theorem pure_apply (a : α) (s : σ) : (pure a : Act σ ε α) s = (.ok a, s) := rfl

@[simp] theorem throw_apply (e : ε) (s : σ) : (throw e : Act σ ε α) s = (.error e, s) := rfl

@[simp] theorem get_apply (s : σ) : (get : Act σ ε σ) s = (.ok s, s) := rfl

@[simp] theorem set_apply (s s' : σ) : (set s' : Act σ ε PUnit) s = (.ok (), s') := rfl

@[simp] theorem modify_apply (f : σ → σ) (s : σ) :
    (modify f : Act σ ε PUnit) s = (.ok (), f s) := rfl

@[simp] theorem attempt_apply (m : Act σ ε α) (s : σ) :
    (attempt m : Act σ ε' _) s = (.ok (m s).1, (m s).2) := rfl

@[simp] theorem mapError_apply (f : ε → ε') (m : Act σ ε α) (s : σ) :
    mapError f m s = ((m s).1.mapError f, (m s).2) := rfl

@[simp] theorem lift_apply (part : τ → σ) (put : τ → σ → τ) (f : σ → α × σ) (t : τ) :
    (lift part put f : Act τ ε α) t = (.ok (f (part t)).1, put t (f (part t)).2) := rfl

@[simp] theorem zoom_apply (part : τ → σ) (put : τ → σ → τ) (m : Act σ ε α) (t : τ) :
    zoom part put m t = ((m (part t)).1, put t (m (part t)).2) := rfl

@[simp] theorem ofExcept_apply (r : Except ε α) (s : σ) :
    (ofExcept r : Act σ ε α) s = (r, s) := rfl

theorem bind_apply (m : Act σ ε α) (f : α → Act σ ε β) (s : σ) :
    (m >>= f) s = match m s with
      | (.ok a, s') => f a s'
      | (.error e, s') => (.error e, s') := rfl

theorem bind_of_ok {m : Act σ ε α} {f : α → Act σ ε β} {s s' : σ} {a : α}
    (h : m s = (.ok a, s')) : (m >>= f) s = f a s' := by
  rw [bind_apply, h]

theorem bind_of_error {m : Act σ ε α} {f : α → Act σ ε β} {s s' : σ} {e : ε}
    (h : m s = (.error e, s')) : (m >>= f) s = (.error e, s') := by
  rw [bind_apply, h]

/-- Dropping a result changes no state. -/
theorem bind_pure_snd (m : Act σ ε α) (b : β) (s : σ) :
    ((m >>= fun _ => pure b) s).2 = (m s).2 := by
  rcases hm : m s with ⟨e | a, s'⟩
  · rw [bind_of_error hm]
  · rw [bind_of_ok hm]
    rfl

/-- A program with a result had one after its first step too. -/
theorem bind_eq_ok {m : Act σ ε α} {f : α → Act σ ε β} {s s' : σ} {b : β}
    (h : (m >>= f) s = (.ok b, s')) : ∃ a s₁, m s = (.ok a, s₁) ∧ f a s₁ = (.ok b, s') := by
  rw [bind_apply] at h
  rcases hm : m s with ⟨e | a, s₁⟩
  · rw [hm] at h
    cases h
  · rw [hm] at h
    exact ⟨a, s₁, rfl, h⟩

/-! ### Pre- and postconditions -/

/-- The postcondition that holds of an outcome: `Q` of a result, `E` of an
error, each together with the state reached. -/
def Post (Q : α → σ → Prop) (E : ε → σ → Prop) : Except ε α × σ → Prop
  | (.ok a, s) => Q a s
  | (.error e, s) => E e s

theorem Post.imp {Q Q' : α → σ → Prop} {E E' : ε → σ → Prop} {outcome : Except ε α × σ}
    (h : Post Q E outcome) (hQ : ∀ a s, Q a s → Q' a s) (hE : ∀ e s, E e s → E' e s) :
    Post Q' E' outcome := by
  rcases outcome with ⟨e | a, s⟩
  · exact hE e s h
  · exact hQ a s h

/-- From every state in `P`, `m` ends in `Q` or fails in `E`. -/
def Triple (P : σ → Prop) (m : Act σ ε α) (Q : α → σ → Prop) (E : ε → σ → Prop) : Prop :=
  ∀ s, P s → Post Q E (m s)

theorem Triple.pure {P : σ → Prop} {Q : α → σ → Prop} {E : ε → σ → Prop} {a : α}
    (h : ∀ s, P s → Q a s) : Triple P (Pure.pure a : Act σ ε α) Q E := h

theorem Triple.throw {P : σ → Prop} {Q : α → σ → Prop} {E : ε → σ → Prop} {e : ε}
    (h : ∀ s, P s → E e s) : Triple P (MonadExcept.throw e : Act σ ε α) Q E := h

theorem Triple.modify {P : σ → Prop} {Q : PUnit → σ → Prop} {E : ε → σ → Prop} {f : σ → σ}
    (h : ∀ s, P s → Q ⟨⟩ (f s)) : Triple P (modify f : Act σ ε PUnit) Q E := h

theorem Triple.lift {P : τ → Prop} {Q : α → τ → Prop} {E : ε → τ → Prop} {part : τ → σ}
    {put : τ → σ → τ} {f : σ → α × σ} (h : ∀ t, P t → Q (f (part t)).1 (put t (f (part t)).2)) :
    Triple P (Act.lift part put f : Act τ ε α) Q E := h

theorem Triple.ofExcept {P : σ → Prop} {Q : α → σ → Prop} {E : ε → σ → Prop} {r : Except ε α}
    (hok : ∀ a, r = .ok a → ∀ s, P s → Q a s) (herror : ∀ e, r = .error e → ∀ s, P s → E e s) :
    Triple P (Act.ofExcept r : Act σ ε α) Q E := by
  intro s hs
  cases r with
  | ok a => exact hok a rfl s hs
  | error e => exact herror e rfl s hs

theorem Triple.bind {P : σ → Prop} {m : Act σ ε α} {Q : α → σ → Prop} {E : ε → σ → Prop}
    {f : α → Act σ ε β} {R : β → σ → Prop} (hm : Triple P m Q E)
    (hf : ∀ a, Triple (Q a) (f a) R E) : Triple P (m >>= f) R E := by
  intro s hs
  have h := hm s hs
  rw [bind_apply]
  rcases hms : m s with ⟨_ | a, s'⟩
  · rw [hms] at h
    exact h
  · rw [hms] at h
    exact hf a s' h

theorem Triple.ite {c : Prop} [Decidable c] {P : σ → Prop} {m n : Act σ ε α}
    {Q : α → σ → Prop} {E : ε → σ → Prop} (hm : c → Triple P m Q E)
    (hn : ¬c → Triple P n Q E) : Triple P (if c then m else n) Q E := by
  split
  · exact hm ‹_›
  · exact hn ‹_›

/-- The continuation may use what every result of `m` satisfies. -/
theorem Triple.bind_of {C : α → Prop} {P I : σ → Prop} {m : Act σ ε α} {E : ε → σ → Prop}
    {f : α → Act σ ε β} {R : β → σ → Prop} (hm : Triple P m (fun _ => I) E)
    (hC : ∀ s a s', m s = (.ok a, s') → C a) (hf : ∀ a, C a → Triple I (f a) R E) :
    Triple P (m >>= f) R E := by
  intro s hs
  have h := hm s hs
  rw [bind_apply]
  rcases hms : m s with ⟨_ | a, s'⟩
  · rw [hms] at h
    exact h
  · rw [hms] at h
    exact hf a (hC s a s' hms) s' h

theorem Triple.attempts {I : σ → Prop} {E : ε → σ → Prop} {body : ℕ → β → Act σ ε (β ⊕ α)}
    {exhausted : β → Act σ ε α} (hbody : ∀ i b, Triple I (body i b) (fun _ => I) E)
    (hexhausted : ∀ b, Triple I (exhausted b) (fun _ => I) E) :
    ∀ left i b, Triple I (Act.attempts body exhausted left i b) (fun _ => I) E
  | 0, _, b => hexhausted b
  | left + 1, i, b => by
      apply Triple.bind (hbody i b)
      rintro (b' | a)
      · exact Triple.attempts hbody hexhausted left (i + 1) b'
      · exact Triple.pure fun _ => id

/-! ### Two-state properties -/

/-- However `m` ends, it relates the state before to the state after by `R`. -/
def Moves (R : σ → σ → Prop) (m : Act σ ε α) : Prop := ∀ s, R s (m s).2

section Moves

variable {R : σ → σ → Prop}

theorem Moves.mono {R' : σ → σ → Prop} {m : Act σ ε α} (hm : Moves R m)
    (h : ∀ s s', R s s' → R' s s') : Moves R' m :=
  fun s => h _ _ (hm s)

theorem Moves.modify {f : σ → σ} (h : ∀ s, R s (f s)) :
    Moves R (modify f : Act σ ε PUnit) :=
  fun s => h s

theorem Moves.attempt {m : Act σ ε α} (hm : Moves R m) :
    Moves R (attempt m : Act σ ε' (Except ε α)) :=
  fun s => hm s

/-- An action on a part of the state moves the whole as its effect on the part
does. -/
theorem Moves.zoom {S : τ → τ → Prop} {part : τ → σ} {put : τ → σ → τ} {m : Act σ ε α}
    (hm : Moves R m) (h : ∀ t s', R (part t) s' → S t (put t s')) :
    Moves S (zoom part put m) :=
  fun t => h t _ (hm (part t))

theorem Moves.lift {S : τ → τ → Prop} {part : τ → σ} {put : τ → σ → τ} {f : σ → α × σ}
    (h : ∀ t, S t (put t (f (part t)).2)) : Moves S (lift part put f : Act τ ε α) :=
  fun t => h t

theorem Moves.ite {c : Prop} [Decidable c] {m n : Act σ ε α} (hm : Moves R m)
    (hn : Moves R n) : Moves R (if c then m else n) := by
  split
  · exact hm
  · exact hn

variable [IsPreorder σ R]

theorem Moves.pure (a : α) : Moves R (Pure.pure a : Act σ ε α) := fun s => refl s

theorem Moves.throw (e : ε) : Moves R (MonadExcept.throw e : Act σ ε α) := fun s => refl s

theorem Moves.get : Moves R (MonadState.get : Act σ ε σ) := fun s => refl s

theorem Moves.ofExcept (r : Except ε α) : Moves R (Act.ofExcept r : Act σ ε α) :=
  fun s => refl s

/-- One step of a program from one state, where what follows may use the outcome
of the step. -/
theorem moves_bind_at {m : Act σ ε α} {f : α → Act σ ε β} {s : σ} (hm : R s (m s).2)
    (hf : ∀ a s', m s = (.ok a, s') → R s' (f a s').2) : R s ((m >>= f) s).2 := by
  rw [bind_apply]
  rcases hms : m s with ⟨e | a, s'⟩
  · rw [hms] at hm
    exact hm
  · rw [hms] at hm
    exact trans_of R hm (hf a s' hms)

theorem Moves.bind {m : Act σ ε α} {f : α → Act σ ε β} (hm : Moves R m)
    (hf : ∀ a, Moves R (f a)) : Moves R (m >>= f) :=
  fun s => moves_bind_at (hm s) fun a s' _ => hf a s'

omit [IsPreorder σ R] in
/-- The continuation may use the state it starts in. -/
theorem Moves.bind_get {f : σ → Act σ ε β} (h : ∀ s, R s (f s s).2) :
    Moves R (MonadState.get >>= f) :=
  fun s => h s

/-- The continuation may use what every result of `m` satisfies. -/
theorem Moves.bind_of {Q : α → Prop} {m : Act σ ε α} {f : α → Act σ ε β} (hm : Moves R m)
    (hQ : ∀ s a s', m s = (.ok a, s') → Q a) (hf : ∀ a, Q a → Moves R (f a)) :
    Moves R (m >>= f) :=
  fun s => moves_bind_at (hm s) fun a s' h => hf a (hQ s a s' h) s'

theorem Moves.attempts {body : ℕ → β → Act σ ε (β ⊕ α)} {exhausted : β → Act σ ε α}
    (hbody : ∀ i b, Moves R (body i b)) (hexhausted : ∀ b, Moves R (exhausted b)) :
    ∀ left i b, Moves R (Act.attempts body exhausted left i b)
  | 0, _, b => hexhausted b
  | left + 1, i, b => by
      apply Moves.bind (hbody i b)
      rintro (b' | a)
      · exact Moves.attempts hbody hexhausted left (i + 1) b'
      · exact Moves.pure a

/-- A loop with a result has it from its last attempt, or from what follows them. -/
theorem attempts_eq_ok {body : ℕ → β → Act σ ε (β ⊕ α)} {exhausted : β → Act σ ε α}
    (hbody : ∀ i b, Moves R (body i b)) {a : α} {s' : σ} :
    ∀ {left i b s}, Act.attempts body exhausted left i b s = (.ok a, s') →
      ∃ s₁, R s s₁ ∧ ((∃ i b, body i b s₁ = (.ok (.inr a), s')) ∨
        ∃ b, exhausted b s₁ = (.ok a, s'))
  | 0, _, b, s, h => ⟨s, refl s, .inr ⟨b, h⟩⟩
  | left + 1, i, b, s, h => by
      obtain ⟨b' | a', s₁, hfirst, hrest⟩ := bind_eq_ok h
      · have hmoved := hbody i b s
        rw [hfirst] at hmoved
        obtain ⟨s₂, hreached, hlast⟩ := attempts_eq_ok hbody hrest
        exact ⟨s₂, trans_of R hmoved hreached, hlast⟩
      · cases hrest
        exact ⟨s, refl s, .inl ⟨i, b, hfirst⟩⟩

end Moves

/-- A part of the state is as it was. -/
def Keeps (part : σ → β) (s s' : σ) : Prop := part s' = part s

instance {part : σ → β} : IsPreorder σ (Keeps part) where
  refl _ := rfl
  trans _ _ _ h h' := Eq.trans h' h

/-- A property is handed on. -/
def Preserves (I : σ → Prop) (s s' : σ) : Prop := I s → I s'

instance {I : σ → Prop} : IsPreorder σ (Preserves I) where
  refl _ := id
  trans _ _ _ h h' := h' ∘ h

/-! ### Logs -/

/-- A log kept in the state only grew, and by entries in `P`. -/
def Appends (log : σ → List β) (P : β → Prop) (s s' : σ) : Prop :=
  ∃ entries, log s' = log s ++ entries ∧ ∀ b ∈ entries, P b

variable {log : σ → List β} {P : β → Prop}

theorem Appends.of_eq {s s' : σ} (h : log s' = log s) : Appends log P s s' :=
  ⟨[], by rw [h, List.append_nil], by simp⟩

theorem Appends.one {s s' : σ} {b : β} (h : log s' = log s ++ [b]) (hb : P b) :
    Appends log P s s' :=
  ⟨[b], h, by simpa using hb⟩

theorem Appends.trans {s s' s'' : σ} (h : Appends log P s s') (h' : Appends log P s' s'') :
    Appends log P s s'' := by
  obtain ⟨entries, heq, hall⟩ := h
  obtain ⟨entries', heq', hall'⟩ := h'
  refine ⟨entries ++ entries', by rw [heq', heq, List.append_assoc], ?_⟩
  intro b hb
  rcases List.mem_append.mp hb with hb | hb
  · exact hall b hb
  · exact hall' b hb

instance : IsPreorder σ (Appends log P) where
  refl s := .of_eq rfl
  trans _ _ _ := .trans

end Act

end Barnabas.Lib
