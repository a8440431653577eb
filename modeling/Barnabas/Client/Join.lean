import Barnabas.Lib.Polling
import Barnabas.Client.Socket

/-!
Waiting for several things at once (`barnabas-client/src/join.rs` and
`barnabas-client/src/timeout.rs`), and the joined reads of `Cluster::recv_many`.

`join_all` polls every future that is not finished at every wake, and is ready when the last
one is. What it returns is what each future returns if it is polled alone at the same wakes,
in the order of the futures. `Race` polls the work before the timer.
-/

namespace Barnabas.Client

open Barnabas.Lib Barnabas.Core

variable {ε σ τ α : Type}

/-! ### Joined futures -/

/-- The state of `join_all`: a slot is emptied when its future is done. -/
structure JoinAll (σ α : Type) where
  pending : List (Option σ)
  done : List (Option α)
  left : ℕ

namespace JoinAll

def new (futures : List σ) : JoinAll σ α :=
  ⟨futures.map some, futures.map fun _ => none, futures.length⟩

/-- The loop over the slots. -/
def sweep (poll : σ → ε → α ⊕ σ) (e : ε) :
    List (Option σ × Option α) → ℕ → List (Option σ × Option α) × ℕ
  | [], left => ([], left)
  | (none, out) :: slots, left =>
      let (slots, left) := sweep poll e slots left
      ((none, out) :: slots, left)
  | (some fut, out) :: slots, left =>
      match poll fut e with
      | .inl value =>
          let (slots, left) := sweep poll e slots (left - 1)
          ((none, some value) :: slots, left)
      | .inr fut =>
          let (slots, left) := sweep poll e slots left
          ((some fut, out) :: slots, left)

/-- One wake. An output of `none` is the panic of `expect` at a slot that is not filled. -/
def poll (poll : σ → ε → α ⊕ σ) (join : JoinAll σ α) (e : ε) : Option (List α) ⊕ JoinAll σ α :=
  let (slots, left) := sweep poll e (join.pending.zip join.done) join.left
  if left = 0 then .inl (slots.mapM (·.2))
  else .inr ⟨slots.map (·.1), slots.map (·.2), left⟩

/-- The state in which the futures have got so far. -/
def of (progress : List (α ⊕ σ)) : JoinAll σ α :=
  ⟨progress.map Sum.getRight?, progress.map Sum.getLeft?, progress.countP Sum.isRight⟩

theorem new_eq_of (futures : List σ) : new futures = (of (futures.map .inr) : JoinAll σ α) := by
  have hleft : (futures.map (Sum.inr : σ → α ⊕ σ)).countP Sum.isRight = futures.length := by
    rw [List.countP_map]
    exact List.countP_eq_length.mpr fun _ _ => rfl
  rw [new, of, hleft, List.map_map, List.map_map]
  rfl

variable {poll' : σ → ε → α ⊕ σ}

variable (poll') in
/-- The loop takes every future one wake further and counts those that are left. -/
theorem sweep_of (e : ε) (progress : List (α ⊕ σ)) (more : ℕ) :
    sweep poll' e (progress.map fun p => (p.getRight?, p.getLeft?))
        (progress.countP Sum.isRight + more) =
      ((progress.map (advance poll' e)).map fun p => (p.getRight?, p.getLeft?),
        (progress.map (advance poll' e)).countP Sum.isRight + more) := by
  induction progress generalizing more with
  | nil => rfl
  | cons p progress ih =>
      rcases p with out | fut
      · simp [sweep, advance, ih]
      · have hcount (fut : σ) (progress : List (α ⊕ σ)) :
            (Sum.inr fut :: progress : List (α ⊕ σ)).countP Sum.isRight + more =
              progress.countP Sum.isRight + (more + 1) := by
          rw [List.countP_cons_of_pos rfl]
          omega
        have hless : progress.countP Sum.isRight + (more + 1) - 1 =
            progress.countP Sum.isRight + more := by omega
        rw [hcount]
        rcases he : poll' fut e with out | fut'
        · simp [sweep, advance, he, hless, ih more]
        · simp only [List.map_cons, advance, he, hcount, Sum.getRight?_inr, Sum.getLeft?_inr, sweep,
            ih (more + 1)]

/-- A join is ready once every future is, with their outputs in order. -/
theorem poll_of (e : ε) (progress : List (α ⊕ σ)) :
    JoinAll.poll poll' (of progress) e =
      if ∀ p ∈ progress.map (advance poll' e), p.isLeft then
        .inl ((progress.map (advance poll' e)).mapM Sum.getLeft?)
      else .inr (of (progress.map (advance poll' e))) := by
  have hzip : (of progress).pending.zip (of progress).done =
      progress.map fun p => (p.getRight?, p.getLeft?) := List.zip_map' ..
  have hsweep := sweep_of poll' e progress 0
  rw [Nat.add_zero, Nat.add_zero] at hsweep
  generalize progress.map (advance poll' e) = next at hsweep ⊢
  have hready : next.countP Sum.isRight = 0 ↔ ∀ p ∈ next, p.isLeft := by
    rw [List.countP_eq_zero]
    simp
  rw [JoinAll.poll, hzip, show (of progress).left = progress.countP Sum.isRight from rfl, hsweep]
  dsimp only
  by_cases h : ∀ p ∈ next, p.isLeft
  · rw [if_pos (hready.mpr h), if_pos h, List.mapM_map]
    rfl
  · rw [if_neg (mt hready.mp h), if_neg h, of, List.map_map, List.map_map]
    rfl

theorem map_advance_of_ready (e : ε) {progress : List (α ⊕ σ)} (h : ∀ p ∈ progress, p.isLeft) :
    progress.map (advance poll' e) = progress := by
  refine (List.map_congr_left fun p hp => ?_).trans (List.map_id _)
  rcases p with out | fut
  · rfl
  · cases h _ hp

theorem exists_outputs {progress : List (α ⊕ σ)} (h : ∀ p ∈ progress, p.isLeft) :
    ∃ outputs : List α, progress = outputs.map .inl := by
  induction progress with
  | nil => exact ⟨[], rfl⟩
  | cons p progress ih =>
      obtain ⟨outputs, rfl⟩ := ih fun p hp => h p (List.mem_cons_of_mem _ hp)
      rcases p with out | fut
      · exact ⟨out :: outputs, rfl⟩
      · cases h _ List.mem_cons_self

theorem mapM_getLeft? (outputs : List α) :
    (outputs.map (.inl : α → α ⊕ σ)).mapM Sum.getLeft? = some outputs := by
  induction outputs with
  | nil => rfl
  | cons out outputs ih => rw [List.map_cons, List.mapM_cons, ih, Sum.getLeft?_inl]; rfl

/-- At every wake a join is where its futures are. -/
theorem drive_new (futures : List σ) (e : ε) (wakes : List ε) :
    drive (JoinAll.poll poll') (new futures) (e :: wakes) =
      if ∀ p ∈ futures.map (drive poll' · (e :: wakes)), p.isLeft then
        .inl ((futures.map (drive poll' · (e :: wakes))).mapM Sum.getLeft?)
      else .inr (of (futures.map (drive poll' · (e :: wakes)))) := by
  have hadvance (wakes : List ε) (e : ε) : futures.map (drive poll' · (wakes ++ [e])) =
      (futures.map (drive poll' · wakes)).map (advance poll' e) := by
    rw [List.map_map]
    exact List.map_congr_left fun fut _ => drive_concat fut wakes e
  induction wakes using List.reverseRecOn with
  | nil =>
      have hfirst := hadvance [] e
      rw [List.nil_append] at hfirst
      rw [← List.nil_append [e], drive_concat, drive_nil, advance, List.nil_append, hfirst, new_eq_of,
        poll_of]
      rfl
  | append_singleton wakes e' ih =>
      rw [← List.cons_append, drive_concat, ih, hadvance]
      by_cases h : ∀ p ∈ futures.map (drive poll' · (e :: wakes)), p.isLeft
      · rw [if_pos h, map_advance_of_ready e' h, if_pos h, advance]
      · rw [if_neg h, advance, poll_of]

theorem outputs_of_ready {futures : List σ} {e : ε} {wakes : List ε} {result : Option (List α)}
    (h : drive (JoinAll.poll poll') (new futures) (e :: wakes) = .inl result) :
    ∃ outputs, result = some outputs ∧
      futures.map (drive poll' · (e :: wakes)) = outputs.map .inl := by
  rw [drive_new] at h
  generalize futures.map (drive poll' · (e :: wakes)) = progress at h
  by_cases hready : ∀ p ∈ progress, p.isLeft
  · obtain ⟨outputs, rfl⟩ := exists_outputs hready
    rw [if_pos hready, mapM_getLeft?] at h
    exact ⟨outputs, (Sum.inl.inj h).symm, rfl⟩
  · rw [if_neg hready] at h
    cases h

theorem ready_of_outputs {futures : List σ} {e : ε} {wakes : List ε} {outputs : List α}
    (h : futures.map (drive poll' · (e :: wakes)) = outputs.map .inl) :
    drive (JoinAll.poll poll') (new futures) (e :: wakes) = .inl (some outputs) := by
  rw [drive_new, h, if_pos (by simp), mapM_getLeft?]

/-- **A join is its futures, polled alone.** It is ready when all of them are, never panics,
and returns what each of them returns, in the order in which they were given. -/
theorem ready_iff (futures : List σ) (e : ε) (wakes : List ε) (result : Option (List α)) :
    drive (JoinAll.poll poll') (new futures) (e :: wakes) = .inl result ↔
      ∃ outputs, result = some outputs ∧
        futures.map (drive poll' · (e :: wakes)) = outputs.map .inl := by
  constructor
  · exact outputs_of_ready
  · rintro ⟨outputs, rfl, houtputs⟩
    exact ready_of_outputs houtputs

end JoinAll

/-! ### A future under a deadline -/

/-- The state of `Race`: the future and the timer it runs against. -/
structure Race (σ τ : Type) where
  fut : σ
  sleep : τ

namespace Race

variable {poll' : σ → ε → α ⊕ σ} {timer : τ → ε → Unit ⊕ τ}

/-- One wake. The output `.inl out` is the source's `Some(out)`; `.inr fut` is its `None`, with
what the future that is dropped leaves of what it had borrowed. -/
def poll (poll' : σ → ε → α ⊕ σ) (timer : τ → ε → Unit ⊕ τ) (race : Race σ τ) (e : ε) :
    (α ⊕ σ) ⊕ Race σ τ :=
  match poll' race.fut e with
  -- The work first: if both are ready, the request won.
  | .inl out => .inl (.inl out)
  | .inr fut =>
      match timer race.sleep e with
      | .inl () => .inl (.inr fut)
      | .inr sleep => .inr ⟨fut, sleep⟩

variable (poll' timer) in
theorem poll_cases (race : Race σ τ) (e : ε) :
    (∃ out, poll' race.fut e = .inl out ∧ poll poll' timer race e = .inl (.inl out)) ∨
      (∃ fut, poll' race.fut e = .inr fut ∧ timer race.sleep e = .inl () ∧
        poll poll' timer race e = .inl (.inr fut)) ∨
      ∃ fut sleep, poll' race.fut e = .inr fut ∧ timer race.sleep e = .inr sleep ∧
        poll poll' timer race e = .inr ⟨fut, sleep⟩ := by
  rw [poll]
  rcases poll' race.fut e with out | fut
  · exact .inl ⟨out, rfl, rfl⟩
  · rcases timer race.sleep e with ⟨⟩ | sleep
    · exact .inr (.inl ⟨fut, rfl, rfl, rfl⟩)
    · exact .inr (.inr ⟨fut, sleep, rfl, rfl, rfl⟩)

/-- A race goes on as long as both go on. -/
theorem drive_eq_inr_iff {race race' : Race σ τ} {wakes : List ε} :
    drive (poll poll' timer) race wakes = .inr race' ↔
      drive poll' race.fut wakes = .inr race'.fut ∧
        drive timer race.sleep wakes = .inr race'.sleep := by
  induction wakes generalizing race with
  | nil =>
      rcases race with ⟨fut, sleep⟩
      rcases race' with ⟨fut', sleep'⟩
      simp
  | cons e wakes ih =>
      obtain ⟨out, hfut, hpoll⟩ | ⟨fut, hfut, hsleep, hpoll⟩ | ⟨fut, sleep, hfut, hsleep, hpoll⟩ :=
        poll_cases poll' timer race e
      · simp [drive_of_ready hpoll, drive_of_ready hfut]
      · simp [drive_of_ready hpoll, drive_of_ready hsleep]
      · rw [drive_of_pending hpoll, drive_of_pending hfut, drive_of_pending hsleep, ih]

/-- **The work wins a tie.** A future that is raced returns its output if at some wake it is
ready and the timer was not at any wake before it. -/
theorem drive_eq_work_iff {race : Race σ τ} {wakes : List ε} {out : α} :
    drive (poll poll' timer) race wakes = .inl (.inl out) ↔
      ∃ before e, before ++ [e] <+: wakes ∧ drive poll' race.fut (before ++ [e]) = .inl out ∧
        (drive timer race.sleep before).isRight := by
  constructor
  · intro h
    obtain ⟨before, e, race', hbegun, hbefore, hpoll⟩ := drive_eq_inl_iff.mp h
    obtain ⟨hfut, hsleep⟩ := drive_eq_inr_iff.mp hbefore
    refine ⟨before, e, hbegun, ?_, by rw [hsleep]; rfl⟩
    rw [drive_concat, hfut, advance]
    obtain ⟨out', hready, heq⟩ | ⟨fut, -, -, heq⟩ | ⟨fut, sleep, -, -, heq⟩ :=
      poll_cases poll' timer race' e
    · rw [heq] at hpoll
      cases hpoll
      exact hready
    · rw [heq] at hpoll
      cases hpoll
    · rw [heq] at hpoll
      cases hpoll
  · rintro ⟨before, e, hbegun, hout, hsleep⟩
    refine drive_of_begun ?_ hbegun
    rcases hbefore : drive (poll poll' timer) race before with ended | race'
    -- The race was over before: the timer is still pending, so the work had won.
    · obtain ⟨earlier, e', race', hbegun', hbefore', hpoll⟩ := drive_eq_inl_iff.mp hbefore
      obtain ⟨hfut', hsleep'⟩ := drive_eq_inr_iff.mp hbefore'
      have hpending := pending_of_begun hsleep hbegun'
      rw [drive_concat, hsleep', advance] at hpending
      obtain ⟨out', hready, heq⟩ | ⟨fut, -, hfires, -⟩ | ⟨fut, sleep, -, -, heq⟩ :=
        poll_cases poll' timer race' e'
      · have hwon : drive poll' race.fut (earlier ++ [e']) = .inl out' := by
          rw [drive_concat, hfut', advance, hready]
        have hsame := drive_of_begun hwon (hbegun'.trans (List.prefix_append before [e]))
        rw [hout] at hsame
        rw [heq] at hpoll
        cases hpoll
        cases hsame
        exact drive_append_of_ready hbefore [e]
      · rw [hfires] at hpending
        cases hpending
      · rw [heq] at hpoll
        cases hpoll
    · obtain ⟨hfut', -⟩ := drive_eq_inr_iff.mp hbefore
      rw [drive_concat, hfut', advance] at hout
      rw [drive_concat, hbefore, advance, poll, hout]

/-- **The timer wins only alone.** It does if it is ready at a wake at which the work is not. -/
theorem drive_eq_timeout_iff {race : Race σ τ} {wakes : List ε} {fut : σ} :
    drive (poll poll' timer) race wakes = .inl (.inr fut) ↔
      ∃ before e, before ++ [e] <+: wakes ∧ drive poll' race.fut (before ++ [e]) = .inr fut ∧
        (drive timer race.sleep before).isRight ∧
        (drive timer race.sleep (before ++ [e])).isLeft := by
  constructor
  · intro h
    obtain ⟨before, e, race', hbegun, hbefore, hpoll⟩ := drive_eq_inl_iff.mp h
    obtain ⟨hfut, hsleep⟩ := drive_eq_inr_iff.mp hbefore
    obtain ⟨out, -, heq⟩ | ⟨fut', hpending, hfires, heq⟩ | ⟨fut', sleep, -, -, heq⟩ :=
      poll_cases poll' timer race' e
    · rw [heq] at hpoll
      cases hpoll
    · rw [heq] at hpoll
      cases hpoll
      refine ⟨before, e, hbegun, ?_, by rw [hsleep]; rfl, ?_⟩
      · rw [drive_concat, hfut, advance, hpending]
      · rw [drive_concat, hsleep, advance, hfires]
        rfl
    · rw [heq] at hpoll
      cases hpoll
  · rintro ⟨before, e, hbegun, hfut, hsleep, hfires⟩
    refine drive_of_begun ?_ hbegun
    -- the work was pending up to here, or it would have won before
    rcases hwork : drive poll' race.fut before with out | fut'
    · rw [drive_append_of_ready hwork] at hfut
      cases hfut
    · rcases htimer : drive timer race.sleep before with ⟨⟩ | sleep
      · rw [htimer] at hsleep
        cases hsleep
      · have hbefore : drive (poll poll' timer) race before = .inr ⟨fut', sleep⟩ :=
          drive_eq_inr_iff.mpr ⟨hwork, htimer⟩
        rw [drive_concat, hwork, advance] at hfut
        rw [drive_concat, htimer, advance] at hfires
        rw [drive_concat, hbefore, advance, poll, hfut]
        rcases hwake : timer sleep e with ⟨⟩ | sleep'
        · rfl
        · rw [hwake] at hfires
          cases hfires

end Race

end Barnabas.Client
