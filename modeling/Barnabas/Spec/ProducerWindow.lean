import Barnabas.Lib.GoBack
import Barnabas.Lib.Temporal

/-!
The specification of the in-flight window (`spec/ProducerWindow.tla`).

One partition, its queue and its log: a step sends a whole window, of which the broker
takes a leading run, and retires that run. The module checks the invariant and the
liveness property with the model checker for eight batches, a window of five and three
failures; here they hold for any of them. A step of the specification is a number of
steps of the channel of `Lib.GoBack`, in which the sender learns of everything that was
written before the next window is sent.
-/

namespace Barnabas.Spec.ProducerWindow

open Barnabas.Lib

/-- Batches not yet acknowledged, what the broker has written, and the failures so far. -/
structure State where
  pending : List ℕ
  log : List ℕ
  failures : ℕ
  deriving DecidableEq, Repr

/-- `[i \in 1..n |-> i]`. -/
def oneTo (n : ℕ) : List ℕ := List.range' 1 n

@[simp] theorem length_oneTo (n : ℕ) : (oneTo n).length = n := List.length_range'

theorem take_oneTo {k n : ℕ} (h : k ≤ n) : (oneTo n).take k = oneTo k := by
  rw [oneTo, List.take_range'_of_length_ge h, oneTo]

section Spec

variable (batches maxInFlight maxFailures : ℕ)

def Init (s : State) : Prop := s = ⟨oneTo batches, [], 0⟩

/-- One round trip of a window, of which the broker accepted the first `k` requests. -/
inductive SendWindow : State → State → Prop
  | mk (s : State) (k : ℕ) (hpending : 0 < s.pending.length)
      (hk : k ≤ min maxInFlight s.pending.length)
      (hfailure : k = min maxInFlight s.pending.length ∨ s.failures < maxFailures) :
      SendWindow s ⟨s.pending.drop k, s.log ++ s.pending.take k,
        if k < min maxInFlight s.pending.length then s.failures + 1 else s.failures⟩

def Done (s s' : State) : Prop := s.pending.length = 0 ∧ s' = s

def Next (s s' : State) : Prop := SendWindow maxInFlight maxFailures s s' ∨ Done s s'

/-- The log is exactly 1, 2, 3, … -/
def LogIsExactPrefix (s : State) : Prop := s.log = oneTo s.log.length

/-- The specification as a channel: everything written is acknowledged. -/
def channel (s : State) : GoBack.Channel ℕ := ⟨oneTo batches, s.log.length, s.log.length⟩

/-- The queue and the log are the two parts of what was enqueued. -/
structure Inv (s : State) : Prop where
  log : s.log = (channel batches s).log
  pending : s.pending = (channel batches s).pending
  length : s.log.length ≤ batches

variable {batches maxInFlight maxFailures}

theorem inv_init {s : State} (h : Init batches s) : Inv batches s := by
  subst h
  exact ⟨rfl, rfl, Nat.zero_le _⟩

theorem length_pending {s : State} (h : Inv batches s) :
    s.pending.length = batches - s.log.length := by
  rw [h.pending, GoBack.Channel.pending, List.length_drop, channel, length_oneTo]

/-- A step that takes the first `k` of the queue. -/
theorem Inv.take {s : State} (h : Inv batches s) {k : ℕ} (hk : k ≤ s.pending.length)
    (failures : ℕ) : Inv batches ⟨s.pending.drop k, s.log ++ s.pending.take k, failures⟩ := by
  have hpending := length_pending h
  have hlength : (s.log ++ s.pending.take k).length = s.log.length + k := by
    rw [List.length_append, List.length_take, Nat.min_eq_left hk]
  have hlog := h.log
  have hqueue := h.pending
  rw [GoBack.Channel.log, channel] at hlog
  rw [GoBack.Channel.pending, channel] at hqueue
  constructor
  · show s.log ++ s.pending.take k = (oneTo batches).take (s.log ++ s.pending.take k).length
    rw [hlength, List.take_add, ← hlog, ← hqueue]
  · show s.pending.drop k = (oneTo batches).drop (s.log ++ s.pending.take k).length
    rw [hlength, ← List.drop_drop, ← hqueue]
  · show (s.log ++ s.pending.take k).length ≤ batches
    have hle := h.length
    omega

theorem Inv.next {s s' : State} (h : Inv batches s) (hnext : Next maxInFlight maxFailures s s') :
    Inv batches s' := by
  rcases hnext with ⟨k, hpending, hk, hfailure⟩ | ⟨-, rfl⟩
  · exact h.take (hk.trans (Nat.min_le_right ..)) _
  · exact h

theorem Inv.logIsExactPrefix {s : State} (h : Inv batches s) : LogIsExactPrefix s := by
  have hlog := h.log
  rw [GoBack.Channel.log, channel, take_oneTo h.length] at hlog
  exact hlog

theorem Inv.append {s : State} (h : Inv batches s) : s.log ++ s.pending = oneTo batches := by
  rw [h.pending, GoBack.Channel.pending]
  conv_lhs => rw [h.log]
  exact List.take_append_drop ..

/-- A step of the specification, as steps of the channel: the window's leading run arrives,
and is acknowledged. -/
theorem channel_steps {s s' : State} (h : Inv batches s)
    (hnext : Next maxInFlight maxFailures s s') :
    GoBack.Steps maxInFlight (channel batches s) (channel batches s') := by
  rcases hnext with ⟨k, hpending, hk, hfailure⟩ | ⟨-, rfl⟩
  · have hlength := length_pending h
    have hwritten : (s.log ++ s.pending.take k).length = s.log.length + k := by
      rw [List.length_append, List.length_take, Nat.min_eq_left (hk.trans (Nat.min_le_right ..))]
    have hbound := h.length
    have harrive : GoBack.Steps maxInFlight (channel batches s)
        ⟨oneTo batches, s.log.length, s.log.length + k⟩ := by
      refine GoBack.steps_arrive (channel batches s) ?_ ?_
      · show s.log.length + k ≤ (oneTo batches).length
        rw [length_oneTo]
        omega
      · show s.log.length + k ≤ s.log.length + maxInFlight
        omega
    refine harrive.tail ?_
    rw [channel, hwritten]
    exact .ack _ _ (Nat.le_add_right ..) le_rfl
  · exact .refl

/-- **Safety**: whatever fails, the log is exactly what was enqueued first, and the queue is
the rest. -/
theorem always_logIsExactPrefix {b : ℕ → State}
    (h : Behaves (Init batches) (Next maxInFlight maxFailures) b) (n : ℕ) :
    LogIsExactPrefix (b n) ∧ (b n).log ++ (b n).pending = oneTo batches := by
  have hinv : Inv batches (b n) := h.always (fun _ => inv_init) (fun _ _ => Inv.next) n
  exact ⟨hinv.logIsExactPrefix, hinv.append⟩

/-! ### Liveness -/

/-- The batches to send and the failures to come. -/
def variant (maxFailures : ℕ) (s : State) : ℕ := s.pending.length + (maxFailures - s.failures)

theorem variant_lt {s s' : State} (h : SendWindow maxInFlight maxFailures s s') (hne : s' ≠ s) :
    variant maxFailures s' < variant maxFailures s := by
  obtain ⟨k, hpending, hk, hfailure⟩ := h
  rw [variant, variant, List.length_drop]
  split
  · next hlt =>
      have hfew : s.failures < maxFailures := hfailure.resolve_left hlt.ne
      dsimp only
      omega
  · next hge =>
      have hpos : k ≠ 0 := by
        rintro rfl
        exact hne (by simp [hge])
      dsimp only
      omega

theorem variant_le {s s' : State} (h : Next maxInFlight maxFailures s s') :
    variant maxFailures s' ≤ variant maxFailures s := by
  rcases h with hsend | ⟨-, rfl⟩
  · by_cases heq : s' = s
    · rw [heq]
    · exact (variant_lt hsend heq).le
  · exact le_rfl

/-- As long as something is pending, a window can be sent. -/
theorem enabled_sendWindow (hmax : 0 < maxInFlight) {s : State} (h : 0 < s.pending.length) :
    Enabled (SendWindow maxInFlight maxFailures) s := by
  refine ⟨_, .mk s (min maxInFlight s.pending.length) h le_rfl (.inl rfl), fun heq => ?_⟩
  have hlength := congrArg (fun s => s.pending.length) heq
  dsimp only at hlength
  rw [List.length_drop] at hlength
  omega

/-- **Liveness**: with failures bounded, every batch is eventually written. -/
theorem eventually_allWritten (hmax : 0 < maxInFlight) {b : ℕ → State}
    (h : Behaves (Init batches) (Next maxInFlight maxFailures) b)
    (hfair : WeaklyFair (SendWindow maxInFlight maxFailures) b) :
    ∃ n, (b n).log = oneTo batches := by
  have hinv : ∀ n, Inv batches (b n) := h.always (fun _ => inv_init) fun _ _ => Inv.next
  have henabled : ∀ s : State, Inv batches s → ¬s.pending.length = 0 →
      Enabled (SendWindow maxInFlight maxFailures) s :=
    fun s _ hs => enabled_sendWindow hmax (Nat.pos_of_ne_zero hs)
  obtain ⟨n, hn⟩ := h.eventually hfair hinv (variant maxFailures) henabled
    (fun s s' _ => variant_lt) fun s s' _ => variant_le
  refine ⟨n, ?_⟩
  have hall := (hinv n).append
  rwa [List.length_eq_zero_iff.mp hn, List.append_nil] at hall

/-- Three batches, of which the first window brings over one. -/
def partialWindow : ℕ → State
  | 0 => ⟨oneTo 3, [], 0⟩
  | 1 => ⟨[2, 3], [1], 1⟩
  | _ => ⟨[], oneTo 3, 1⟩

theorem partialWindow_behaves : Behaves (Init 3) (Next 5 1) partialWindow := by
  refine ⟨rfl, fun n => ?_⟩
  rcases n with _ | _ | n
  · exact .inl (.inl (.mk ⟨oneTo 3, [], 0⟩ 1 (by decide) (by decide) (.inr (by decide))))
  · exact .inl (.inl (.mk ⟨[2, 3], [1], 1⟩ 2 (by decide) (by decide) (.inl rfl)))
  · exact .inr rfl

theorem always_logIsExactPrefix_partialWindow : LogIsExactPrefix (partialWindow 1) ∧
    (partialWindow 1).log ++ (partialWindow 1).pending = oneTo 3 :=
  always_logIsExactPrefix partialWindow_behaves 1

/-- The window stays enabled as long as it is not sent. -/
theorem partialWindow_fair : WeaklyFair (SendWindow 5 1) partialWindow := by
  intro n henabled
  obtain ⟨s', hsend, -⟩ := henabled (n + 2) (by omega)
  exact absurd (show 0 < (partialWindow (n + 2)).pending.length by cases hsend; assumption)
    (lt_irrefl 0)

theorem eventually_allWritten_partialWindow : ∃ n, (partialWindow n).log = oneTo 3 :=
  eventually_allWritten (by decide) partialWindow_behaves partialWindow_fair

/-! ### The mutation -/

/-- The weaker rule: the requests behind the one that failed are retired, too. -/
inductive SendWindowMutated (maxInFlight maxFailures : ℕ) : State → State → Prop
  | mk (s : State) (k : ℕ) (hpending : 0 < s.pending.length)
      (hk : k ≤ min maxInFlight s.pending.length)
      (hfailure : k = min maxInFlight s.pending.length ∨ s.failures < maxFailures) :
      SendWindowMutated maxInFlight maxFailures s ⟨s.pending.drop (k + 1),
        s.log ++ s.pending.take k ++ (s.pending.take (min maxInFlight s.pending.length)).drop (k + 1),
        if k < min maxInFlight s.pending.length then s.failures + 1 else s.failures⟩

/-- With two batches in a window and one failure, the weaker rule leaves a gap. -/
theorem mutation_leaves_gap (hbatches : 2 ≤ batches) (hmax : 2 ≤ maxInFlight)
    (hfailures : 0 < maxFailures) : ∃ s s', Init batches s ∧
      SendWindowMutated maxInFlight maxFailures s s' ∧ ¬LogIsExactPrefix s' := by
  refine ⟨⟨oneTo batches, [], 0⟩, _, rfl, .mk _ 0 ?_ (Nat.zero_le _) (.inr hfailures), ?_⟩
  · show 0 < (oneTo batches).length
    rw [length_oneTo]
    omega
  · intro hexact
    obtain ⟨m, hm⟩ : ∃ m, min maxInFlight batches = m + 2 :=
      ⟨_, (Nat.sub_add_cancel (Nat.le_min.mpr ⟨hmax, hbatches⟩)).symm⟩
    have hlog : ((oneTo batches).take (min maxInFlight (oneTo batches).length)).drop 1 =
        2 :: List.range' 3 m := by
      rw [length_oneTo, take_oneTo (Nat.min_le_right ..), hm]
      rfl
    change [] ++ ((oneTo batches).take (min maxInFlight (oneTo batches).length)).drop 1 =
      oneTo ([] ++ ((oneTo batches).take (min maxInFlight (oneTo batches).length)).drop 1).length
        at hexact
    rw [List.nil_append, hlog, List.length_cons, oneTo, List.range'_succ, List.cons.injEq] at hexact
    exact absurd hexact.1 (by decide)

end Spec

end Barnabas.Spec.ProducerWindow
