import Barnabas.Core.ProducerState
import Barnabas.Lib.Run
import Mathlib.Algebra.Order.BigOperators.Group.List
import Mathlib.Algebra.Order.Group.Int

/-!
Sequence numbers over whole runs of the producer's state machine.

A run is any list of operations, refused ones included. Beside the state it
carries a ledger: for each partition the ranges handed out since the identity
last changed, in call order. The ledger is bookkeeping of the run, not of the
producer; the theorem below says that the producer's counters are exactly the
totals of the ledger, so that nothing but a new identity ever resets one.
-/

namespace Barnabas.Core.ProducerState

open Barnabas.Lib

/-- The operations of the state machine. -/
inductive Op
  | onInitProducerId (identity : ProducerIdentity)
  | beginTransaction
  | onEnrolled (tp : TopicPartition)
  | allocate (tp : TopicPartition) (count : ℤ)
  | endTransaction
  | onEndTransaction
  | fence
  deriving DecidableEq, Repr

/-- Perform an operation; only `allocate` has a result. -/
def perform : Op → Act ProducerState ProducerError (Option SequenceRange)
  | .onInitProducerId identity => do
      modify (·.onInitProducerId identity)
      pure none
  | .beginTransaction => do
      ProducerState.beginTransaction
      pure none
  | .onEnrolled tp => do
      modify (·.onEnrolled tp)
      pure none
  | .allocate tp count => do
      let range ← ProducerState.allocate tp count
      pure (some range)
  | .endTransaction => do
      ProducerState.endTransaction
      pure none
  | .onEndTransaction => do
      modify ProducerState.onEndTransaction
      pure none
  | .fence => do
      modify ProducerState.fence
      pure none

/-- A producer together with the ranges it handed out under its identity. -/
structure Ledger where
  state : ProducerState
  ranges : TopicPartition → List SequenceRange

namespace Ledger

def start (isTransactional : Bool) : Ledger := ⟨new isTransactional, fun _ => []⟩

/-- The ranges after an operation with the given outcome: a new identity opens
a new ledger, a successful `allocate` enters its range. -/
def record (ledger : Ledger) : Op → Except ProducerError (Option SequenceRange) →
    TopicPartition → List SequenceRange
  | .onInitProducerId identity, _ =>
      if ledger.state.identity = some identity then ledger.ranges else fun _ => []
  | .allocate tp _, .ok (some range) =>
      Function.update ledger.ranges tp (ledger.ranges tp ++ [range])
  | _, _ => ledger.ranges

def step (ledger : Ledger) (op : Op) : Ledger where
  state := (perform op ledger.state).2
  ranges := ledger.record op (perform op ledger.state).1

/-- The ledger after a run from a freshly created producer. -/
def ofRun (isTransactional : Bool) (ops : List Op) : Ledger :=
  run step (start isTransactional) ops

end Ledger

/-- How many sequence numbers a list of ranges covers. -/
def total (ranges : List SequenceRange) : ℤ := (ranges.map (·.count)).sum

/-- The ranges follow one another from `n` with no gap and no overlap. -/
def ContiguousFrom : ℤ → List SequenceRange → Prop
  | _, [] => True
  | n, range :: ranges => range.base = n ∧ ContiguousFrom (n + range.count) ranges

@[simp] theorem total_nil : total [] = 0 := rfl

@[simp] theorem total_concat (ranges : List SequenceRange) (range : SequenceRange) :
    total (ranges ++ [range]) = total ranges + range.count := by
  simp [total]

theorem contiguousFrom_concat (n : ℤ) (ranges : List SequenceRange) (range : SequenceRange) :
    ContiguousFrom n (ranges ++ [range]) ↔
      ContiguousFrom n ranges ∧ range.base = n + total ranges := by
  induction ranges generalizing n with
  | nil => simp [ContiguousFrom]
  | cons first ranges ih =>
      have htotal : total (first :: ranges) = first.count + total ranges := by simp [total]
      rw [List.cons_append, ContiguousFrom, ContiguousFrom, ih, htotal, and_assoc, add_assoc]

/-! ### One operation -/

/-- The operation was refused. -/
def Rejected (op : Op) (s : ProducerState) : Prop := ∃ e, (perform op s).1 = .error e

theorem perform_eq_self_of_rejected {op : Op} {s : ProducerState} (h : Rejected op s) :
    (perform op s).2 = s := by
  obtain ⟨e, he⟩ := h
  cases op with
  | onInitProducerId identity => simp [perform, Act.bind_apply] at he
  | onEnrolled tp => simp [perform, Act.bind_apply] at he
  | onEndTransaction => simp [perform, Act.bind_apply] at he
  | fence => simp [perform, Act.bind_apply] at he
  | beginTransaction =>
      rcases beginTransaction_cases s with ⟨-, hok⟩ | ⟨-, e', herr⟩
      · simp [perform, Act.bind_apply, hok] at he
      · simp [perform, Act.bind_apply, herr]
  | endTransaction =>
      rcases endTransaction_cases s with ⟨-, hok⟩ | ⟨-, e', herr⟩
      · simp [perform, Act.bind_apply, hok] at he
      · simp [perform, Act.bind_apply, herr]
  | allocate tp count =>
      rcases allocate_cases tp count s with ⟨-, hok⟩ | ⟨-, e', herr⟩
      · simp [perform, Act.bind_apply, hok] at he
      · simp [perform, Act.bind_apply, herr]

/-- What one operation does to the counters and to the ledger: a new identity
clears both, a successful `allocate` moves one partition in both, and every
other operation leaves both alone. -/
theorem Ledger.step_cases (ledger : Ledger) (op : Op) :
    (∃ identity, op = .onInitProducerId identity ∧ ledger.state.identity ≠ some identity ∧
        (ledger.step op).state.sequences = ∅ ∧ (ledger.step op).ranges = fun _ => []) ∨
      (∃ tp count, op = .allocate tp count ∧
        (ledger.step op).state = { ledger.state with
          sequences := ledger.state.sequences.insert tp
            (wrap 32 (ledger.state.nextSequence tp + count)) } ∧
        (ledger.step op).ranges = Function.update ledger.ranges tp
          (ledger.ranges tp ++ [⟨ledger.state.nextSequence tp, count⟩])) ∨
      ((ledger.step op).state.sequences = ledger.state.sequences ∧
        (ledger.step op).ranges = ledger.ranges) := by
  cases op with
  | onInitProducerId identity =>
      by_cases hid : ledger.state.identity = some identity
      · right; right
        simp [step, record, perform, Act.bind_apply, hid, onInitProducerId_sequences]
      · left
        refine ⟨identity, rfl, hid, ?_, ?_⟩
        · simp [step, perform, Act.bind_apply, onInitProducerId_sequences, hid]
        · simp [step, record, hid]
  | allocate tp count =>
      right
      rcases allocate_cases tp count ledger.state with ⟨-, hok⟩ | ⟨-, e, herr⟩
      · left
        refine ⟨tp, count, rfl, ?_, ?_⟩
        · simp [step, perform, Act.bind_apply, hok]
        · simp [step, record, perform, Act.bind_apply, hok]
      · right
        simp [step, record, perform, Act.bind_apply, herr]
  | beginTransaction =>
      right; right
      rcases beginTransaction_cases ledger.state with ⟨-, hok⟩ | ⟨-, e, herr⟩
      · simp [step, record, perform, Act.bind_apply, hok]
      · simp [step, record, perform, Act.bind_apply, herr]
  | endTransaction =>
      right; right
      rcases endTransaction_cases ledger.state with ⟨-, hok⟩ | ⟨-, e, herr⟩
      · simp [step, record, perform, Act.bind_apply, hok]
      · simp [step, record, perform, Act.bind_apply, herr]
  | onEndTransaction =>
      right; right
      by_cases htxn : ledger.state.txn = .ending <;>
        simp [step, record, perform, Act.bind_apply, ProducerState.onEndTransaction, htxn]
  | onEnrolled tp => right; right; simp [step, record, perform, Act.bind_apply, ProducerState.onEnrolled]
  | fence => right; right; simp [step, record, perform, Act.bind_apply, ProducerState.fence]

/-- The partition an operation is about, if it is about one. -/
def Op.partition? : Op → Option TopicPartition
  | .onEnrolled tp => some tp
  | .allocate tp _ => some tp
  | _ => none

theorem nextSequence_perform_of_ne {op : Op} {tp tp' : TopicPartition}
    (hop : op.partition? = some tp') (hne : tp' ≠ tp) (s : ProducerState) :
    (perform op s).2.nextSequence tp = s.nextSequence tp := by
  cases op <;> simp only [Op.partition?, reduceCtorEq, Option.some.injEq] at hop
  case onEnrolled => rfl
  case allocate tp'' count =>
    subst hop
    rcases allocate_cases tp'' count s with ⟨-, hok⟩ | ⟨-, e, herr⟩
    · simp [perform, Act.bind_apply, hok, nextSequence_insert, hne]
    · simp [perform, Act.bind_apply, herr]

/-! ### Whole runs -/

/-- The counters are the totals of the ledger, and the ledger has no gaps. -/
structure Ledger.Sound (ledger : Ledger) : Prop where
  contiguous : ∀ tp, ContiguousFrom 0 (ledger.ranges tp)
  next : ∀ tp, ledger.state.nextSequence tp = total (ledger.ranges tp)
  nonneg : ∀ tp, 0 ≤ total (ledger.ranges tp)

theorem Ledger.sound_start (isTransactional : Bool) : (Ledger.start isTransactional).Sound where
  contiguous _ := trivial
  next tp := nextSequence_new isTransactional tp
  nonneg _ := le_refl _

/-- One step keeps the ledger sound as long as the counter it moves stays an
`i32`. -/
theorem Ledger.Sound.step {ledger : Ledger} {op : Op} (h : ledger.Sound)
    (hcount : ∀ tp n, op = .allocate tp n → 0 ≤ n)
    (hbound : ∀ tp, total ((ledger.step op).ranges tp) ≤ i32Max) : (ledger.step op).Sound := by
  rcases ledger.step_cases op with ⟨identity, -, -, hseq, hranges⟩ | ⟨tp, count, rfl, hstate, hranges⟩ |
    ⟨hseq, hranges⟩
  · constructor
    · intro tp; rw [hranges]; trivial
    · intro tp; simp [nextSequence, hseq, hranges]
    · intro tp; simp [hranges]
  · have hpos := hcount tp count rfl
    have hnext := h.next tp
    have hnonneg := h.nonneg tp
    have htotal : total (ledger.ranges tp) + count ≤ i32Max := by
      simpa [hranges] using hbound tp
    constructor
    · intro tp'
      rw [hranges]
      by_cases htp : tp' = tp
      · subst htp
        rw [Function.update_self, contiguousFrom_concat]
        exact ⟨h.contiguous _, by simpa using hnext⟩
      · rw [Function.update_of_ne htp]
        exact h.contiguous tp'
    · intro tp'
      rw [hranges, hstate, nextSequence_insert]
      by_cases htp : tp' = tp
      · subst htp
        rw [if_pos rfl, Function.update_self, total_concat, hnext]
        exact wrap32_eq_self (by omega) htotal
      · rw [if_neg (Ne.symm htp), Function.update_of_ne htp]
        exact h.next tp'
    · intro tp'
      rw [hranges]
      by_cases htp : tp' = tp
      · subst htp
        rw [Function.update_self, total_concat]
        show 0 ≤ total (ledger.ranges tp') + count
        omega
      · rw [Function.update_of_ne htp]
        exact h.nonneg tp'
  · constructor
    · intro tp; rw [hranges]; exact h.contiguous tp
    · intro tp; rw [hranges, ← h.next tp]; simp [nextSequence, hseq]
    · intro tp; rw [hranges]; exact h.nonneg tp

/-- No partition is given more than `i32::MAX` records under one identity, at
any point of the run. -/
def Bounded (isTransactional : Bool) (ops : List Op) : Prop :=
  ∀ pre, pre <+: ops → ∀ tp, total ((Ledger.ofRun isTransactional pre).ranges tp) ≤ i32Max

theorem Ledger.sound_ofRun {isTransactional : Bool} {ops : List Op}
    (hcount : ∀ tp n, Op.allocate tp n ∈ ops → 0 ≤ n) (hbound : Bounded isTransactional ops) :
    (Ledger.ofRun isTransactional ops).Sound := by
  refine run_induction_of_prefix (I := fun _ (ledger : Ledger) => ledger.Sound)
    (Ledger.sound_start isTransactional) ops ?_
  intro pre op hpre h
  refine h.step ?_ ?_
  · rintro tp n rfl
    exact hcount tp n (hpre.subset (by simp))
  · intro tp
    have h' := hbound (pre ++ [op]) hpre tp
    rwa [ofRun, run_concat] at h'

/-- How many sequence numbers an operation asks for. -/
def Op.count : Op → ℤ
  | .allocate _ n => n
  | _ => 0

/-- A run that asks for at most `i32::MAX` sequence numbers altogether stays in
range on every partition. -/
theorem bounded_of_sum_le {isTransactional : Bool} {ops : List Op}
    (hcount : ∀ op ∈ ops, 0 ≤ op.count) (hsum : (ops.map Op.count).sum ≤ i32Max) :
    Bounded isTransactional ops := by
  have hrun : ∀ pre, pre <+: ops → ∀ tp,
      total ((Ledger.ofRun isTransactional pre).ranges tp) ≤ (pre.map Op.count).sum := by
    intro pre
    induction pre using List.reverseRecOn with
    | nil => intro _ tp; simp [Ledger.ofRun, Ledger.start]
    | append_singleton pre op ih =>
        intro hpre tp
        have hpre' := (List.prefix_append pre [op]).trans hpre
        have hop := hcount op (hpre.subset (by simp))
        have hsum' := ih hpre' tp
        rw [Ledger.ofRun, run_concat, List.map_append, List.sum_append]
        change total ((Ledger.step (Ledger.ofRun isTransactional pre) op).ranges tp) ≤ _
        have hnonneg : 0 ≤ (pre.map Op.count).sum :=
          List.sum_nonneg (by simpa using fun o ho => hcount o (hpre'.subset ho))
        simp only [List.map_cons, List.map_nil, List.sum_cons, List.sum_nil, add_zero]
        rcases Ledger.step_cases (Ledger.ofRun isTransactional pre) op with
          ⟨identity, -, -, -, hranges⟩ | ⟨tp', n, rfl, -, hranges⟩ | ⟨-, hranges⟩
        · rw [hranges, total_nil]
          omega
        · rw [hranges]
          by_cases htp : tp = tp'
          · subst htp
            rw [Function.update_self, total_concat]
            exact Int.add_le_add_right hsum' n
          · rw [Function.update_of_ne htp]
            omega
        · rw [hranges]
          omega
  intro pre hpre tp
  obtain ⟨suffix, rfl⟩ := hpre
  have hsuffix : 0 ≤ (suffix.map Op.count).sum :=
    List.sum_nonneg (by simpa using fun o ho => hcount o (by simp [ho]))
  have hpre := hrun pre (List.prefix_append pre suffix) tp
  rw [List.map_append, List.sum_append] at hsum
  omega

/-- **Sequence numbers continue.** In every run that keeps within the `i32`
range, the ranges of each partition since the identity last changed are
contiguous from 0 and the counter is their total; a refused operation changes
nothing, and an operation on one partition leaves every other one alone. -/
theorem sequences_continue (isTransactional : Bool) (ops : List Op)
    (hcount : ∀ tp n, Op.allocate tp n ∈ ops → 1 ≤ n) (hbound : Bounded isTransactional ops) :
    (∀ tp, ContiguousFrom 0 ((Ledger.ofRun isTransactional ops).ranges tp) ∧
      (Ledger.ofRun isTransactional ops).state.nextSequence tp =
        total ((Ledger.ofRun isTransactional ops).ranges tp)) ∧
    (∀ pre op, pre ++ [op] <+: ops → Rejected op (Ledger.ofRun isTransactional pre).state →
      (Ledger.ofRun isTransactional (pre ++ [op])).state =
        (Ledger.ofRun isTransactional pre).state) ∧
    (∀ pre op tp tp', pre ++ [op] <+: ops → op.partition? = some tp' → tp' ≠ tp →
      (Ledger.ofRun isTransactional (pre ++ [op])).state.nextSequence tp =
        (Ledger.ofRun isTransactional pre).state.nextSequence tp) := by
  have hnonneg : ∀ tp n, Op.allocate tp n ∈ ops → 0 ≤ n := fun tp n hop =>
    Int.le_of_lt (hcount tp n hop)
  have hsound := Ledger.sound_ofRun hnonneg hbound
  refine ⟨fun tp => ⟨hsound.contiguous tp, hsound.next tp⟩, ?_, ?_⟩
  · intro pre op _ hrejected
    rw [Ledger.ofRun, run_concat]
    exact perform_eq_self_of_rejected hrejected
  · intro pre op tp tp' _ hop hne
    rw [Ledger.ofRun, run_concat]
    exact nextSequence_perform_of_ne hop hne _

/-- Two transactions on one partition, with a refused `begin` in between. -/
def twoTransactions : List Op :=
  [.onInitProducerId ⟨7, 0⟩, .beginTransaction, .onEnrolled ⟨"t", 0⟩, .allocate ⟨"t", 0⟩ 3,
    .beginTransaction, .endTransaction, .onEndTransaction, .beginTransaction,
    .onEnrolled ⟨"t", 0⟩, .allocate ⟨"t", 0⟩ 2]

theorem sequences_continue_twoTransactions :
    (Ledger.ofRun true twoTransactions).ranges ⟨"t", 0⟩ = [⟨0, 3⟩, ⟨3, 2⟩] ∧
      (Ledger.ofRun true twoTransactions).state.nextSequence ⟨"t", 0⟩ =
        total ((Ledger.ofRun true twoTransactions).ranges ⟨"t", 0⟩) :=
  ⟨by decide, ((sequences_continue true twoTransactions
    (by intro tp n h; simp [twoTransactions] at h; omega)
    (bounded_of_sum_le (by decide) (by decide))).1 _).2⟩

end Barnabas.Core.ProducerState
