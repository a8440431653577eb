import Barnabas.Core.Sequencing

/-!
Transactions over whole runs of the producer's state machine.

A run is any list of operations on a transactional producer, with callbacks that come
late and refused operations included. The journal of a run lists them, the newest
first, with whether they were accepted; what the source keeps in a state and a set can
be read off the part of the journal that follows the last accepted
`begin_transaction`.
-/

namespace Barnabas.Core.ProducerState

open Barnabas.Lib

/-- The operation is not refused. -/
def accepted (op : Op) (s : ProducerState) : Bool := (perform op s).1.isOk

theorem accepted_beginTransaction {s : ProducerState} :
    accepted .beginTransaction s ↔ s.txn = .ready := by
  rcases beginTransaction_cases s with ⟨h, heq⟩ | ⟨h, e, heq⟩
  · simp [accepted, perform, Act.bind_apply, heq, h, Except.isOk, Except.toBool]
  · simp [accepted, perform, Act.bind_apply, heq, h, Except.isOk, Except.toBool]

theorem accepted_endTransaction {s : ProducerState} :
    accepted .endTransaction s ↔ s.txn = .inTransaction := by
  rcases endTransaction_cases s with ⟨h, heq⟩ | ⟨h, e, heq⟩
  · simp [accepted, perform, Act.bind_apply, heq, h, Except.isOk, Except.toBool]
  · simp [accepted, perform, Act.bind_apply, heq, h, Except.isOk, Except.toBool]

theorem accepted_allocate {s : ProducerState} {tp : TopicPartition} {count : ℤ} :
    accepted (.allocate tp count) s ↔ s.MayAllocate tp := by
  rcases allocate_cases tp count s with ⟨h, heq⟩ | ⟨h, e, heq⟩
  · simp [accepted, perform, Act.bind_apply, heq, h, Except.isOk, Except.toBool]
  · simp [accepted, perform, Act.bind_apply, heq, h, Except.isOk, Except.toBool]

theorem not_accepted_of_fatal {s : ProducerState} (h : s.txn = .fatal) :
    ¬accepted .beginTransaction s ∧ ¬accepted .endTransaction s ∧
      ∀ tp count, ¬accepted (.allocate tp count) s := by
  refine ⟨?_, ?_, fun tp count => ?_⟩
  · rw [accepted_beginTransaction, h]
    decide
  · rw [accepted_endTransaction, h]
    decide
  · rw [accepted_allocate]
    exact fun hmay => hmay.1.1 h

/-! ### What an operation does to the state of the transaction -/

theorem perform_beginTransaction (s : ProducerState) : (perform .beginTransaction s).2 =
    if s.txn = .ready then { s with enrolled := ∅, txn := .inTransaction } else s := by
  rcases beginTransaction_cases s with ⟨h, heq⟩ | ⟨h, e, heq⟩
  · simp [perform, Act.bind_apply, heq, h]
  · simp [perform, Act.bind_apply, heq, h]

theorem perform_endTransaction (s : ProducerState) : (perform .endTransaction s).2 =
    if s.txn = .inTransaction then { s with txn := .ending } else s := by
  rcases endTransaction_cases s with ⟨h, heq⟩ | ⟨h, e, heq⟩
  · simp [perform, Act.bind_apply, heq, h]
  · simp [perform, Act.bind_apply, heq, h]

theorem perform_allocate (tp : TopicPartition) (count : ℤ) (s : ProducerState) :
    ∃ sequences, (perform (.allocate tp count) s).2 = { s with sequences } := by
  rcases allocate_cases tp count s with ⟨-, heq⟩ | ⟨-, e, heq⟩
  · exact ⟨s.sequences.insert tp (wrap 32 (s.nextSequence tp + count)), by
      simp [perform, Act.bind_apply, heq]⟩
  · exact ⟨s.sequences, by simp [perform, Act.bind_apply, heq]⟩

theorem perform_onEndTransaction (s : ProducerState) :
    (perform .onEndTransaction s).2 = s.onEndTransaction := rfl

/-! ### The journal of a run -/

/-- A producer, and what was asked of it, the newest first. -/
structure Journal where
  state : ProducerState
  entries : List (Op × Bool)

/-- An accepted `begin_transaction`. -/
def opening : Op × Bool := (.beginTransaction, true)

/-- The operation ends the transaction or begins a new epoch. -/
def Op.closes : Op → Bool
  | .endTransaction | .onInitProducerId _ => true
  | _ => false

def Op.initialises : Op → Bool
  | .onInitProducerId _ => true
  | _ => false

namespace Journal

def start : Journal := ⟨transactional, []⟩

def step (j : Journal) (op : Op) : Journal :=
  ⟨(perform op j.state).2, (op, accepted op j.state) :: j.entries⟩

def ofRun (ops : List Op) : Journal := run step start ops

/-- What came after the last accepted `begin_transaction`. -/
def current (j : Journal) : List (Op × Bool) := j.entries.takeWhile (· ≠ opening)

/-- The partition was enrolled after the last accepted `begin_transaction`. -/
def Enrolled (j : Journal) (tp : TopicPartition) : Prop :=
  opening ∈ j.entries ∧ (.onEnrolled tp, true) ∈ j.current

/-- The rules of a transactional producer. -/
structure Lawful (j : Journal) : Prop where
  allocate : ∀ tp count, accepted (.allocate tp count) j.state →
    j.state.txn = .inTransaction ∧ j.Enrolled tp
  needsEnrollment : ∀ tp,
    j.state.needsEnrollment tp ↔ j.state.txn = .inTransaction ∧ ¬j.Enrolled tp
  beginTransaction : accepted .beginTransaction j.state → opening ∈ j.entries →
    (∃ identity, (.onInitProducerId identity, true) ∈ j.current) ∨
      [(.onEndTransaction, true), (.endTransaction, true)].Sublist j.current
  endTransaction : accepted .endTransaction j.state →
    opening ∈ j.entries.takeWhile fun e => !e.1.closes
  fenced : (.fence, true) ∈ j.entries.takeWhile (fun e => !e.1.initialises) →
    j.state.txn = .fatal ∧ ¬accepted .beginTransaction j.state ∧
      ¬accepted .endTransaction j.state ∧
      ∀ tp count, ¬accepted (.allocate tp count) j.state

/-- How the state and the enrolled partitions can be read off the journal. -/
structure Tracks (j : Journal) : Prop where
  transactional : j.state.isTransactional
  inTransaction : j.state.txn = .inTransaction →
    opening ∈ j.entries.takeWhile (fun e => !e.1.closes) ∧
      ∀ tp, tp ∈ j.state.enrolled ↔ (.onEnrolled tp, true) ∈ j.current
  ending : j.state.txn = .ending → opening ∈ j.entries → (.endTransaction, true) ∈ j.current
  ready : j.state.txn = .ready → opening ∈ j.entries →
    (∃ identity, (.onInitProducerId identity, true) ∈ j.current) ∨
      [(.onEndTransaction, true), (.endTransaction, true)].Sublist j.current
  fenced : (.fence, true) ∈ j.entries.takeWhile (fun e => !e.1.initialises) →
    j.state.txn = .fatal

theorem tracks_start : Tracks start where
  transactional := rfl
  inTransaction h := by cases h
  ending h := by cases h
  ready h := by cases h
  fenced h := by cases h

/-- An entry other than an accepted `begin_transaction` belongs to the transaction
before it. -/
theorem current_step {j : Journal} {op : Op}
    (h : (op, accepted op j.state) ≠ opening) :
    (j.step op).current = (op, accepted op j.state) :: j.current := by
  rw [current, step, List.takeWhile_cons_of_pos (by simpa using h)]
  rfl

theorem opening_mem_step {j : Journal} {op : Op}
    (h : (op, accepted op j.state) ≠ opening) :
    opening ∈ (j.step op).entries ↔ opening ∈ j.entries := by
  rw [step, List.mem_cons]
  exact or_iff_right h.symm

theorem ne_opening_of_ne {op : Op} {b : Bool} (h : op ≠ .beginTransaction) :
    (op, b) ≠ opening := fun heq => h (congrArg Prod.fst heq)

theorem ne_opening_of_refused {op : Op} : (op, false) ≠ opening := by simp [opening]

/-- The operation leaves what `Tracks` reads of the state as it is, and its entry is
none of those that `Tracks` looks for. -/
structure Quiet (j : Journal) (op : Op) : Prop where
  entry : (op, accepted op j.state) ≠ opening
  onEnrolled : ∀ tp, op ≠ .onEnrolled tp
  fence : op ≠ .fence
  initialises : op.initialises = false
  closes : j.state.txn = .inTransaction → op.closes = false
  state : ∃ sequences, (perform op j.state).2 = { j.state with sequences }

theorem Tracks.step_of_quiet {j : Journal} {op : Op} (h : Tracks j) (hop : j.Quiet op) :
    Tracks (j.step op) := by
  obtain ⟨sequences, hstate⟩ := hop.state
  have hcurrent := current_step hop.entry
  have hopening := opening_mem_step hop.entry
  have hnext : (j.step op).state = { j.state with sequences } := hstate
  constructor
  case transactional =>
    rw [hnext]
    exact h.transactional
  case inTransaction =>
    rw [hnext]
    intro hin
    obtain ⟨hopen, henrolled⟩ := h.inTransaction hin
    constructor
    · rw [step, List.takeWhile_cons_of_pos (by simp [hop.closes hin])]
      exact List.mem_cons_of_mem _ hopen
    · intro tp
      rw [henrolled tp, hcurrent, List.mem_cons]
      exact (or_iff_right fun heq => hop.onEnrolled tp (congrArg Prod.fst heq).symm).symm
  case ending =>
    rw [hnext, hcurrent, hopening]
    exact fun hend hmem => List.mem_cons_of_mem _ (h.ending hend hmem)
  case ready =>
    rw [hnext, hcurrent, hopening]
    intro hready hmem
    rcases h.ready hready hmem with ⟨identity, hinit⟩ | hsub
    · exact .inl ⟨identity, List.mem_cons_of_mem _ hinit⟩
    · exact .inr (hsub.cons _)
  case fenced =>
    intro hfence
    rw [step, List.takeWhile_cons_of_pos (by simp [hop.initialises]), List.mem_cons] at hfence
    rw [hnext]
    exact h.fenced (hfence.resolve_left fun heq => hop.fence (congrArg Prod.fst heq).symm)

/-- What a run that was fenced says of an operation that is not `fence` and does not
initialise. -/
theorem fenced_of_step {j : Journal} {op : Op} (hop : op ≠ .fence)
    (hinit : op.initialises = false)
    (h : (.fence, true) ∈ (j.step op).entries.takeWhile fun e => !e.1.initialises) :
    (.fence, true) ∈ j.entries.takeWhile fun e => !e.1.initialises := by
  rw [step, List.takeWhile_cons_of_pos (by simp [hinit]), List.mem_cons] at h
  exact h.resolve_left fun heq => hop (congrArg Prod.fst heq).symm

theorem Tracks.step_onInitProducerId {j : Journal} (h : Tracks j)
    (identity : ProducerIdentity) : Tracks (j.step (.onInitProducerId identity)) := by
  constructor
  case transactional => exact h.transactional
  case inTransaction => intro hin; cases hin
  case ending => intro hend; cases hend
  case ready =>
    intro _ _
    rw [current_step (ne_opening_of_ne (by simp))]
    exact .inl ⟨identity, List.mem_cons_self⟩
  case fenced =>
    intro hfence
    rw [step, List.takeWhile_cons_of_neg (by simp [Op.initialises])] at hfence
    cases hfence

theorem Tracks.step_onEnrolled {j : Journal} (h : Tracks j) (tp : TopicPartition) :
    Tracks (j.step (.onEnrolled tp)) := by
  have hentry : (Op.onEnrolled tp, accepted (.onEnrolled tp) j.state) ≠ opening :=
    ne_opening_of_ne (by simp)
  have hcurrent := current_step hentry
  have hopening := opening_mem_step hentry
  have hstate : (j.step (.onEnrolled tp)).state = j.state.onEnrolled tp := rfl
  constructor
  case transactional => exact h.transactional
  case inTransaction =>
    intro hin
    obtain ⟨hopen, henrolled⟩ := h.inTransaction hin
    constructor
    · rw [step, List.takeWhile_cons_of_pos (by simp [Op.closes])]
      exact List.mem_cons_of_mem _ hopen
    · intro tp'
      rw [hstate, onEnrolled, Std.TreeSet.mem_insert, henrolled tp', hcurrent, List.mem_cons]
      apply or_congr_left
      rw [Std.LawfulEqCmp.compare_eq_iff_eq, Prod.mk.injEq, Op.onEnrolled.injEq, eq_comm]
      exact (and_iff_left rfl).symm
  case ending =>
    rw [hcurrent, hopening]
    exact fun hend hmem => List.mem_cons_of_mem _ (h.ending hend hmem)
  case ready =>
    rw [hcurrent, hopening]
    intro hready hmem
    rcases h.ready hready hmem with ⟨identity, hinit⟩ | hsub
    · exact .inl ⟨identity, List.mem_cons_of_mem _ hinit⟩
    · exact .inr (hsub.cons _)
  case fenced =>
    intro hfence
    exact h.fenced (fenced_of_step (by simp) rfl hfence)

theorem Tracks.step_beginTransaction {j : Journal} (h : Tracks j)
    (hready : j.state.txn = .ready) : Tracks (j.step .beginTransaction) := by
  have haccepted : accepted .beginTransaction j.state = true :=
    accepted_beginTransaction.mpr hready
  have hstate : (j.step .beginTransaction).state =
      { j.state with enrolled := ∅, txn := .inTransaction } := by
    rw [step, perform_beginTransaction, if_pos hready]
  have hentries : (j.step .beginTransaction).entries = opening :: j.entries := by
    rw [step, haccepted]
    rfl
  constructor
  case transactional =>
    rw [hstate]
    exact h.transactional
  case inTransaction =>
    intro _
    constructor
    · rw [hentries, List.takeWhile_cons_of_pos (by simp [opening, Op.closes])]
      exact List.mem_cons_self
    · intro tp
      rw [hstate, current, hentries, List.takeWhile_cons_of_neg (by simp)]
      simp
  case ending => rw [hstate]; intro hend; cases hend
  case ready => rw [hstate]; intro hready; cases hready
  case fenced =>
    intro hfence
    have hfatal := h.fenced (fenced_of_step (by simp) rfl hfence)
    rw [hready] at hfatal
    cases hfatal

theorem Tracks.step_endTransaction {j : Journal} (h : Tracks j)
    (hin : j.state.txn = .inTransaction) : Tracks (j.step .endTransaction) := by
  have haccepted : accepted .endTransaction j.state = true := accepted_endTransaction.mpr hin
  have hstate : (j.step .endTransaction).state = { j.state with txn := .ending } := by
    rw [step, perform_endTransaction, if_pos hin]
  constructor
  case transactional =>
    rw [hstate]
    exact h.transactional
  case inTransaction => rw [hstate]; intro hin; cases hin
  case ending =>
    intro _ _
    rw [current_step (ne_opening_of_ne (by simp)), haccepted]
    exact List.mem_cons_self
  case ready => rw [hstate]; intro hready; cases hready
  case fenced =>
    intro hfence
    have hfatal := h.fenced (fenced_of_step (by simp) rfl hfence)
    rw [hin] at hfatal
    cases hfatal

theorem Tracks.step_onEndTransaction {j : Journal} (h : Tracks j)
    (hend : j.state.txn = .ending) : Tracks (j.step .onEndTransaction) := by
  have hstate : (j.step .onEndTransaction).state =
      { j.state with enrolled := ∅, txn := .ready } := by
    rw [step, perform_onEndTransaction, onEndTransaction, if_pos hend]
  constructor
  case transactional =>
    rw [hstate]
    exact h.transactional
  case inTransaction => rw [hstate]; intro hin; cases hin
  case ending => rw [hstate]; intro hend; cases hend
  case ready =>
    intro _ hmem
    have hentry : (Op.onEndTransaction, accepted .onEndTransaction j.state) ≠ opening :=
      ne_opening_of_ne (by simp)
    rw [opening_mem_step hentry] at hmem
    rw [current_step hentry]
    exact .inr ((List.singleton_sublist.mpr (h.ending hend hmem)).cons_cons _)
  case fenced =>
    intro hfence
    have hfatal := h.fenced (fenced_of_step (by simp) rfl hfence)
    rw [hend] at hfatal
    cases hfatal

theorem Tracks.step_fence {j : Journal} (h : Tracks j) : Tracks (j.step .fence) where
  transactional := h.transactional
  inTransaction hin := by cases hin
  ending hend := by cases hend
  ready hready := by cases hready
  fenced _ := rfl

theorem Tracks.step {j : Journal} (h : Tracks j) (op : Op) : Tracks (j.step op) := by
  cases op with
  | onInitProducerId identity => exact h.step_onInitProducerId identity
  | onEnrolled tp => exact h.step_onEnrolled tp
  | fence => exact h.step_fence
  | beginTransaction =>
      by_cases hready : j.state.txn = .ready
      · exact h.step_beginTransaction hready
      · apply h.step_of_quiet
        have hrefused : accepted .beginTransaction j.state = false := by
          rw [← Bool.not_eq_true, accepted_beginTransaction]
          exact hready
        exact {
          entry := by rw [hrefused]; exact ne_opening_of_refused
          onEnrolled := by simp
          fence := by simp
          initialises := rfl
          closes := fun _ => rfl
          state := ⟨j.state.sequences, by rw [perform_beginTransaction, if_neg hready]⟩ }
  | allocate tp count =>
      apply h.step_of_quiet
      exact {
        entry := ne_opening_of_ne (by simp)
        onEnrolled := by simp
        fence := by simp
        initialises := rfl
        closes := fun _ => rfl
        state := perform_allocate tp count j.state }
  | endTransaction =>
      by_cases hin : j.state.txn = .inTransaction
      · exact h.step_endTransaction hin
      · apply h.step_of_quiet
        exact {
          entry := ne_opening_of_ne (by simp)
          onEnrolled := by simp
          fence := by simp
          initialises := rfl
          closes := fun hin' => absurd hin' hin
          state := ⟨j.state.sequences, by rw [perform_endTransaction, if_neg hin]⟩ }
  | onEndTransaction =>
      by_cases hend : j.state.txn = .ending
      · exact h.step_onEndTransaction hend
      · apply h.step_of_quiet
        exact {
          entry := ne_opening_of_ne (by simp)
          onEnrolled := by simp
          fence := by simp
          initialises := rfl
          closes := fun _ => rfl
          state := ⟨j.state.sequences, by
            rw [perform_onEndTransaction, onEndTransaction, if_neg hend]⟩ }

theorem tracks_ofRun (ops : List Op) : Tracks (ofRun ops) :=
  run_induction tracks_start (fun _ op h => h.step op) ops

/-- An enrolled partition of an open transaction was enrolled after it was opened. -/
theorem Tracks.mem_enrolled {j : Journal} (h : Tracks j) (hin : j.state.txn = .inTransaction)
    (tp : TopicPartition) : tp ∈ j.state.enrolled ↔ j.Enrolled tp := by
  obtain ⟨hopen, henrolled⟩ := h.inTransaction hin
  rw [henrolled tp, Enrolled]
  exact (and_iff_right (List.takeWhile_sublist _ |>.subset hopen)).symm

theorem Tracks.lawful {j : Journal} (h : Tracks j) : Lawful j where
  allocate tp count hok := by
    obtain ⟨-, hmay⟩ := accepted_allocate.mp hok
    obtain ⟨hin, hmem⟩ := hmay h.transactional
    exact ⟨hin, (h.mem_enrolled hin tp).mp hmem⟩
  needsEnrollment tp := by
    rw [needsEnrollment, h.transactional, Bool.true_and, Bool.and_eq_true, beq_iff_eq]
    apply and_congr_right
    intro hin
    rw [← h.mem_enrolled hin tp, Std.TreeSet.mem_iff_contains, Bool.not_eq_true',
      Bool.not_eq_true]
  beginTransaction hok hmem := h.ready (accepted_beginTransaction.mp hok) hmem
  endTransaction hok := (h.inTransaction (accepted_endTransaction.mp hok)).1
  fenced hfence := ⟨h.fenced hfence, not_accepted_of_fatal (h.fenced hfence)⟩

/-- **The transaction state machine.** After every run of a transactional producer:
numbers are handed out inside a transaction only, to partitions enrolled since it was
opened; those and no others need no enrolment; a transaction is opened again only once
the one before was ended and its end recorded, or a new epoch begun; it is ended only
where one was opened since the last end; and after a fence nothing succeeds until the
producer is initialised again. -/
theorem lawful_ofRun (ops : List Op) : Lawful (ofRun ops) := (tracks_ofRun ops).lawful

end Journal

end Barnabas.Core.ProducerState
