import Barnabas.Client.Accounting

/-!
A fenced producer.

The state machine refuses to allocate sequence numbers once it is fatal, so
nothing can be queued any more. The entry points that only work on what is
queued already do not consult the state machine at all. This module says which
calls a fenced producer answers the way its documentation promises, for every
transport and every run.
-/

namespace Barnabas.Client

open Barnabas.Lib Barnabas.Core Barnabas.Lib.Act

variable {ω : Type}

namespace Producer

/-- A step that leaves a fenced producer fenced and writes no `Produce`. -/
structure Calm (p p' : Producer ω) : Prop where
  txn : p.state.txn = .fatal → p'.state.txn = .fatal
  filled : p.StagedFilled → p'.StagedFilled
  sent : Appends sent (fun f => f.request.apiKey ≠ .produce) p p'

theorem Calm.of_cluster {p : Producer ω} {c : Cluster ω}
    (h : Appends Cluster.sent (fun f => f.request.apiKey ≠ .produce) p.cluster c) :
    Calm p { p with cluster := c } :=
  ⟨id, id, h⟩

instance : IsPreorder (Producer ω) Calm where
  refl _ := ⟨id, id, .of_eq rfl⟩
  trans _ _ _ h h' := ⟨h'.txn ∘ h.txn, h'.filled ∘ h.filled, h.sent.trans h'.sent⟩

theorem tolerates_calm {T : Transport ω} :
    Tolerates T (Appends Cluster.sent fun f => f.request.apiKey ≠ .produce) Calm
      (fun f => f.request.apiKey ≠ .produce) where
  permits := by
    refine Cluster.permits_appends T fun f hf hkey => ?_
    cases hreq : f.request <;> simp_all [Request.isPlumbing, Request.apiKey]
  cluster _ _ h := .of_cluster h
  coordinator _ _ := ⟨id, id, .of_eq rfl⟩
  state p s h _ := by
    refine ⟨fun hfatal => ?_, id, .of_eq rfl⟩
    rcases h with h | h
    · exact h.trans hfatal
    · exact h
  offsets _ _ := ⟨id, id, .of_eq rfl⟩
  roundRobin _ _ := ⟨id, id, .of_eq rfl⟩

theorem numbers_calm {T : Transport ω} :
    Numbers T (Appends Cluster.sent fun f => f.request.apiKey ≠ .produce) Calm
      (fun f => f.request.apiKey ≠ .produce) where
  toTolerates := tolerates_calm
  sequences _ _ := ⟨id, id, .of_eq rfl⟩

variable (T : Transport ω)

/-! ### What a fenced producer refuses -/

theorem enrollAll_of_fatal {p : Producer ω} (h : p.state.txn = .fatal) (topic : String)
    (partitions : List ℤ) : enrollAll T topic partitions p = (.ok (), p) := by
  have hnone : partitions.filter (fun partition => p.state.needsEnrollment ⟨topic, partition⟩) =
      [] := by
    simp [ProducerState.needsEnrollment, h]
  rw [enrollAll, bind_of_ok (get_apply p), if_pos hnone]
  rfl

theorem encodeFor_of_fatal {p : Producer ω} (h : p.state.txn = .fatal) (tp : TopicPartition)
    (records : List ProducerRecord) : ∃ e, encodeFor T tp records p = (.error e, p) := by
  unfold encodeFor
  split
  · exact ⟨_, rfl⟩
  · rcases ProducerState.allocate_cases tp records.length p.state with ⟨hmay, _⟩ | ⟨_, e, heq⟩
    · exact absurd h hmay.1.1
    · refine ⟨.producer e, bind_of_error ?_⟩
      rw [onState, mapError_apply, zoom_apply, heq]
      rfl

/-- A fenced producer queues nothing, and is not changed by trying. -/
theorem enqueue_of_fatal {p : Producer ω} (h : p.state.txn = .fatal) (tp : TopicPartition)
    {records : List ProducerRecord} (hrecords : records ≠ []) :
    ∃ e, enqueue T tp records p = (.error e, p) := by
  obtain ⟨e, heq⟩ := encodeFor_of_fatal T h tp records
  refine ⟨e, ?_⟩
  rw [enqueue, if_neg (by simpa using hrecords),
    bind_of_ok (enrollAll_of_fatal T h tp.topic [tp.partition]), bind_of_error heq]

theorem enqueueTaken_of_fatal {p : Producer ω} (h : p.state.txn = .fatal) (tp : TopicPartition)
    {records : List ProducerRecord} (hrecords : records ≠ []) :
    ∃ e, enqueueTaken T tp records p =
      (.error e, { p with dropped := p.dropped ++ records }) := by
  obtain ⟨e, heq⟩ := enqueue_of_fatal T h tp hrecords
  refine ⟨e, ?_⟩
  rw [enqueueTaken, bind_of_ok (attempt_apply _ p), heq]
  rfl

/-- Taking staged batches out of a fenced producer fails at the first of them,
and writes nothing. -/
theorem enqueueStaged_of_fatal {p : Producer ω} (h : p.state.txn = .fatal) (hfilled : p.StagedFilled)
    (tps : List TopicPartition) :
    Calm p (enqueueStaged T tps p).2 ∧
      ((∃ tp ∈ tps, tp ∈ p.staged) → ∃ e, (enqueueStaged T tps p).1 = .error e) := by
  induction tps with
  | nil => exact ⟨refl p, by simp⟩
  | cons tp rest ih =>
      rw [enqueueStaged, bind_of_ok (get_apply p)]
      rcases hstaged : p.staged[tp]? with _ | staged
      · refine ⟨ih.1, ?_⟩
        rintro ⟨tp', hmem, hin⟩
        rcases List.mem_cons.mp hmem with rfl | hmem
        · rw [Std.TreeMap.mem_iff_isSome_getElem?, hstaged] at hin
          cases hin
        · exact ih.2 ⟨tp', hmem, hin⟩
      · obtain ⟨e, heq⟩ := enqueueTaken_of_fatal T
          (p := { p with staged := p.staged.erase tp }) h tp (hfilled tp staged hstaged)
        dsimp only
        rw [bind_of_ok (set_apply p _), bind_of_error heq]
        exact ⟨⟨fun _ => h, fun hfilled => hfilled.erase tp, .of_eq rfl⟩, fun _ => ⟨e, rfl⟩⟩

/-- The stage is drained in `flush`; with something staged, that is where a
fenced producer stops. -/
theorem flush_of_fatal_staged {p : Producer ω} (h : p.state.txn = .fatal)
    (hfilled : p.StagedFilled) (hstaged : ¬p.staged.isEmpty) :
    Calm p (flush T p).2 ∧ ∃ e, (flush T p).1 = .error e := by
  obtain ⟨hcalm, hfails⟩ := enqueueStaged_of_fatal T h hfilled p.staged.keys
  obtain ⟨tp, htp⟩ : ∃ tp, tp ∈ p.staged := by
    simpa [Std.TreeMap.isEmpty_iff_forall_not_mem] using hstaged
  obtain ⟨e, he⟩ := hfails ⟨tp, by simpa using htp, htp⟩
  have hdrain : drainStaged T p = (.error e, (enqueueStaged T p.staged.keys p).2) := by
    rw [drainStaged, bind_of_ok (get_apply p), ← he]
  rw [flush, bind_of_error hdrain]
  exact ⟨hcalm, e, rfl⟩

/-- With nothing staged and no batch pending there is nothing to do. -/
theorem flush_of_idle {p : Producer ω} (hstaged : p.staged.isEmpty)
    (hpending : ∀ tp, p.pending.getD tp [] = []) :
    flush T p = (.ok [], { p with pending := p.pending.filter fun _ queue => !queue.isEmpty }) := by
  have hkeys : p.staged.keys = [] := by
    rw [← List.isEmpty_iff, Std.TreeMap.isEmpty_keys]
    exact hstaged
  have hdrain : drainStaged T p = (.ok (), p) := by
    rw [drainStaged, bind_of_ok (get_apply p), hkeys]
    rfl
  have hempty : (p.pending.filter fun _ queue => !queue.isEmpty).isEmpty := by
    rw [Std.TreeMap.isEmpty_filter_iff]
    intro tp htp
    have hget := hpending tp
    rw [Std.TreeMap.getD_eq_getD_getElem?, Std.TreeMap.getElem?_eq_some_getElem htp] at hget
    simpa [List.isEmpty_iff] using hget
  rw [flush, bind_of_ok hdrain]
  change Act.andThen (flushOnce T 0 []) _ p = _
  have hround : flushOnce T 0 [] p =
      (.ok (.inr []), { p with pending := p.pending.filter fun _ queue => !queue.isEmpty }) := by
    rw [flushOnce, retainQueued, bind_of_ok (modify_apply _ p), bind_of_ok (get_apply _),
      if_pos hempty]
    rfl
  rw [Act.andThen, hround]

theorem queued_eq_zero {p : Producer ω} (hstaged : p.staged.isEmpty)
    (hpending : ∀ tp, p.pending.getD tp [] = []) : p.queued = 0 := by
  have hsize : p.staged.size = 0 := by
    rw [Std.TreeMap.isEmpty_eq_size_eq_zero] at hstaged
    simpa using hstaged
  have hlengths : ∀ n ∈ p.pending.toList.map (·.2.length), n = 0 := by
    intro n hn
    obtain ⟨⟨tp, queue⟩, hmem, rfl⟩ := List.mem_map.mp hn
    have hget := hpending tp
    rw [Std.TreeMap.getD_eq_getD_getElem?,
      Std.TreeMap.mem_toList_iff_getElem?_eq_some.mp hmem] at hget
    simpa using hget
  show (p.pending.toList.map (·.2.length)).sum + p.staged.size = 0
  rw [hsize, List.sum_eq_zero_iff_forall_eq_nat.mpr hlengths]

theorem mem_staged_of_mem_ready {p : Producer ω} {now : ℕ} {tp : TopicPartition}
    (h : tp ∈ p.ready now) : tp ∈ p.staged := by
  obtain ⟨⟨tp', staged⟩, hmem, rfl⟩ := List.mem_map.mp h
  have hin := Std.TreeMap.mem_toList_iff_getElem?_eq_some.mp (List.mem_of_mem_filter hmem)
  rw [Std.TreeMap.mem_iff_isSome_getElem?, hin]
  rfl

/-- What the clock reads when a call begins. -/
def clock (p : Producer ω) : ℕ := (T.now p.cluster.wire.env).1

theorem sendReady_of_fatal {p : Producer ω} (h : p.state.txn = .fatal)
    (hfilled : p.StagedFilled) :
    Calm p (sendReady T p).2 ∧
      (p.ready (p.clock T) ≠ [] → ∃ e, (sendReady T p).1 = .error e) := by
  let c : Cluster ω := (Cluster.now (ε := Error) T p.cluster).2
  let p₁ : Producer ω := { p with cluster := c }
  have hclock : onCluster (Cluster.now T) p = (.ok (p.clock T), p₁) := rfl
  have hcalm : Calm p p₁ := .of_cluster (.of_eq rfl)
  rw [sendReady, bind_of_ok hclock, bind_of_ok (get_apply p₁)]
  by_cases hready : p₁.ready (p.clock T) = []
  · rw [if_pos hready]
    exact ⟨hcalm, fun hne => absurd hready hne⟩
  · rw [if_neg hready]
    obtain ⟨htaken, hfails⟩ := enqueueStaged_of_fatal T (p := p₁) h hfilled (p₁.ready (p.clock T))
    obtain ⟨tp, htp⟩ := List.exists_mem_of_ne_nil _ hready
    obtain ⟨e, he⟩ := hfails ⟨tp, htp, mem_staged_of_mem_ready htp⟩
    have heq : enqueueStaged T (p₁.ready (p.clock T)) p₁ =
        (.error e, (enqueueStaged T (p₁.ready (p.clock T)) p₁).2) := by
      rw [← he]
    rw [bind_of_error heq]
    exact ⟨IsTrans.trans _ _ _ hcalm htaken, fun _ => ⟨e, rfl⟩⟩

theorem produceTo_of_fatal {p : Producer ω} (h : p.state.txn = .fatal)
    (hfilled : p.StagedFilled) (tp : TopicPartition) (record : ProducerRecord) :
    Calm p (produceTo T tp record p).2 := by
  refine moves_bind_at (tolerates_calm.stageFor tp p) fun staged p₁ hstage => ?_
  have hcalm : Calm p p₁ := by
    have := tolerates_calm.stageFor (T := T) tp p
    rwa [hstage] at this
  let staged' : Staged :=
    ⟨staged.records ++ [record], staged.bytes + recordBytes record, staged.since⟩
  let p₂ : Producer ω := { p₁ with staged := p₁.staged.insert tp staged' }
  have hstaged : Calm p₁ p₂ := by
    exact ⟨id, fun hfilled => hfilled.insert tp (by simp [staged']), .of_eq rfl⟩
  refine moves_bind_at hstaged fun _ p' hp' => ?_
  cases hp'
  exact (sendReady_of_fatal T (p := p₂) (hcalm.txn h) (hstaged.filled (hcalm.filled hfilled))).1

theorem produce_of_fatal {p : Producer ω} (h : p.state.txn = .fatal)
    (hfilled : p.StagedFilled) (topic : String) (record : ProducerRecord) :
    Calm p (produce T topic record p).2 := by
  have hplace := tolerates_calm.partitionFor (T := T) topic record.key p
  refine moves_bind_at hplace fun partition p₁ heq => ?_
  rw [heq] at hplace
  exact produceTo_of_fatal T (hplace.txn h) (hplace.filled hfilled) _ record

/-- Grouping puts every record somewhere, and makes no empty group. -/
theorem groupByPartition_filled {topic : String} {count : ℤ} {records : List ProducerRecord}
    {groups groups' : Std.TreeMap ℤ (List ProducerRecord)} {p p' : Producer ω}
    (heq : groupByPartition topic count records groups p = (.ok groups', p'))
    (hfilled : ∀ entry ∈ groups.toList, entry.2 ≠ []) :
    (∀ entry ∈ groups'.toList, entry.2 ≠ []) ∧
      (records ≠ [] ∨ ¬groups.isEmpty → ¬groups'.isEmpty) := by
  induction records generalizing groups p with
  | nil =>
      cases heq
      exact ⟨hfilled, by simp⟩
  | cons record rest ih =>
      obtain ⟨partition, next, -, heq⟩ := groupByPartition_cons_eq_ok heq
      have hinsert : ∀ entry ∈ (groups.insert partition
          (groups.getD partition [] ++ [record])).toList, entry.2 ≠ [] := by
        rintro ⟨k, group⟩ hmem
        rw [Std.TreeMap.mem_toList_iff_getElem?_eq_some, Std.TreeMap.getElem?_insert] at hmem
        split at hmem
        · cases hmem
          simp
        · exact hfilled ⟨k, group⟩ (Std.TreeMap.mem_toList_iff_getElem?_eq_some.mpr hmem)
      obtain ⟨hall, hnonempty⟩ := ih heq hinsert
      exact ⟨hall, fun _ => hnonempty (.inr (by simp))⟩

theorem enqueueGroups_of_fatal {p : Producer ω} (h : p.state.txn = .fatal) (topic : String)
    {groups : List (ℤ × List ProducerRecord)} (hne : groups ≠ [])
    (hfilled : ∀ entry ∈ groups, entry.2 ≠ []) :
    ∃ e, enqueueGroups T topic groups p = (.error e, p) := by
  rcases groups with _ | ⟨⟨partition, records⟩, rest⟩
  · exact absurd rfl hne
  · obtain ⟨e, heq⟩ := enqueue_of_fatal T h ⟨topic, partition⟩ (hfilled _ List.mem_cons_self)
    exact ⟨e, bind_of_error heq⟩

theorem sendKeyed_of_fatal {p : Producer ω} (h : p.state.txn = .fatal) (topic : String)
    (records : List ProducerRecord) : Calm p (sendKeyed T topic records p).2 := by
  unfold sendKeyed
  by_cases hrecords : records.isEmpty
  · rw [if_pos hrecords]
    exact refl p
  · rw [if_neg hrecords]
    have hcount := tolerates_calm.partitionCountWaiting (T := T) topic p
    refine moves_bind_at hcount fun count p₁ hp₁ => ?_
    rw [hp₁] at hcount
    have hgroup := (tolerates_calm (T := T)).groupByPartition topic count records ∅ p₁
    refine moves_bind_at hgroup fun groups p₂ hp₂ => ?_
    rw [hp₂] at hgroup
    have hfatal : p₂.state.txn = .fatal := hgroup.txn (hcount.txn h)
    obtain ⟨hfilled, hnonempty⟩ := groupByPartition_filled hp₂ (by simp)
    have hne : groups.toList ≠ [] := by
      intro hnil
      refine hnonempty (.inl (by simpa using hrecords)) ?_
      rw [← Std.TreeMap.isEmpty_toList, hnil]
      rfl
    obtain ⟨e, he⟩ := enqueueGroups_of_fatal T hfatal topic hne hfilled
    rw [bind_of_ok (enrollAll_of_fatal T hfatal topic groups.keys), bind_of_error he]
    exact refl p₂

theorem endTransaction_calm (committed : Bool) : Moves Calm (endTransaction T committed) := by
  refine Moves.bind ?_ fun _ => ?_
  · intro p
    rw [onState, mapError_apply, zoom_apply]
    rcases ProducerState.endTransaction_cases p.state with ⟨htxn, heq⟩ | ⟨_, e, heq⟩
    · rw [heq]
      exact ⟨fun h => by simp [htxn] at h, id, .of_eq rfl⟩
    · rw [heq]
      exact ⟨id, id, .of_eq rfl⟩
  · refine Moves.bind Moves.get fun p => ?_
    refine Moves.bind (Moves.ofExcept _) fun identity => ?_
    refine Moves.bind (Moves.ofExcept _) fun txnId => ?_
    refine Moves.bind (tolerates_calm.coordinatorCall ?_ _ _ _) fun _ => ?_
    · intro f hf
      simp [hf, Request.apiKey]
    · refine Moves.modify fun p => ⟨fun h => ?_, id, .of_eq rfl⟩
      simp [ProducerState.onEndTransaction, h]

theorem enqueue_calm (tp : TopicPartition) (records : List ProducerRecord) :
    Moves Calm (enqueue T tp records) := by
  refine Moves.ite (Moves.pure _) ?_
  refine Moves.bind (tolerates_calm.enrollAll ?_ _ _) fun _ => ?_
  · intro f req hf
    simp [hf, Request.apiKey]
  · refine Moves.bind (numbers_calm.encodeFor tp records) fun batch => ?_
    exact Moves.modify fun p => ⟨id, id, .of_eq rfl⟩

end Producer

/-! ### Runs -/

open Producer

/-- What is asked of one call on a fenced producer: no `Produce` request is
written, and `flush`, `send` and `tick` fail if anything is queued. -/
structure Silent (T : Transport ω) (p : Producer ω) (call : Call) : Prop where
  unwritten : Appends sent (fun f => f.request.apiKey ≠ .produce) p (call.step T p)
  refused : (call = .flush ∨ call = .tick ∨ ∃ tp records, call = .send tp records) →
    0 < p.queued → ∃ e, (call.exec T p).1 = .error e

/-- The calls a fenced producer answers that way: a `flush` finds something
staged or no batch at all, a `tick` finds nothing queued or a staged batch that
is due, a `send` comes with a record or finds nothing queued. -/
def Covered (T : Transport ω) (p : Producer ω) : Call → Prop
  | .flush => ¬p.staged.isEmpty ∨ ∀ tp, p.pending.getD tp [] = []
  | .tick => p.queued = 0 ∨ p.ready (p.clock T) ≠ []
  | .send _ records => p.queued = 0 ∨ records ≠ []
  | _ => True

/-- A covered call leaves a fenced producer fenced and writes no `Produce`. -/
theorem calm_of_covered (T : Transport ω) {p : Producer ω} (h : p.state.txn = .fatal)
    (hfilled : p.StagedFilled) {call : Call} (hcovered : Covered T p call) :
    Calm p (call.step T p) := by
  have hdiscard : ∀ {α : Type} {m : Act (Producer ω) Error α}, Calm p (m p).2 →
      Calm p ((do let _ ← m : Act (Producer ω) Error Unit) p).2 :=
    fun hm => moves_bind_at hm fun _ s' _ => refl s'
  cases call with
  | beginTransaction =>
      rcases ProducerState.beginTransaction_cases p.state with ⟨htxn, _⟩ | ⟨_, e, heq⟩
      · rw [h] at htxn
        cases htxn
      · simp only [Call.step, Call.exec, beginTransaction, onState, mapError_apply, zoom_apply, heq]
        exact refl p
  | commitTransaction => exact endTransaction_calm T true p
  | abortTransaction => exact endTransaction_calm T false p
  | sendOffsetsToTransaction offsets metadata =>
      refine tolerates_calm.sendOffsetsToTransaction offsets metadata ?_ ?_ p
      · intro f req hf
        simp [hf, Request.apiKey]
      · intro f req hf
        simp [hf, Request.apiKey]
  | produce topic record => exact produce_of_fatal T h hfilled topic record
  | produceTo tp record => exact produceTo_of_fatal T h hfilled tp record
  | enqueue tp records => exact enqueue_calm T tp records p
  | send tp records =>
      refine hdiscard ?_
      unfold send
      by_cases hrecords : records.isEmpty
      · rw [if_pos hrecords]
        exact refl p
      · obtain ⟨e, he⟩ := enqueue_of_fatal T h tp (by simpa using hrecords)
        rw [if_neg hrecords, bind_of_error he]
        exact refl p
  | sendKeyed topic records => exact hdiscard (sendKeyed_of_fatal T h topic records)
  | tick => exact (sendReady_of_fatal T h hfilled).1
  | flush =>
      refine hdiscard ?_
      by_cases hstaged : p.staged.isEmpty
      · rw [flush_of_idle T hstaged (hcovered.resolve_left (by simpa using hstaged))]
        exact ⟨id, id, .of_eq rfl⟩
      · exact (flush_of_fatal_staged T h hfilled hstaged).1
  | setPartitioner _ => exact ⟨id, id, .of_eq rfl⟩
  | setCompression _ => exact ⟨id, id, .of_eq rfl⟩
  | setMetadataMaxAge _ => exact ⟨id, id, .of_eq rfl⟩
  | setLinger _ => exact ⟨id, id, .of_eq rfl⟩
  | setBatchSize _ => exact ⟨id, id, .of_eq rfl⟩
  | setMaxInFlight _ => exact ⟨id, id, .of_eq rfl⟩

theorem silent_of_covered (T : Transport ω) {p : Producer ω} (h : p.state.txn = .fatal)
    (hfilled : p.StagedFilled) {call : Call} (hcovered : Covered T p call) :
    Silent T p call := by
  refine ⟨(calm_of_covered T h hfilled hcovered).sent, ?_⟩
  have hdiscard : ∀ {α : Type} {m : Act (Producer ω) Error α} {e : Error}, (m p).1 = .error e →
      ((do let _ ← m : Act (Producer ω) Error Unit) p).1 = .error e := by
    intro α m e hm
    have hpair : m p = (.error e, (m p).2) := by rw [← hm]
    rw [bind_of_error hpair]
  rintro (rfl | rfl | ⟨tp, records, rfl⟩) hqueued
  · have hstaged : ¬p.staged.isEmpty := by
      intro hstaged
      have hpending := hcovered.resolve_left (by simpa using hstaged)
      rw [queued_eq_zero hstaged hpending] at hqueued
      exact absurd hqueued (lt_irrefl 0)
    obtain ⟨e, he⟩ := (flush_of_fatal_staged T h hfilled hstaged).2
    exact ⟨e, hdiscard he⟩
  · exact (sendReady_of_fatal T h hfilled).2 (hcovered.resolve_left (Nat.ne_of_gt hqueued))
  · have hrecords := hcovered.resolve_left (Nat.ne_of_gt hqueued)
    obtain ⟨e, he⟩ := enqueue_of_fatal T h tp hrecords
    refine ⟨e, hdiscard ?_⟩
    rw [send, if_neg (by simpa using hrecords), bind_of_error he]

theorem stagedFilled_step (T : Transport ω) {p : Producer ω} (h : p.StagedFilled) (call : Call) :
    (call.step T p).StagedFilled := by
  have hfeed : call ≠ .beginTransaction → call ≠ .commitTransaction →
      call ≠ .abortTransaction → (call.step T p).StagedFilled := fun hbegin hcommit habort =>
    (feeding_exec T hbegin hcommit habort (fun _ _ => trivial) p
      (⟨h, fun _ _ => trivial⟩ : Bounded (fun _ => True) p)).bounded.filled
  cases call with
  | beginTransaction => exact h
  | commitTransaction => exact (endTransaction_calm T true p).filled h
  | abortTransaction => exact (endTransaction_calm T false p).filled h
  | _ => exact hfeed (by simp) (by simp) (by simp)

/-- A producer is only ever given a stage together with a record. -/
theorem stagedFilled_of_reachable (T : Transport ω) {p : Producer ω} (h : Reachable T p) :
    p.StagedFilled := by
  obtain ⟨start, calls, hstart, rfl⟩ := h
  exact run_induction (bounded_of_started (N := fun _ => True) T hstart).filled
    (fun _ call h => stagedFilled_step T h call) calls

/-- In every run on a fenced producer whose calls are all covered, no `Produce`
request is ever written, and `flush`, `send` and `tick` fail whenever anything
is queued. -/
theorem fenced_writes_nothing (T : Transport ω) {p : Producer ω} (hp : Reachable T p)
    (hfatal : p.state.txn = .fatal) (calls : List Call)
    (hcovered : ∀ pre call, pre ++ [call] <+: calls → Covered T (run (Call.step T) p pre) call) :
    ∀ pre call, pre ++ [call] <+: calls → Silent T (run (Call.step T) p pre) call := by
  have hinv : ∀ pre, pre <+: calls → (run (Call.step T) p pre).state.txn = .fatal ∧
      (run (Call.step T) p pre).StagedFilled := by
    intro pre
    induction pre using List.reverseRecOn with
    | nil => exact fun _ => ⟨hfatal, stagedFilled_of_reachable T hp⟩
    | append_singleton pre call ih =>
        intro hpre
        obtain ⟨htxn, hfilled⟩ := ih ((List.prefix_append pre [call]).trans hpre)
        have hcalm := calm_of_covered T htxn hfilled (hcovered pre call hpre)
        rw [run_concat]
        exact ⟨hcalm.txn htxn, hcalm.filled hfilled⟩
  intro pre call hpre
  obtain ⟨htxn, hfilled⟩ := hinv pre ((List.prefix_append pre [call]).trans hpre)
  exact silent_of_covered T htxn hfilled (hcovered pre call hpre)

/-! ### A fenced producer with a batch still queued -/

/-- One broker that leads partition 0 of the topic. -/
def oneBroker : Body := .metadata ⟨[⟨1, "b", 1⟩], 1, [⟨0, some "t", [⟨0, 0, 1⟩]⟩]⟩

/-- The broker rejects the first `Produce` with a sequence error, which fences,
and would accept a second one. -/
def fencingTape : Tape :=
  .of [.apiVersions ⟨0, []⟩, .initProducerId ⟨0, 7, 0⟩, oneBroker,
    .produce [("t", [⟨0, 45, -1⟩])], .produce [("t", [⟨0, 0, 12⟩])]]

def sampleRecord : ProducerRecord := ⟨none, none, none, 0⟩

def fencingStart : Producer Tape :=
  (Producer.idempotent Tape.transport fencingTape ["b:1"] "c").2

/-- The producer after one batch was queued and its flush fenced it. -/
def fencedProducer : Producer Tape :=
  run (Call.step Tape.transport) fencingStart [.enqueue ⟨"t", 0⟩ [sampleRecord], .flush]

theorem fencedProducer_reachable : Reachable Tape.transport fencedProducer := by
  have hstart : (Producer.idempotent Tape.transport fencingTape ["b:1"] "c").1 = .ok () := by
    decide
  exact ⟨fencingStart, _, ⟨fencingTape, ["b:1"], "c", .inl (Prod.fst_eq_iff.mp hstart)⟩, rfl⟩

theorem fencedProducer_fatal : fencedProducer.state.txn = .fatal := by decide +kernel

theorem fenced_writes_nothing_send :
    Silent Tape.transport fencedProducer (.send ⟨"t", 0⟩ [sampleRecord]) := by
  refine fenced_writes_nothing Tape.transport fencedProducer_reachable fencedProducer_fatal
    [.send ⟨"t", 0⟩ [sampleRecord]] ?_ [] _ (List.prefix_refl _)
  intro pre call hpre
  obtain ⟨rfl, rfl⟩ : pre = [] ∧ call = .send ⟨"t", 0⟩ [sampleRecord] := by
    rcases pre with _ | ⟨first, rest⟩
    · simpa using hpre
    · have := hpre.length_le
      simp at this
  exact .inr (by simp)

/-- The second `flush` of a fenced producer writes its batch again, and succeeds. -/
theorem fenced_flush_writes :
    Reachable Tape.transport fencedProducer ∧ fencedProducer.state.txn = .fatal ∧
      0 < fencedProducer.queued ∧ ¬Silent Tape.transport fencedProducer .flush := by
  refine ⟨fencedProducer_reachable, fencedProducer_fatal, by decide +kernel, fun h => ?_⟩
  have hwritten : ((Call.flush.step Tape.transport fencedProducer).sent.drop
      fencedProducer.sent.length).map (·.request.apiKey) = [.produce] := by
    decide +kernel
  obtain ⟨entries, heq, hall⟩ := h.unwritten
  rw [heq, List.drop_left] at hwritten
  obtain ⟨f, hf, hkey⟩ : ∃ f ∈ entries, f.request.apiKey = .produce := by
    simpa [List.map_eq_singleton_iff] using congrArg (ApiKey.produce ∈ ·) hwritten
  exact hall f hf hkey

end Barnabas.Client
