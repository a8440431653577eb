import Barnabas.Client.Accounting

/-!
The order of a partition's records.

Sequence numbers are allocated when a batch is queued. A record gets there on two
routes: `enqueue`, `send` and `send_keyed` queue what they are given at once, while
`produce` and `produce_to` stage it until its batch is full or its linger is over. So
the numbers of a partition follow the order of the calls as long as nothing is queued
directly for a partition that still has records in the stage; `send` and `send_keyed`
drain the stage too, but only after they have queued their own records.
-/

namespace Barnabas.Client

open Barnabas.Lib Barnabas.Core Barnabas.Lib.Act

namespace Producer

variable {ω : Type}

/-- The batches of a partition, in the order their numbers were allocated. -/
def numberedFor (p : Producer ω) (tp : TopicPartition) : List Batch :=
  (p.numbered.filter (·.1 = tp)).map (·.2)

/-- The records of a partition that have numbers, in the order of these. -/
def sequenced (p : Producer ω) (tp : TopicPartition) : List ProducerRecord :=
  (p.numberedFor tp).flatMap (·.records)

/-- The records of a partition that wait to be numbered. -/
def stagedFor (p : Producer ω) (tp : TopicPartition) : List ProducerRecord :=
  ((p.staged[tp]?).map (·.records)).getD []

/-- What was passed for one partition. -/
def recordsFor (tp : TopicPartition) (passed : List (TopicPartition × ProducerRecord)) :
    List ProducerRecord :=
  (passed.filter (·.1 = tp)).map (·.2)

/-- Each batch takes up the numbering where the one before it left off. -/
def Numbering : ℤ → List Batch → ℤ → Prop
  | base, [], next => next = base
  | base, batch :: rest, next =>
      batch.range = ⟨base, batch.records.length⟩ ∧
        Numbering (wrap 32 (base + batch.records.length)) rest next

theorem Numbering.concat {base next : ℤ} {batches : List Batch} (h : Numbering base batches next)
    {batch : Batch} (hrange : batch.range = ⟨next, batch.records.length⟩) :
    Numbering base (batches ++ [batch]) (wrap 32 (next + batch.records.length)) := by
  induction batches generalizing base with
  | nil =>
      cases h
      exact ⟨hrange, rfl⟩
  | cons first rest ih => exact ⟨h.1, ih h.2⟩

@[simp] theorem recordsFor_append (tp : TopicPartition)
    (passed more : List (TopicPartition × ProducerRecord)) :
    recordsFor tp (passed ++ more) = recordsFor tp passed ++ recordsFor tp more := by
  simp [recordsFor]

theorem recordsFor_here (tp : TopicPartition) (records : List ProducerRecord) :
    recordsFor tp (records.map (tp, ·)) = records := by
  simp [recordsFor, List.filter_map, Function.comp_def]

theorem recordsFor_elsewhere {tp tp' : TopicPartition} (h : tp' ≠ tp)
    (records : List ProducerRecord) : recordsFor tp (records.map (tp', ·)) = [] := by
  simp [recordsFor, List.filter_map, Function.comp_def, h]

/-- `p'` has numbered or staged, after what `p` had, the records of `new` in their order,
and goes on with the numbers where `p` stood. -/
structure Follows (new : List (TopicPartition × ProducerRecord)) (p p' : Producer ω) : Prop where
  records : ∀ tp, p'.sequenced tp ++ p'.stagedFor tp =
    p.sequenced tp ++ p.stagedFor tp ++ recordsFor tp new
  numbering : ∀ tp base, Numbering base (p.numberedFor tp) (p.state.nextSequence tp) →
    Numbering base (p'.numberedFor tp) (p'.state.nextSequence tp)

theorem Follows.refl (p : Producer ω) : Follows [] p p where
  records _ := (List.append_nil _).symm
  numbering _ _ := id

theorem Follows.trans {new more : List (TopicPartition × ProducerRecord)} {p p' p'' : Producer ω}
    (h : Follows new p p') (h' : Follows more p' p'') : Follows (new ++ more) p p'' where
  records tp := by rw [h'.records, h.records, recordsFor_append, List.append_assoc, List.append_assoc]
  numbering tp base := h'.numbering tp base ∘ h.numbering tp base

/-- Only the order within a partition counts. -/
theorem Follows.of_recordsFor {new new' : List (TopicPartition × ProducerRecord)}
    {p p' : Producer ω} (h : Follows new p p') (heq : ∀ tp, recordsFor tp new' = recordsFor tp new) :
    Follows new' p p' where
  records tp := by rw [heq, h.records]
  numbering := h.numbering

/-! ### What leaves the order alone -/

/-- The stage, the numbered batches and the numbers. -/
def ordering (p : Producer ω) :
    PartitionMap Staged × List (TopicPartition × Batch) × PartitionMap ℤ :=
  (p.staged, p.numbered, p.state.sequences)

theorem ordering_eq_iff {p : Producer ω} {staged : PartitionMap Staged}
    {numbered : List (TopicPartition × Batch)} {sequences : PartitionMap ℤ} :
    p.ordering = (staged, numbered, sequences) ↔
      p.staged = staged ∧ p.numbered = numbered ∧ p.state.sequences = sequences := by
  simp [ordering]

theorem Follows.of_keeps {p p' : Producer ω} (h : Keeps ordering p p') : Follows [] p p' := by
  obtain ⟨hstaged, hnumbered, hsequences⟩ := ordering_eq_iff.mp h
  constructor
  · intro tp
    simp [sequenced, numberedFor, stagedFor, hstaged, hnumbered, recordsFor]
  · intro tp base
    simp [numberedFor, ProducerState.nextSequence, hnumbered, hsequences]

theorem tolerates_ordering (T : Transport ω) :
    Tolerates T (Appends Cluster.sent fun _ => True) (Keeps ordering) (fun _ => True) where
  permits := Cluster.permits_appends T fun _ _ => trivial
  cluster _ _ _ := rfl
  coordinator _ _ := rfl
  state p s _ h := by
    show ordering { p with state := s } = ordering p
    rw [ordering, ordering, h]
  offsets _ _ := rfl
  roundRobin _ _ := rfl

variable (T : Transport ω)

/-- The part of `flush` that sends. -/
theorem ordering_attempts (written : List (TopicPartition × ℤ)) :
    Moves (Keeps ordering) (Act.attempts (flushOnce T)
      (fun _ => do throw (← get).stillPending) maxRetries 0 written) :=
  (tolerates_ordering T).attempts (fun _ => trivial) (fun _ _ _ => rfl)
    (Moves.modify fun _ => rfl) written

/-! ### Queueing -/

/-- What `enqueue` does to the order when it succeeds. -/
theorem enqueue_eq_ok {tp : TopicPartition} {records : List ProducerRecord} {p p' : Producer ω}
    (hne : records ≠ []) (h : enqueue T tp records p = (.ok (), p')) :
    ∃ batch : Batch, batch.records = records ∧
      batch.range = ⟨p.state.nextSequence tp, records.length⟩ ∧
      p'.ordering = (p.staged, p.numbered ++ [(tp, batch)],
        p.state.sequences.insert tp (wrap 32 (p.state.nextSequence tp + records.length))) := by
  unfold enqueue at h
  rw [if_neg (by simpa using hne)] at h
  obtain ⟨_, p₁, henroll, h⟩ := bind_eq_ok h
  obtain ⟨batch, p₂, hencode, h⟩ := bind_eq_ok h
  have hkept := (tolerates_ordering T).enrollAll (fun _ _ _ => trivial) tp.topic [tp.partition] p
  rw [henroll] at hkept
  obtain ⟨hstaged, hnumbered, hsequences⟩ := ordering_eq_iff.mp hkept
  have hnext : p₁.state.nextSequence tp = p.state.nextSequence tp := by
    rw [ProducerState.nextSequence, hsequences, ProducerState.nextSequence]
  unfold encodeFor at hencode
  split at hencode
  · cases hencode
  · obtain ⟨range, p₃, hallocate, hencode⟩ := bind_eq_ok hencode
    rw [onState, mapError_apply, zoom_apply] at hallocate
    obtain ⟨-, halloc⟩ | ⟨-, e, halloc⟩ :=
      ProducerState.allocate_cases tp records.length p₁.state
    · rw [halloc] at hallocate
      obtain ⟨c, -, ⟨identity, now, -, heq⟩ | ⟨e, heq⟩⟩ := encodeBatch_cases T records range p₃
      · rw [heq] at hencode
        cases hallocate
        obtain ⟨hbatch, hp₂⟩ := Prod.mk.inj hencode
        have hbatch := Except.ok.inj hbatch
        refine ⟨batch, by rw [← hbatch], by rw [← hbatch, hnext], ?_⟩
        rw [← (Prod.mk.inj h).2, ← hp₂, ordering_eq_iff, ← hstaged, ← hnumbered, ← hsequences, ← hnext]
        exact ⟨rfl, rfl, rfl⟩
      · rw [heq] at hencode
        cases hencode
    · rw [halloc] at hallocate
      cases hallocate

/-- A batch is numbered last, and what was staged and passed for its partition is what it
holds and what is left in the stage. -/
theorem follows_numbered {p p' : Producer ω} {tp : TopicPartition} {batch : Batch}
    {new : List (TopicPartition × ProducerRecord)}
    (hnumbered : p'.numbered = p.numbered ++ [(tp, batch)])
    (hsequences : p'.state.sequences =
      p.state.sequences.insert tp (wrap 32 (p.state.nextSequence tp + batch.records.length)))
    (hrange : batch.range = ⟨p.state.nextSequence tp, batch.records.length⟩)
    (hhere : batch.records ++ p'.stagedFor tp = p.stagedFor tp ++ recordsFor tp new)
    (hthere : ∀ tp', tp' ≠ tp → p'.stagedFor tp' = p.stagedFor tp' ++ recordsFor tp' new) :
    Follows new p p' := by
  have hsame : p'.numberedFor tp = p.numberedFor tp ++ [batch] := by
    simp [numberedFor, hnumbered]
  have hother : ∀ tp', tp' ≠ tp → p'.numberedFor tp' = p.numberedFor tp' := by
    intro tp' hne
    simp [numberedFor, hnumbered, Ne.symm hne]
  constructor
  · intro tp'
    by_cases heq : tp' = tp
    · subst heq
      rw [sequenced, hsame, List.flatMap_append, List.append_assoc, sequenced, List.append_assoc,
        ← hhere]
      simp
    · rw [sequenced, hother tp' heq, hthere tp' heq, sequenced, List.append_assoc]
  · intro tp' base h
    by_cases heq : tp' = tp
    · subst heq
      rw [hsame, ProducerState.nextSequence, hsequences, Std.TreeMap.getD_insert_self]
      exact h.concat hrange
    · have hne : ¬tp = tp' := fun h => heq h.symm
      rw [hother tp' heq, ProducerState.nextSequence, hsequences, Std.TreeMap.getD_insert,
        if_neg (by simpa using hne)]
      exact h

variable {T}

theorem stagedFor_eq {p p' : Producer ω} (h : p'.staged = p.staged) (tp : TopicPartition) :
    p'.stagedFor tp = p.stagedFor tp := by
  rw [stagedFor, h, stagedFor]

theorem follows_enqueue {tp : TopicPartition} {records : List ProducerRecord} {p p' : Producer ω}
    (h : enqueue T tp records p = (.ok (), p')) (hunstaged : records ≠ [] → p.stagedFor tp = []) :
    Follows (records.map (tp, ·)) p p' := by
  by_cases hne : records = []
  · subst hne
    cases h
    exact .refl p
  · obtain ⟨batch, rfl, hrange, hordering⟩ := enqueue_eq_ok T hne h
    obtain ⟨hstaged, hnumbered, hsequences⟩ := ordering_eq_iff.mp hordering
    refine follows_numbered hnumbered hsequences hrange ?_ ?_
    · rw [stagedFor_eq hstaged, hunstaged hne, recordsFor_here, List.append_nil, List.nil_append]
    · intro tp' htp
      rw [stagedFor_eq hstaged, recordsFor_elsewhere (Ne.symm htp), List.append_nil]

/-! ### The stage -/

@[simp] theorem stagedFor_erase_self (p : Producer ω) (tp : TopicPartition) :
    stagedFor { p with staged := p.staged.erase tp } tp = [] := by
  simp [stagedFor]

theorem stagedFor_erase_of_ne (p : Producer ω) {tp tp' : TopicPartition} (h : tp' ≠ tp) :
    stagedFor { p with staged := p.staged.erase tp } tp' = p.stagedFor tp' := by
  have hne : ¬tp = tp' := fun heq => h heq.symm
  simp [stagedFor, Std.TreeMap.getElem?_erase, hne]

/-- A partition's stage becomes its next batch. -/
theorem follows_take {tp : TopicPartition} {staged : Staged} {p p' : Producer ω}
    (hget : p.staged[tp]? = some staged)
    (h : enqueue T tp staged.records { p with staged := p.staged.erase tp } = (.ok (), p')) :
    Follows [] p p' ∧ ∀ tp', p'.stagedFor tp' = [] ∨ p'.stagedFor tp' = p.stagedFor tp' ∧ tp' ≠ tp := by
  have hrecords : p.stagedFor tp = staged.records := by simp [stagedFor, hget]
  have hleft : ∀ p'' : Producer ω, p''.staged = p.staged.erase tp →
      ∀ tp', p''.stagedFor tp' = [] ∨ p''.stagedFor tp' = p.stagedFor tp' ∧ tp' ≠ tp := by
    intro p'' heq tp'
    by_cases htp : tp' = tp
    · subst htp
      exact .inl (by simp [stagedFor, heq])
    · refine .inr ⟨?_, htp⟩
      rw [← stagedFor_erase_of_ne p htp]
      exact stagedFor_eq heq tp'
  by_cases hne : staged.records = []
  · rw [hne] at h
    cases h
    refine ⟨?_, hleft _ rfl⟩
    constructor
    · intro tp'
      by_cases htp : tp' = tp
      · subst htp
        rw [stagedFor_erase_self, hrecords, hne]
        simp [sequenced, numberedFor, recordsFor]
      · rw [stagedFor_erase_of_ne p htp]
        simp [sequenced, numberedFor, recordsFor]
    · exact fun _ _ => id
  · obtain ⟨batch, hbatch, hrange, hordering⟩ := enqueue_eq_ok T hne h
    obtain ⟨hstaged, hnumbered, hsequences⟩ := ordering_eq_iff.mp hordering
    refine ⟨?_, hleft p' hstaged⟩
    rw [← hbatch] at hsequences hrange
    refine follows_numbered hnumbered hsequences hrange ?_ ?_
    · rw [hrecords, hbatch, stagedFor_eq hstaged, stagedFor_erase_self]
      rfl
    · intro tp' htp
      rw [stagedFor_eq hstaged, stagedFor_erase_of_ne p htp]
      simp [recordsFor]

theorem enqueueTaken_eq_ok {tp : TopicPartition} {records : List ProducerRecord}
    {p p' : Producer ω} (h : enqueueTaken T tp records p = (.ok (), p')) :
    enqueue T tp records p = (.ok (), p') := by
  obtain ⟨outcome, p₁, hattempt, h⟩ := bind_eq_ok h
  rw [attempt_apply] at hattempt
  obtain ⟨houtcome, rfl⟩ := Prod.mk.inj hattempt
  cases outcome with
  | ok _ =>
      cases h
      exact Prod.fst_eq_iff.mp (Except.ok.inj houtcome)
  | error e => cases h

theorem follows_enqueueStaged {tps : List TopicPartition} {p p' : Producer ω}
    (h : enqueueStaged T tps p = (.ok (), p')) :
    Follows [] p p' ∧ ∀ tp, p'.stagedFor tp = [] ∨ p'.stagedFor tp = p.stagedFor tp ∧ tp ∉ tps := by
  induction tps generalizing p with
  | nil =>
      cases h
      exact ⟨.refl _, fun tp => .inr ⟨rfl, List.not_mem_nil⟩⟩
  | cons tp rest ih =>
      rw [enqueueStaged, bind_of_ok (get_apply p)] at h
      cases hget : p.staged[tp]? with
      | none =>
          rw [hget] at h
          obtain ⟨hfollows, hleft⟩ := ih h
          refine ⟨hfollows, fun tp' => ?_⟩
          by_cases htp : tp' = tp
          · have hnone : p.stagedFor tp' = [] := by simp [stagedFor, htp, hget]
            rcases hleft tp' with hleft | ⟨hleft, -⟩
            · exact .inl hleft
            · exact .inl (hleft.trans hnone)
          · rcases hleft tp' with hleft | ⟨hleft, hrest⟩
            · exact .inl hleft
            · exact .inr ⟨hleft, by simp [htp, hrest]⟩
      | some staged =>
          rw [hget] at h
          obtain ⟨_, p₁, hset, h⟩ := bind_eq_ok h
          obtain rfl := (Prod.mk.inj hset).2
          obtain ⟨_, p₂, htaken, h⟩ := bind_eq_ok h
          obtain ⟨hfirst, hone⟩ := follows_take hget (enqueueTaken_eq_ok htaken)
          obtain ⟨hrest, hleft⟩ := ih h
          refine ⟨hfirst.trans hrest, fun tp' => ?_⟩
          rcases hleft tp' with hleft | ⟨hleft, hmem⟩
          · exact .inl hleft
          · rw [hleft]
            rcases hone tp' with hone | ⟨hone, htp⟩
            · exact .inl hone
            · exact .inr ⟨hone, by simp [htp, hmem]⟩

/-- A `flush` that succeeds has numbered all that was staged, in the order of the stage. -/
theorem follows_flush {p p' : Producer ω} {written : List (TopicPartition × ℤ)}
    (h : flush T p = (.ok written, p')) :
    Follows [] p p' ∧ ∀ tp, p'.stagedFor tp = [] := by
  obtain ⟨_, p₁, hdrain, h⟩ := bind_eq_ok h
  rw [drainStaged, bind_of_ok (get_apply p)] at hdrain
  obtain ⟨hfollows, hleft⟩ := follows_enqueueStaged hdrain
  have hkept := ordering_attempts T [] p₁
  rw [h] at hkept
  refine ⟨hfollows.trans (.of_keeps hkept), fun tp => ?_⟩
  rw [stagedFor_eq (ordering_eq_iff.mp hkept).1]
  rcases hleft tp with hleft | ⟨hleft, hmem⟩
  · exact hleft
  · rw [Std.TreeMap.mem_keys] at hmem
    rw [hleft, stagedFor, Std.TreeMap.getElem?_eq_none hmem]
    rfl

theorem follows_sendReady {p p' : Producer ω} (h : sendReady T p = (.ok (), p')) :
    Follows [] p p' := by
  obtain ⟨now, p₁, hnow, h⟩ := bind_eq_ok h
  have hkept := (tolerates_ordering T).onCluster (tolerates_ordering T).permits.now p
  rw [hnow] at hkept
  refine Follows.trans (.of_keeps hkept) ?_
  rw [bind_of_ok (get_apply p₁)] at h
  split at h
  · cases h
    exact .refl _
  · obtain ⟨_, p₂, hstaged, h⟩ := bind_eq_ok h
    obtain ⟨written, p₃, hflush, h⟩ := bind_eq_ok h
    cases h
    exact (follows_enqueueStaged hstaged).1.trans (follows_flush hflush).1

/-- One more record in the stage. -/
theorem follows_stage {p : Producer ω} {tp : TopicPartition} {staged : Staged}
    (hget : p.staged[tp]? = some staged ∨ p.staged[tp]? = none ∧ staged.records = [])
    (record : ProducerRecord) (bytes since : ℕ) :
    Follows [(tp, record)] p
      { p with staged := p.staged.insert tp ⟨staged.records ++ [record], bytes, since⟩ } := by
  have hrecords : p.stagedFor tp = staged.records := by
    rcases hget with hget | ⟨hget, hnil⟩
    · simp [stagedFor, hget]
    · simp [stagedFor, hget, hnil]
  constructor
  · intro tp'
    by_cases htp : tp' = tp
    · subst htp
      rw [hrecords]
      simp [sequenced, numberedFor, stagedFor, recordsFor]
    · have hne : ¬tp = tp' := fun heq => htp heq.symm
      simp [sequenced, numberedFor, stagedFor, recordsFor, Std.TreeMap.getElem?_insert, hne]
  · exact fun _ _ => id

theorem follows_produceTo {tp : TopicPartition} {record : ProducerRecord} {p p' : Producer ω}
    (h : produceTo T tp record p = (.ok (), p')) : Follows [(tp, record)] p p' := by
  obtain ⟨staged, c, -, hstage, hget⟩ := stageFor_cases T tp p
  rw [produceTo, bind_of_ok hstage] at h
  obtain ⟨_, p₁, hset, h⟩ := bind_eq_ok h
  obtain rfl := (Prod.mk.inj hset).2
  have hclock : Follows [] p { p with cluster := c } := .of_keeps rfl
  have hstaged := follows_stage (p := { p with cluster := c }) hget record
    (staged.bytes + recordBytes record) staged.since
  have hready := follows_sendReady h
  simpa using hclock.trans (hstaged.trans hready)

/-! ### Placing by key -/

/-- Where the partitioner puts records, from a count and the round-robin counter. -/
def placements (partitioner : Partitioner) (count : ℤ) (topic : String) :
    ℕ → List ProducerRecord → List (TopicPartition × ProducerRecord)
  | _, [] => []
  | next, record :: rest =>
      match partitioner.partitionFor record.key count next with
      | (some partition, next) =>
          (⟨topic, partition⟩, record) :: placements partitioner count topic next rest
      | (none, _) => []

theorem topic_of_placements {partitioner : Partitioner} {count : ℤ} {topic : String} {next : ℕ}
    {records : List ProducerRecord} {entry : TopicPartition × ProducerRecord}
    (h : entry ∈ placements partitioner count topic next records) : entry.1.topic = topic := by
  induction records generalizing next with
  | nil => cases h
  | cons record rest ih =>
      rw [placements] at h
      split at h
      · rcases List.mem_cons.mp h with rfl | h
        · rfl
        · exact ih h
      · cases h

/-- Grouping keeps the order within each partition. -/
theorem groupByPartition_eq_ok {topic : String} {count : ℤ} {records : List ProducerRecord}
    {groups groups' : Std.TreeMap ℤ (List ProducerRecord)} {p p' : Producer ω}
    (h : groupByPartition topic count records groups p = (.ok groups', p')) (partition : ℤ) :
    groups'.getD partition [] = groups.getD partition [] ++
      recordsFor ⟨topic, partition⟩ (placements p.partitioner count topic p.roundRobin records) := by
  induction records generalizing groups p with
  | nil =>
      cases h
      exact (List.append_nil _).symm
  | cons record rest ih =>
      obtain ⟨k, next, hplace, h⟩ := groupByPartition_cons_eq_ok h
      rw [ih h, placements, hplace, Std.TreeMap.getD_insert]
      by_cases hk : k = partition
      · subst hk
        simp [recordsFor]
      · simp [recordsFor, hk]

/-- The records of the groups, group by group. -/
theorem recordsFor_groups (topic : String) (groups : Std.TreeMap ℤ (List ProducerRecord))
    (partition : ℤ) :
    recordsFor ⟨topic, partition⟩ (groups.toList.flatMap fun (k, records) =>
      records.map (⟨topic, k⟩, ·)) = groups.getD partition [] := by
  have hflat : ∀ l : List (ℤ × List ProducerRecord),
      recordsFor ⟨topic, partition⟩ (l.flatMap fun (k, records) => records.map (⟨topic, k⟩, ·)) =
        (l.filter fun e => partition == e.1).flatMap (·.2) := by
    intro l
    induction l with
    | nil => rfl
    | cons e l ih =>
        rw [List.flatMap_cons, recordsFor_append, ih]
        by_cases he : partition = e.1
        · rw [List.filter_cons_of_pos (by simpa using he), List.flatMap_cons, he, recordsFor_here]
        · rw [List.filter_cons_of_neg (by simpa using he), recordsFor_elsewhere, List.nil_append]
          exact fun h => he (congrArg TopicPartition.partition h).symm
  rw [hflat, filter_key_toList, Std.TreeMap.getD_eq_getD_getElem?]
  cases groups[partition]? with
  | none => rfl
  | some records => simp

theorem follows_enqueueGroups {topic : String} {groups : List (ℤ × List ProducerRecord)}
    {p p' : Producer ω} (h : enqueueGroups T topic groups p = (.ok (), p'))
    (hunstaged : ∀ group ∈ groups, group.2 ≠ [] → p.stagedFor ⟨topic, group.1⟩ = []) :
    Follows (groups.flatMap fun (k, records) => records.map (⟨topic, k⟩, ·)) p p' := by
  induction groups generalizing p with
  | nil =>
      cases h
      exact .refl _
  | cons group rest ih =>
      obtain ⟨_, p₁, hfirst, h⟩ := bind_eq_ok h
      obtain ⟨hgroup, hrest⟩ := List.forall_mem_cons.mp hunstaged
      have hstaged : p₁.staged = p.staged := by
        by_cases hne : group.2 = []
        · rw [hne] at hfirst
          cases hfirst
          rfl
        · obtain ⟨batch, -, -, hordering⟩ := enqueue_eq_ok T hne hfirst
          exact (ordering_eq_iff.mp hordering).1
      refine (follows_enqueue hfirst hgroup).trans (ih h ?_)
      intro group' hmem hne
      rw [stagedFor_eq hstaged]
      exact hrest group' hmem hne

/-! ### Calls -/

theorem ordering_endTransaction (committed : Bool) :
    Moves (Keeps ordering) (endTransaction T committed) := by
  have hmachine : Moves (Keeps ordering)
      (onState ProducerState.endTransaction : Act (Producer ω) Error Unit) := by
    intro p
    rw [onState, mapError_apply, zoom_apply]
    rcases ProducerState.endTransaction_cases p.state with ⟨-, heq⟩ | ⟨-, e, heq⟩
    · rw [heq]
      rfl
    · rw [heq]
      rfl
  refine Moves.bind hmachine fun _ => Moves.bind Moves.get fun p => ?_
  refine Moves.bind (Moves.ofExcept _) fun identity => Moves.bind (Moves.ofExcept _) fun txnId => ?_
  refine Moves.bind ((tolerates_ordering T).coordinatorCall (fun _ _ => trivial) _ _ _) fun _ => ?_
  refine Moves.modify fun p => ordering_eq_iff.mpr ⟨rfl, rfl, ?_⟩
  show p.state.onEndTransaction.sequences = p.state.sequences
  rw [ProducerState.onEndTransaction]
  split <;> rfl

theorem ordering_beginTransaction :
    Moves (Keeps ordering) (beginTransaction : Act (Producer ω) Error Unit) := by
  intro p
  rw [beginTransaction, onState, mapError_apply, zoom_apply]
  rcases ProducerState.beginTransaction_cases p.state with ⟨-, heq⟩ | ⟨-, e, heq⟩
  · rw [heq]
    rfl
  · rw [heq]
    rfl

theorem follows_send {tp : TopicPartition} {records : List ProducerRecord} {p p' : Producer ω}
    {offset : ℤ} (h : send T tp records p = (.ok offset, p'))
    (hunstaged : records ≠ [] → p.stagedFor tp = []) :
    Follows (records.map (tp, ·)) p p' := by
  unfold send at h
  split at h
  next hempty =>
    cases h
    rw [List.isEmpty_iff.mp hempty]
    exact .refl _
  next =>
    obtain ⟨_, p₁, henqueue, h⟩ := bind_eq_ok h
    obtain ⟨written, p₂, hflush, h⟩ := bind_eq_ok h
    cases h
    simpa using (follows_enqueue henqueue hunstaged).trans (follows_flush hflush).1

theorem follows_sendKeyed {topic : String} {records : List ProducerRecord}
    {p p₁ p' : Producer ω} {written : List (ℤ × ℤ)} {count : ℤ}
    (h : sendKeyed T topic records p = (.ok written, p')) (hne : records ≠ [])
    (hcount : partitionCountWaiting T topic p = (.ok count, p₁))
    (hunstaged : ∀ entry ∈ placements p₁.partitioner count topic p₁.roundRobin records,
      p.stagedFor entry.1 = []) :
    Follows (placements p₁.partitioner count topic p₁.roundRobin records) p p' := by
  unfold sendKeyed at h
  rw [if_neg (by simpa using hne), bind_of_ok hcount] at h
  obtain ⟨groups, p₂, hgroups, h⟩ := bind_eq_ok h
  obtain ⟨_, p₃, henroll, h⟩ := bind_eq_ok h
  obtain ⟨_, p₄, hqueued, h⟩ := bind_eq_ok h
  obtain ⟨_, p₅, hflush, h⟩ := bind_eq_ok h
  cases h
  have hkept : Keeps ordering p p₃ := by
    have hkept₁ := (tolerates_ordering T).partitionCountWaiting topic p
    have hkept₂ := (tolerates_ordering T).groupByPartition topic count records ∅ p₁
    have hkept₃ := (tolerates_ordering T).enrollAll (fun _ _ _ => trivial) topic groups.keys p₂
    rw [hcount] at hkept₁
    rw [hgroups] at hkept₂
    rw [henroll] at hkept₃
    exact hkept₃.trans (hkept₂.trans hkept₁)
  have hgrouped : ∀ k, groups.getD k [] = recordsFor ⟨topic, k⟩
      (placements p₁.partitioner count topic p₁.roundRobin records) := by
    intro k
    rw [groupByPartition_eq_ok hgroups k, Std.TreeMap.getD_emptyc, List.nil_append]
  have hfree : ∀ group ∈ groups.toList, group.2 ≠ [] → p₃.stagedFor ⟨topic, group.1⟩ = [] := by
    rintro ⟨k, members⟩ hmem hmembers
    have hget : groups.getD k [] = members := by
      rw [Std.TreeMap.getD_eq_getD_getElem?, Std.TreeMap.mem_toList_iff_getElem?_eq_some.mp hmem]
      rfl
    rw [hgrouped k] at hget
    obtain ⟨r, hr⟩ := List.exists_mem_of_ne_nil _ (hget ▸ hmembers)
    obtain ⟨entry, hentry, -⟩ := List.mem_map.mp hr
    obtain ⟨hentry, htp⟩ := List.mem_filter.mp hentry
    rw [stagedFor_eq (ordering_eq_iff.mp hkept).1, ← of_decide_eq_true htp]
    exact hunstaged entry hentry
  have hfollows := (Follows.of_keeps hkept).trans
    ((follows_enqueueGroups hqueued hfree).trans (follows_flush hflush).1)
  refine hfollows.of_recordsFor fun tp => ?_
  simp only [List.nil_append, List.append_nil]
  by_cases htopic : tp.topic = topic
  · obtain ⟨t, k⟩ := tp
    cases htopic
    rw [recordsFor_groups, hgrouped k]
  · have hnone : ∀ entries : List (TopicPartition × ProducerRecord),
        (∀ entry ∈ entries, entry.1.topic = topic) → recordsFor tp entries = [] := by
      intro entries hentries
      rw [recordsFor, List.filter_eq_nil_iff.mpr, List.map_nil]
      intro entry hentry heq
      exact htopic (of_decide_eq_true heq ▸ hentries entry hentry)
    rw [hnone _ fun entry hentry => topic_of_placements hentry, hnone]
    intro entry hentry
    obtain ⟨group, -, hentry⟩ := List.mem_flatMap.mp hentry
    obtain ⟨r, -, rfl⟩ := List.mem_map.mp hentry
    rfl

end Producer

namespace Call

open Producer

variable {ω : Type} (T : Transport ω)

/-- The records a call passes, each with its partition. -/
def passed (p : Producer ω) : Call → List (TopicPartition × ProducerRecord)
  | produce topic record =>
      match (Producer.partitionFor T topic record.key p).1 with
      | .ok partition => [(⟨topic, partition⟩, record)]
      | .error _ => []
  | produceTo tp record => [(tp, record)]
  | enqueue tp records | send tp records => records.map (tp, ·)
  | sendKeyed topic records =>
      match partitionCountWaiting T topic p with
      | (.ok count, p) => placements p.partitioner count topic p.roundRobin records
      | (.error _, _) => []
  | _ => []

/-- Nothing is queued directly for a partition that has records in the stage. -/
def Unstaged (p : Producer ω) (call : Call) : Prop :=
  match call with
  | enqueue .. | send .. | sendKeyed .. => ∀ entry ∈ call.passed T p, p.stagedFor entry.1 = []
  | _ => True

variable {T}

theorem follows_exec {call : Call} {p p' : Producer ω} (h : call.exec T p = (.ok (), p'))
    (hunstaged : call.Unstaged T p) : Follows (call.passed T p) p p' := by
  have hsnd : p' = (call.exec T p).2 := by rw [h]
  have hdirect : ∀ {tp records}, (∀ entry ∈ records.map fun r : ProducerRecord => (tp, r),
      p.stagedFor entry.1 = []) → records ≠ [] → p.stagedFor tp = [] := by
    intro tp records hall hne
    obtain ⟨r, hr⟩ := List.exists_mem_of_ne_nil _ hne
    exact hall (tp, r) (List.mem_map_of_mem hr)
  cases call with
  | beginTransaction => exact hsnd ▸ .of_keeps (ordering_beginTransaction p)
  | commitTransaction => exact hsnd ▸ .of_keeps (ordering_endTransaction true p)
  | abortTransaction => exact hsnd ▸ .of_keeps (ordering_endTransaction false p)
  | sendOffsetsToTransaction offsets metadata =>
      exact hsnd ▸ .of_keeps ((tolerates_ordering T).sendOffsetsToTransaction offsets metadata
        (fun _ _ _ => trivial) (fun _ _ _ => trivial) p)
  | produce topic record =>
      obtain ⟨partition, p₁, hplace, h⟩ := bind_eq_ok h
      have hkept := (tolerates_ordering T).partitionFor topic record.key p
      rw [hplace] at hkept
      rw [passed, hplace]
      exact (Follows.of_keeps hkept).trans (follows_produceTo h)
  | produceTo tp record => exact follows_produceTo h
  | enqueue tp records => exact follows_enqueue h (hdirect hunstaged)
  | send tp records =>
      obtain ⟨offset, p₁, hsend, h⟩ := bind_eq_ok h
      cases h
      exact follows_send hsend (hdirect hunstaged)
  | sendKeyed topic records =>
      obtain ⟨written, p₁, hsend, h⟩ := bind_eq_ok h
      cases h
      rw [Unstaged] at hunstaged
      rw [passed] at hunstaged ⊢
      rcases hcount : partitionCountWaiting T topic p with ⟨e | count, p₂⟩
      · by_cases hne : records = []
        · subst hne
          cases hsend
          exact .refl _
        · unfold Producer.sendKeyed at hsend
          rw [if_neg (by simpa using hne), bind_of_error hcount] at hsend
          cases hsend
      · rw [hcount] at hunstaged
        by_cases hne : records = []
        · subst hne
          cases hsend
          exact .refl _
        · exact follows_sendKeyed hsend hne hcount hunstaged
  | tick => exact follows_sendReady h
  | flush =>
      obtain ⟨written, p₁, hflush, h⟩ := bind_eq_ok h
      cases h
      exact (follows_flush hflush).1
  | setPartitioner _ | setCompression _ | setMetadataMaxAge _ | setLinger _ | setBatchSize _
  | setMaxInFlight _ => exact hsnd ▸ .of_keeps rfl

theorem stagedFor_flush {p p' : Producer ω} (h : Call.flush.exec T p = (.ok (), p'))
    (tp : TopicPartition) : p'.stagedFor tp = [] := by
  obtain ⟨written, p₁, hflush, h⟩ := bind_eq_ok h
  obtain rfl := (Prod.mk.inj h).2
  exact (follows_flush hflush).2 tp

end Call

/-! ### Runs -/

/-- A producer with what it has been passed. -/
structure Handed (ω : Type) where
  producer : Producer ω
  passed : List (TopicPartition × ProducerRecord)

namespace Handed

open Producer

variable {ω : Type}

def start (p : Producer ω) : Handed ω := ⟨p, []⟩

def step (T : Transport ω) (h : Handed ω) (call : Call) : Handed ω :=
  ⟨call.step T h.producer, h.passed ++ call.passed T h.producer⟩

/-- The records of each partition, the numbered ones in the order of their numbers and
then the staged ones, are those passed for it, and the numbers are consecutive. -/
structure InOrder (h : Handed ω) : Prop where
  records : ∀ tp, h.producer.sequenced tp ++ h.producer.stagedFor tp = recordsFor tp h.passed
  numbering : ∀ tp, Numbering 0 (h.producer.numberedFor tp) (h.producer.state.nextSequence tp)

variable {T : Transport ω}

theorem InOrder.step {h : Handed ω} (hh : h.InOrder) {call : Call}
    (hok : (call.exec T h.producer).1 = .ok ()) (hunstaged : call.Unstaged T h.producer) :
    (h.step T call).InOrder := by
  have hfollows : Follows (call.passed T h.producer) h.producer (call.step T h.producer) :=
    Call.follows_exec (Prod.fst_eq_iff.mp hok) hunstaged
  constructor
  · intro tp
    rw [Handed.step, recordsFor_append, ← hh.records]
    exact hfollows.records tp
  · exact fun tp => hfollows.numbering tp 0 (hh.numbering tp)

/-- A fresh producer has numbered nothing and starts at 0. -/
theorem ordering_of_started {p : Producer ω} (h : Started T p) : p.ordering = (∅, [], ∅) := by
  have hmade : ∀ cluster state transactionalId, state.sequences = ∅ →
      construct T (new cluster state transactionalId) = (.ok (), p) → p.ordering = (∅, [], ∅) := by
    intro cluster state transactionalId hempty h
    obtain ⟨_, p₁, hconnect, h⟩ := bind_eq_ok h
    have hkept₁ := (tolerates_ordering T).onCluster (tolerates_ordering T).permits.connect
      (new cluster state transactionalId)
    rw [hconnect] at hkept₁
    rw [initProducerId, bind_of_ok (get_apply p₁)] at h
    obtain ⟨resp, p₂, hasked, h⟩ := bind_eq_ok h
    have hkept₂ : Keeps ordering p₁ (coordinatorCall T "InitProducerId" Body.asInitProducerId 4
        (.initProducerId ⟨p₁.transactionalId, p₁.timeoutMs, -1, -1⟩) (·.errorCode) p₁).2 :=
      (tolerates_ordering T).coordinatorCall (fun _ _ => trivial) _ _ _ p₁
    rw [hasked] at hkept₂
    obtain ⟨hstaged, hnumbered, hsequences⟩ := ordering_eq_iff.mp (hkept₂.trans hkept₁)
    obtain rfl := (Prod.mk.inj h).2
    refine ordering_eq_iff.mpr ⟨hstaged, hnumbered, ?_⟩
    show (p₂.state.onInitProducerId _).sequences = ∅
    rw [ProducerState.onInitProducerId_sequences]
    split
    · exact hsequences.trans hempty
    · rfl
  obtain ⟨env, bootstrap, clientId, h | ⟨transactionalId, h⟩⟩ := h
  · exact hmade _ _ _ rfl h
  · exact hmade _ _ _ rfl h

theorem inOrder_start {p : Producer ω} (h : Started T p) : (start p).InOrder := by
  obtain ⟨hstaged, hnumbered, hsequences⟩ := ordering_eq_iff.mp (ordering_of_started h)
  constructor
  · intro tp
    simp [start, sequenced, numberedFor, stagedFor, hstaged, hnumbered, recordsFor]
  · intro tp
    have hnext : p.state.nextSequence tp = 0 := by
      simp [ProducerState.nextSequence, hsequences]
    have hnone : p.numberedFor tp = [] := by simp [numberedFor, hnumbered]
    show Numbering 0 (p.numberedFor tp) (p.state.nextSequence tp)
    rw [hnone, hnext]
    exact rfl

variable (T) in
/-- If every call succeeds and none queues directly for a partition that has records in
the stage, the records of a partition are numbered in the order they were passed, with
consecutive numbers from 0 on. What is still staged comes after them; after a `flush`
nothing is. -/
theorem order_follows_calls {p : Producer ω} (hstart : Started T p) (calls : List Call)
    (hok : ∀ pre call, pre ++ [call] <+: calls →
      (call.exec T (run (step T) (start p) pre).producer).1 = .ok ())
    (hunstaged : ∀ pre call, pre ++ [call] <+: calls →
      call.Unstaged T (run (step T) (start p) pre).producer) :
    (run (step T) (start p) calls).InOrder ∧ ∀ pre, calls = pre ++ [.flush] →
      ∀ tp, (run (step T) (start p) calls).producer.sequenced tp =
        recordsFor tp (run (step T) (start p) calls).passed := by
  have hinorder : (run (step T) (start p) calls).InOrder := by
    refine run_induction_of_prefix (I := fun _ h => InOrder h) (inOrder_start hstart) calls ?_
    intro pre call hpre hh
    exact hh.step (hok pre call hpre) (hunstaged pre call hpre)
  refine ⟨hinorder, ?_⟩
  rintro pre rfl tp
  rw [← hinorder.records tp]
  have hlast := hok pre .flush (List.prefix_refl _)
  have hflushed : (Call.flush.step T (run (step T) (start p) pre).producer).stagedFor tp = [] :=
    Call.stagedFor_flush (Prod.fst_eq_iff.mp hlast) tp
  rw [run_concat]
  show _ = _ ++ (Call.flush.step T (run (step T) (start p) pre).producer).stagedFor tp
  rw [hflushed, List.append_nil]

/-- A broker that hands out a producer id, leads `t-0`, and takes two batches. -/
def twoBatches : Tape :=
  .of [.apiVersions ⟨0, []⟩, .initProducerId ⟨0, 7, 0⟩,
    .metadata ⟨[⟨1, "b", 1⟩], 1, [⟨0, some "t", [⟨0, 0, 1⟩]⟩]⟩,
    .produce [("t", [⟨0, 0, 0⟩])], .produce [("t", [⟨0, 0, 1⟩])]]

def twoBatchesStart : Producer Tape :=
  (Producer.idempotent Tape.transport twoBatches ["b:1"] "c").2

theorem started_twoBatches : Started Tape.transport twoBatchesStart := by
  have hstart : (Producer.idempotent Tape.transport twoBatches ["b:1"] "c").1 = .ok () := by
    decide
  exact ⟨twoBatches, ["b:1"], "c", .inl (Prod.fst_eq_iff.mp hstart)⟩

def firstRecord : ProducerRecord := ⟨none, some [1], none, 1⟩

def secondRecord : ProducerRecord := ⟨none, some [2], none, 2⟩

/-- The stage is flushed before a batch is sent directly. -/
def flushedBetween : List Call :=
  [.setLinger 1000, .produceTo ⟨"t", 0⟩ firstRecord, .flush, .send ⟨"t", 0⟩ [secondRecord], .flush]

theorem order_follows_calls_flushed :
    (run (step Tape.transport) (start twoBatchesStart) flushedBetween).producer.sequenced ⟨"t", 0⟩ =
      [firstRecord, secondRecord] := by
  have hfree : ∀ entry ∈ [secondRecord].map ((⟨"t", 0⟩ : TopicPartition), ·),
      (run (step Tape.transport) (start twoBatchesStart)
        (flushedBetween.take 3)).producer.stagedFor entry.1 = [] := by
    decide +kernel
  have horder := order_follows_calls Tape.transport started_twoBatches flushedBetween
    (forall_along ⟨by decide, by decide, by decide +kernel, by decide +kernel,
      by decide +kernel, trivial⟩)
    (forall_along ⟨trivial, trivial, trivial, hfree, trivial, trivial⟩)
  rw [horder.2 (flushedBetween.take 4) rfl]
  decide

/-- A record is staged, and then another is sent directly: every call succeeds, and the
second record has the first number. -/
theorem sent_overtakes_staged :
    let calls := [.setLinger 1000, .produceTo ⟨"t", 0⟩ firstRecord, .send ⟨"t", 0⟩ [secondRecord]]
    let h := run (step Tape.transport) (start twoBatchesStart) calls
    Started Tape.transport twoBatchesStart ∧
      (∀ pre call, pre ++ [call] <+: calls →
        (call.exec Tape.transport (run (step Tape.transport) (start twoBatchesStart) pre).producer).1 =
          .ok ()) ∧
      recordsFor ⟨"t", 0⟩ h.passed = [firstRecord, secondRecord] ∧
      h.producer.sequenced ⟨"t", 0⟩ = [secondRecord, firstRecord] ∧
      (h.producer.numberedFor ⟨"t", 0⟩).map (·.range) = [⟨0, 1⟩, ⟨1, 1⟩] ∧ ¬h.InOrder := by
  have hsequenced : (run (step Tape.transport) (start twoBatchesStart)
      [.setLinger 1000, .produceTo ⟨"t", 0⟩ firstRecord,
        .send ⟨"t", 0⟩ [secondRecord]]).producer.sequenced ⟨"t", 0⟩ =
      [secondRecord, firstRecord] := by
    decide +kernel
  refine ⟨started_twoBatches, ?_, by decide, hsequenced, by decide +kernel, ?_⟩
  · exact forall_along ⟨by decide, by decide, by decide +kernel, trivial⟩
  · intro h
    have hrecords := h.records ⟨"t", 0⟩
    revert hrecords
    decide +kernel

end Handed

end Barnabas.Client
