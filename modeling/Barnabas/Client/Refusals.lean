import Barnabas.Client.Ordering
import Barnabas.Client.ProducerRules
import Barnabas.Client.Recovery
import Barnabas.Client.Settling

/-!
What a refused batch costs.

`enqueue` allocates the sequence numbers of a batch before it encodes it. A refusal that
comes before the allocation costs nothing. If the encoder refuses the batch the numbers
are gone: nothing was queued for them, nothing gives them back, and the next batch of the
partition starts behind a gap.
-/

namespace Barnabas.Client

open Barnabas.Lib Barnabas.Core Barnabas.Lib.Act

variable {ω : Type}

namespace Producer

/-- The batches that wait for a partition carry consecutive numbers, up to the next one
that will be given out. -/
def Contiguous (p : Producer ω) : Prop :=
  ∀ tp, ∃ base, Numbering base (p.queue tp) (p.state.nextSequence tp)

/-- An `enqueue` that fails takes no numbers and leaves the queues as they were. -/
def Harmless (T : Transport ω) (tp : TopicPartition) (records : List ProducerRecord)
    (p : Producer ω) : Prop :=
  ∀ e p', enqueue T tp records p = (.error e, p') →
    (∀ tp', p'.state.nextSequence tp' = p.state.nextSequence tp') ∧ p'.pending = p.pending

/-- A producer id is known and the encoder takes these records, stamped now and with the
numbers of this range. -/
def Accepts (T : Transport ω) (records : List ProducerRecord) (range : SequenceRange)
    (p : Producer ω) : Prop :=
  ∃ identity, p.state.identity = some identity ∧
    T.codec.encodeRecords (Batch.encoded ⟨records, range, identity, p.transactionalId.isSome,
      (T.systemTime p.cluster.wire.env).1, p.compression⟩) p.compression = .ok ()

/-- If the partition can be enrolled, and the state machine then lets a batch for it
through, the batch can be encoded. -/
def Encodes (T : Transport ω) (tp : TopicPartition) (records : List ProducerRecord)
    (p : Producer ω) : Prop :=
  records ≠ [] → records.length ≤ i32Max →
    ∀ p₁, enrollAll T tp.topic [tp.partition] p = (.ok (), p₁) → p₁.state.MayAllocate tp →
      Accepts T records ⟨p₁.state.nextSequence tp, records.length⟩ p₁

/-! ### One `enqueue` -/

section Enqueue

variable (T : Transport ω)

/-- The two ends of `encodeBatch`. -/
theorem encodeBatch_eq (records : List ProducerRecord) (range : SequenceRange) (p : Producer ω) :
    (Accepts T records range p ∧ ∃ batch : Batch, batch.records = records ∧ batch.range = range ∧
      ∃ c, encodeBatch T records range p = (.ok batch, { p with cluster := c })) ∨
    (¬Accepts T records range p ∧ ∃ e c,
      encodeBatch T records range p = (.error e, { p with cluster := c })) := by
  rw [encodeBatch, bind_of_ok (get_apply p)]
  cases hid : p.state.identity with
  | none =>
      right
      refine ⟨?_, _, p.cluster, rfl⟩
      rintro ⟨identity, hsome, -⟩
      rw [hid] at hsome
      cases hsome
  | some identity =>
      have hrequired : (required "producer id" (some identity) : Act (Producer ω) Error _) p =
          (.ok identity, p) := rfl
      have hclock : (onCluster (Cluster.onEnv T.systemTime) : Act (Producer ω) Error ℤ) p =
          (.ok (T.systemTime p.cluster.wire.env).1,
            { p with cluster := (Cluster.onEnv (ε := Error) T.systemTime p.cluster).2 }) := rfl
      rw [bind_of_ok hrequired, bind_of_ok hclock]
      cases henc : T.codec.encodeRecords (Batch.encoded ⟨records, range, identity,
          p.transactionalId.isSome, (T.systemTime p.cluster.wire.env).1, p.compression⟩)
            p.compression with
      | error e =>
          right
          refine ⟨?_, _, _, rfl⟩
          rintro ⟨identity', hsome, hok⟩
          rw [hid] at hsome
          cases hsome
          rw [henc] at hok
          cases hok
      | ok _ => exact .inl ⟨⟨identity, hid, henc⟩, _, rfl, rfl, _, rfl⟩

/-- The producer once the numbers of a batch are allocated. -/
def allocated (p : Producer ω) (tp : TopicPartition) (count : ℤ) (cluster : Cluster ω) :
    Producer ω :=
  { p with
    cluster
    state := { p.state with
      sequences := p.state.sequences.insert tp (wrap 32 (p.state.nextSequence tp + count)) } }

theorem nextSequence_allocated (p : Producer ω) (tp tp' : TopicPartition) (count : ℤ)
    (c : Cluster ω) : (p.allocated tp count c).state.nextSequence tp' =
      if tp = tp' then wrap 32 (p.state.nextSequence tp + count) else p.state.nextSequence tp' :=
  ProducerState.nextSequence_insert ..

/-- What `enqueue` does once the partition is enrolled: it is refused with nothing changed,
it goes on to queue the batch, or it fails with the numbers allocated. -/
theorem encodeFor_eq {tp : TopicPartition} {records : List ProducerRecord} (p : Producer ω)
    (hlength : records.length ≤ i32Max) :
    (¬p.state.MayAllocate tp ∧ ∃ e, encodeFor T tp records p = (.error e, p)) ∨
    (p.state.MayAllocate tp ∧ Accepts T records ⟨p.state.nextSequence tp, records.length⟩ p ∧
      ∃ batch : Batch, batch.records = records ∧
        batch.range = ⟨p.state.nextSequence tp, records.length⟩ ∧
        ∃ c, encodeFor T tp records p = (.ok batch, p.allocated tp records.length c)) ∨
    (p.state.MayAllocate tp ∧ ¬Accepts T records ⟨p.state.nextSequence tp, records.length⟩ p ∧
      ∃ e c, encodeFor T tp records p = (.error e, p.allocated tp records.length c)) := by
  have hbody : encodeFor T tp records p = (do
      let range ← onState (ProducerState.allocate tp records.length)
      encodeBatch T records range : Act (Producer ω) Error Batch) p := by
    unfold encodeFor
    rw [if_neg (not_lt.mpr hlength)]
  rw [hbody]
  rcases ProducerState.allocate_cases tp records.length p.state with ⟨hmay, hok⟩ | ⟨hmay, e, herr⟩
  · have hallocate : (onState (ProducerState.allocate tp records.length) :
        Act (Producer ω) Error SequenceRange) p =
          (.ok ⟨p.state.nextSequence tp, records.length⟩,
            p.allocated tp records.length p.cluster) := by
      rw [onState, mapError_apply, zoom_apply, hok]
      rfl
    rw [bind_of_ok hallocate]
    right
    rcases encodeBatch_eq T records ⟨p.state.nextSequence tp, records.length⟩
      (p.allocated tp records.length p.cluster) with ⟨haccepts, hbatch⟩ | ⟨hrefuses, hfails⟩
    · exact .inl ⟨hmay, haccepts, hbatch⟩
    · exact .inr ⟨hmay, hrefuses, hfails⟩
  · left
    have hrefused : (onState (ProducerState.allocate tp records.length) :
        Act (Producer ω) Error SequenceRange) p = (.error (.producer e), p) := by
      rw [onState, mapError_apply, zoom_apply, herr]
      rfl
    exact ⟨hmay, _, bind_of_error hrefused⟩

/-- The queues and the numbers. -/
def numbers (p : Producer ω) : PartitionMap (List Batch) × PartitionMap ℤ :=
  (p.pending, p.state.sequences)

theorem numbers_eq_iff {p p' : Producer ω} :
    Act.Keeps numbers p p' ↔ p'.pending = p.pending ∧ p'.state.sequences = p.state.sequences :=
  Prod.mk_inj

theorem tolerates_numbers : Tolerates T (Appends Cluster.sent fun _ => True) (Act.Keeps numbers)
    (fun _ => True) where
  permits := Cluster.permits_appends T fun _ _ => trivial
  cluster _ _ _ := rfl
  coordinator _ _ := rfl
  state _ _ _ h := Prod.ext rfl h
  offsets _ _ := rfl
  roundRobin _ _ := rfl

theorem nextSequence_eq {p p' : Producer ω} (h : p'.state.sequences = p.state.sequences)
    (tp : TopicPartition) : p'.state.nextSequence tp = p.state.nextSequence tp := by
  rw [ProducerState.nextSequence, h, ProducerState.nextSequence]

/-- Adding the length of a batch to a sequence number never gives it back. -/
theorem wrap_add_ne {n : ℤ} {count : ℕ} (hpos : 0 < count) (hcount : count ≤ i32Max) :
    wrap 32 (n + count) ≠ n := by
  intro h
  have hdvd := Int.dvd_bmod_sub_self (x := n + count) (m := 2 ^ 32)
  have hmax : i32Max = 2 ^ 31 - 1 := rfl
  rw [wrap] at h
  rw [h] at hdvd
  omega

/-- **A failed `enqueue` costs nothing exactly as long as the batch it allocates numbers
for can be encoded.** -/
theorem harmless_iff (tp : TopicPartition) (records : List ProducerRecord) (p : Producer ω) :
    Harmless T tp records p ↔ Encodes T tp records p := by
  have henqueue : records ≠ [] → enqueue T tp records p = (do
      enrollAll T tp.topic [tp.partition]
      let batch ← encodeFor T tp records
      modify fun p => { p with
        pending := p.pending.insert tp (p.pending.getD tp [] ++ [batch])
        numbered := p.numbered ++ [(tp, batch)] } : Act (Producer ω) Error Unit) p := by
    intro hne
    unfold enqueue
    rw [if_neg (by simpa using hne)]
  have hkept : ∀ {outcome p₁}, enrollAll T tp.topic [tp.partition] p = (outcome, p₁) →
      p₁.pending = p.pending ∧ p₁.state.sequences = p.state.sequences := by
    intro outcome p₁ h
    have hkeeps := (tolerates_numbers T).enrollAll (fun _ _ _ => trivial) tp.topic [tp.partition] p
    rw [h] at hkeeps
    exact numbers_eq_iff.mp hkeeps
  constructor
  · intro hharmless hne hlength p₁ henroll hmay
    by_contra hrefuses
    rcases encodeFor_eq T p₁ hlength with ⟨hnot, -⟩ | ⟨-, haccepts, -⟩ | ⟨-, -, e, c, hfails⟩
    · exact hnot hmay
    · exact hrefuses haccepts
    · have hfailed : enqueue T tp records p = (.error e, p₁.allocated tp records.length c) := by
        rw [henqueue hne, bind_of_ok henroll, bind_of_error hfails]
      have hsame := (hharmless _ _ hfailed).1 tp
      rw [nextSequence_allocated, if_pos rfl, nextSequence_eq (hkept henroll).2] at hsame
      exact wrap_add_ne (List.length_pos_iff.mpr hne) hlength hsame
  · intro hencodes e p' h
    by_cases hne : records = []
    · subst hne
      cases h
    rw [henqueue hne] at h
    rcases henroll : enrollAll T tp.topic [tp.partition] p with ⟨e' | _, p₁⟩
    · rw [bind_of_error henroll] at h
      cases h
      exact ⟨nextSequence_eq (hkept henroll).2, (hkept henroll).1⟩
    rw [bind_of_ok henroll] at h
    by_cases hlength : (records.length : ℤ) ≤ i32Max
    · rcases encodeFor_eq T p₁ hlength with
        ⟨-, e', hfails⟩ | ⟨-, -, batch, -, -, c, hok⟩ | ⟨hmay, hrefuses, -⟩
      · rw [bind_of_error hfails] at h
        cases h
        exact ⟨nextSequence_eq (hkept henroll).2, (hkept henroll).1⟩
      · rw [bind_of_ok hok] at h
        cases h
      · exact absurd (hencodes hne hlength p₁ henroll hmay) hrefuses
    · have htoo : encodeFor T tp records p₁ = (.error (.missing "batch size"), p₁) := by
        unfold encodeFor
        rw [if_pos (not_le.mp hlength)]
        rfl
      rw [bind_of_error htoo] at h
      cases h
      exact ⟨nextSequence_eq (hkept henroll).2, (hkept henroll).1⟩

end Enqueue

/-! ### What keeps the queues contiguous -/

/-- Whatever is dropped from the front of a queue, the numbers of the rest still follow
each other. -/
theorem Numbering.drop {base next : ℤ} {batches : List Batch} (h : Numbering base batches next)
    (k : ℕ) : ∃ base', Numbering base' (batches.drop k) next := by
  induction batches generalizing base k with
  | nil => exact ⟨base, by rwa [List.drop_nil]⟩
  | cons batch rest ih =>
      cases k with
      | zero => exact ⟨base, h⟩
      | succ k => exact ih h.2 k

/-- The encoder takes these records, however they are stamped. -/
def Encodable (T : Transport ω) (compression : Compression) (records : List ProducerRecord) :
    Prop :=
  ∀ range identity transactional now, T.codec.encodeRecords
    (Batch.encoded ⟨records, range, identity, transactional, now, compression⟩) compression = .ok ()

/-- The queues are contiguous, every stage is in `E`, and the compression is as given. -/
structure Regular (E : List ProducerRecord → Prop) (compression : Compression)
    (p : Producer ω) : Prop where
  compression : p.compression = compression
  staged : ∀ (tp : TopicPartition) (staged : Staged), p.staged[tp]? = some staged → E staged.records
  contiguous : p.Contiguous

/-- And the producer knows its id. -/
def Sound (E : List ProducerRecord → Prop) (compression : Compression) (p : Producer ω) : Prop :=
  p.state.identity ≠ none ∧ p.Regular E compression

variable {E : List ProducerRecord → Prop} {compression : Compression}

theorem Contiguous.of_eq {p p' : Producer ω} (h : p.Contiguous)
    (hqueue : ∀ tp, p'.queue tp = p.queue tp) (hsequences : p'.state.sequences = p.state.sequences) :
    p'.Contiguous := by
  intro tp
  rw [hqueue tp, nextSequence_eq hsequences]
  exact h tp

theorem tolerates_regular (T : Transport ω) : Tolerates T (Appends Cluster.sent fun _ => True)
    (Preserves (Regular E compression)) (fun _ => True) where
  permits := Cluster.permits_appends T fun _ _ => trivial
  cluster _ _ _ h := ⟨h.compression, h.staged, h.contiguous⟩
  coordinator _ _ h := ⟨h.compression, h.staged, h.contiguous⟩
  state _ _ _ hsequences h :=
    ⟨h.compression, h.staged, h.contiguous.of_eq (fun _ => rfl) hsequences⟩
  offsets _ _ h := ⟨h.compression, h.staged, h.contiguous⟩
  roundRobin _ _ h := ⟨h.compression, h.staged, h.contiguous⟩

theorem regular_retire (failedAt : PartitionMap ℕ) (answers : List (ℕ × TopicPartition × ErrorCode))
    (p : Producer ω) : Preserves (Regular E compression) p (retire failedAt answers p).2 := by
  intro h
  refine ⟨h.compression, h.staged, fun tp => ?_⟩
  obtain ⟨base, hbase⟩ := h.contiguous tp
  have hqueue : (retire failedAt answers p).2.queue tp =
      (p.queue tp).drop (retiring failedAt answers tp).length :=
    queue_retire failedAt p.offsets answers (p.pending, []) tp
  rw [hqueue]
  exact hbase.drop _

theorem regular_retainQueued :
    Moves (Preserves (Regular E compression)) (retainQueued : Act (Producer ω) Error Unit) :=
  Moves.modify fun p h => ⟨h.compression, h.staged, h.contiguous.of_eq (queue_retain p) rfl⟩

/-- No call changes the identity of a producer. -/
theorem Sound.of_named {α : Type} {m : Act (Producer ω) Error α} (hnamed : Moves Named m)
    (hregular : Moves (Preserves (Regular E compression)) m) :
    Moves (Preserves (Sound E compression)) m := by
  rintro p ⟨hidentity, h⟩
  refine ⟨?_, hregular p h⟩
  rw [(hnamed p).identity]
  exact hidentity

theorem Sound.of_aside {α : Type} {m : Act (Producer ω) Error α} (h : Moves Aside m) :
    Moves (Preserves (Sound E compression)) m := by
  rintro p ⟨hidentity, hp⟩
  obtain ⟨c, heq⟩ := h p
  rw [heq]
  exact ⟨hidentity, hp.compression, hp.staged, hp.contiguous⟩

variable (T : Transport ω)

theorem blames_any : Blames T fun _ => True :=
  ⟨fun _ _ _ => trivial, fun _ _ _ => trivial, fun _ _ _ => trivial, fun _ _ _ _ _ _ _ => trivial⟩

theorem sound_enrollAll (topic : String) (partitions : List ℤ) :
    Moves (Preserves (Sound E compression)) (enrollAll T topic partitions) :=
  Sound.of_named (keeps_enrollAll (blames_any T) topic partitions).named
    ((tolerates_regular T).enrollAll (fun _ _ _ => trivial) topic partitions)

theorem sound_attempts (written : List (TopicPartition × ℤ)) :
    Moves (Preserves (Sound E compression)) (Act.attempts (flushOnce T)
      (fun _ => do throw (← get).stillPending) maxRetries 0 written) :=
  Sound.of_named
    (Keeps.attempts (keeps_flushOnce (blames_any T)) (fun _ => .bind .get fun _ => .throw _)
      _ _ _).named
    ((tolerates_regular T).attempts (fun _ => trivial) regular_retire regular_retainQueued written)

/-- A batch that can be encoded is queued behind the others of its partition. -/
theorem sound_enqueue (tp : TopicPartition) {records : List ProducerRecord}
    (hrecords : records ≠ [] → Encodable T compression records) :
    Moves (Preserves (Sound E compression)) (enqueue T tp records) := by
  unfold enqueue
  split
  · exact Moves.pure _
  next hempty =>
  have hne : records ≠ [] := by simpa using hempty
  refine Moves.bind (sound_enrollAll T _ _) fun _ p => ?_
  rintro ⟨hidentity, h⟩
  by_cases hlength : (records.length : ℤ) ≤ i32Max
  · rcases encodeFor_eq T p hlength with
      ⟨-, e, hrefused⟩ | ⟨-, -, batch, rfl, hrange, c, hok⟩ | ⟨-, hrefuses, -⟩
    · rw [bind_of_error hrefused]
      exact ⟨hidentity, h⟩
    · rw [bind_of_ok hok]
      refine ⟨hidentity, h.compression, h.staged, fun tp' => ?_⟩
      obtain ⟨base, hbase⟩ := h.contiguous tp'
      refine ⟨base, ?_⟩
      have hnext := nextSequence_allocated p tp tp' batch.records.length c
      show Numbering base ((p.pending.insert tp (p.pending.getD tp [] ++ [batch])).getD tp' [])
        ((p.allocated tp batch.records.length c).state.nextSequence tp')
      rw [hnext, Std.TreeMap.getD_insert]
      by_cases htp : tp = tp'
      · subst htp
        rw [if_pos (by simp), if_pos rfl]
        exact hbase.concat hrange
      · rw [if_neg (by simpa using htp), if_neg htp]
        exact hbase
    · -- the encoder would have to refuse what it takes
      obtain ⟨identity, hsome⟩ := Option.ne_none_iff_exists'.mp hidentity
      refine absurd ⟨identity, hsome, ?_⟩ hrefuses
      rw [h.compression]
      exact hrecords hne _ _ _ _
  · have htoo : encodeFor T tp records p = (.error (.missing "batch size"), p) := by
      unfold encodeFor
      rw [if_pos (not_le.mp hlength)]
      rfl
    rw [bind_of_error htoo]
    exact ⟨hidentity, h⟩

section Staged

variable {T} (hE : ∀ records, E records → records ≠ [] → Encodable T compression records)

include hE

theorem sound_enqueueTaken (tp : TopicPartition) {records : List ProducerRecord}
    (hrecords : E records) :
    Moves (Preserves (Sound E compression)) (enqueueTaken T tp records) := by
  refine Moves.bind (Moves.attempt (sound_enqueue T tp (hE records hrecords))) fun outcome => ?_
  cases outcome with
  | ok _ => exact Moves.pure _
  | error e =>
      refine Moves.bind (Moves.modify fun p => ?_) fun _ => Moves.throw _
      rintro ⟨hidentity, h⟩
      exact ⟨hidentity, h.compression, h.staged, h.contiguous⟩

theorem sound_enqueueStaged (tps : List TopicPartition) :
    Moves (Preserves (Sound E compression)) (enqueueStaged T tps) := by
  induction tps with
  | nil => exact Moves.pure _
  | cons tp rest ih =>
      refine Moves.bind_get fun p => ?_
      cases hget : p.staged[tp]? with
      | none => exact ih p
      | some staged =>
          intro hp
          have hunstaged : Preserves (Sound E compression) p
              { p with staged := p.staged.erase tp } := by
            rintro ⟨hidentity, h⟩
            refine ⟨hidentity, h.compression, fun tp' staged' hget' => ?_, h.contiguous⟩
            rw [Std.TreeMap.getElem?_erase] at hget'
            split at hget'
            · cases hget'
            · exact h.staged tp' staged' hget'
          have htaken : E staged.records := hp.2.staged tp staged hget
          refine moves_bind_at (R := Preserves (Sound E compression)) hunstaged
            (fun _ p' _ => ?_) hp
          exact Moves.bind (sound_enqueueTaken hE tp htaken) (fun _ => ih) p'

theorem sound_flush : Moves (Preserves (Sound E compression)) (flush T) := by
  refine Moves.bind (Moves.bind Moves.get fun p => sound_enqueueStaged hE _) fun _ => ?_
  exact sound_attempts T []

theorem sound_sendReady : Moves (Preserves (Sound E compression)) (sendReady T) := by
  refine Moves.bind (Sound.of_aside (aside_onCluster _)) fun now => ?_
  refine Moves.bind Moves.get fun p => Moves.ite (Moves.pure _) ?_
  refine Moves.bind (sound_enqueueStaged hE _) fun _ => ?_
  exact Moves.bind (sound_flush hE) fun _ => Moves.pure _

theorem sound_produceTo {tp : TopicPartition} {record : ProducerRecord} {p : Producer ω}
    (hgrown : E (p.stagedFor tp ++ [record])) :
    Preserves (Sound E compression) p (produceTo T tp record p).2 := by
  obtain ⟨staged, c, -, hstage, hget⟩ := stageFor_cases T tp p
  have hrecords : p.stagedFor tp = staged.records := by
    rcases hget with hget | ⟨hget, hnil⟩
    · simp [stagedFor, hget]
    · simp [stagedFor, hget, hnil]
  rw [hrecords] at hgrown
  rw [produceTo, bind_of_ok hstage]
  intro hp
  have hclock : Sound E compression { p with cluster := c } :=
    ⟨hp.1, hp.2.compression, hp.2.staged, hp.2.contiguous⟩
  refine moves_bind_at (R := Preserves (Sound E compression)) ?_
    (fun _ p' _ => sound_sendReady hE p') hclock
  rintro ⟨hidentity, h⟩
  refine ⟨hidentity, h.compression, fun tp' staged' hget' => ?_, h.contiguous⟩
  simp only [modify_apply, Std.TreeMap.getElem?_insert] at hget'
  split at hget'
  · cases hget'
    exact hgrown
  · exact h.staged tp' staged' hget'

theorem sound_produce {topic : String} {record : ProducerRecord} {p : Producer ω}
    (hgrown : ∀ partition, E (p.stagedFor ⟨topic, partition⟩ ++ [record])) :
    Preserves (Sound E compression) p (produce T topic record p).2 := by
  refine moves_bind_at (R := Preserves (Sound E compression))
    (Sound.of_aside (aside_partitionFor T topic record.key) p) fun partition p' hplace => ?_
  obtain ⟨c, heq⟩ := aside_partitionFor T topic record.key p
  rw [hplace] at heq
  have hstaged : p'.staged = p.staged := congrArg (·.staged) heq
  refine sound_produceTo hE ?_
  rw [stagedFor_eq hstaged]
  exact hgrown partition

theorem sound_send (tp : TopicPartition) {records : List ProducerRecord}
    (hrecords : records ≠ [] → Encodable T compression records) :
    Moves (Preserves (Sound E compression)) (send T tp records) := by
  refine Moves.ite (Moves.pure _) (Moves.bind (sound_enqueue T tp hrecords) fun _ => ?_)
  exact Moves.bind (sound_flush hE) fun _ => Moves.pure _

omit hE in
theorem sound_enqueueGroups (topic : String) {groups : List (ℤ × List ProducerRecord)}
    (hgroups : ∀ group ∈ groups, group.2 ≠ [] → Encodable T compression group.2) :
    Moves (Preserves (Sound E compression)) (enqueueGroups T topic groups) := by
  induction groups with
  | nil => exact Moves.pure _
  | cons group rest ih =>
      refine Moves.bind (sound_enqueue T _ (hgroups group List.mem_cons_self)) fun _ => ?_
      exact ih fun group hgroup => hgroups group (List.mem_cons_of_mem _ hgroup)

theorem sound_sendKeyed {topic : String} {records : List ProducerRecord} {p : Producer ω}
    (hrecords : ∀ tp count, recordsFor tp
      (placements p.partitioner count topic p.roundRobin records) ≠ [] →
        Encodable T compression (recordsFor tp
          (placements p.partitioner count topic p.roundRobin records))) :
    Preserves (Sound E compression) p (sendKeyed T topic records p).2 := by
  unfold sendKeyed
  split
  · exact id
  refine moves_bind_at (Sound.of_aside (aside_partitionCountWaiting T topic) p)
    fun count p₁ hcount => ?_
  obtain ⟨c, heq⟩ := aside_partitionCountWaiting T topic p
  rw [hcount] at heq
  obtain rfl : p₁ = { p with cluster := c } := heq
  have hgrouping : Moves (Preserves (Sound E compression)) (groupByPartition topic count records ∅ :
      Act (Producer ω) Error (Std.TreeMap ℤ (List ProducerRecord))) :=
    Sound.of_named ((standing_groupByPartition topic count records ∅).mono
      fun _ _ h => h.toNamed) ((tolerates_regular T).groupByPartition topic count records ∅)
  refine moves_bind_at (hgrouping _) fun groups p₂ hgroups => ?_
  refine Moves.bind (sound_enrollAll T _ _) (fun _ => ?_) p₂
  refine Moves.bind (sound_enqueueGroups topic ?_) fun _ => ?_
  · rintro ⟨k, members⟩ hmem
    have hget : groups.getD k [] = members := by
      rw [Std.TreeMap.getD_eq_getD_getElem?, Std.TreeMap.mem_toList_iff_getElem?_eq_some.mp hmem]
      rfl
    have hgroup := groupByPartition_eq_ok hgroups k
    rw [hget, Std.TreeMap.getD_emptyc, List.nil_append] at hgroup
    dsimp only
    rw [hgroup]
    exact hrecords ⟨topic, k⟩ count
  · exact Moves.bind (sound_flush hE) fun _ => Moves.pure _

end Staged

/-! ### Transactions -/

theorem numbers_onState {α : Type} {m : Act ProducerState ProducerError α}
    (hm : ∀ s, (m s).2.sequences = s.sequences) :
    Moves (Act.Keeps numbers) (onState m : Act (Producer ω) Error α) :=
  fun p => Prod.ext rfl (hm p.state)

theorem numbers_beginTransaction :
    Moves (Act.Keeps numbers) (beginTransaction : Act (Producer ω) Error Unit) := by
  apply numbers_onState
  intro s
  rcases ProducerState.beginTransaction_cases s with ⟨-, heq⟩ | ⟨-, e, heq⟩ <;> rw [heq]

theorem numbers_endTransaction (committed : Bool) :
    Moves (Act.Keeps numbers) (endTransaction T committed) := by
  have hmachine : Moves (Act.Keeps numbers)
      (onState ProducerState.endTransaction : Act (Producer ω) Error Unit) := by
    apply numbers_onState
    intro s
    rcases ProducerState.endTransaction_cases s with ⟨-, heq⟩ | ⟨-, e, heq⟩ <;> rw [heq]
  refine Moves.bind hmachine fun _ => Moves.bind Moves.get fun p => ?_
  refine Moves.bind (Moves.ofExcept _) fun identity => Moves.bind (Moves.ofExcept _) fun txnId => ?_
  refine Moves.bind ((tolerates_numbers T).coordinatorCall (fun _ _ => trivial) _ _ _) fun _ => ?_
  refine Moves.modify fun p => Prod.ext rfl ?_
  show p.state.onEndTransaction.sequences = p.state.sequences
  rw [ProducerState.onEndTransaction]
  split <;> rfl

end Producer

/-! ### Runs -/

namespace Call

open Producer

/-- The batches a call makes of the records it is passed, behind what is staged. -/
def OwnBatch (p : Producer ω) : Call → List ProducerRecord → Prop
  | enqueue _ records, batch | send _ records, batch => batch = records
  | produceTo tp record, batch => batch = p.stagedFor tp ++ [record]
  | produce topic record, batch => ∃ partition, batch = p.stagedFor ⟨topic, partition⟩ ++ [record]
  | sendKeyed topic records, batch => ∃ tp count,
      batch = recordsFor tp (placements p.partitioner count topic p.roundRobin records)
  | _, _ => False

/-- The calls that may come to make batches of the stage. -/
def Drains : Call → Prop
  | produce .. | produceTo .. | send .. | sendKeyed .. | tick | flush => True
  | _ => False

/-- The encoder takes every batch that the call may make. -/
def Encodable (T : Transport ω) (p : Producer ω) (call : Call) : Prop :=
  ∀ batch, batch ≠ [] → call.OwnBatch p batch ∨ call.Drains ∧ (∃ tp, batch = p.stagedFor tp) →
    Producer.Encodable T p.compression batch

variable {T : Transport ω}

theorem contiguous_step {p : Producer ω} {call : Call} (hidentity : p.state.identity ≠ none)
    (h : p.Contiguous) (hcall : call.Encodable T p) : (call.step T p).Contiguous := by
  have hown : ∀ batch, call.OwnBatch p batch → batch ≠ [] →
      Producer.Encodable T p.compression batch :=
    fun batch hbatch hne => hcall batch hne (.inl hbatch)
  have hbare : Sound (fun _ => True) p.compression p := ⟨hidentity, rfl, fun _ _ _ => trivial, h⟩
  -- the stage counts for the calls that drain it
  have hstaged : call.Drains → Sound (fun batch => batch ≠ [] →
      Producer.Encodable T p.compression batch) p.compression p := by
    refine fun hdrains => ⟨hidentity, rfl, fun tp staged hget hne => ?_, h⟩
    exact hcall _ hne (.inr ⟨hdrains, tp, by simp [stagedFor, hget]⟩)
  have hE : ∀ records, (records ≠ [] → Producer.Encodable T p.compression records) →
      records ≠ [] → Producer.Encodable T p.compression records := fun _ => id
  have hkept : Act.Keeps numbers p (call.step T p) → (call.step T p).Contiguous := by
    intro hkeeps
    obtain ⟨hpending, hsequences⟩ := numbers_eq_iff.mp hkeeps
    exact h.of_eq (fun tp => by rw [queue, hpending, queue]) hsequences
  cases call with
  | beginTransaction => exact hkept (numbers_beginTransaction p)
  | commitTransaction => exact hkept (numbers_endTransaction T true p)
  | abortTransaction => exact hkept (numbers_endTransaction T false p)
  | sendOffsetsToTransaction offsets metadata =>
      exact hkept ((tolerates_numbers T).sendOffsetsToTransaction offsets metadata
        (fun _ _ _ => trivial) (fun _ _ _ => trivial) p)
  | produce topic record =>
      refine (sound_produce hE (fun partition => ?_) (hstaged trivial)).2.contiguous
      exact hown _ ⟨partition, rfl⟩
  | produceTo tp record =>
      exact (sound_produceTo hE (hown _ rfl) (hstaged trivial)).2.contiguous
  | enqueue tp records => exact (sound_enqueue T tp (hown _ rfl) p hbare).2.contiguous
  | send tp records =>
      rw [Call.step, Call.exec, bind_pure_snd]
      exact (sound_send hE tp (hown _ rfl) p (hstaged trivial)).2.contiguous
  | sendKeyed topic records =>
      rw [Call.step, Call.exec, bind_pure_snd]
      refine (sound_sendKeyed hE (fun tp count => ?_) (hstaged trivial)).2.contiguous
      exact hown _ ⟨tp, count, rfl⟩
  | tick => exact (sound_sendReady hE p (hstaged trivial)).2.contiguous
  | flush =>
      rw [Call.step, Call.exec, bind_pure_snd]
      exact (sound_flush hE p (hstaged trivial)).2.contiguous
  | _ => exact hkept rfl

end Call

namespace Producer

/-- **Exactly the refusals of the encoder cost sequence numbers**: any other `enqueue` that
fails leaves the numbers and the queues as they were, and in a run without one the numbers
of every queue follow each other up to the next one. -/
theorem refusals_cost_nothing_iff (T : Transport ω) :
    (∀ tp records p, Harmless T tp records p ↔ Encodes T tp records p) ∧
      ∀ start calls, Started T start →
        (∀ pre call, pre ++ [call] <+: calls → call.Encodable T (run (Call.step T) start pre)) →
          (run (Call.step T) start calls).Contiguous := by
  refine ⟨harmless_iff T, fun start calls hstart hcalls => ?_⟩
  refine run_induction_of_prefix (I := fun _ (p : Producer ω) => p.Contiguous) ?_ calls ?_
  · intro tp
    obtain ⟨-, hpending, -⟩ := sameQueues_of_started T hstart
    refine ⟨start.state.nextSequence tp, ?_⟩
    rw [queue, hpending, Std.TreeMap.getD_emptyc]
    exact rfl
  · intro pre call hpre hp
    obtain ⟨identity, hidentity⟩ :=
      identity_of_reachable T ⟨start, pre, hstart, rfl⟩
    exact Call.contiguous_step (by rw [hidentity]; exact Option.some_ne_none _) hp
      (hcalls pre call hpre)

/-- An encoder that refuses values whose length is no `i32`. -/
def boundedCodec : Codec :=
  { Tape.codec with
    encodeRecords := fun records _ =>
      if ∀ r ∈ records, ((r.value.map List.length).getD 0 : ℤ) ≤ i32Max then .ok ()
      else .error "Record value is too large" }

def bounded : Transport Tape := { Tape.transport with codec := boundedCodec }

def boundedStart : Producer Tape := (Producer.idempotent bounded Handed.twoBatches ["b:1"] "c").2

theorem started_boundedStart : Started bounded boundedStart := by
  have hstart : (Producer.idempotent bounded Handed.twoBatches ["b:1"] "c").1 = .ok () := by
    decide
  exact ⟨Handed.twoBatches, ["b:1"], "c", .inl (Prod.fst_eq_iff.mp hstart)⟩

/-- A record with a value of `n` bytes. -/
def sized (n : ℕ) : ProducerRecord := ⟨none, some (List.replicate n 0), none, 3⟩

theorem not_accepts_sized {n : ℕ} (h : i32Max < n) (range : SequenceRange) (p : Producer Tape) :
    ¬Accepts bounded [sized n] range p := by
  rintro ⟨identity, -, hok⟩
  have hlength : (((sized n).value.map List.length).getD 0 : ℤ) = n := by simp [sized]
  have hrefuses : bounded.codec.encodeRecords (Batch.encoded ⟨[sized n], range, identity,
      p.transactionalId.isSome, (bounded.systemTime p.cluster.wire.env).1, p.compression⟩)
        p.compression = .error "Record value is too large" := by
    refine if_neg fun hall => ?_
    have hle : (((sized n).value.map List.length).getD 0 : ℤ) ≤ i32Max :=
      hall _ List.mem_cons_self
    rw [hlength] at hle
    exact absurd h (not_lt.mpr hle)
  rw [hrefuses] at hok
  cases hok

theorem gap_of_refused {n : ℕ} (h : i32Max < n) :
    let p := run (Call.step bounded) boundedStart [.enqueue ⟨"t", 0⟩ [Handed.firstRecord]]
    let p' := run (Call.step bounded) boundedStart
      [.enqueue ⟨"t", 0⟩ [Handed.firstRecord], .enqueue ⟨"t", 0⟩ [sized n]]
    (enqueue bounded ⟨"t", 0⟩ [sized n] p).1 ≠ .ok () ∧
      p.state.nextSequence ⟨"t", 0⟩ = 1 ∧ p'.state.nextSequence ⟨"t", 0⟩ = 2 ∧
      (p'.queue ⟨"t", 0⟩).map (·.range) = [⟨0, 1⟩] ∧
      ¬Harmless bounded ⟨"t", 0⟩ [sized n] p ∧ ¬p'.Contiguous := by
  intro p p'
  have hnext : p.state.nextSequence ⟨"t", 0⟩ = 1 := by decide
  have hqueue : (p.queue ⟨"t", 0⟩).map (·.range) = [⟨0, 1⟩] := by decide
  have hready : p.state.txn = .ready := by decide
  have hplain : p.state.isTransactional = false := by decide
  have hmay : p.state.MayAllocate ⟨"t", 0⟩ := by
    rw [ProducerState.MayAllocate, ProducerState.Usable, hready, hplain]
    simp
  have hneeded : ([0].filter fun partition => p.state.needsEnrollment ⟨"t", partition⟩) = [] := by
    decide
  have henroll : enrollAll bounded "t" [0] p = (.ok (), p) := by
    rw [enrollAll, bind_of_ok (get_apply p)]
    exact congrFun (if_pos hneeded) p
  obtain ⟨e, c, hfails⟩ : ∃ e c, encodeFor bounded ⟨"t", 0⟩ [sized n] p =
      (.error e, p.allocated ⟨"t", 0⟩ 1 c) := by
    have hlength : (([sized n] : List ProducerRecord).length : ℤ) ≤ i32Max := by simp [i32Max]
    rcases @encodeFor_eq _ bounded ⟨"t", 0⟩ _ p hlength with
      ⟨hnot, -⟩ | ⟨-, haccepts, -⟩ | ⟨-, -, hfails⟩
    · exact absurd hmay hnot
    · exact absurd haccepts (not_accepts_sized h _ p)
    · exact hfails
  have hrefused : enqueue bounded ⟨"t", 0⟩ [sized n] p = (.error e, p.allocated ⟨"t", 0⟩ 1 c) := by
    unfold enqueue
    rw [if_neg (by simp), bind_of_ok henroll, bind_of_error hfails]
  have hafter : p' = p.allocated ⟨"t", 0⟩ 1 c := congrArg (·.2) hrefused
  have hnext' : p'.state.nextSequence ⟨"t", 0⟩ = 2 := by
    rw [hafter, nextSequence_allocated, if_pos rfl, hnext]
    decide
  have hqueue' : p'.queue ⟨"t", 0⟩ = p.queue ⟨"t", 0⟩ := by
    rw [hafter]
    rfl
  refine ⟨?_, hnext, hnext', by rw [hqueue', hqueue], ?_, ?_⟩
  · rw [hrefused]
    simp
  · intro hharmless
    have hsame := (hharmless _ _ hrefused).1 ⟨"t", 0⟩
    rw [← hafter, hnext', hnext] at hsame
    exact absurd hsame (by decide)
  · intro hcontiguous
    obtain ⟨base, hbase⟩ := hcontiguous ⟨"t", 0⟩
    rw [hqueue', hnext'] at hbase
    cases hbatches : p.queue ⟨"t", 0⟩ with
    | nil =>
        rw [hbatches] at hqueue
        cases hqueue
    | cons batch rest =>
        rw [hbatches] at hqueue hbase
        obtain ⟨hrange, hrest⟩ := List.cons.inj hqueue
        have hrange : batch.range = ⟨0, 1⟩ := hrange
        obtain rfl := List.map_eq_nil_iff.mp hrest
        obtain ⟨hfirst, hlast⟩ := hbase
        rw [hrange] at hfirst
        obtain ⟨rfl, hlength⟩ := SequenceRange.mk.inj hfirst
        rw [Numbering, ← hlength] at hlast
        exact absurd hlast (by decide)

/-- A producer with one batch queued is given one that the encoder refuses: the number of
the refused record is gone, and the queue ends before the next number. -/
theorem refused_batch_leaves_gap :
    let p := run (Call.step bounded) boundedStart [.enqueue ⟨"t", 0⟩ [Handed.firstRecord]]
    let p' := run (Call.step bounded) boundedStart
      [.enqueue ⟨"t", 0⟩ [Handed.firstRecord], .enqueue ⟨"t", 0⟩ [sized (2 ^ 31)]]
    Started bounded boundedStart ∧ (enqueue bounded ⟨"t", 0⟩ [sized (2 ^ 31)] p).1 ≠ .ok () ∧
      p.state.nextSequence ⟨"t", 0⟩ = 1 ∧ p'.state.nextSequence ⟨"t", 0⟩ = 2 ∧
      (p'.queue ⟨"t", 0⟩).map (·.range) = [⟨0, 1⟩] ∧
      ¬Harmless bounded ⟨"t", 0⟩ [sized (2 ^ 31)] p ∧ ¬p'.Contiguous :=
  ⟨started_boundedStart, gap_of_refused (by decide)⟩

theorem encodable_sized {n : ℕ} (h : n ≤ i32Max) (compression : Compression) :
    Encodable bounded compression [sized n] := by
  intro range identity transactional now
  have hlength : (((sized n).value.map List.length).getD 0 : ℤ) = n := by simp [sized]
  refine if_pos fun encoded hencoded => ?_
  obtain rfl : encoded = _ := List.mem_singleton.mp hencoded
  exact hlength.trans_le h

/-- Without a refusal the queue is in order. -/
theorem refusals_cost_nothing_iff_bounded :
    (run (Call.step bounded) boundedStart [.enqueue ⟨"t", 0⟩ [sized 1],
        .enqueue ⟨"t", 0⟩ [sized 2]]).Contiguous ∧
      ((run (Call.step bounded) boundedStart [.enqueue ⟨"t", 0⟩ [sized 1],
        .enqueue ⟨"t", 0⟩ [sized 2]]).queue ⟨"t", 0⟩).map (·.range) =
          [⟨0, 1⟩, ⟨1, 1⟩] := by
  have hone : ∀ {n : ℕ}, n ≤ i32Max →
      ∀ p, Call.Encodable bounded p (.enqueue ⟨"t", 0⟩ [sized n]) := by
    intro n hn p batch _ hbatch
    rcases hbatch with rfl | ⟨hdrains, -⟩
    · exact encodable_sized hn _
    · exact hdrains.elim
  have hcontiguous := (refusals_cost_nothing_iff bounded).2 boundedStart
    [.enqueue ⟨"t", 0⟩ [sized 1], .enqueue ⟨"t", 0⟩ [sized 2]] started_boundedStart
    (forall_along ⟨hone (by decide) _, hone (by decide) _, trivial⟩)
  exact ⟨hcontiguous, by decide⟩

end Producer

end Barnabas.Client
