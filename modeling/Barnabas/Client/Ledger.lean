import Barnabas.Client.Holdings
import Barnabas.Client.Boundary

/-!
The records a producer has accepted, over a run.

A ledger numbers the records as they are handed in and keeps those whose call
succeeded. Over any run against honest brokers, an accepted record is acknowledged,
or held for one partition and there once, or it was in a staged batch that could
not be queued: `send_ready` and `drain_staged` take a batch out of the stage before
they enroll, number and encode it.
-/

namespace Barnabas.Client

open Barnabas.Lib Barnabas.Core Barnabas.Lib.Act World

/-- A producer with the records it has accepted, all of them and those since a
transaction was opened last. `next` is the ticket of the next record. -/
structure Ledger (ω : Type) where
  producer : Producer ω
  next : ℕ
  accepted : List ProducerRecord
  current : List ProducerRecord

/-- The call that opens a transaction. -/
def Call.opens : Call → Bool
  | beginTransaction => true
  | _ => false

namespace Ledger

variable {ω : Type}

def start (p : Producer ω) : Ledger ω := ⟨p, 0, [], []⟩

/-- Make a call; the records of a call that succeeds are accepted. -/
def step (T : Transport ω) (l : Ledger ω) (call : Call) : Ledger ω :=
  let call := call.numbered l.next
  let (outcome, producer) := call.exec T l.producer
  let new := if outcome.isOk then call.records else []
  { producer
    next := l.next + call.records.length
    accepted := l.accepted ++ new
    current := if call.opens ∧ outcome.isOk then [] else l.current ++ new }

/-- The ledger of a run. -/
abbrev after (T : Transport ω) (p : Producer ω) (calls : List Call) : Ledger ω :=
  run (step T) (start p) calls

end Ledger

/-- A producer fresh from one of its constructors, with nothing in the world before. -/
def Booted (codec : Codec) (p : Producer World) : Prop :=
  ∃ script bootstrap clientId,
    Producer.idempotent (World.transport codec) (World.start script) bootstrap clientId =
        (.ok (), p) ∨
      ∃ transactionalId, Producer.transactional (World.transport codec) (World.start script)
        bootstrap clientId transactionalId = (.ok (), p)

namespace Producer

/-! ### Batches that can be queued -/

section Stows

variable {ω : Type} (T : Transport ω)

/-- Every staged batch can be queued. -/
def StowsAll (p : Producer ω) : Prop := (drainStaged T p).1 = .ok ()

/-- Every batch that `send_ready` takes out of the stage can be queued: those that are
full or overdue, and if there is one, what is left for the flush that follows. -/
def StowsReady (p : Producer ω) : Prop :=
  ∀ now p₁, onCluster (ε := Error) (Cluster.now T) p = (.ok now, p₁) → p₁.ready now ≠ [] →
    ∃ p₂, enqueueStaged T (p₁.ready now) p₁ = (.ok (), p₂) ∧ p₂.StowsAll T

/-- The producer with one more record staged. -/
def staging (tp : TopicPartition) (record : ProducerRecord) : Act (Producer ω) Error Unit := do
  let staged ← stageFor T tp
  let staged : Staged :=
    ⟨staged.records ++ [record], staged.bytes + recordBytes record, staged.since⟩
  modify fun p => { p with staged := p.staged.insert tp staged }

end Stows

end Producer

open Producer in
/-- Every batch the call takes out of the stage can be queued: if the transaction does
not have its partition yet, the partition is enrolled, and the batch is numbered and
encoded. -/
def Call.Stows {ω : Type} (T : Transport ω) (p : Producer ω) : Call → Prop
  | flush => p.StowsAll T
  | tick => p.StowsReady T
  | produceTo tp record => (staging T tp record p).2.StowsReady T
  | produce topic record => ∀ partition p₁,
      partitionFor T topic record.key p = (.ok partition, p₁) →
        (staging T ⟨topic, partition⟩ record p₁).2.StowsReady T
  | send tp records => records ≠ [] → ∀ p₁, Producer.enqueue T tp records p = (.ok (), p₁) →
      p₁.StowsAll T
  | sendKeyed topic records => records ≠ [] → ∀ count groups p₁ p₂ p₃ p₄,
      partitionCountWaiting T topic p = (.ok count, p₁) →
        groupByPartition topic count records ∅ p₁ = (.ok groups, p₂) →
        enrollAll T topic groups.keys p₂ = (.ok (), p₃) →
        enqueueGroups T topic groups.toList p₃ = (.ok (), p₄) → p₄.StowsAll T
  | _ => True

namespace Producer

/-- Nothing is dropped. -/
def Undrops (p p' : Producer World) : Prop :=
  Cluster.Resting p.cluster → Cluster.Resting p'.cluster ∧ p'.dropped = p.dropped

instance : IsPreorder (Producer World) Undrops where
  refl _ hp := ⟨hp, rfl⟩
  trans _ _ _ h h' hp := ⟨(h' (h hp).1).1, (h' (h hp).1).2.trans (h hp).2⟩

theorem Quiet.undrops {p p' : Producer World} (h : Quiet (fun _ => True) p p') : Undrops p p' :=
  fun hp => ⟨(h.calls hp).1, h.same.dropped⟩

section Operations

variable (codec : Codec)

theorem undrops_enqueue (tp : TopicPartition) (records : List ProducerRecord) :
    Moves Undrops (enqueue (World.transport codec) tp records) := by
  intro p
  rcases enqueue_cases codec tp records p with
    ⟨-, heq⟩ | ⟨batch, p₁, hquiet, -, heq⟩ | ⟨e, p₁, hquiet, heq⟩
  · rw [heq]
    exact refl_of Undrops p
  · rw [heq]
    exact hquiet.undrops
  · rw [heq]
    exact hquiet.undrops

theorem undrops_enqueueStaged {tps : List TopicPartition} {p p' : Producer World}
    (h : enqueueStaged (World.transport codec) tps p = (.ok (), p')) : Undrops p p' := by
  induction tps generalizing p with
  | nil =>
      cases h
      exact refl_of Undrops _
  | cons tp rest ih =>
      rw [enqueueStaged, bind_of_ok (get_apply p)] at h
      rcases hstaged : p.staged[tp]? with _ | staged
      · rw [hstaged] at h
        exact ih h
      · rw [hstaged] at h
        obtain ⟨_, p₀, hset, hafter⟩ := bind_eq_ok h
        cases hset
        obtain ⟨_, p₁, htaken, hrest⟩ := bind_eq_ok hafter
        refine trans_of Undrops ?_ (ih hrest)
        have hqueue := undrops_enqueue codec tp staged.records { p with staged := p.staged.erase tp }
        rw [enqueueTaken, bind_of_ok (attempt_apply _ _)] at htaken
        rcases henqueue : enqueue (World.transport codec) tp staged.records
          { p with staged := p.staged.erase tp } with ⟨e | _, p₂⟩
        · rw [henqueue] at htaken
          cases htaken
        · rw [henqueue] at htaken hqueue
          cases htaken
          exact hqueue

theorem undrops_flush {p : Producer World} (h : p.StowsAll (World.transport codec)) :
    Undrops p (flush (World.transport codec) p).2 := by
  rw [StowsAll] at h
  rcases hdrain : drainStaged (World.transport codec) p with ⟨e | _, p₁⟩
  · rw [hdrain] at h
    cases h
  · rw [flush, bind_of_ok hdrain]
    have hfirst : Undrops p p₁ := by
      rw [drainStaged, bind_of_ok (get_apply p)] at hdrain
      exact undrops_enqueueStaged codec hdrain
    refine trans_of Undrops hfirst fun hp => ?_
    have hflushed := flushing_sends codec (p := p₁) hp
    exact ⟨hflushed.resting, hflushed.dropped⟩

theorem undrops_sendReady {p : Producer World} (h : p.StowsReady (World.transport codec)) :
    Undrops p (sendReady (World.transport codec) p).2 := by
  have hnow := (quiets codec).onCluster (ε := Error) (quiets codec).permits.now p
  refine moves_bind_at hnow.undrops fun now p₁ hp₁ => ?_
  rw [bind_of_ok (get_apply p₁)]
  split
  · exact refl_of Undrops p₁
  · next hready =>
      obtain ⟨p₂, hqueued, hall⟩ := h now p₁ hp₁ hready
      rw [bind_of_ok hqueued]
      refine trans_of Undrops (undrops_enqueueStaged codec hqueued) ?_
      exact moves_bind_at (undrops_flush codec hall) fun _ p₃ _ => refl_of Undrops p₃

theorem undrops_produceTo {tp : TopicPartition} {record : ProducerRecord} {p : Producer World}
    (h : (staging (World.transport codec) tp record p).2.StowsReady (World.transport codec)) :
    Undrops p (produceTo (World.transport codec) tp record p).2 := by
  refine moves_bind_at ((quiets codec).stageFor tp p).undrops fun staged p₁ hstage => ?_
  rw [staging, bind_of_ok hstage] at h
  rw [bind_of_ok (modify_apply _ _)]
  refine trans_of Undrops ?_ (undrops_sendReady codec h)
  exact fun hp => ⟨hp, rfl⟩

theorem undrops_enqueueGroups (topic : String) (groups : List (ℤ × List ProducerRecord)) :
    Moves Undrops (enqueueGroups (World.transport codec) topic groups) := by
  induction groups with
  | nil => exact Moves.pure _
  | cons group rest ih => exact Moves.bind (undrops_enqueue codec _ _) fun _ => ih

/-- A call whose staged batches can all be queued drops nothing. -/
theorem undrops_exec {call : Call} {p : Producer World}
    (h : call.Stows (World.transport codec) p) :
    Undrops p (call.exec (World.transport codec) p).2 := by
  have hflush : ∀ {α : Type} {p : Producer World} {f : List (TopicPartition × ℤ) → α},
      p.StowsAll (World.transport codec) → Undrops p
        ((flush (World.transport codec) >>= fun written => pure (f written) :
          Act (Producer World) Error α) p).2 := fun hall =>
    moves_bind_at (undrops_flush codec hall) fun _ p' _ => refl_of Undrops p'
  cases call with
  | beginTransaction => exact (quiet_onState _ p).undrops
  | commitTransaction => exact (quiet_endTransaction codec true p).undrops
  | abortTransaction => exact (quiet_endTransaction codec false p).undrops
  | sendOffsetsToTransaction offsets metadata =>
      exact ((quiets codec).sendOffsetsToTransaction offsets metadata (fun _ _ _ => trivial)
        (fun _ _ _ => trivial) p).undrops
  | produce topic record =>
      exact moves_bind_at ((quiets codec).partitionFor topic record.key p).undrops
        fun partition p₁ hp₁ => undrops_produceTo codec (h partition p₁ hp₁)
  | produceTo tp record => exact undrops_produceTo codec h
  | enqueue tp records => exact undrops_enqueue codec tp records p
  | send tp records =>
      refine moves_bind_at ?_ fun _ p' _ => refl_of Undrops p'
      unfold send
      split
      · exact refl_of Undrops p
      · next hne =>
          refine moves_bind_at (undrops_enqueue codec tp records p) fun _ p₁ hp₁ => ?_
          exact hflush (h (by simpa using hne) p₁ hp₁)
  | sendKeyed topic records =>
      refine moves_bind_at ?_ fun _ p' _ => refl_of Undrops p'
      unfold sendKeyed
      split
      · exact refl_of Undrops p
      · next hne =>
          refine moves_bind_at ((quiets codec).partitionCountWaiting topic p).undrops
            fun count p₁ hp₁ => ?_
          refine moves_bind_at ((quiets codec).groupByPartition topic count records ∅ p₁).undrops
            fun groups p₂ hp₂ => ?_
          refine moves_bind_at
            ((quiets codec).enrollAll (fun _ _ _ => trivial) topic groups.keys p₂).undrops
            fun _ p₃ hp₃ => ?_
          refine moves_bind_at (undrops_enqueueGroups codec topic groups.toList p₃)
            fun _ p₄ hp₄ => ?_
          exact hflush (h (by simpa using hne) count groups p₁ p₂ p₃ p₄ hp₁ hp₂ hp₃ hp₄)
  | tick => exact undrops_sendReady codec h
  | flush => exact hflush h
  | setMetadataMaxAge _ | setMaxInFlight _ | _ => exact fun hp => ⟨hp, rfl⟩

end Operations

end Producer

/-! ### The ledger of a run -/

open Producer

theorem nodup_withTickets (next : ℕ) (records : List ProducerRecord) :
    (withTickets next records).Nodup := by
  refine List.Nodup.of_map (·.ticket) ?_
  have hmap : (withTickets next records).map (·.ticket) = List.range' next records.length := by
    rw [withTickets, List.map_map]
    calc records.zipIdx.map _ = (records.zipIdx.map (·.2)).map (next + ·) := by
          rw [List.map_map]
          rfl
      _ = List.range' next records.length := by
          rw [List.zipIdx_map_snd, List.map_add_range', Nat.add_zero]
  rw [hmap]
  exact List.nodup_range'

/-- The records of a numbered call are told apart by their tickets. -/
theorem Call.nodup_numbered (next : ℕ) (call : Call) : (call.numbered next).records.Nodup := by
  cases call with
  | produce _ _ | produceTo _ _ => exact List.nodup_singleton _
  | enqueue _ records | send _ records | sendKeyed _ records => exact nodup_withTickets next records
  | _ => exact List.nodup_nil

namespace Ledger

/-- Every accepted record is accounted for, and none is held twice. -/
structure Kept (l : Ledger World) : Prop where
  resting : Cluster.Resting l.producer.cluster
  fresh : ∀ tp, ∀ r ∈ l.producer.held tp, r.ticket < l.next
  nodup : ∀ tp, (l.producer.held tp).Nodup
  apart : ∀ tp tp' r, r ∈ l.producer.held tp → r ∈ l.producer.held tp' → tp = tp'
  found : ∀ r ∈ l.accepted, Acked l.producer.cluster.wire.env r ∨ r ∈ l.producer.dropped ∨
    ∃ tp, r ∈ l.producer.held tp

/-- What is held afterwards was held before or is new. -/
theorem mem_of_bag {p p' : Producer World} {new : Placement}
    {gone : TopicPartition → Multiset ProducerRecord} (h : p.bag + placed new = p'.bag + gone)
    {tp : TopicPartition} {r : ProducerRecord} :
    r ∈ p'.held tp ∨ r ∈ gone tp ↔ r ∈ p.held tp ∨ (tp, r) ∈ new := by
  have hmem : r ∈ p'.bag tp + gone tp ↔ r ∈ p.bag tp + placed new tp := by
    rw [← Pi.add_apply, ← Pi.add_apply, h]
  rwa [Multiset.mem_add, Multiset.mem_add, mem_placed, bag, bag, Multiset.mem_coe,
    Multiset.mem_coe] at hmem

theorem nodup_of_bag {p p' : Producer World} {new : Placement}
    {gone : TopicPartition → Multiset ProducerRecord} (h : p.bag + placed new = p'.bag + gone)
    {tp : TopicPartition} (hold : (p.held tp).Nodup) (hnew : (new.map (·.2)).Nodup)
    (hfresh : ∀ r ∈ p.held tp, (tp, r) ∉ new) : (p'.held tp).Nodup := by
  have hsum : (p.bag tp + placed new tp).Nodup := by
    rw [Multiset.nodup_add, bag, Multiset.coe_nodup]
    refine ⟨hold, ?_, ?_⟩
    · rw [placed, Multiset.coe_nodup]
      exact hnew.sublist (List.filter_sublist.map _)
    · rw [Multiset.disjoint_left]
      intro r hr hplaced
      exact hfresh r (Multiset.mem_coe.mp hr) (mem_placed.mp hplaced)
  rw [← Pi.add_apply, h, Pi.add_apply] at hsum
  exact Multiset.coe_nodup.mp (Multiset.nodup_add.mp hsum).1

theorem step_eq (l : Ledger World) (T : Transport World) (call : Call) :
    (l.step T call).producer = ((call.numbered l.next).exec T l.producer).2 ∧
      (l.step T call).next = l.next + (call.numbered l.next).records.length ∧
      (l.step T call).accepted = l.accepted ++
        if ((call.numbered l.next).exec T l.producer).1.isOk
          then (call.numbered l.next).records else [] :=
  ⟨rfl, rfl, rfl⟩

/-- Where the records go that are held or acknowledged before a call, or accepted by it. -/
theorem Kept.follow {l : Ledger World} (h : l.Kept) (codec : Codec) (call : Call) :
    ∃ lost, (l.step (World.transport codec) call).producer.dropped = l.producer.dropped ++ lost ∧
      ∀ r, (Acked l.producer.cluster.wire.env r ∨ ∃ tp, r ∈ l.producer.held tp) ∨
          r ∈ (if ((call.numbered l.next).exec (World.transport codec) l.producer).1.isOk
            then (call.numbered l.next).records else []) →
        Acked (l.step (World.transport codec) call).producer.cluster.wire.env r ∨ r ∈ lost ∨
          ∃ tp, r ∈ (l.step (World.transport codec) call).producer.held tp := by
  obtain ⟨new, hsub, hcarries, hok⟩ := takes_exec codec (call.numbered l.next) l.producer
  obtain ⟨hresting, hsince, gone, lost, hlost, hbag, hgone⟩ := hcarries h.resting
  have hfound : ∀ {tp r}, r ∈ l.producer.held tp ∨ (tp, r) ∈ new →
      Acked (l.step (World.transport codec) call).producer.cluster.wire.env r ∨ r ∈ lost ∨
        ∃ tp, r ∈ (l.step (World.transport codec) call).producer.held tp := by
    intro tp r hr
    rcases (mem_of_bag hbag).mpr hr with hr | hr
    · exact .inr (.inr ⟨tp, hr⟩)
    · rcases hgone tp r hr with hr | hr
      · exact .inl hr
      · exact .inr (.inl hr)
  refine ⟨lost, hlost, fun r hr => ?_⟩
  rcases hr with (hr | ⟨tp, hr⟩) | hr
  · exact .inl (Acked.since hr hsince)
  · exact hfound (.inl hr)
  · split at hr
    · next hisOk =>
        obtain ⟨⟨tp, r'⟩, hin, rfl⟩ := List.mem_map.mp ((hok hisOk).mem_iff.mpr hr)
        exact hfound (.inr hin)
    · cases hr

theorem Kept.step {l : Ledger World} (h : l.Kept) (codec : Codec) (call : Call) :
    (l.step (World.transport codec) call).Kept := by
  obtain ⟨lost, hlost, hfollow⟩ := h.follow codec call
  obtain ⟨new, hsub, hcarries, -⟩ := takes_exec codec (call.numbered l.next) l.producer
  obtain ⟨hproducer, hnext, haccepted⟩ := step_eq l (World.transport codec) call
  rw [← hproducer] at hcarries
  obtain ⟨hresting, -, gone, _, -, hbag, -⟩ := hcarries h.resting
  have hticket : ∀ {tp r}, (tp, r) ∈ new → l.next ≤ r.ticket ∧
      r.ticket < l.next + (call.numbered l.next).records.length := fun hr =>
    Call.mem_numbered (hsub.subset (List.mem_map_of_mem hr))
  have hnew : (new.map (·.2)).Nodup := by
    obtain ⟨records, hperm, hsublist⟩ := hsub
    exact hperm.nodup_iff.mp (hsublist.nodup (Call.nodup_numbered l.next call))
  have hmem : ∀ {tp r}, r ∈ (l.step (World.transport codec) call).producer.held tp →
      r ∈ l.producer.held tp ∨ (tp, r) ∈ new := fun hr => (mem_of_bag hbag).mp (.inl hr)
  refine ⟨hresting, ?_, ?_, ?_, ?_⟩
  · intro tp r hr
    rw [hnext]
    rcases hmem hr with hr | hr
    · exact Nat.lt_add_right _ (h.fresh tp r hr)
    · exact (hticket hr).2
  · refine fun tp => nodup_of_bag hbag (h.nodup tp) hnew fun r hr hin => ?_
    exact absurd (h.fresh tp r hr) (not_lt.mpr (hticket hin).1)
  · intro tp tp' r hr hr'
    rcases hmem hr with hr | hr
    · rcases hmem hr' with hr' | hr'
      · exact h.apart tp tp' r hr hr'
      · exact absurd (h.fresh tp r hr) (not_lt.mpr (hticket hr').1)
    · rcases hmem hr' with hr' | hr'
      · exact absurd (h.fresh tp' r hr') (not_lt.mpr (hticket hr).1)
      · exact congrArg Prod.fst (List.inj_on_of_nodup_map hnew hr hr' rfl)
  · intro r hr
    have hlast := hfollow r
    rw [hlost]
    rw [haccepted] at hr
    rcases List.mem_append.mp hr with hr | hr
    · rcases h.found r hr with hacked | hdrop | hheld
      · exact (hlast (.inl (.inl hacked))).imp_right (Or.imp_left (List.mem_append_right _))
      · exact .inr (.inl (List.mem_append_left _ hdrop))
      · exact (hlast (.inl (.inr hheld))).imp_right (Or.imp_left (List.mem_append_right _))
    · exact (hlast (.inr hr)).imp_right (Or.imp_left (List.mem_append_right _))

theorem Kept.heldOnce {l : Ledger World} (h : l.Kept) {tp : TopicPartition} {r : ProducerRecord}
    (hr : r ∈ l.producer.held tp) : l.producer.HeldOnce r := by
  refine ⟨tp, List.count_eq_one_of_mem (h.nodup tp) hr, fun tp' hne hr' => ?_⟩
  exact hne (h.apart tp' tp r hr' hr)

theorem quiet_construct (codec : Codec) :
    Moves (Quiet fun _ => True) (construct (World.transport codec)) := by
  refine Moves.bind ((quiets codec).onCluster (quiets codec).permits.connect) fun _ => ?_
  refine Moves.bind Moves.get fun p => ?_
  refine Moves.bind ((quiets codec).coordinatorCall (fun _ _ => trivial) _ _ _) fun _ => ?_
  exact Moves.modify fun _ => ⟨refl_of _ _, ⟨rfl, rfl, rfl, rfl, rfl⟩⟩

theorem resting_new (script : ℕ → Choice) (bootstrap : List String) (clientId : String) :
    Cluster.Resting (.new (World.start script) bootstrap clientId) := by
  have hlooks : ∀ addr,
      Cluster.looks (.new (World.start script) bootstrap clientId) addr = none := by
    intro addr
    simp [Cluster.looks, Cluster.new]
  refine ⟨⟨fun _ _ => rfl, ?_, ?_, ?_⟩, fun addr => Cluster.outs_of_none (hlooks addr)⟩
  · intro addr b hb
    rw [hlooks] at hb
    cases hb
  · intro addr b hb
    rw [hlooks] at hb
    cases hb
  · intro addr addr' b b' hb
    rw [hlooks] at hb
    cases hb

/-- A producer that was just made holds nothing, and nothing is outstanding. -/
theorem Kept.start {codec : Codec} {p : Producer World} (hp : Booted codec p) :
    (start p).Kept ∧ p.dropped = [] := by
  have hnew : ∀ {script bootstrap clientId state transactionalId},
      construct (World.transport codec) (.new (.new (World.start script) bootstrap clientId) state
        transactionalId) = (.ok (), p) →
      Cluster.Resting p.cluster ∧ (∀ tp, p.held tp = []) ∧ p.dropped = [] := by
    intro script bootstrap clientId state transactionalId hmade
    have hquiet := quiet_construct codec
      (.new (.new (World.start script) bootstrap clientId) state transactionalId)
    rw [hmade] at hquiet
    have hstaged : p.staged = ∅ := hquiet.same.staged
    have hpending : p.pending = ∅ := hquiet.same.pending
    refine ⟨(hquiet.calls (resting_new script bootstrap clientId)).1, fun tp => ?_, hquiet.same.dropped⟩
    simp [held, queue, hstaged, hpending]
  have hempty : Cluster.Resting p.cluster ∧ (∀ tp, p.held tp = []) ∧ p.dropped = [] := by
    obtain ⟨script, bootstrap, clientId, hmade | ⟨transactionalId, hmade⟩⟩ := hp
    · exact hnew hmade
    · exact hnew hmade
  obtain ⟨hresting, hheld, hdropped⟩ := hempty
  refine ⟨⟨hresting, ?_, ?_, ?_, ?_⟩, hdropped⟩
  · simp [Ledger.start, hheld]
  · simp [Ledger.start, hheld]
  · simp [Ledger.start, hheld]
  · simp [Ledger.start]

end Ledger

/-- In every run in which the batches that are taken out of the stage can all be
queued, every accepted record that has not been acknowledged is held for one
partition, and there once, whatever the last call returned. -/
theorem accumulated_kept (codec : Codec) {p : Producer World} (hp : Booted codec p)
    (calls : List Call)
    (hstows : ∀ pre call, pre ++ [call] <+: calls →
      (call.numbered (Ledger.after (World.transport codec) p pre).next).Stows
        (World.transport codec) (Ledger.after (World.transport codec) p pre).producer) :
    ∀ r ∈ (Ledger.after (World.transport codec) p calls).accepted,
      Acked (Ledger.after (World.transport codec) p calls).producer.cluster.wire.env r ∨
        (Ledger.after (World.transport codec) p calls).producer.HeldOnce r := by
  obtain ⟨hkept, hnone⟩ := Ledger.Kept.start hp
  have hrun : (Ledger.after (World.transport codec) p calls).Kept ∧
      (Ledger.after (World.transport codec) p calls).producer.dropped = [] := by
    refine run_induction_of_prefix (I := fun _ l => Ledger.Kept l ∧ l.producer.dropped = [])
      ⟨hkept, hnone⟩ calls fun pre call hpre h => ⟨h.1.step codec call, ?_⟩
    have hundrops := undrops_exec codec (hstows pre call hpre) h.1.resting
    exact hundrops.2.trans h.2
  intro r hr
  rcases hrun.1.found r hr with hacked | hdropped | ⟨tp, hheld⟩
  · exact .inl hacked
  · rw [hrun.2] at hdropped
    cases hdropped
  · exact .inr (hrun.1.heldOnce hheld)

/-! ### A flush that fails and keeps the record, and one that loses it -/

/-- A broker that opens the connection and hands out a producer id, and then is gone. -/
def idempotentScript : List Choice :=
  [.done, .done, .done, .serving 0 (.apiVersions ⟨0, []⟩),
    .done, .done, .serving 0 (.initProducerId ⟨0, 7, 0⟩), .done, .done, .done]

/-- A broker that is the coordinator, and what follows. -/
def coordinatorScript (rest : List Choice) : List Choice :=
  [.done, .done, .done, .serving 0 (.apiVersions ⟨0, []⟩),
    .done, .done, .serving 0 (.findCoordinator ⟨0, "b", 1⟩),
    .done, .serving 0 (.initProducerId ⟨0, 7, 0⟩)] ++ rest

def idempotentProducer : Producer World :=
  (Producer.idempotent (World.transport Tape.codec) (.start (scripted idempotentScript)) ["b:1"]
    "c").2

def coordinatedProducer (rest : List Choice) : Producer World :=
  (Producer.transactional (World.transport Tape.codec)
    (.start (scripted (coordinatorScript rest))) ["b:1"] "c" "x").2

theorem booted_idempotent : Booted Tape.codec idempotentProducer := by
  have hstart : (Producer.idempotent (World.transport Tape.codec)
      (.start (scripted idempotentScript)) ["b:1"] "c").1 = .ok () := by
    decide
  exact ⟨_, _, _, .inl (Prod.fst_eq_iff.mp hstart)⟩

theorem booted_coordinated {rest : List Choice} (h : (Producer.transactional
    (World.transport Tape.codec) (.start (scripted (coordinatorScript rest))) ["b:1"] "c" "x").1 =
      .ok ()) : Booted Tape.codec (coordinatedProducer rest) :=
  ⟨_, _, _, .inr ⟨_, Prod.fst_eq_iff.mp h⟩⟩

def lingerCalls : List Call := [.setLinger 1000, .produceTo ⟨"t", 0⟩ sampleRecord]

/-- The stage is emptied into the queue and the brokers cannot be reached: the record
is in the queue. -/
theorem accumulated_kept_offline :
    let l := Ledger.after (World.transport Tape.codec) idempotentProducer lingerCalls
    (Call.flush.exec (World.transport Tape.codec) l.producer).1 =
        .error (.connect "b:1" ⟨.other, "down"⟩) ∧
      (Acked (l.step (World.transport Tape.codec) .flush).producer.cluster.wire.env sampleRecord ∨
        (l.step (World.transport Tape.codec) .flush).producer.HeldOnce sampleRecord) := by
  refine ⟨by decide +kernel, ?_⟩
  refine accumulated_kept Tape.codec booted_idempotent (lingerCalls ++ [.flush])
    (forall_position ?_) sampleRecord (by decide)
  rintro (_ | _ | _ | i) hi
  · trivial
  · intro now p₁ hnow hready
    cases hnow
    exact absurd (by decide) hready
  · change (Producer.drainStaged _ _).1 = _
    decide
  · exact absurd hi (by simp [lingerCalls])

theorem held_of_isEmpty {p : Producer World} (hstaged : p.staged.isEmpty)
    (hpending : p.pending.isEmpty) (tp : TopicPartition) : p.held tp = [] := by
  simp [held, queue, Std.TreeMap.getElem?_of_isEmpty hstaged, Std.TreeMap.getD_of_isEmpty hpending]

/-- Nothing is acknowledged where no answer to a `Produce` was read. -/
theorem not_acked {w : World}
    (hfirst : (w.streams 0).read.all fun a => a.frame.request.apiKey ≠ .produce)
    (hothers : ∀ s, (w.streams (s + 1)).read = []) (r : ProducerRecord) : ¬Acked w r := by
  rintro ⟨tp, batch, ⟨s, a, ha, req, hreq, -⟩, -⟩
  cases s with
  | zero =>
      have hkey := List.all_eq_true.mp hfirst a ha
      rw [hreq] at hkey
      simp [Request.apiKey] at hkey
  | succ s =>
      rw [hothers] at ha
      cases ha

/-- No transaction is open, so the staged batch cannot be numbered: the flush fails and
the record, accepted and never acknowledged, is held nowhere. -/
theorem staged_record_lost :
    let p := coordinatedProducer [.done, .done, .done]
    let l := Ledger.after (World.transport Tape.codec) p lingerCalls
    let l' := l.step (World.transport Tape.codec) .flush
    Booted Tape.codec p ∧ sampleRecord ∈ l.accepted ∧
      (Call.flush.exec (World.transport Tape.codec) l.producer).1 =
        .error (.producer .noTransaction) ∧
      ¬Acked l'.producer.cluster.wire.env sampleRecord ∧
      ∀ tp, sampleRecord ∉ l'.producer.held tp := by
  refine ⟨booted_coordinated (by decide), by decide, by decide, ?_, fun tp => ?_⟩
  · exact not_acked (by decide) (fun _ => rfl) sampleRecord
  · rw [held_of_isEmpty (by decide) (by decide)]
    exact List.not_mem_nil

end Barnabas.Client
