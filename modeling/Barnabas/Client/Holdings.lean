import Barnabas.Client.Settling
import Mathlib.Algebra.Group.Pi.Basic
import Mathlib.Algebra.Order.Group.Multiset

/-!
What becomes of the records a producer has taken.

A record is staged or in a pending batch until the broker has acknowledged it. What
a producer holds for each partition is a bag; an operation is described by the bag
it adds and the bag that is gone afterwards, and everything that is gone was
acknowledged, or belonged to a staged batch that could not be queued.
-/

namespace Barnabas.Client

open Barnabas.Lib Barnabas.Core Barnabas.Lib.Act World

/-- Some broker took the record and the client has read that it did. -/
def Acked (w : World) (r : ProducerRecord) : Prop :=
  ∃ tp batch, Producer.Confirmed w tp batch ∧ r ∈ batch.records

namespace Producer

/-- The records a producer holds for a partition: the staged ones, and those of the
batches that wait to be acknowledged. -/
def held {ω : Type} (p : Producer ω) (tp : TopicPartition) : List ProducerRecord :=
  ((p.staged[tp]?).map (·.records)).getD [] ++ (p.queue tp).flatMap (·.records)

/-- The record is held, for one partition and there once. -/
def HeldOnce {ω : Type} (p : Producer ω) (r : ProducerRecord) : Prop :=
  ∃ tp, (p.held tp).count r = 1 ∧ ∀ tp' ≠ tp, r ∉ p.held tp'

/-! ### Bags -/

/-- The records held, partition by partition, in no order. -/
def bag {ω : Type} (p : Producer ω) (tp : TopicPartition) : Multiset ProducerRecord := p.held tp

/-- Records with the partitions they are placed in. -/
abbrev Placement := List (TopicPartition × ProducerRecord)

def placed (new : Placement) (tp : TopicPartition) : Multiset ProducerRecord :=
  (new.filter fun e => e.1 = tp).map (·.2)

theorem placed_nil : placed [] = 0 := rfl

theorem placed_append (new more : Placement) : placed (new ++ more) = placed new + placed more := by
  funext tp
  simp [placed]

theorem placed_here (tp : TopicPartition) (records : List ProducerRecord) :
    placed (records.map (tp, ·)) tp = records := by
  simp [placed, List.filter_map, Function.comp_def]

theorem placed_elsewhere {tp tp' : TopicPartition} (h : tp' ≠ tp) (records : List ProducerRecord) :
    placed (records.map (tp, ·)) tp' = 0 := by
  simp [placed, List.filter_map, Function.comp_def, Ne.symm h]

theorem mem_placed {new : Placement} {tp : TopicPartition} {r : ProducerRecord} :
    r ∈ placed new tp ↔ (tp, r) ∈ new := by
  simp [placed]

/-- A producer whose partition holds `records` more. -/
theorem bag_add {ω : Type} {p p' : Producer ω} {tp : TopicPartition} {records : List ProducerRecord}
    (hhere : (p'.held tp).Perm (p.held tp ++ records))
    (helse : ∀ tp' ≠ tp, p'.held tp' = p.held tp') :
    p'.bag = p.bag + placed (records.map (tp, ·)) := by
  funext tp'
  by_cases htp : tp' = tp
  · subst htp
    rw [Pi.add_apply, placed_here, bag, bag, Multiset.coe_add, Multiset.coe_eq_coe]
    exact hhere
  · rw [Pi.add_apply, placed_elsewhere htp, add_zero, bag, bag, helse tp' htp]

/-! ### What an operation carries -/

/-- From a producer with nothing outstanding: the records of `new` are added, and what
is gone afterwards was acknowledged or dropped. -/
structure Carried (new : Placement) (p p' : Producer World) : Prop where
  resting : Cluster.Resting p'.cluster
  since : Since (fun _ => True) p.cluster.wire.env p'.cluster.wire.env
  bag : ∃ gone lost, p'.dropped = p.dropped ++ lost ∧ p.bag + placed new = p'.bag + gone ∧
    ∀ tp, ∀ r ∈ gone tp, Acked p'.cluster.wire.env r ∨ r ∈ lost

def Carries (new : Placement) (p p' : Producer World) : Prop :=
  Cluster.Resting p.cluster → Carried new p p'

theorem Acked.since {I : World → Prop} {w w' : World} {r : ProducerRecord} (h : Acked w r)
    (hw : Since I w w') : Acked w' r := by
  obtain ⟨tp, batch, hconfirmed, hr⟩ := h
  exact ⟨tp, batch, hconfirmed.since hw, hr⟩

theorem Carried.trans {new more : Placement} {p p' p'' : Producer World} (h : Carried new p p')
    (h' : Carried more p' p'') : Carried (new ++ more) p p'' := by
  obtain ⟨gone, lost, hlost, heq, hgone⟩ := h.bag
  obtain ⟨gone', lost', hlost', heq', hgone'⟩ := h'.bag
  refine ⟨h'.resting, h.since.trans h'.since, gone + gone', lost ++ lost', ?_, ?_, ?_⟩
  · rw [hlost', hlost, List.append_assoc]
  · calc p.bag + placed (new ++ more) = p.bag + placed new + placed more := by
          rw [placed_append, add_assoc]
      _ = p'.bag + placed more + gone := by rw [heq, add_right_comm]
      _ = p''.bag + gone' + gone := by rw [heq']
      _ = p''.bag + (gone + gone') := by rw [add_assoc, add_comm gone']
  · intro tp r hr
    rw [Pi.add_apply, Multiset.mem_add] at hr
    rcases hr with hr | hr
    · rcases hgone tp r hr with hacked | hr
      · exact .inl (Acked.since hacked h'.since)
      · exact .inr (List.mem_append_left _ hr)
    · rcases hgone' tp r hr with hacked | hr
      · exact .inl hacked
      · exact .inr (List.mem_append_right _ hr)

theorem Carries.trans {new more : Placement} {p p' p'' : Producer World} (h : Carries new p p')
    (h' : Carries more p' p'') : Carries (new ++ more) p p'' :=
  fun hp => (h hp).trans (h' (h hp).resting)

instance : IsPreorder (Producer World) (Carries []) where
  refl p hp := ⟨hp, .refl _, 0, [], (List.append_nil _).symm, rfl, by simp⟩
  trans _ _ _ h h' := Carries.trans h h'

/-- Changes that leave the stage and the queues as they are. -/
theorem Quiet.carries {p p' : Producer World} (h : Quiet (fun _ => True) p p') :
    Carries [] p p' := by
  intro hp
  refine ⟨(h.calls hp).1, (h.calls hp).2, 0, [], ?_, ?_, by simp⟩
  · rw [h.same.dropped, List.append_nil]
  · have hheld : p'.bag = p.bag := by
      funext tp
      rw [bag, bag, held, held, queue, queue, h.same.staged, h.same.pending]
    rw [hheld]
    rfl

theorem Flushing.carries {p p' : Producer World} (h : Flushing (fun _ => True) p p') :
    Carries [] p p' := by
  intro hp
  obtain ⟨hresting, hsince, hstaged, hdropped, hqueue⟩ := h hp
  choose k hqueue hconfirmed using hqueue
  refine ⟨hresting, hsince, fun tp => ((p.queue tp).take (k tp)).flatMap (·.records), [], ?_, ?_, ?_⟩
  · rw [hdropped, List.append_nil]
  · funext tp
    rw [placed_nil, add_zero, Pi.add_apply, bag, bag, held, held, hstaged, hqueue,
      Multiset.coe_add, Multiset.coe_eq_coe]
    conv_lhs => rw [← List.take_append_drop (k tp) (p.queue tp), List.flatMap_append]
    rw [List.append_assoc]
    exact List.perm_append_comm.append_left _
  · intro tp r hr
    rw [Multiset.mem_coe, List.mem_flatMap] at hr
    obtain ⟨batch, hbatch, hr⟩ := hr
    exact .inl ⟨tp, batch, hconfirmed tp batch hbatch, hr⟩

/-! ### Queueing -/

section Operations

variable (codec : Codec)

theorem quiets : Numbers (World.transport codec) (Cluster.Calls fun _ => True)
    (Quiet fun _ => True) fun _ => True where
  toTolerates := tolerates_quiet codec lasting_true fun _ _ => trivial
  sequences _ _ := ⟨refl_of _ _, ⟨rfl, rfl, rfl, rfl, rfl⟩⟩

/-- Queueing a batch: it is the last of its queue, or nothing was queued. -/
theorem enqueue_cases (tp : TopicPartition) (records : List ProducerRecord) (p : Producer World) :
    (records = [] ∧ enqueue (World.transport codec) tp records p = (.ok (), p)) ∨
      (∃ (batch : Batch) (p₁ : Producer World), Quiet (fun _ => True) p p₁ ∧
        batch.records = records ∧ enqueue (World.transport codec) tp records p =
          (.ok (), { p₁ with
            pending := p₁.pending.insert tp (p₁.queue tp ++ [batch])
            numbered := p₁.numbered ++ [(tp, batch)] })) ∨
      ∃ e p₁, Quiet (fun _ => True) p p₁ ∧
        enqueue (World.transport codec) tp records p = (.error e, p₁) := by
  unfold enqueue
  cases hempty : records.isEmpty with
  | true => exact .inl ⟨List.isEmpty_iff.mp hempty, rfl⟩
  | false =>
      right
      rw [if_neg (by simp)]
      have henroll := (quiets codec).enrollAll (fun _ _ _ => trivial) tp.topic [tp.partition] p
      rcases he : enrollAll (World.transport codec) tp.topic [tp.partition] p with ⟨e | _, p₁⟩
      · rw [he] at henroll
        exact .inr ⟨e, p₁, henroll, bind_of_error he⟩
      · rw [he] at henroll
        rw [bind_of_ok he]
        have hencode := (quiets codec).encodeFor tp records p₁
        rcases hf : encodeFor (World.transport codec) tp records p₁ with ⟨e | batch, p₂⟩
        · rw [hf] at hencode
          exact .inr ⟨e, p₂, trans_of (Quiet _) henroll hencode, bind_of_error hf⟩
        · rw [hf] at hencode
          refine .inl ⟨batch, p₂, trans_of (Quiet _) henroll hencode, encodeFor_records _ hf, ?_⟩
          rw [bind_of_ok hf]
          rfl

theorem bag_enqueued {ω : Type} (p : Producer ω) (tp : TopicPartition) (batch : Batch) :
    ({ p with
      pending := p.pending.insert tp (p.queue tp ++ [batch])
      numbered := p.numbered ++ [(tp, batch)] } : Producer ω).bag =
      p.bag + placed (batch.records.map (tp, ·)) := by
  refine bag_add ?_ fun tp' htp => ?_
  · simp [held, queue]
  · have hne : ¬tp = tp' := fun h => htp h.symm
    simp [held, queue, Std.TreeMap.getD_insert, hne]

theorem carries_of_bag {p p' : Producer World} {new : Placement} (hcluster : p'.cluster = p.cluster)
    (hdropped : p'.dropped = p.dropped) (hbag : p'.bag = p.bag + placed new) :
    Carries new p p' := by
  intro hp
  refine ⟨hcluster ▸ hp, hcluster ▸ .refl _, 0, [], ?_, ?_, by simp⟩
  · rw [hdropped, List.append_nil]
  · rw [hbag, add_zero]

/-- An `enqueue` that succeeds holds the records it was given; one that fails holds
none of them. -/
theorem carries_enqueue (tp : TopicPartition) (records : List ProducerRecord)
    (p : Producer World) :
    (∃ p', enqueue (World.transport codec) tp records p = (.ok (), p') ∧
        Carries (records.map (tp, ·)) p p') ∨
      ∃ e p', enqueue (World.transport codec) tp records p = (.error e, p') ∧
        Quiet (fun _ => True) p p' := by
  rcases enqueue_cases codec tp records p with
    ⟨rfl, heq⟩ | ⟨batch, p₁, hquiet, rfl, heq⟩ | ⟨e, p₁, hquiet, heq⟩
  · exact .inl ⟨p, heq, refl_of (Carries []) p⟩
  · exact .inl ⟨_, heq, hquiet.carries.trans (carries_of_bag rfl rfl (bag_enqueued p₁ tp batch))⟩
  · exact .inr ⟨e, p₁, heq, hquiet⟩

theorem bag_unstaged {ω : Type} {p : Producer ω} {tp : TopicPartition} {staged : Staged}
    (h : p.staged[tp]? = some staged) :
    p.bag = ({ p with staged := p.staged.erase tp } : Producer ω).bag +
      placed (staged.records.map (tp, ·)) := by
  refine bag_add ?_ fun tp' htp => ?_
  · simp only [held, h, queue]
    simpa using List.perm_append_comm
  · have hne : ¬tp = tp' := fun h => htp h.symm
    simp [held, queue, Std.TreeMap.getElem?_erase, hne]

/-- Queueing what one partition has staged: the records go from the stage to the
queue, or they are dropped. -/
theorem carries_take {p : Producer World} {tp : TopicPartition} {staged : Staged}
    (h : p.staged[tp]? = some staged) :
    Carries [] p (enqueueTaken (World.transport codec) tp staged.records
      { p with staged := p.staged.erase tp }).2 := by
  let p₀ : Producer World := { p with staged := p.staged.erase tp }
  have hbag := bag_unstaged h
  intro hp
  rcases carries_enqueue codec tp staged.records p₀ with
    ⟨p', heq, hcarries⟩ | ⟨e, p', heq, hquiet⟩
  · have htaken : enqueueTaken (World.transport codec) tp staged.records p₀ = (.ok (), p') := by
      rw [enqueueTaken, bind_of_ok (attempt_apply _ _), heq]
      rfl
    rw [htaken]
    obtain ⟨hresting, hsince, gone, lost, hlost, hgone, hwhere⟩ := hcarries hp
    exact ⟨hresting, hsince, gone, lost, hlost, by rw [placed_nil, add_zero, hbag, hgone], hwhere⟩
  · have htaken : enqueueTaken (World.transport codec) tp staged.records p₀ =
        (.error e, { p' with dropped := p'.dropped ++ staged.records }) := by
      rw [enqueueTaken, bind_of_ok (attempt_apply _ _), heq]
      rfl
    rw [htaken]
    have hsame : p'.bag = p₀.bag := by
      funext tp
      rw [bag, bag, held, held, queue, queue, hquiet.same.staged, hquiet.same.pending]
    refine ⟨(hquiet.calls hp).1, (hquiet.calls hp).2, placed (staged.records.map (tp, ·)),
      staged.records, ?_, ?_, ?_⟩
    · exact congrArg (· ++ staged.records) hquiet.same.dropped
    · change _ = p'.bag + _
      rw [hbag, hsame, placed_nil, add_zero]
    · intro tp' r hr
      obtain ⟨r', hr', heq⟩ := List.mem_map.mp (mem_placed.mp hr)
      cases heq
      exact .inr hr'

theorem carries_enqueueStaged (tps : List TopicPartition) :
    Moves (Carries []) (enqueueStaged (World.transport codec) tps) := by
  induction tps with
  | nil => exact Moves.pure _
  | cons tp rest ih =>
      rw [enqueueStaged]
      refine Moves.bind_get fun p => ?_
      rcases hstaged : p.staged[tp]? with _ | staged
      · exact ih p
      · have htake := carries_take codec hstaged
        change Carries [] p ((enqueueTaken (World.transport codec) tp staged.records >>= fun _ =>
          enqueueStaged (World.transport codec) rest) { p with staged := p.staged.erase tp }).2
        rcases htaken : enqueueTaken (World.transport codec) tp staged.records
          { p with staged := p.staged.erase tp } with ⟨e | _, p'⟩
        · rw [htaken] at htake
          rw [bind_of_error htaken]
          exact htake
        · rw [htaken] at htake
          rw [bind_of_ok htaken]
          exact htake.trans (ih p')

theorem carries_drainStaged : Moves (Carries []) (drainStaged (World.transport codec)) :=
  Moves.bind_get fun p => carries_enqueueStaged codec p.staged.keys p

theorem flushing_sends {p : Producer World} :
    Flushing (fun _ => True) p (attempts (flushOnce (World.transport codec))
      (fun _ => do throw (← get).stillPending) maxRetries 0 [] p).2 :=
  flushing_attempts codec lasting_true (fun _ _ => trivial) (fun _ _ _ _ _ _ => trivial) _ _ _

theorem carries_flush : Moves (Carries []) (flush (World.transport codec)) :=
  Moves.bind (carries_drainStaged codec) fun _ _ => (flushing_sends codec).carries

theorem carries_sendReady : Moves (Carries []) (sendReady (World.transport codec)) := by
  refine Moves.bind (fun p => ((quiets codec).onCluster (quiets codec).permits.now p).carries)
    fun now => ?_
  refine Moves.bind Moves.get fun p => Moves.ite (Moves.pure _) ?_
  refine Moves.bind (carries_enqueueStaged codec _) fun _ => ?_
  exact Moves.bind (carries_flush codec) fun _ => Moves.pure _

/-! ### Producing -/

/-- A record is staged for its partition. -/
theorem carries_stage {p : Producer World} {tp : TopicPartition} (record : ProducerRecord)
    {staged : Staged} (h : p.staged[tp]? = some staged ∨ p.staged[tp]? = none ∧ staged.records = [])
    (bytes since : ℕ) : Carries [(tp, record)] p
      { p with staged := p.staged.insert tp ⟨staged.records ++ [record], bytes, since⟩ } := by
  change Carries ([record].map (tp, ·)) p _
  refine carries_of_bag rfl rfl (bag_add ?_ fun tp' htp => ?_)
  · have hrecords : ((p.staged[tp]?).map (·.records)).getD [] = staged.records := by
      rcases h with h | ⟨h, hnil⟩
      · rw [h]
        rfl
      · rw [h, hnil]
        rfl
    simp only [held, hrecords, Std.TreeMap.getElem?_insert_self, Option.map_some, Option.getD_some,
      List.append_assoc]
    exact List.perm_append_comm.append_left _
  · have hne : ¬tp = tp' := fun h => htp h.symm
    simp [held, queue, Std.TreeMap.getElem?_insert, hne]

theorem carries_produceTo (tp : TopicPartition) (record : ProducerRecord) (p : Producer World) :
    Carries [(tp, record)] p (produceTo (World.transport codec) tp record p).2 := by
  obtain ⟨staged, c, -, hstage, hold⟩ := stageFor_cases (World.transport codec) tp p
  have hquiet := (quiets codec).stageFor tp p
  rw [hstage] at hquiet
  rw [produceTo, bind_of_ok hstage]
  rw [bind_of_ok (modify_apply _ _)]
  have hstaged := carries_stage (p := { p with cluster := c }) record hold
    (staged.bytes + recordBytes record) staged.since
  exact (hquiet.carries.trans hstaged).trans (carries_sendReady codec _)

/-- The outcome of a call that was handed `records`: it has taken some of them, each
for one partition, and all of them if it succeeded. -/
def Takes {α : Type} (records : List ProducerRecord) (p : Producer World)
    (outcome : Except Error α × Producer World) : Prop :=
  ∃ new : Placement, (new.map (·.2)).Subperm records ∧ Carries new p outcome.2 ∧
    (outcome.1.isOk → (new.map (·.2)).Perm records)

section Takes

variable {α β : Type} {records more : List ProducerRecord} {p : Producer World}

theorem takes_all {outcome : Except Error α × Producer World} (new : Placement)
    (hnew : (new.map (·.2)).Perm records) (h : Carries new p outcome.2) :
    Takes records p outcome :=
  ⟨new, hnew.subperm, h, fun _ => hnew⟩

theorem takes_none {e : Error} {p' : Producer World} (h : Carries [] p p') :
    Takes records p ((.error e, p') : Except Error α × Producer World) :=
  ⟨[], List.nil_subperm, h, fun h => by cases h⟩

/-- A step that carries what there is, before the records are taken. -/
theorem takes_bind {m : Act (Producer World) Error α} {f : α → Act (Producer World) Error β}
    (hm : Carries [] p (m p).2)
    (hf : ∀ a p', m p = (.ok a, p') → Takes records p' (f a p')) :
    Takes records p ((m >>= f) p) := by
  rcases hmp : m p with ⟨e | a, p'⟩
  · rw [hmp] at hm
    rw [bind_of_error hmp]
    exact takes_none hm
  · rw [hmp] at hm
    rw [bind_of_ok hmp]
    obtain ⟨new, hsub, hcarries, hok⟩ := hf a p' hmp
    exact ⟨new, hsub, hm.trans hcarries, hok⟩

/-- What follows the step that took the records. -/
theorem takes_seq {m : Act (Producer World) Error α} {f : α → Act (Producer World) Error β}
    (hm : Takes records p (m p)) (hf : ∀ a p', Takes more p' (f a p')) :
    Takes (records ++ more) p ((m >>= f) p) := by
  obtain ⟨new, hsub, hcarries, hok⟩ := hm
  rcases hmp : m p with ⟨e | a, p'⟩
  · rw [hmp] at hcarries
    rw [bind_of_error hmp]
    exact ⟨new, hsub.trans (List.sublist_append_left ..).subperm, hcarries, fun h => by cases h⟩
  · rw [hmp] at hcarries hok
    rw [bind_of_ok hmp]
    obtain ⟨new', hsub', hcarries', hok'⟩ := hf a p'
    refine ⟨new ++ new', ?_, hcarries.trans hcarries', fun h => ?_⟩
    · rw [List.map_append]
      have hnew := (hok rfl).append_right (new'.map (·.2))
      exact hnew.subperm.trans ((List.subperm_append_left _).mpr hsub')
    · rw [List.map_append]
      exact (hok rfl).append (hok' h)

theorem takes_then {m : Act (Producer World) Error α} {f : α → Act (Producer World) Error β}
    (hm : Takes records p (m p)) (hf : ∀ a, Moves (Carries []) (f a)) :
    Takes records p ((m >>= f) p) := by
  have hrest : ∀ a p', Takes [] p' (f a p') := fun a p' => takes_all [] (.refl _) (hf a p')
  have hall := takes_seq hm hrest
  rwa [List.append_nil] at hall

end Takes

theorem takes_enqueue (tp : TopicPartition) (records : List ProducerRecord) (p : Producer World) :
    Takes records p (enqueue (World.transport codec) tp records p) := by
  rcases carries_enqueue codec tp records p with ⟨p', heq, hcarries⟩ | ⟨e, p', heq, hquiet⟩
  · rw [heq]
    refine takes_all _ ?_ hcarries
    rw [List.map_map]
    simp
  · rw [heq]
    exact takes_none hquiet.carries

theorem takes_produceTo (tp : TopicPartition) (record : ProducerRecord) (p : Producer World) :
    Takes [record] p (produceTo (World.transport codec) tp record p) :=
  takes_all _ (.refl _) (carries_produceTo codec tp record p)

theorem takes_produce (topic : String) (record : ProducerRecord) (p : Producer World) :
    Takes [record] p (produce (World.transport codec) topic record p) :=
  takes_bind ((quiets codec).partitionFor topic record.key p).carries
    fun _ p' _ => takes_produceTo codec _ record p'

theorem takes_send (tp : TopicPartition) (records : List ProducerRecord) (p : Producer World) :
    Takes records p (send (World.transport codec) tp records p) := by
  unfold send
  cases hempty : records.isEmpty with
  | true =>
      rw [List.isEmpty_iff.mp hempty]
      exact takes_all [] (.refl _) (refl_of (Carries []) p)
  | false =>
      rw [if_neg (by simp)]
      refine takes_then (takes_enqueue codec tp records p) fun _ => ?_
      exact Moves.bind (carries_flush codec) fun _ => Moves.pure _

theorem takes_enqueueGroups (topic : String) (groups : List (ℤ × List ProducerRecord))
    (p : Producer World) : Takes (groups.flatMap (·.2)) p
      (enqueueGroups (World.transport codec) topic groups p) := by
  induction groups generalizing p with
  | nil => exact takes_all [] (.refl _) (refl_of (Carries []) p)
  | cons group rest ih => exact takes_seq (takes_enqueue codec _ group.2 p) fun _ p' => ih p'

theorem takes_sendKeyed (topic : String) (records : List ProducerRecord) (p : Producer World) :
    Takes records p (sendKeyed (World.transport codec) topic records p) := by
  unfold sendKeyed
  cases hempty : records.isEmpty with
  | true =>
      rw [List.isEmpty_iff.mp hempty]
      exact takes_all [] (.refl _) (refl_of (Carries []) p)
  | false =>
      rw [if_neg (by simp)]
      refine takes_bind ((quiets codec).partitionCountWaiting topic p).carries fun count p₁ _ => ?_
      refine takes_bind ((quiets codec).groupByPartition topic count records ∅ p₁).carries
        fun groups p₂ hgroups => ?_
      refine takes_bind ((quiets codec).enrollAll (fun _ _ _ => trivial) topic _ p₂).carries
        fun _ p₃ _ => ?_
      have hperm : (groups.toList.flatMap (·.2)).Perm records := by
        have hgathered := gathered_groupByPartition hgroups
        rw [gathered_empty, List.nil_append] at hgathered
        simpa [gathered] using hgathered
      obtain ⟨new, hsub, hcarries, hok⟩ := takes_enqueueGroups codec topic groups.toList p₃
      refine takes_then ⟨new, hsub.trans hperm.subperm, hcarries, fun h => (hok h).trans hperm⟩
        fun _ => ?_
      exact Moves.bind (carries_flush codec) fun _ => Moves.pure _

/-- The state machine moves on; the rest of the producer stays. -/
theorem quiet_onState {α : Type} (m : Act ProducerState ProducerError α) :
    Moves (Quiet fun _ => True) (onState m : Act (Producer World) Error α) :=
  fun _ => ⟨refl_of _ _, ⟨rfl, rfl, rfl, rfl, rfl⟩⟩

theorem quiet_endTransaction (committed : Bool) :
    Moves (Quiet fun _ => True) (endTransaction (World.transport codec) committed) := by
  refine Moves.bind (quiet_onState _) fun _ => Moves.bind Moves.get fun p => ?_
  refine Moves.bind (Moves.ofExcept _) fun identity => Moves.bind (Moves.ofExcept _) fun txnId => ?_
  refine Moves.bind ((quiets codec).coordinatorCall (fun _ _ => trivial) _ _ _) fun _ => ?_
  exact Moves.modify fun p => ⟨refl_of _ _, ⟨rfl, rfl, rfl, rfl, rfl⟩⟩

/-- Every call accounts for every record. -/
theorem takes_exec (call : Call) (p : Producer World) :
    Takes call.records p (call.exec (World.transport codec) p) := by
  have hquiet : ∀ {outcome : Except Error Unit × Producer World},
      Quiet (fun _ => True) p outcome.2 → Takes [] p outcome := fun h =>
    takes_all [] (.refl _) h.carries
  cases call with
  | beginTransaction => exact hquiet (quiet_onState _ p)
  | commitTransaction => exact hquiet (quiet_endTransaction codec true p)
  | abortTransaction => exact hquiet (quiet_endTransaction codec false p)
  | sendOffsetsToTransaction offsets metadata =>
      exact hquiet ((quiets codec).sendOffsetsToTransaction offsets metadata (fun _ _ _ => trivial)
        (fun _ _ _ => trivial) p)
  | produce topic record => exact takes_produce codec topic record p
  | produceTo tp record => exact takes_produceTo codec tp record p
  | enqueue tp records => exact takes_enqueue codec tp records p
  | send tp records => exact takes_then (takes_send codec tp records p) fun _ => Moves.pure _
  | sendKeyed topic records =>
      exact takes_then (takes_sendKeyed codec topic records p) fun _ => Moves.pure _
  | tick => exact takes_all [] (.refl _) (carries_sendReady codec p)
  | flush =>
      exact takes_all [] (.refl _)
        (Moves.bind (carries_flush codec) (fun _ => Moves.pure _) p)
  | setMetadataMaxAge age => exact hquiet ⟨fun h => ⟨h, .refl _⟩, ⟨rfl, rfl, rfl, rfl, rfl⟩⟩
  | setMaxInFlight bound =>
      exact takes_all [] (.refl _) (carries_of_bag rfl rfl (add_zero _).symm)
  | _ => exact hquiet ⟨refl_of _ _, ⟨rfl, rfl, rfl, rfl, rfl⟩⟩

end Operations

end Producer

end Barnabas.Client
