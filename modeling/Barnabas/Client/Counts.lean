import Barnabas.Client.Cluster
import Barnabas.Core.Partitioner
import Barnabas.Lib.Run

/-!
The partition count of a topic over a run.

The count is taken from every answer that names the topic, whatever it was before.
Kafka never removes partitions from a live topic, so a smaller count is a passing
answer; whether one is taken over is decided by the answers alone. Three readers
depend on it: the partitioner, the leader of a group, and the check for growth.
-/

namespace Barnabas.Core

open Barnabas.Lib

/-- The count an answer gives for a topic. A topic that carries an error gives none. -/
def TopicMetadata.countOf (topic : String) (t : TopicMetadata) : Option ℤ :=
  if t.errorCode = 0 ∧ t.name = some topic then some (min (t.partitions.length : ℤ) i32Max)
  else none

/-- If a response names a topic more than once, the last one counts. -/
def MetadataResponse.countOf (topic : String) (resp : MetadataResponse) : Option ℤ :=
  (resp.topics.filterMap (TopicMetadata.countOf topic)).getLast?

def MetadataOp.countOf (topic : String) : MetadataOp → Option ℤ
  | update resp => resp.countOf topic
  | _ => none

theorem partitionCount_updateTopic (metadata : Metadata) (t : TopicMetadata) (topic : String) :
    (metadata.updateTopic t).partitionCount topic =
      (t.countOf topic).getD (metadata.partitionCount topic) := by
  rw [Metadata.updateTopic, TopicMetadata.countOf]
  by_cases hcode : t.errorCode = 0
  · rw [if_neg (not_not.mpr hcode)]
    cases hname : t.name with
    | none => simp
    | some name =>
        by_cases heq : name = topic
        · simp [hcode, heq, Metadata.partitionCount]
        · simp [heq, Metadata.partitionCount, Std.TreeMap.getD_insert]
  · rw [if_pos hcode, if_neg fun h => hcode h.1]
    rfl

theorem partitionCount_update (metadata : Metadata) (resp : MetadataResponse) (topic : String) :
    (metadata.update resp).partitionCount topic =
      (resp.countOf topic).getD (metadata.partitionCount topic) := by
  have hfold : ∀ (topics : List TopicMetadata) (metadata : Metadata),
      (topics.foldl Metadata.updateTopic metadata).partitionCount topic =
        (topics.filterMap (TopicMetadata.countOf topic)).getLast?.getD
          (metadata.partitionCount topic) := by
    intro topics
    induction topics with
    | nil => exact fun _ => rfl
    | cons t topics ih =>
        intro metadata
        rw [List.foldl_cons, ih, partitionCount_updateTopic, List.filterMap_cons]
        cases t.countOf topic with
        | none => rfl
        | some n => simp [List.getLast?_cons]
  exact hfold resp.topics _

theorem partitionCount_step (metadata : Metadata) {op : MetadataOp} {topic : String}
    (hkept : op ≠ .forgetTopic topic) :
    (op.step metadata).partitionCount topic =
      (op.countOf topic).getD (metadata.partitionCount topic) := by
  cases op with
  | update resp => exact partitionCount_update metadata resp topic
  | invalidatePartition tp => rfl
  | forgetTopic other =>
      have hne : other ≠ topic := fun h => hkept (h ▸ rfl)
      simp [MetadataOp.step, Metadata.forgetTopic, Metadata.partitionCount, MetadataOp.countOf,
        Std.TreeMap.getD_erase, hne]

/-- The counts a topic has had: the one known at the start and then every one
announced. -/
def announcedCounts (topic : String) (metadata : Metadata) (ops : List MetadataOp) : List ℤ :=
  metadata.partitionCount topic :: ops.filterMap (MetadataOp.countOf topic)

variable {topic : String} {metadata : Metadata} {ops : List MetadataOp}

/-- The count after a run is the last one announced. -/
theorem partitionCount_run (metadata : Metadata) (hkept : ∀ op ∈ ops, op ≠ .forgetTopic topic) :
    some ((run MetadataOp.step metadata ops).partitionCount topic) =
      (announcedCounts topic metadata ops).getLast? := by
  induction ops using List.reverseRecOn with
  | nil => rfl
  | append_singleton ops op ih =>
      have hbefore := ih fun o ho => hkept o (List.mem_append_left _ ho)
      rw [run_concat, partitionCount_step _ (hkept op (by simp))]
      rw [announcedCounts, List.filterMap_append, List.filterMap_cons, List.filterMap_nil]
      cases op.countOf topic with
      | none => simpa [announcedCounts] using hbefore
      | some n => rw [← List.cons_append, List.getLast?_concat, Option.getD_some]

/-- Every count announced was the known one at some point of the run. -/
theorem exists_partitionCount (hkept : ∀ op ∈ ops, op ≠ .forgetTopic topic) {n : ℤ}
    (hn : n ∈ announcedCounts topic metadata ops) :
    ∃ pre, pre <+: ops ∧
      (run MetadataOp.step metadata pre).partitionCount topic = n := by
  induction ops using List.reverseRecOn with
  | nil => exact ⟨[], List.prefix_refl _, (List.mem_singleton.mp hn).symm⟩
  | append_singleton ops op ih =>
      have hkept' : ∀ o ∈ ops, o ≠ .forgetTopic topic :=
        fun o ho => hkept o (List.mem_append_left _ ho)
      rw [announcedCounts, List.filterMap_append, ← List.cons_append, List.mem_append] at hn
      cases hn with
      | inl hn =>
          obtain ⟨pre, hpre, hcount⟩ := ih hkept' hn
          exact ⟨pre, hpre.trans (List.prefix_append _ _), hcount⟩
      | inr hn =>
          have hop : op.countOf topic = some n := by simpa using hn
          apply Exists.intro (ops ++ [op])
          rw [run_concat, partitionCount_step _ (hkept op (by simp)), hop]
          exact ⟨List.prefix_refl _, rfl⟩

/-- The count of a topic never falls over a run. -/
def CountGrows (topic : String) (metadata : Metadata) (ops : List MetadataOp) : Prop :=
  ∀ pre later, pre <+: later → later <+: ops →
    (run MetadataOp.step metadata pre).partitionCount topic ≤
      (run MetadataOp.step metadata later).partitionCount topic

theorem countGrows_iff (hkept : ∀ op ∈ ops, op ≠ .forgetTopic topic) :
    CountGrows topic metadata ops ↔ (announcedCounts topic metadata ops).Pairwise (· ≤ ·) := by
  constructor
  · intro hgrows
    induction ops using List.reverseRecOn with
    | nil => exact List.pairwise_singleton _ _
    | append_singleton ops op ih =>
        have hkept' : ∀ o ∈ ops, o ≠ .forgetTopic topic :=
          fun o ho => hkept o (List.mem_append_left _ ho)
        have hsub : ops <+: ops ++ [op] := List.prefix_append _ _
        have hpairs := ih hkept' fun pre later h h' => hgrows pre later h (h'.trans hsub)
        rw [announcedCounts, List.filterMap_append, ← List.cons_append, List.pairwise_append]
        apply And.intro hpairs
        cases hop : op.countOf topic with
        | none => simp [hop]
        | some n =>
            simp only [List.filterMap_cons, List.filterMap_nil, hop, List.mem_singleton,
              forall_eq, List.pairwise_singleton, true_and]
            -- An earlier count was the known one somewhere, and the last step makes `n` known.
            intro earlier hearlier
            obtain ⟨pre, hpre, hcount⟩ := exists_partitionCount hkept' hearlier
            have hle := hgrows pre (ops ++ [op]) (hpre.trans hsub) (List.prefix_refl _)
            rw [hcount, run_concat, partitionCount_step _ (hkept op (by simp)), hop] at hle
            exact hle
  · intro hpairs pre later hpre hlater
    obtain ⟨more, rfl⟩ := hpre
    have hpairs' : (announcedCounts topic metadata (pre ++ more)).Pairwise (· ≤ ·) := by
      obtain ⟨rest, rfl⟩ := hlater
      apply List.Pairwise.sublist _ hpairs
      simp [announcedCounts]
    have hlast := partitionCount_run metadata fun op hop => hkept op (hlater.subset hop)
    have hfirst := partitionCount_run metadata fun op hop =>
      hkept op (hlater.subset (List.mem_append_left more hop))
    rw [announcedCounts, List.filterMap_append, ← List.cons_append] at hpairs' hlast
    rw [List.getLast?_append] at hlast
    cases hmore : (more.filterMap (MetadataOp.countOf topic)).getLast? with
    | none =>
        rw [hmore, Option.none_or] at hlast
        have heq := hlast.trans hfirst.symm
        exact le_of_eq (Option.some.inj heq).symm
    | some n =>
        rw [hmore, Option.some_or, Option.some.injEq] at hlast
        rw [hlast]
        exact (List.pairwise_append.mp hpairs').2.2 _
          (List.mem_of_getLast? hfirst.symm) _ (List.mem_of_getLast? hmore)

end Barnabas.Core

namespace Barnabas.Client

open Barnabas.Lib Barnabas.Core

/-- What a count that never falls protects, at every point of a run. -/
structure Steady (topic : String) (metadata : Metadata) (ops : List MetadataOp) : Prop where
  grows : CountGrows topic metadata ops
  /-- A key moves only when the topic has grown. -/
  places : ∀ pre later, pre <+: later → later <+: ops →
    ∀ (partitioner : Partitioner) (key : Option Bytes) (next : ℕ),
      let count ops := (run MetadataOp.step metadata ops).partitionCount topic
      partitioner.partitionFor key (count later) next ≠
          partitioner.partitionFor key (count pre) next →
        count pre < count later
  /-- A growth that is reported ends above every count the topic has had. -/
  reports : ∀ pre op, pre ++ [op] <+: ops →
    ∀ (ω : Type) (T : Transport ω) (c c' : Cluster ω) (before after : ℤ),
      c.metadata = run MetadataOp.step metadata pre →
      c'.metadata = run MetadataOp.step metadata (pre ++ [op]) →
      Cluster.refreshIfStale T topic c = (.ok (some (before, after)), c') →
      ∀ earlier, earlier <+: pre →
        (run MetadataOp.step metadata earlier).partitionCount topic < after

/-- Looking at the clock leaves the cluster map alone. -/
theorem isMetadataStale_metadata {ω : Type} {T : Transport ω} {topic : String}
    {c c' : Cluster ω} {outcome : Except Error Bool}
    (h : Cluster.isMetadataStale T topic c = (outcome, c')) : c'.metadata = c.metadata := by
  rw [Cluster.isMetadataStale, Act.bind_of_ok (Act.get_apply c)] at h
  cases hat : c.refreshedAt[topic]? with
  | none =>
      rw [hat] at h
      rw [← (Prod.mk.inj h).2]
  | some at' =>
      rw [hat] at h
      rw [← (Prod.mk.inj h).2]

/-- A reported growth is from the count known before the refresh to the one known
after it. -/
theorem refreshIfStale_grew {ω : Type} {T : Transport ω} {topic : String} {c c' : Cluster ω}
    {before after : ℤ}
    (h : Cluster.refreshIfStale T topic c = (.ok (some (before, after)), c')) :
    before = c.metadata.partitionCount topic ∧ after = c'.metadata.partitionCount topic ∧
      0 < before ∧ before < after := by
  obtain ⟨stale, c₁, hstale, h⟩ := Act.bind_eq_ok h
  cases stale with
  | false => cases h
  | true =>
      rw [if_pos rfl, Act.bind_of_ok (Act.get_apply c₁)] at h
      obtain ⟨_, c₂, -, h⟩ := Act.bind_eq_ok h
      rw [Act.bind_of_ok (Act.get_apply c₂), Act.pure_apply] at h
      rw [isMetadataStale_metadata hstale] at h
      split at h
      case isTrue hgrew =>
        simp only [Prod.mk.injEq, Except.ok.injEq, Option.some.injEq] at h
        obtain ⟨⟨rfl, rfl⟩, rfl⟩ := h
        exact ⟨rfl, rfl, hgrew⟩
      case isFalse => cases h

/-- The count is taken over from every answer, so it is as steady as the answers:
it never falls, no key moves on a dip and no growth is reported that did not
happen, if and only if no announced count is below one announced before. -/
theorem steady_iff {topic : String} {metadata : Metadata} {ops : List MetadataOp}
    (hkept : ∀ op ∈ ops, op ≠ .forgetTopic topic) :
    Steady topic metadata ops ↔ (announcedCounts topic metadata ops).Pairwise (· ≤ ·) := by
  rw [← countGrows_iff hkept]
  apply Iff.intro fun h => h.grows
  intro hgrows
  refine ⟨hgrows, ?_, ?_⟩
  · intro pre later hpre hlater partitioner key next count hmoved
    apply lt_of_le_of_ne (hgrows pre later hpre hlater)
    intro heq
    apply hmoved
    show partitioner.partitionFor key (count later) next = _
    rw [show count later = count pre from heq.symm]
  · intro pre op hpre ω T c c' before after hc hc' h earlier hearlier
    obtain ⟨hbefore, -, -, hgrew⟩ := refreshIfStale_grew h
    calc _ ≤ (run MetadataOp.step metadata pre).partitionCount topic :=
          hgrows earlier pre hearlier ((List.prefix_append _ _).trans hpre)
      _ = before := by rw [hbefore, hc]
      _ < after := hgrew

/-- An answer that lists so many partitions of `orders`, all led by broker 1. -/
def ordersAnswer (partitions : ℕ) : MetadataOp :=
  .update
    { brokers := [⟨1, "b1", 9092⟩]
      controllerId := 1
      topics := [⟨0, some "orders", (List.range partitions).map fun p => ⟨0, p, 1⟩⟩] }

/-- The rule holds of a topic that grows while another one is forgotten. -/
theorem steady_iff_growth :
    Steady "orders" .new [ordersAnswer 4, .forgetTopic "audit", ordersAnswer 6] := by
  apply (steady_iff _).mpr
  · decide
  · simp [ordersAnswer]

/-- A broker that has not caught up answers with two of the four partitions: the
count falls, and the key `c` moves from partition 2 to partition 0. -/
theorem dip_moves_key :
    (run MetadataOp.step .new [ordersAnswer 4]).partitionCount "orders" = 4 ∧
      (run MetadataOp.step .new [ordersAnswer 4, ordersAnswer 2]).partitionCount "orders" = 2 ∧
      Partitioner.murmur2.partitionFor (some [99]) 4 0 = (some 2, 0) ∧
      Partitioner.murmur2.partitionFor (some [99]) 2 0 = (some 0, 0) ∧
      ¬Steady "orders" .new [ordersAnswer 4, ordersAnswer 2] := by
  refine ⟨by decide, by decide, by decide, by decide, ?_⟩
  intro h
  have hfall := h.grows [ordersAnswer 4] [ordersAnswer 4, ordersAnswer 2] (by simp) (by simp)
  revert hfall
  decide

end Barnabas.Client
