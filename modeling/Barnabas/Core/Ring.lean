import Barnabas.Core.Stability
import Barnabas.Lib.Turns
import Mathlib.Data.List.Rotate

/-!
Dealing around a ring.

What round robin is for has no cursor and no remainders in it: the members stand in a
ring, a partition goes to the first of them that wants its topic, and the ring turns to
the one after. The source keeps a cursor that only ever grows; the ring of the reference
is the sorted list of members, turned by the cursor.
-/

namespace Barnabas.Core

open Barnabas.Lib

variable {members sorted : List Subscription} {assignment : Assignment}
  {partitionsPerTopic : PartitionCounts}

/-! ### The reference -/

/-- Deal partitions around a ring of members. The members before the first that wants the
partition stay where they are; the next partition is offered to the member after it. -/
def circularDeal (assignment : Assignment) :
    List Subscription → List TopicPartition → Assignment
  | _, [] => assignment
  | ring, tp :: rest =>
      match ring.dropWhile fun m => tp.topic ∉ m.topics with
      | [] => circularDeal assignment ring rest
      | m :: after =>
          circularDeal (assignment.push m.memberId tp)
            (after ++ (ring.takeWhile fun m => tp.topic ∉ m.topics) ++ [m]) rest

instance (members : List Subscription) (tp : TopicPartition) :
    Decidable (Subscribed members tp) :=
  inferInstanceAs (Decidable (∃ m ∈ members, tp.topic ∈ m.topics))

/-- The partitions of the topics that somebody subscribed to, in order. -/
def wantedPartitions (members : List Subscription) (partitionsPerTopic : PartitionCounts) :
    List TopicPartition :=
  (allPartitions partitionsPerTopic).filter fun tp => Subscribed members tp

theorem mem_wantedPartitions {tp : TopicPartition} :
    tp ∈ wantedPartitions members partitionsPerTopic ↔
      tp ∈ Wanted members partitionsPerTopic := by
  rw [wantedPartitions, List.mem_filter, decide_eq_true_iff, mem_wanted]
  rfl

theorem pairwise_wantedPartitions (members : List Subscription)
    (partitionsPerTopic : PartitionCounts) :
    (wantedPartitions members partitionsPerTopic).Pairwise fun t t' => compare t t' = .lt :=
  (pairwise_allPartitions partitionsPerTopic).filter _

/-- Round robin as it is meant. -/
def circularAssign (members : List Subscription) (partitionsPerTopic : PartitionCounts) :
    Assignment :=
  circularDeal (.seed members) (sortedMembers members)
    (wantedPartitions members partitionsPerTopic)

theorem exists_first_wanting {ring : List Subscription} {topic : String}
    (h : ∃ m ∈ ring, topic ∈ m.topics) :
    ∃ before m after, ring = before ++ m :: after ∧
      (∀ m' ∈ before, topic ∉ m'.topics) ∧ topic ∈ m.topics := by
  induction ring with
  | nil =>
      obtain ⟨m, hm, -⟩ := h
      cases hm
  | cons first ring ih =>
      by_cases hfirst : topic ∈ first.topics
      · exact ⟨[], first, ring, rfl, by simp, hfirst⟩
      · obtain ⟨m, hm, htopic⟩ := h
        have hin : m ∈ ring := by
          rcases List.mem_cons.mp hm with rfl | hin
          · exact absurd htopic hfirst
          · exact hin
        obtain ⟨before, m', after, rfl, hbefore, hm'⟩ := ih ⟨m, hin, htopic⟩
        refine ⟨first :: before, m', after, rfl, ?_, hm'⟩
        intro m'' hm''
        rcases List.mem_cons.mp hm'' with rfl | hm''
        · exact hfirst
        · exact hbefore m'' hm''

/-- One partition: it goes to the first member that wants it, and the ring turns. -/
theorem circularDeal_cons {tp : TopicPartition} {before after : List Subscription}
    {m : Subscription} (hbefore : ∀ m' ∈ before, tp.topic ∉ m'.topics)
    (hm : tp.topic ∈ m.topics) (rest : List TopicPartition) :
    circularDeal assignment (before ++ m :: after) (tp :: rest) =
      circularDeal (assignment.push m.memberId tp) (after ++ before ++ [m]) rest := by
  have hskip : ∀ m' ∈ before, decide (tp.topic ∉ m'.topics) = true := by
    intro m' hm'
    simpa using hbefore m' hm'
  have htake : ¬decide (tp.topic ∉ m.topics) = true := by simpa using hm
  rw [circularDeal, List.dropWhile_append_of_pos hskip, List.takeWhile_append_of_pos hskip,
    List.dropWhile_cons_of_neg (p := fun m : Subscription => decide (tp.topic ∉ m.topics)) htake,
    List.takeWhile_cons_of_neg (p := fun m : Subscription => decide (tp.topic ∉ m.topics)) htake,
    List.append_nil]

/-! ### The cursor turns the ring -/

namespace RoundRobinAssignor

variable {topic : String} {next : ℕ} {m : Subscription} {before after : List Subscription}

theorem getElem?_of_rotate (h : sorted.rotate next = m :: after) :
    sorted[next % sorted.length]? = some m := by
  have hpos : 0 < sorted.length := by
    rw [← List.length_rotate sorted next, h]
    simp
  have hhead : (sorted.rotate next)[0]? = sorted[(0 + next) % sorted.length]? :=
    List.getElem?_rotate hpos
  rw [h, zero_add] at hhead
  exact hhead.symm

theorem rotate_succ (h : sorted.rotate next = m :: after) :
    sorted.rotate (next + 1) = after ++ [m] := by
  rw [← List.rotate_rotate, h, List.rotate_cons_succ, List.rotate_zero]

/-- The loop walks along the ring as far as the first member that wants the topic. -/
theorem seek_of_rotate (hring : sorted.rotate next = before ++ m :: after)
    (hbefore : ∀ m' ∈ before, topic ∉ m'.topics) (hm : topic ∈ m.topics) {unseen : ℕ}
    (hunseen : before.length < unseen) :
    seek sorted topic unseen next = (next + before.length, true) := by
  induction before generalizing next after unseen with
  | nil =>
      obtain ⟨unseen, rfl⟩ := Nat.exists_eq_add_one.mpr hunseen
      rw [seek, getElem?_of_rotate hring, Option.any_some, if_pos (by simpa using hm)]
      rfl
  | cons first before ih =>
      obtain ⟨unseen, rfl⟩ := Nat.exists_eq_add_one.mpr (Nat.zero_lt_of_lt hunseen)
      have hskip : ¬topic ∈ first.topics := hbefore first (by simp)
      have hnext : sorted.rotate (next + 1) = before ++ m :: (after ++ [first]) := by
        rw [rotate_succ hring]
        simp
      rw [List.length_cons] at hunseen
      rw [seek, getElem?_of_rotate hring, Option.any_some, if_neg (by simpa using hskip),
        ih hnext (fun m' hm' => hbefore m' (by simp [hm'])) (by omega), List.length_cons]
      congr 1
      omega

/-- If nobody wants the topic it goes around once. -/
theorem seek_of_unwanted (h : ∀ m ∈ sorted, topic ∉ m.topics) (unseen : ℕ) :
    seek sorted topic unseen next = (next + unseen, false) := by
  induction unseen generalizing next with
  | zero => rfl
  | succ unseen ih =>
      have hskip : ¬(sorted[next % sorted.length]?).any fun m => topic ∈ m.topics := by
        rw [Option.any_eq_true]
        rintro ⟨m, hm, htopic⟩
        exact h m (List.mem_of_getElem? hm) (by simpa using htopic)
      rw [seek, if_neg hskip, ih]
      congr 1
      omega

theorem deal_of_rotate {tp : TopicPartition} (hring : sorted.rotate next = before ++ m :: after)
    (hbefore : ∀ m' ∈ before, tp.topic ∉ m'.topics) (hm : tp.topic ∈ m.topics) :
    deal sorted (next, assignment) tp =
      (next + before.length + 1, assignment.push m.memberId tp) := by
  have hlength : before.length < sorted.length := by
    rw [← List.length_rotate sorted next, hring, List.length_append, List.length_cons]
    omega
  have hthere : sorted.rotate (next + before.length) = m :: (after ++ before) := by
    rw [← List.rotate_rotate, hring, List.rotate_append_length_eq]
    rfl
  rw [deal, seek_of_rotate hring hbefore hm hlength]
  dsimp only
  rw [if_pos rfl, getElem?_of_rotate hthere]

theorem rotate_deal (hring : sorted.rotate next = before ++ m :: after) :
    sorted.rotate (next + before.length + 1) = after ++ before ++ [m] := by
  apply rotate_succ
  rw [← List.rotate_rotate, hring, List.rotate_append_length_eq]
  rfl

theorem deal_of_unwanted {tp : TopicPartition} (h : ∀ m ∈ sorted, tp.topic ∉ m.topics) :
    deal sorted (next, assignment) tp = (next + sorted.length, assignment) := by
  rw [deal, seek_of_unwanted h]
  rfl

theorem rotate_add_length (sorted : List Subscription) (next : ℕ) :
    sorted.rotate (next + sorted.length) = sorted.rotate next := by
  rw [← List.rotate_mod, Nat.add_mod_right, List.rotate_mod]

/-- The cursor deals as the ring does that it stands for. A partition that nobody wants
takes the cursor around once, which turns the ring back to where it was. -/
theorem foldl_deal (sorted : List Subscription) (partitions : List TopicPartition) :
    (partitions.foldl (deal sorted) (next, assignment)).2 =
      circularDeal assignment (sorted.rotate next)
        (partitions.filter fun tp => Subscribed sorted tp) := by
  induction partitions generalizing next assignment with
  | nil => rfl
  | cons tp rest ih =>
      rw [List.foldl_cons, List.filter_cons]
      by_cases hwanted : Subscribed sorted tp
      · have hring : ∃ m ∈ sorted.rotate next, tp.topic ∈ m.topics := by
          simp only [List.mem_rotate]
          exact hwanted
        obtain ⟨before, m, after, hsplit, hbefore, hm⟩ := exists_first_wanting hring
        rw [if_pos (by simpa using hwanted), deal_of_rotate hsplit hbefore hm, ih,
          rotate_deal hsplit, hsplit, circularDeal_cons hbefore hm]
      · have hnone : ∀ m ∈ sorted, tp.topic ∉ m.topics := fun m hm htopic =>
          hwanted ⟨m, hm, htopic⟩
        rw [if_neg (by simpa using hwanted), deal_of_unwanted hnone, ih, rotate_add_length]

theorem assign_eq_circularAssign (members : List Subscription)
    (partitionsPerTopic : PartitionCounts) :
    assign members partitionsPerTopic = circularAssign members partitionsPerTopic := by
  have hsubscribed : ∀ tp, Subscribed (sortedMembers members) tp ↔ Subscribed members tp := by
    intro tp
    simp only [Subscribed, sortedMembers, List.mem_insertionSort]
  rw [assign, circularAssign, wantedPartitions]
  split
  · next hempty =>
      have hmembers : members = [] := by
        rw [← List.length_eq_zero_iff, ← List.length_insertionSort (·.memberId ≤ ·.memberId)]
        exact List.length_eq_zero_iff.mpr (List.isEmpty_iff.mp hempty)
      subst hmembers
      simp [Subscribed, circularDeal]
  · rw [foldl_deal, List.rotate_zero]
    simp only [hsubscribed]

end RoundRobinAssignor

/-! ### What follows from the reference -/

/-- Only the topics that somebody subscribed to are dealt. -/
theorem wantedPartitions_congr {partitionsPerTopic' : PartitionCounts}
    (h : ∀ topic, (∃ m ∈ members, topic ∈ m.topics) →
      partitionsPerTopic[topic]? = partitionsPerTopic'[topic]?) :
    wantedPartitions members partitionsPerTopic =
      wantedPartitions members partitionsPerTopic' := by
  have hne : ∀ t t' : TopicPartition, compare t t' = .lt → t ≠ t' := by
    rintro t t' hlt rfl
    have heq : compare t t = .eq := Std.ReflCmp.compare_self
    rw [heq] at hlt
    cases hlt
  have hfirst := pairwise_wantedPartitions members partitionsPerTopic
  have hsecond := pairwise_wantedPartitions members partitionsPerTopic'
  have hperm : (wantedPartitions members partitionsPerTopic).Perm
      (wantedPartitions members partitionsPerTopic') := by
    apply (List.perm_ext_iff_of_nodup (hfirst.imp (hne _ _)) (hsecond.imp (hne _ _))).mpr
    intro tp
    rw [mem_wantedPartitions, mem_wantedPartitions]
    constructor
    · rintro ⟨count, hcount, hlow, hhigh, hm⟩
      exact ⟨count, h _ hm ▸ hcount, hlow, hhigh, hm⟩
    · rintro ⟨count, hcount, hlow, hhigh, hm⟩
      exact ⟨count, (h _ hm).symm ▸ hcount, hlow, hhigh, hm⟩
  refine hperm.eq_of_pairwise ?_ hfirst hsecond
  intro t t' _ _ hlt hgt
  have hswap : compare t t' = (compare t' t).swap := Std.OrientedCmp.eq_swap
  rw [hswap, hgt] at hlt
  cases hlt

theorem circularAssign_congr {partitionsPerTopic' : PartitionCounts}
    (h : ∀ topic, (∃ m ∈ members, topic ∈ m.topics) →
      partitionsPerTopic[topic]? = partitionsPerTopic'[topic]?) :
    circularAssign members partitionsPerTopic = circularAssign members partitionsPerTopic' := by
  rw [circularAssign, circularAssign, wantedPartitions_congr h]

/-- Where everybody wants everything the ring turns by one with each partition. -/
theorem load_circularDeal (hids : (sorted.map (·.memberId)).Nodup) {partitions : List TopicPartition}
    (hwant : ∀ tp ∈ partitions, ∀ m ∈ sorted, tp.topic ∈ m.topics)
    (hkeys : ∀ m ∈ sorted, m.memberId ∈ assignment) {i : ℕ} {m : Subscription}
    (hi : sorted[i]? = some m) (next : ℕ) :
    (circularDeal assignment (sorted.rotate next) partitions).load m.memberId =
      assignment.load m.memberId + (turns sorted.length next partitions.length).count i := by
  have hpos : 0 < sorted.length := Nat.zero_lt_of_lt (List.getElem?_eq_some_iff.mp hi).1
  induction partitions generalizing assignment next with
  | nil => simp [circularDeal, turns]
  | cons tp rest ih =>
      cases hring : sorted.rotate next with
      | nil =>
          have hlength := List.length_rotate sorted next
          rw [hring, List.length_nil] at hlength
          omega
      | cons head after =>
          have hhead := RoundRobinAssignor.getElem?_of_rotate hring
          have hmem : head ∈ sorted := List.mem_of_getElem? hhead
          have hdeal := @circularDeal_cons assignment tp [] after head (by simp)
            (hwant tp (by simp) head hmem) rest
          have hkeys' : ∀ m ∈ sorted, m.memberId ∈ assignment.push head.memberId tp := by
            intro m hm
            rw [Assignment.push, Std.TreeMap.mem_modify]
            exact hkeys m hm
          have hplace : m.memberId = head.memberId ↔ next % sorted.length = i := by
            constructor
            · intro heq
              apply (List.getElem?_inj (by simpa using Nat.mod_lt next hpos) hids).mp
              rw [List.getElem?_map, List.getElem?_map, hhead, hi, Option.map_some,
                Option.map_some, heq]
            · rintro rfl
              rw [hhead] at hi
              rw [Option.some.inj hi]
          rw [List.nil_append, List.append_nil] at hdeal
          rw [hdeal, ← RoundRobinAssignor.rotate_succ hring,
            ih (fun tp htp => hwant tp (by simp [htp])) hkeys', load_push (hkeys head hmem),
            Function.update_apply, List.length_cons, Nat.add_comm rest.length, turns_append,
            turns_one, List.count_append, List.count_singleton]
          by_cases hturn : next % sorted.length = i
          · have heq := hplace.mpr hturn
            rw [if_pos heq, if_pos (by simpa using hturn), heq]
            omega
          · rw [if_neg (fun heq => hturn (hplace.mp heq)), if_neg (by simpa using hturn)]
            omega

/-- With identical subscriptions everybody has as many turns, give or take one. -/
theorem load_circularAssign_le (hdistinct : (members.map (·.memberId)).Nodup)
    (hsame : ∀ m ∈ members, ∀ m' ∈ members, ∀ topic, topic ∈ m.topics → topic ∈ m'.topics)
    {m m' : Subscription} (hm : m ∈ members) (hm' : m' ∈ members) :
    (circularAssign members partitionsPerTopic).load m.memberId ≤
      (circularAssign members partitionsPerTopic).load m'.memberId + 1 := by
  have hperm : (sortedMembers members).Perm members := List.perm_insertionSort _ _
  have hids : ((sortedMembers members).map (·.memberId)).Nodup :=
    (hperm.map _).nodup_iff.mpr hdistinct
  have hwant : ∀ tp ∈ wantedPartitions members partitionsPerTopic,
      ∀ m ∈ sortedMembers members, tp.topic ∈ m.topics := by
    intro tp htp m hm
    obtain ⟨-, -, -, -, first, hfirst, htopic⟩ := mem_wantedPartitions.mp htp
    exact hsame first hfirst m (hperm.mem_iff.mp hm) tp.topic htopic
  obtain ⟨hkeys, hlists⟩ := seed_keys_and_lists members ∅ (by simp)
  have hseed : ∀ m ∈ sortedMembers members, m.memberId ∈ Assignment.seed members := by
    intro m hm
    rw [Assignment.seed, hkeys]
    exact .inr (List.mem_map_of_mem (hperm.mem_iff.mp hm))
  obtain ⟨i, hi⟩ := List.mem_iff_getElem?.mp (hperm.mem_iff.mpr hm)
  obtain ⟨j, hj⟩ := List.mem_iff_getElem?.mp (hperm.mem_iff.mpr hm')
  have hload := load_circularDeal hids hwant hseed hi 0
  have hload' := load_circularDeal hids hwant hseed hj 0
  have hempty : ∀ id, (Assignment.seed members).load id = 0 := by
    intro id
    rw [Assignment.load, Assignment.seed, hlists]
    rfl
  rw [List.rotate_zero, hempty, zero_add] at hload hload'
  rw [circularAssign, hload, hload']
  exact count_turns_le (List.getElem?_eq_some_iff.mp hi).1 (List.getElem?_eq_some_iff.mp hj).1

/-- What round robin is for: the ring is the members in the order of their ids, what is
dealt around it is the partitions of the topics with a subscriber, in order; other topics
do not matter, and equal subscriptions make for equal shares. -/
structure DealsAround (members : List Subscription) (partitionsPerTopic : PartitionCounts) :
    Prop where
  ring : (sortedMembers members).Perm members ∧
    (sortedMembers members).Pairwise (·.memberId < ·.memberId)
  partitions : (∀ tp, tp ∈ wantedPartitions members partitionsPerTopic ↔
      tp ∈ Wanted members partitionsPerTopic) ∧
    (wantedPartitions members partitionsPerTopic).Pairwise fun a b =>
      a.topic < b.topic ∨ a.topic = b.topic ∧ a.partition < b.partition
  deal : roundRobinAssignor.assign members partitionsPerTopic =
    circularDeal (.seed members) (sortedMembers members)
      (wantedPartitions members partitionsPerTopic)
  others : ∀ partitionsPerTopic' : PartitionCounts,
    (∀ topic, (∃ m ∈ members, topic ∈ m.topics) →
      partitionsPerTopic[topic]? = partitionsPerTopic'[topic]?) →
    roundRobinAssignor.assign members partitionsPerTopic =
      roundRobinAssignor.assign members partitionsPerTopic'
  even : (∀ m ∈ members, ∀ m' ∈ members, ∀ topic, topic ∈ m.topics → topic ∈ m'.topics) →
    ∀ m ∈ members, ∀ m' ∈ members,
      ((roundRobinAssignor.assign members partitionsPerTopic).getD m.memberId []).length ≤
        ((roundRobinAssignor.assign members partitionsPerTopic).getD m'.memberId []).length + 1

/-- **Round robin is the circular deal.** For members with distinct ids, any subscriptions
and any partitions, the cursor of the source deals what the ring deals. -/
theorem roundRobin_dealsAround (members : List Subscription)
    (hdistinct : (members.map (·.memberId)).Nodup) (partitionsPerTopic : PartitionCounts) :
    DealsAround members partitionsPerTopic where
  ring := by
    have hperm : (sortedMembers members).Perm members := List.perm_insertionSort _ _
    have hids : ((sortedMembers members).map (·.memberId)).Nodup :=
      (hperm.map _).nodup_iff.mpr hdistinct
    have hle : (sortedMembers members).Pairwise (·.memberId ≤ ·.memberId) :=
      List.pairwise_insertionSort (fun m m' : Subscription => m.memberId ≤ m'.memberId) members
    refine ⟨hperm, (hle.and (List.pairwise_map.mp hids)).imp ?_⟩
    intro m m' h
    exact lt_of_le_of_ne h.1 h.2
  partitions := by
    refine ⟨fun tp => mem_wantedPartitions, ?_⟩
    refine (pairwise_wantedPartitions members partitionsPerTopic).imp ?_
    intro t t' hlt
    change (compare t.topic t'.topic).then (compare t.partition t'.partition) = .lt at hlt
    rcases Ordering.then_eq_lt.mp hlt with htopic | ⟨htopic, hpartition⟩
    · exact .inl (compare_lt_iff_lt.mp htopic)
    · exact .inr ⟨Std.LawfulEqCmp.compare_eq_iff_eq.mp htopic, compare_lt_iff_lt.mp hpartition⟩
  deal := RoundRobinAssignor.assign_eq_circularAssign members partitionsPerTopic
  others partitionsPerTopic' h := by
    show RoundRobinAssignor.assign members _ = RoundRobinAssignor.assign members _
    rw [RoundRobinAssignor.assign_eq_circularAssign, RoundRobinAssignor.assign_eq_circularAssign,
      circularAssign_congr h]
  even hsame m hm m' hm' := by
    show (RoundRobinAssignor.assign members _).load _ ≤
      (RoundRobinAssignor.assign members _).load _ + 1
    rw [RoundRobinAssignor.assign_eq_circularAssign]
    exact load_circularAssign_le hdistinct hsame hm hm'

/-- One member wants both topics, the other only the first; nobody wants the third. -/
def unequalPair : List Subscription := [⟨"c1", ["a", "b"], [], -1⟩, ⟨"c0", ["a"], [], -1⟩]

def threeTopics : PartitionCounts :=
  (((∅ : PartitionCounts).insert "a" 2).insert "b" 2).insert "aa" 1

theorem roundRobin_dealsAround_pair :
    (roundRobinAssignor.assign unequalPair threeTopics).toList =
        [("c0", [⟨"a", 0⟩]), ("c1", [⟨"a", 1⟩, ⟨"b", 0⟩, ⟨"b", 1⟩])] ∧
      DealsAround unequalPair threeTopics :=
  ⟨by decide, roundRobin_dealsAround unequalPair (by decide) threeTopics⟩

end Barnabas.Core
