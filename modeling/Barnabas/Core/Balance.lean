import Barnabas.Core.Handover
import Barnabas.Lib.Levels
import Mathlib.Algebra.Group.Action.Defs
import Mathlib.Algebra.BigOperators.Group.Finset.Basic

/-!
How even a sticky assignment is.

Dealing the rest to whoever holds fewest evens the lists out as far as the rest goes.
It does not go far enough if too many members keep a share that was rounded up: then
somebody is left below all the others.
-/

namespace Barnabas.Core

open Barnabas.Lib

variable {members : List Subscription} {done : Set TopicPartition} {assignment : Assignment}
  {partitionsPerTopic : PartitionCounts}

/-- How many partitions a member holds. -/
def Assignment.load (assignment : Assignment) (id : String) : ℕ := (assignment.getD id []).length

theorem load_push {memberId : String} (h : memberId ∈ assignment) (tp : TopicPartition) :
    (assignment.push memberId tp).load =
      Function.update assignment.load memberId (assignment.load memberId + 1) := by
  ext id
  rw [Assignment.load, getD_push h, Function.update_apply]
  split
  · next heq => rw [heq, List.length_append, List.length_singleton, Assignment.load]
  · rfl

def idsOf (members : List Subscription) : Finset String := (members.map (·.memberId)).toFinset

theorem mem_idsOf {m : Subscription} (hm : m ∈ members) : m.memberId ∈ idsOf members :=
  List.mem_toFinset.mpr (List.mem_map_of_mem hm)

theorem exists_of_mem_idsOf {id : String} (h : id ∈ idsOf members) :
    ∃ m ∈ members, m.memberId = id :=
  List.mem_map.mp (List.mem_toFinset.mp h)

/-- Each partition that has been dealt counts once. -/
theorem Dealt.sum_load (h : Dealt members done assignment)
    (hids : (members.map (·.memberId)).Nodup) {placed : List TopicPartition} (hnodup : placed.Nodup)
    (hplaced : ∀ tp, tp ∈ placed ↔ tp ∈ done) :
    ∑ id ∈ idsOf members, assignment.load id = placed.length := by
  have hperm : (members.flatMap fun m => assignment.getD m.memberId []).Perm placed := by
    rw [List.perm_ext_iff_of_nodup (h.nodup_flatMap hids) hnodup]
    intro tp
    rw [hplaced, List.mem_flatMap]
    constructor
    · rintro ⟨m, _, htp⟩
      exact h.only _ _ htp
    · intro htp
      obtain ⟨m, hm, _, hcount⟩ := h.once tp htp
      refine ⟨m, hm, List.count_pos_iff.mp ?_⟩
      rw [hcount, if_pos rfl]
      exact Nat.one_pos
  rw [idsOf, List.sum_toFinset _ hids, ← hperm.length_eq, List.length_flatMap, List.map_map]
  rfl

namespace StickyAssignor

/-- A partition goes to a lightest member that wants it. -/
theorem dealLightest_cases (members : List Subscription) (assignment : Assignment)
    (tp : TopicPartition) :
    ¬Subscribed members tp ∧ dealLightest (sortedMembers members) assignment tp = assignment ∨
      ∃ m ∈ members, tp.topic ∈ m.topics ∧
        dealLightest (sortedMembers members) assignment tp = assignment.push m.memberId tp ∧
        lightest assignment ((sortedMembers members).filter fun m => tp.topic ∈ m.topics) = some m := by
  rw [dealLightest]
  split
  · next hnone =>
      left
      refine ⟨?_, rfl⟩
      rintro ⟨m, hm, htopic⟩
      exact List.filter_eq_nil_iff.mp (lightest_eq_none hnone) m (mem_sortedMembers.mpr hm)
        (by simpa using htopic)
  · next m hm =>
      right
      obtain ⟨hmem, htopic⟩ := List.mem_filter.mp (lightest_mem hm)
      exact ⟨m, mem_sortedMembers.mp hmem, by simpa using htopic, rfl, hm⟩

/-- The partitions that exist and that somebody subscribes to. -/
def subscribed (members : List Subscription) (partitionsPerTopic : PartitionCounts) :
    List TopicPartition :=
  (allPartitions partitionsPerTopic).filter fun tp => members.any fun m => tp.topic ∈ m.topics

/-! ### Evening out -/

/-- Among members that agree on their topics, dealing evens out as far as it goes. -/
theorem dealAll_shortfall (hagree : SameTopics members) (level : ℕ) (rest : List TopicPartition)
    (hkeys : ∀ m ∈ members, m.memberId ∈ assignment) :
    let after := rest.foldl (dealLightest (sortedMembers members)) assignment
    let dealt := (rest.filter fun tp => members.any fun m => tp.topic ∈ m.topics).length
    shortfall level (idsOf members) after.load =
        shortfall level (idsOf members) assignment.load - dealt ∧
      ∑ id ∈ idsOf members, after.load id = ∑ id ∈ idsOf members, assignment.load id + dealt := by
  induction rest generalizing assignment with
  | nil => simp
  | cons tp rest ih =>
      rw [List.foldl_cons]
      rcases dealLightest_cases members assignment tp with ⟨hnone, heq⟩ | ⟨m, hm, htopic, heq, hbest⟩
      · rw [heq, List.filter_cons_of_neg]
        · exact ih hkeys
        · simpa [Subscribed] using hnone
      · have hcounts : (members.any fun m => tp.topic ∈ m.topics) = true :=
          List.any_eq_true.mpr ⟨m, hm, by simpa using htopic⟩
        rw [heq, List.filter_cons, if_pos hcounts, List.length_cons]
        have hkey := hkeys m hm
        have hmin : ∀ id ∈ idsOf members, assignment.load m.memberId ≤ assignment.load id := by
          intro id hid
          obtain ⟨m', hm', rfl⟩ := exists_of_mem_idsOf hid
          apply lightest_le hbest
          rw [List.mem_filter, mem_sortedMembers]
          exact ⟨hm', by simpa using (hagree m hm m' hm' _).mp htopic⟩
        have hkeys' : ∀ m' ∈ members, m'.memberId ∈ assignment.push m.memberId tp :=
          fun m' hm' => Std.TreeMap.mem_modify.mpr (hkeys m' hm')
        obtain ⟨hshort, hsum⟩ := ih hkeys'
        rw [load_push hkey] at hshort hsum
        constructor
        · rw [hshort, shortfall_give (mem_idsOf hm) hmin, Nat.sub_sub, Nat.add_comm 1]
        · rw [hsum, Finset.sum_update_of_mem (mem_idsOf hm), Finset.sdiff_singleton_eq_erase,
            ← Finset.add_sum_erase _ _ (mem_idsOf hm)]
          omega

/-- The members of a group with the same topics share all that is subscribed to. -/
theorem wantedBy_eq (hagree : SameTopics members) {m : Subscription} (hm : m ∈ members) :
    wantedBy (allPartitions partitionsPerTopic) m = subscribed members partitionsPerTopic := by
  apply List.filter_congr
  intro tp _
  rw [Bool.eq_iff_iff, decide_eq_true_iff, List.any_eq_true]
  constructor
  · exact fun htopic => ⟨m, hm, by simpa using htopic⟩
  · rintro ⟨m', hm', htopic⟩
    exact (hagree m' hm' m hm _).mp (by simpa using htopic)

/-- The largest share: the partitions over the members, rounded up. -/
def fullShare (members : List Subscription) (partitionsPerTopic : PartitionCounts) : ℕ :=
  ((subscribed members partitionsPerTopic).length + members.length - 1) / members.length

/-- The members that come into the round with a full share: going through them in the
order of their ids, those that can fill it with live claims to partitions that exist,
that they want and that nobody before them has kept. -/
def incumbents (members : List Subscription) (partitionsPerTopic : PartitionCounts) : ℕ :=
  let share := fullShare members partitionsPerTopic
  (shares (allPartitions partitionsPerTopic) (fun _ => share)
    (fun m => (liveClaims members).getD m.memberId []) (sortedMembers members) ∅).countP
      fun claims => claims.length = share

theorem quotaOf_eq_fullShare (hagree : SameTopics members) {m : Subscription} (hm : m ∈ members) :
    quotaOf (allPartitions partitionsPerTopic) (sortedMembers members) m =
      fullShare members partitionsPerTopic := by
  have hlen := List.length_pos_of_mem hm
  have hwanted : ((allPartitions partitionsPerTopic).filter fun tp => tp.topic ∈ m.topics).length =
      (subscribed members partitionsPerTopic).length :=
    congrArg List.length (wantedBy_eq hagree hm)
  unfold quotaOf fullShare
  dsimp only
  rw [hwanted]
  rcases htopics : m.topics with _ | ⟨topic, topics⟩
  · -- nothing is wanted, so that it does not matter among how many it is divided
    have hzero : (subscribed members partitionsPerTopic).length = 0 := by
      rw [← hwanted, htopics]
      simp
    rw [hzero, Nat.div_eq_of_lt, Nat.div_eq_of_lt] <;> omega
  · have hall : ((sortedMembers members).filter fun m' => m'.topics.any (· ∈ topic :: topics)) =
        sortedMembers members := by
      rw [List.filter_eq_self]
      intro m' hm'
      have hhead : topic ∈ m.topics := htopics ▸ List.mem_cons_self
      rw [List.any_eq_true]
      exact ⟨topic, (hagree m hm m' (mem_sortedMembers.mp hm') topic).mp hhead, by simp⟩
    rw [hall, (sortedMembers_perm members).length_eq, max_eq_left hlen]

theorem shares_congr {valid : List TopicPartition} {quotas quotas' : Subscription → ℕ}
    {claims : Subscription → List TopicPartition} {queue : List Subscription}
    {taken : Finset TopicPartition} (h : ∀ m ∈ queue, quotas m = quotas' m) :
    shares valid quotas claims queue taken = shares valid quotas' claims queue taken := by
  induction queue generalizing taken with
  | nil => rfl
  | cons m queue ih =>
      rw [shares, shares, h m List.mem_cons_self, ih fun m' hm' => h m' (List.mem_cons_of_mem _ hm')]

/-- The incumbents are the members that hold a full share before the rest is dealt. -/
theorem card_incumbents (partitionsPerTopic : PartitionCounts)
    (hids : (members.map (·.memberId)).Nodup) (hagree : SameTopics members) :
    ((idsOf members).filter fun id =>
      (keptOf members (allPartitions partitionsPerTopic)).assignment.load id =
        fullShare members partitionsPerTopic).card = incumbents members partitionsPerTopic := by
  have hshares : shares (allPartitions partitionsPerTopic)
      (quotaOf (allPartitions partitionsPerTopic) (sortedMembers members))
      (fun m => (liveClaims members).getD m.memberId []) (sortedMembers members) ∅ =
        shares (allPartitions partitionsPerTopic) (fun _ => fullShare members partitionsPerTopic)
          (fun m => (liveClaims members).getD m.memberId []) (sortedMembers members) ∅ :=
    shares_congr fun m hm => quotaOf_eq_fullShare hagree (mem_sortedMembers.mp hm)
  have hcard : ∀ p : String → Prop, ∀ [DecidablePred p], ((idsOf members).filter p).card =
      members.countP fun m => p m.memberId := by
    intro p _
    have hlist : (idsOf members).filter p =
        ((members.map (·.memberId)).filter fun id => p id).toFinset := by
      ext id
      simp [idsOf]
    rw [hlist, List.toFinset_card_of_nodup (hids.filter _), ← List.countP_eq_length_filter,
      List.countP_map]
    rfl
  rw [incumbents, ← hshares, ← (keptOf_eq (allPartitions partitionsPerTopic) hids).1,
    List.countP_map, (sortedMembers_perm members).countP_eq, hcard]
  rfl

/-- A full share is a share rounded up. -/
theorem fullShare_bounds {share n : ℕ} (hn : 0 < n) (total : ℕ)
    (h : (total + n - 1) / n = share + 1) : n * share < total ∧ total ≤ n * (share + 1) := by
  have hdiv := Nat.div_add_mod (total + n - 1) n
  have hmod := Nat.mod_lt (total + n - 1) hn
  rw [h, Nat.mul_add, Nat.mul_one] at hdiv
  rw [Nat.mul_add, Nat.mul_one]
  omega

/-- The sizes of any two lists differ by at most one. -/
def Balanced (members : List Subscription) (assignment : Assignment) : Prop :=
  ∀ m ∈ members, ∀ m' ∈ members,
    (assignment.getD m.memberId []).length ≤ (assignment.getD m'.memberId []).length + 1

/-- What is left over when all but the last of a full share is given to everybody. -/
theorem spare_iff {share n total count : ℕ} (hcount : count ≤ n) (hlow : n * share < total)
    (hhigh : total ≤ n * (share + 1)) : n * share + count ≤ total ↔ n ∣ total ∨ count ≤ total % n := by
  rw [Nat.mul_add, Nat.mul_one] at hhigh
  by_cases hfull : total = n * share + n
  · have hdvd : n ∣ total := ⟨share + 1, by rw [hfull, Nat.mul_add, Nat.mul_one]⟩
    simp only [hdvd, true_or, iff_true]
    omega
  · have hmod : total % n = total - n * share := by
      rw [← Nat.sub_mul_mod (x := total) (k := share) hlow.le, Nat.mod_eq_of_lt (by omega)]
    have hdvd : ¬n ∣ total := by
      rw [Nat.dvd_iff_mod_eq_zero, hmod]
      omega
    rw [hmod]
    simp only [hdvd, false_or]
    omega

theorem sum_load_assign (partitionsPerTopic : PartitionCounts)
    (hids : (members.map (·.memberId)).Nodup) :
    ∑ id ∈ idsOf members, (assign members partitionsPerTopic).load id =
      (subscribed members partitionsPerTopic).length := by
  apply (assign_dealt members partitionsPerTopic).sum_load hids
  · exact (nodup_allPartitions partitionsPerTopic).filter _
  · intro tp
    rw [mem_wanted, subscribed, List.mem_filter]
    simp

/-- What the lists add up to and how high they reach, before and after the rest is
dealt out. -/
theorem assign_shortfall (hids : (members.map (·.memberId)).Nodup) (hagree : SameTopics members)
    (hne : members ≠ []) {share : ℕ} (hshare : fullShare members partitionsPerTopic = share + 1) :
    shortfall share (idsOf members) (assign members partitionsPerTopic).load = 0 ↔
      members.length * share + incumbents members partitionsPerTopic ≤
        (subscribed members partitionsPerTopic).length := by
  let valid := allPartitions partitionsPerTopic
  let kept := (keptOf members valid).assignment
  let rest := valid.filter fun tp => tp ∉ (keptOf members valid).taken
  let dealt := rest.foldl (dealLightest (sortedMembers members)) kept
  have hload : (assign members partitionsPerTopic).load = dealt.load := by
    ext id
    rw [assign_eq hne, Assignment.load, (getD_sorted_perm _ id).length_eq]
    rfl
  have hvalid := keptOf_valid members valid
  obtain ⟨hshort, hsum⟩ := dealAll_shortfall hagree share rest fun m hm =>
    (hvalid.dealt.keys _).mpr (List.mem_map_of_mem hm)
  change ∑ id ∈ idsOf members, dealt.load id = ∑ id ∈ idsOf members, kept.load id + _ at hsum
  have htotal := sum_load_assign partitionsPerTopic hids
  rw [hload] at htotal
  have hquota : ∀ id ∈ idsOf members, kept.load id ≤ share + 1 := by
    intro id _
    rw [← hshare]
    refine keepAll_load (fun m hm => ?_) (fun id => ?_) (fun m hm => ?_) id
    · exact quotaOf_eq_fullShare hagree (mem_sortedMembers.mp hm)
    · rw [List.eq_nil_iff_forall_not_mem.mpr fun tp htp =>
        absurd ((Dealt.seed members).only id tp htp) (Set.notMem_empty _)]
      exact Nat.zero_le _
    · exact ((Dealt.seed members).keys _).mpr (List.mem_map_of_mem (mem_sortedMembers.mp hm))
  have hlevel := shortfall_add_sum share (idsOf members) kept.load
  have hcard : (idsOf members).card = members.length := by
    rw [idsOf, List.toFinset_card_of_nodup hids, List.length_map]
  have hfull := card_incumbents partitionsPerTopic hids hagree
  rw [hshare] at hfull
  rw [sum_surplus hquota, hcard, hfull] at hlevel
  rw [htotal] at hsum
  rw [hload, hshort]
  change shortfall share (idsOf members) kept.load - _ = 0 ↔ _
  omega

/-- Lists that are no longer than a full share are even if none is short of it by
more than one. -/
theorem balanced_iff_shortfall {share : ℕ} (hids : (members.map (·.memberId)).Nodup)
    (hload : ∀ id, assignment.load id ≤ share + 1)
    (hsum : members.length * share < ∑ id ∈ idsOf members, assignment.load id) :
    Balanced members assignment ↔ shortfall share (idsOf members) assignment.load = 0 := by
  rw [shortfall_eq_zero]
  constructor
  · intro heven id hid
    obtain ⟨m, hm, rfl⟩ := exists_of_mem_idsOf hid
    by_contra hshort
    -- then nobody holds more than the level, and one holds less
    have hle : ∀ id ∈ idsOf members, assignment.load id ≤ share := by
      intro id hid
      obtain ⟨m', hm', rfl⟩ := exists_of_mem_idsOf hid
      have heven := heven m' hm' m hm
      unfold Assignment.load at hshort ⊢
      omega
    have hbound : ∑ id ∈ idsOf members, assignment.load id ≤ members.length * share := by
      refine (Finset.sum_le_card_nsmul _ _ share hle).trans_eq ?_
      rw [idsOf, List.toFinset_card_of_nodup hids, List.length_map, smul_eq_mul]
    omega
  · intro hlevel m hm m' hm'
    have hhigh := hload m.memberId
    have hlow := hlevel m'.memberId (mem_idsOf hm')
    unfold Assignment.load at hhigh hlow
    omega

/-- **The lists are even exactly if not too many members keep a full share.** -/
theorem balanced_iff (members : List Subscription) (partitionsPerTopic : PartitionCounts)
    (hids : (members.map (·.memberId)).Nodup) (hagree : SameTopics members) :
    Balanced members (stickyAssignor.assign members partitionsPerTopic) ↔
      members.length ∣ (subscribed members partitionsPerTopic).length ∨
        incumbents members partitionsPerTopic ≤
          (subscribed members partitionsPerTopic).length % members.length := by
  rcases members.eq_nil_or_concat with rfl | ⟨others, m, rfl⟩
  · simp [Balanced, subscribed]
  generalize hmembers : others.concat m = members at *
  have hm : m ∈ members := by simp [← hmembers]
  have hload : ∀ id, (assign members partitionsPerTopic).load id ≤
      fullShare members partitionsPerTopic := fun id =>
    (assign_load hids hagree hm partitionsPerTopic id).trans_eq (quotaOf_eq_fullShare hagree hm)
  rcases hshare : fullShare members partitionsPerTopic with _ | share
  · have hnone : (subscribed members partitionsPerTopic).length = 0 := by
      have hdiv := (Nat.div_eq_zero_iff_lt (List.length_pos_of_mem hm)).mp hshare
      have hpos := List.length_pos_of_mem hm
      omega
    rw [hnone]
    simp only [dvd_zero, true_or, iff_true]
    intro m₁ _ m₂ _
    have hzero := hload m₁.memberId
    rw [hshare] at hzero
    exact hzero.trans (Nat.zero_le _)
  · obtain ⟨hlow, hhigh⟩ := fullShare_bounds (List.length_pos_of_mem hm) _ hshare
    have hcount : incumbents members partitionsPerTopic ≤ members.length := by
      rw [← card_incumbents partitionsPerTopic hids hagree]
      refine (Finset.card_filter_le _ _).trans ?_
      exact (List.toFinset_card_le _).trans_eq (List.length_map _)
    rw [← spare_iff hcount hlow hhigh, ← assign_shortfall hids hagree (List.ne_nil_of_mem hm) hshare]
    apply balanced_iff_shortfall hids
    · rw [← hshare]
      exact hload
    · exact hlow.trans_eq (sum_load_assign partitionsPerTopic hids).symm

/-- Two members that hold two partitions each, and one that is new. -/
def uneven : List Subscription :=
  [⟨"a", ["t"], [⟨"t", 0⟩, ⟨"t", 1⟩], 4⟩, ⟨"b", ["t"], [⟨"t", 2⟩, ⟨"t", 3⟩], 4⟩, ⟨"c", ["t"], [], -1⟩]

def fourPartitions : PartitionCounts := (∅ : PartitionCounts).insert "t" 4

theorem sameTopics_uneven : SameTopics uneven := by
  intro m hm m' hm' topic
  simp only [uneven, List.mem_cons, List.not_mem_nil, or_false] at hm hm'
  rcases hm with rfl | rfl | rfl <;> rcases hm' with rfl | rfl | rfl <;> rfl

/-- The newcomer is given nothing, although there are more partitions than members. -/
theorem newcomer_starves :
    SameTopics uneven ∧ (uneven.map (·.memberId)).Nodup ∧
      (stickyAssignor.assign uneven fourPartitions).toList =
        [("a", [⟨"t", 0⟩, ⟨"t", 1⟩]), ("b", [⟨"t", 2⟩, ⟨"t", 3⟩]), ("c", [])] ∧
      ¬Balanced uneven (stickyAssignor.assign uneven fourPartitions) := by
  refine ⟨sameTopics_uneven, by decide, by decide, fun h => ?_⟩
  exact absurd (h ⟨"a", ["t"], [⟨"t", 0⟩, ⟨"t", 1⟩], 4⟩ (by decide) ⟨"c", ["t"], [], -1⟩ (by decide))
    (by decide)

/-- With a fifth partition there is a remainder for both of them, and the newcomer is
fed. -/
theorem balanced_iff_five :
    incumbents uneven (fourPartitions.insert "t" 5) = 2 ∧
      Balanced uneven (stickyAssignor.assign uneven (fourPartitions.insert "t" 5)) :=
  ⟨by decide, (balanced_iff uneven (fourPartitions.insert "t" 5) (by decide)
    sameTopics_uneven).mpr (.inr (by decide))⟩

end StickyAssignor

end Barnabas.Core
