import Barnabas.Core.Ring
import Mathlib.Data.Finset.Sort

/-!
The members of a group agree on its assignment.

Whoever is elected computes the assignment from the members as they came, and a member
may list its topics in any order and more than once. The assignors ask no more of a
subscription than what topics are in it, and they put the members in order themselves,
so the same group has one assignment.
-/

namespace Barnabas.Core

open Barnabas.Lib

variable {members members' sorted : List Subscription} {assignment assignment' : Assignment}
  {partitionsPerTopic : PartitionCounts}

/-- The same member, with the same topics listed in some other way. -/
structure SameMember (m m' : Subscription) : Prop where
  memberId : m.memberId = m'.memberId
  owned : m.owned = m'.owned
  generation : m.generation = m'.generation
  topics : ∀ topic, topic ∈ m.topics ↔ topic ∈ m'.topics

/-! ### Topics are only looked up -/

section Topics

variable {f : Subscription → Subscription} (hf : ∀ m, SameMember (f m) m)

include hf

theorem seed_map (members : List Subscription) :
    Assignment.seed (members.map f) = .seed members := by
  rw [Assignment.seed, Assignment.seed, List.foldl_map]
  simp only [(hf _).memberId]

theorem sortedMembers_map (members : List Subscription) :
    sortedMembers (members.map f) = (sortedMembers members).map f := by
  rw [sortedMembers, sortedMembers]
  refine (List.map_insertionSort _ _ f members ?_).symm
  intro m _ m' _
  rw [(hf m).memberId, (hf m').memberId]

theorem RangeAssignor.subscribers_map (members : List Subscription) (topic : String) :
    subscribers (members.map f) topic = subscribers members topic := by
  rw [subscribers, subscribers, List.filter_map, List.map_map]
  simp only [Function.comp_def, (hf _).topics, (hf _).memberId]

theorem RangeAssignor.assign_map (members : List Subscription)
    (partitionsPerTopic : PartitionCounts) :
    assign (members.map f) partitionsPerTopic = assign members partitionsPerTopic := by
  have htopic : assignTopic (members.map f) = assignTopic members := by
    ext1 assignment
    ext1 entry
    rw [assignTopic, assignTopic, subscribers_map hf]
  rw [assign, assign, htopic, seed_map hf]

theorem RoundRobinAssignor.seek_map (sorted : List Subscription) (topic : String)
    (unseen next : ℕ) : seek (sorted.map f) topic unseen next = seek sorted topic unseen next := by
  induction unseen generalizing next with
  | zero => rfl
  | succ unseen ih =>
      rw [seek, seek, ih, List.length_map, List.getElem?_map, Option.any_map]
      simp only [(hf _).topics]

theorem RoundRobinAssignor.deal_map (sorted : List Subscription) (cursor : ℕ × Assignment)
    (tp : TopicPartition) : deal (sorted.map f) cursor tp = deal sorted cursor tp := by
  rw [deal, deal, List.length_map, seek_map hf]
  dsimp only
  rw [List.getElem?_map]
  cases sorted[(seek sorted tp.topic sorted.length cursor.1).1 % sorted.length]? with
  | none => rfl
  | some m =>
      dsimp only [Option.map_some]
      rw [(hf m).memberId]

theorem RoundRobinAssignor.assign_map (members : List Subscription)
    (partitionsPerTopic : PartitionCounts) :
    assign (members.map f) partitionsPerTopic = assign members partitionsPerTopic := by
  have hdeal : deal ((sortedMembers members).map f) = deal (sortedMembers members) := by
    ext1 cursor
    ext1 tp
    exact deal_map hf _ cursor tp
  rw [assign, assign, sortedMembers_map hf, seed_map hf, List.isEmpty_map, hdeal]

namespace StickyAssignor

theorem highestGeneration_map (members : List Subscription) :
    highestGeneration (members.map f) = highestGeneration members := by
  cases members with
  | nil => rfl
  | cons m members =>
      rw [List.map_cons, highestGeneration, highestGeneration, List.foldl_map]
      simp only [(hf _).generation]

theorem liveClaims_map (members : List Subscription) :
    liveClaims (members.map f) = liveClaims members := by
  rw [liveClaims, liveClaims, highestGeneration_map hf, List.foldl_map]
  simp only [(hf _).memberId, (hf _).generation, (hf _).owned]

theorem quotaOf_map (valid : List TopicPartition) (sorted : List Subscription)
    (m : Subscription) : quotaOf valid (sorted.map f) (f m) = quotaOf valid sorted m := by
  have hsharers : ∀ m', (f m').topics.any (· ∈ m.topics) = m'.topics.any (· ∈ m.topics) := by
    intro m'
    rw [Bool.eq_iff_iff, List.any_eq_true, List.any_eq_true]
    simp only [(hf _).topics]
  rw [quotaOf, quotaOf, List.filter_map, List.length_map]
  simp only [Function.comp_def, (hf m).topics, hsharers]

theorem keepClaims_map (valid : List TopicPartition) (m : Subscription) (quota : ℕ)
    (claims : List TopicPartition) (kept : Kept) :
    keepClaims valid (f m) quota claims kept = keepClaims valid m quota claims kept := by
  induction claims generalizing kept with
  | nil => rfl
  | cons tp claims ih =>
      rw [keepClaims, keepClaims, ih, ih]
      simp only [(hf m).topics, (hf m).memberId]

theorem lightest_map (assignment : Assignment) (candidates : List Subscription) :
    lightest assignment (candidates.map f) = (lightest assignment candidates).map f := by
  induction candidates with
  | nil => rfl
  | cons m candidates ih =>
      rw [List.map_cons, lightest, lightest, ih]
      cases lightest assignment candidates with
      | none => rfl
      | some m' =>
          have hlighter : lighter assignment (f m') (f m) = lighter assignment m' m := by
            rw [lighter, lighter]
            simp only [(hf _).memberId]
          rw [Option.map_some]
          dsimp only
          rw [hlighter]
          split
          · rfl
          · rfl

theorem dealLightest_map (sorted : List Subscription) (assignment : Assignment)
    (tp : TopicPartition) :
    dealLightest (sorted.map f) assignment tp = dealLightest sorted assignment tp := by
  have hfilter : ((sorted.map f).filter fun m => tp.topic ∈ m.topics) =
      (sorted.filter fun m => tp.topic ∈ m.topics).map f := by
    rw [List.filter_map]
    simp only [Function.comp_def, (hf _).topics]
  rw [dealLightest, dealLightest, hfilter, lightest_map hf]
  cases lightest assignment (sorted.filter fun m => tp.topic ∈ m.topics) with
  | none => rfl
  | some m =>
      dsimp only [Option.map_some]
      rw [(hf m).memberId]

theorem assign_map (members : List Subscription) (partitionsPerTopic : PartitionCounts) :
    assign (members.map f) partitionsPerTopic = assign members partitionsPerTopic := by
  have hdeal : dealLightest ((sortedMembers members).map f) =
      dealLightest (sortedMembers members) := by
    ext1 assignment
    ext1 tp
    exact dealLightest_map hf _ assignment tp
  have hkeep : ∀ valid claims kept, keepAll valid ((sortedMembers members).map f) claims kept =
      keepAll valid (sortedMembers members) claims kept := by
    intro valid claims kept
    rw [keepAll, keepAll, List.foldl_map]
    simp only [quotaOf_map hf, keepClaims_map hf, (hf _).memberId]
  rw [assign, assign, sortedMembers_map hf, seed_map hf, liveClaims_map hf, List.isEmpty_map,
    hdeal]
  simp only [hkeep]

end StickyAssignor

end Topics

/-! ### The order of the members is their ids -/

open Std.TreeMap in
/-- Maps that are filled under distinct keys do not tell in what order. -/
theorem foldl_insert_perm {β : Type} (value : Subscription → β) {t t' : Std.TreeMap String β}
    (hperm : members.Perm members') (hids : (members.map (·.memberId)).Nodup)
    (ht : t.Equiv t') :
    (members.foldl (fun t m => t.insert m.memberId (value m)) t).Equiv
      (members'.foldl (fun t m => t.insert m.memberId (value m)) t') := by
  induction hperm generalizing t t' with
  | nil => exact ht
  | cons m _ ih =>
      rw [List.map_cons, List.nodup_cons] at hids
      exact ih hids.2 (ht.insert m.memberId (value m))
  | swap m m' rest =>
      have hne : m'.memberId ≠ m.memberId := by
        rw [List.map_cons, List.map_cons, List.nodup_cons, List.mem_cons, not_or] at hids
        exact hids.1.1
      rw [List.foldl_cons, List.foldl_cons, List.foldl_cons, List.foldl_cons]
      apply List.foldl_rel (r := fun t t' : Std.TreeMap String β compare => t.Equiv t')
      · apply Equiv.of_forall_constGet?_eq
        intro id
        show ((t.insert m'.memberId (value m')).insert m.memberId (value m))[id]? =
          ((t'.insert m.memberId (value m)).insert m'.memberId (value m'))[id]?
        simp only [getElem?_insert, Std.LawfulEqCmp.compare_eq_iff_eq, ht.getElem?_eq]
        by_cases hm : m.memberId = id
        · rw [if_pos hm, if_neg (fun hm' => hne (hm'.trans hm.symm)), if_pos hm]
        · rw [if_neg hm, if_neg hm]
      · intro m _ t t' ht
        exact ht.insert m.memberId (value m)
  | trans hfirst _ ih ih' =>
      have hids' := (hfirst.map (·.memberId)).nodup_iff.mp hids
      exact (ih hids ht).trans (ih' hids' .rfl)

theorem seed_perm (hperm : members.Perm members') (hids : (members.map (·.memberId)).Nodup) :
    (Assignment.seed members).Equiv (Assignment.seed members') :=
  foldl_insert_perm (fun _ => []) hperm hids .rfl

theorem sortedMembers_congr (hperm : members.Perm members')
    (hids : (members.map (·.memberId)).Nodup) : sortedMembers members = sortedMembers members' := by
  have hsorted : ∀ members : List Subscription,
      (sortedMembers members).Pairwise (·.memberId ≤ ·.memberId) := fun members =>
    List.pairwise_insertionSort (fun m m' : Subscription => m.memberId ≤ m'.memberId) members
  have hsame : (sortedMembers members).Perm (sortedMembers members') :=
    (sortedMembers_perm members).trans (hperm.trans (sortedMembers_perm members').symm)
  refine hsame.eq_of_pairwise ?_ (hsorted members) (hsorted members')
  intro m m' hm hm' hle hle'
  have hm := (sortedMembers_perm members).mem_iff.mp hm
  have hm' := hperm.mem_iff.mpr ((sortedMembers_perm members').mem_iff.mp hm')
  exact List.inj_on_of_nodup_map hids hm hm' (le_antisymm hle hle')

/-! ### Pushing keeps maps alike -/

theorem push_congr (h : assignment.Equiv assignment') (id : String)
    (tp : TopicPartition) : (assignment.push id tp).Equiv (assignment'.push id tp) :=
  Std.TreeMap.Equiv.modify h id (· ++ [tp])

namespace RangeAssignor

theorem subscribers_perm (hperm : members.Perm members') (topic : String) :
    subscribers members topic = subscribers members' topic := by
  have hids : ((members.filter fun m => topic ∈ m.topics).map (·.memberId)).Perm
      ((members'.filter fun m => topic ∈ m.topics).map (·.memberId)) := (hperm.filter _).map _
  have hsame : (subscribers members topic).Perm (subscribers members' topic) :=
    (List.perm_insertionSort _ _).trans (hids.trans (List.perm_insertionSort _ _).symm)
  exact hsame.eq_of_pairwise (fun _ _ _ _ => le_antisymm) (List.pairwise_insertionSort _ _)
    (List.pairwise_insertionSort _ _)

theorem pushBlock_congr (h : assignment.Equiv assignment') (topic id : String) (length : ℕ)
    (start : ℤ) :
    (pushBlock topic id length start assignment).Equiv
      (pushBlock topic id length start assignment') := by
  induction length generalizing start assignment assignment' with
  | zero => exact h
  | succ length ih => exact ih (push_congr h id ⟨topic, start⟩) (start + 1)

theorem assign_perm (hperm : members.Perm members') (hids : (members.map (·.memberId)).Nodup)
    (partitionsPerTopic : PartitionCounts) :
    (assign members partitionsPerTopic).Equiv (assign members' partitionsPerTopic) := by
  apply List.foldl_rel (r := fun a a' : Assignment => a.Equiv a') (seed_perm hperm hids)
  intro entry _ assignment assignment' h
  rw [assignTopic, assignTopic, subscribers_perm hperm]
  dsimp only
  split
  · exact h
  · apply List.foldl_rel (r := fun a a' : Assignment => a.Equiv a') h
    intro member _ assignment assignment' h
    exact pushBlock_congr h _ _ _ _

end RangeAssignor

theorem circularDeal_congr (h : assignment.Equiv assignment') (ring : List Subscription)
    (partitions : List TopicPartition) :
    (circularDeal assignment ring partitions).Equiv
      (circularDeal assignment' ring partitions) := by
  induction partitions generalizing assignment assignment' ring with
  | nil => exact h
  | cons tp rest ih =>
      rw [circularDeal, circularDeal]
      split
      · exact ih h ring
      · next m after _ => exact ih (push_congr h m.memberId tp) _

theorem RoundRobinAssignor.assign_perm (hperm : members.Perm members')
    (hids : (members.map (·.memberId)).Nodup) (partitionsPerTopic : PartitionCounts) :
    (assign members partitionsPerTopic).Equiv (assign members' partitionsPerTopic) := by
  have hwanted : wantedPartitions members partitionsPerTopic =
      wantedPartitions members' partitionsPerTopic := by
    rw [wantedPartitions, wantedPartitions]
    apply List.filter_congr
    intro tp _
    apply decide_eq_decide.mpr
    simp only [Subscribed, hperm.mem_iff]
  rw [assign_eq_circularAssign, assign_eq_circularAssign, circularAssign, circularAssign,
    sortedMembers_congr hperm hids, hwanted]
  exact circularDeal_congr (seed_perm hperm hids) _ _

namespace StickyAssignor

theorem highestGeneration_perm (hperm : members.Perm members') :
    highestGeneration members = highestGeneration members' := by
  have hmax : ∀ members : List Subscription,
      highestGeneration members = ((members.map (·.generation)).max?).getD (-1) := by
    intro members
    cases members with
    | nil => rfl
    | cons m members => rw [highestGeneration, List.map_cons, List.max?_cons', Option.getD_some,
        List.foldl_map]
  have hgenerations := hperm.map (·.generation)
  rw [hmax, hmax]
  cases hleft : (members.map (·.generation)).max? with
  | none =>
      rw [List.max?_eq_none_iff] at hleft
      rw [hleft] at hgenerations
      rw [← hgenerations.nil_eq]
      rfl
  | some g =>
      rw [List.max?_eq_some_iff] at hleft
      have hright : (members'.map (·.generation)).max? = some g := by
        rw [List.max?_eq_some_iff]
        exact ⟨hgenerations.mem_iff.mp hleft.1, fun g' hg' =>
          hleft.2 g' (hgenerations.mem_iff.mpr hg')⟩
      rw [hright]

theorem liveClaims_perm (hperm : members.Perm members')
    (hids : (members.map (·.memberId)).Nodup) :
    (liveClaims members).Equiv (liveClaims members') := by
  rw [liveClaims, liveClaims, highestGeneration_perm hperm]
  exact foldl_insert_perm _ hperm hids .rfl

/-- Kept partitions that differ in how the map was built. -/
def Kept.Alike (kept kept' : Kept) : Prop :=
  kept.taken = kept'.taken ∧ kept.assignment.Equiv kept'.assignment

theorem keepClaims_congr {kept kept' : Kept} (h : kept.Alike kept')
    (valid : List TopicPartition) (m : Subscription) (quota : ℕ) (claims : List TopicPartition) :
    (keepClaims valid m quota claims kept).Alike (keepClaims valid m quota claims kept') := by
  induction claims generalizing kept kept' with
  | nil => exact h
  | cons tp claims ih =>
      rw [keepClaims, keepClaims, h.2.getD_eq, h.1]
      split
      · exact h
      · split
        · exact ih ⟨rfl, push_congr h.2 m.memberId tp⟩
        · exact ih h

theorem keepAll_congr {kept kept' : Kept} (h : kept.Alike kept') (valid : List TopicPartition)
    (sorted : List Subscription) {claims claims' : Std.TreeMap String (List TopicPartition)}
    (hclaims : claims.Equiv claims') :
    (keepAll valid sorted claims kept).Alike (keepAll valid sorted claims' kept') := by
  apply List.foldl_rel (r := Kept.Alike) h
  intro m _ kept kept' h
  rw [hclaims.getD_eq]
  exact keepClaims_congr h valid m _ _

theorem lightest_congr (h : assignment.Equiv assignment') (candidates : List Subscription) :
    lightest assignment candidates = lightest assignment' candidates := by
  induction candidates with
  | nil => rfl
  | cons m candidates ih =>
      have hlighter : ∀ m' m, lighter assignment m' m = lighter assignment' m' m := by
        intro m' m
        rw [lighter, lighter, h.getD_eq, h.getD_eq]
      rw [lightest, lightest, ih]
      simp only [hlighter]

theorem dealLightest_congr (h : assignment.Equiv assignment') (sorted : List Subscription)
    (tp : TopicPartition) :
    (dealLightest sorted assignment tp).Equiv (dealLightest sorted assignment' tp) := by
  rw [dealLightest, dealLightest, lightest_congr h]
  split
  · exact h
  · exact push_congr h _ tp

theorem assign_perm (hperm : members.Perm members') (hids : (members.map (·.memberId)).Nodup)
    (partitionsPerTopic : PartitionCounts) :
    (assign members partitionsPerTopic).Equiv (assign members' partitionsPerTopic) := by
  rw [assign, assign, ← sortedMembers_congr hperm hids]
  dsimp only
  split
  · exact seed_perm hperm hids
  · have hseed : Kept.Alike ⟨∅, .seed members⟩ ⟨∅, .seed members'⟩ :=
      ⟨rfl, seed_perm hperm hids⟩
    have hkept := keepAll_congr hseed (allPartitions partitionsPerTopic) (sortedMembers members)
      (liveClaims_perm hperm hids)
    rw [hkept.1]
    apply Std.TreeMap.Equiv.map
    apply List.foldl_rel (r := fun a a' : Assignment => a.Equiv a') hkept.2
    intro tp _ assignment assignment' h
    exact dealLightest_congr h _ tp

end StickyAssignor

/-! ### Both at once -/

/-- The member with its topics listed once each, in order. -/
def Subscription.normal (m : Subscription) : Subscription :=
  { m with topics := m.topics.toFinset.sort (· ≤ ·) }

theorem sameMember_normal (m : Subscription) : SameMember m.normal m where
  memberId := rfl
  owned := rfl
  generation := rfl
  topics topic := by simp [Subscription.normal]

theorem SameMember.normal_eq {m m' : Subscription} (h : SameMember m m') :
    m.normal = m'.normal := by
  have htopics : m.topics.toFinset = m'.topics.toFinset := by
    ext topic
    rw [List.mem_toFinset, List.mem_toFinset, h.topics]
  rcases m with ⟨memberId, topics, owned, generation⟩
  rcases m' with ⟨memberId', topics', owned', generation'⟩
  obtain ⟨rfl, rfl, rfl, -⟩ := h
  rw [Subscription.normal, Subscription.normal, htopics]

theorem map_normal_eq (h : List.Forall₂ SameMember members members') :
    members.map Subscription.normal = members'.map Subscription.normal := by
  induction h with
  | nil => rfl
  | cons hm _ ih => rw [List.map_cons, List.map_cons, hm.normal_eq, ih]

/-- **One group, one assignment.** The members in any order, each with its topics in any
order and any number of times, are assigned the same partitions. -/
theorem assignors_agree (members reordered members' : List Subscription)
    (hperm : members.Perm reordered) (hsame : List.Forall₂ SameMember reordered members')
    (hdistinct : (members.map (·.memberId)).Nodup) (partitionsPerTopic : PartitionCounts) :
    ∀ assignor ∈ [rangeAssignor, roundRobinAssignor, stickyAssignor],
      (assignor.assign members partitionsPerTopic).toList =
        (assignor.assign members' partitionsPerTopic).toList := by
  have hnormal : (members.map Subscription.normal).Perm (members'.map Subscription.normal) := by
    rw [← map_normal_eq hsame]
    exact hperm.map Subscription.normal
  have hids : ((members.map Subscription.normal).map (·.memberId)).Nodup := by
    rw [List.map_map]
    exact hdistinct
  intro assignor hassignor
  simp only [List.mem_cons, List.not_mem_nil, or_false] at hassignor
  rcases hassignor with rfl | rfl | rfl
  · have h := RangeAssignor.assign_perm hnormal hids partitionsPerTopic
    rw [RangeAssignor.assign_map sameMember_normal, RangeAssignor.assign_map sameMember_normal] at h
    exact h.toList_eq
  · have h := RoundRobinAssignor.assign_perm hnormal hids partitionsPerTopic
    rw [RoundRobinAssignor.assign_map sameMember_normal,
      RoundRobinAssignor.assign_map sameMember_normal] at h
    exact h.toList_eq
  · have h := StickyAssignor.assign_perm hnormal hids partitionsPerTopic
    rw [StickyAssignor.assign_map sameMember_normal,
      StickyAssignor.assign_map sameMember_normal] at h
    exact h.toList_eq

/-- The pair of members in the other order, with its topics in another order and one of
them twice. -/
def unequalPair' : List Subscription := [⟨"c0", ["a", "a"], [], -1⟩, ⟨"c1", ["b", "a"], [], -1⟩]

theorem assignors_agree_pair :
    (stickyAssignor.assign unequalPair' threeTopics).toList =
        [("c0", [⟨"a", 0⟩]), ("c1", [⟨"a", 1⟩, ⟨"b", 0⟩, ⟨"b", 1⟩])] ∧
      ∀ assignor ∈ [rangeAssignor, roundRobinAssignor, stickyAssignor],
        (assignor.assign unequalPair threeTopics).toList =
          (assignor.assign unequalPair' threeTopics).toList := by
  have hsame : List.Forall₂ SameMember unequalPair.reverse unequalPair' :=
    .cons ⟨rfl, rfl, rfl, by simp⟩ (.cons ⟨rfl, rfl, rfl, by simp [or_comm]⟩ .nil)
  exact ⟨by decide, assignors_agree unequalPair unequalPair.reverse unequalPair'
    (List.reverse_perm _).symm hsame (by decide) threeTopics⟩

end Barnabas.Core
