import Barnabas.Core.Placement
import Mathlib.Algebra.Order.BigOperators.Group.List
import Mathlib.Algebra.Order.Monoid.Unbundled.Basic

/-!
The cooperative handover converges in two rounds.

If all members want the same topics, they have the same quota, and dealing what is
left to whoever holds fewest never exceeds it: as long as something is left,
somebody has room. So what round one published to a member fits its quota in round
two, where every claim is kept, nothing is withheld, and the rest is dealt out.
-/

namespace Barnabas.Core

open Barnabas.Lib

variable {members : List Subscription} {done : Set TopicPartition} {assignment : Assignment}

theorem sortedMembers_perm (members : List Subscription) : (sortedMembers members).Perm members :=
  List.perm_insertionSort _ _

/-! ### Counting what has been dealt -/

theorem Dealt.nodup (h : Dealt members done assignment) (id : String) :
    (assignment.getD id []).Nodup := by
  refine List.nodup_iff_count_le_one.mpr fun tp => ?_
  by_cases htp : tp ∈ assignment.getD id []
  · obtain ⟨m, _, _, hcount⟩ := h.once tp (h.only id tp htp)
    rw [hcount]
    split <;> omega
  · rw [List.count_eq_zero.mpr htp]
    omega

/-- A partition is in one list only. -/
theorem Dealt.unique (h : Dealt members done assignment) {id id' : String} {tp : TopicPartition}
    (hid : tp ∈ assignment.getD id []) (hid' : tp ∈ assignment.getD id' []) : id = id' := by
  obtain ⟨m, _, _, hcount⟩ := h.once tp (h.only id tp hid)
  have hmem : ∀ i, tp ∈ assignment.getD i [] → i = m.memberId := by
    intro i hi
    by_contra hne
    have hzero := hcount i
    rw [if_neg hne] at hzero
    exact List.count_eq_zero.mp hzero hi
  rw [hmem id hid, hmem id' hid']

theorem Dealt.nodup_flatMap (h : Dealt members done assignment)
    (hids : (members.map (·.memberId)).Nodup) :
    (members.flatMap fun m => assignment.getD m.memberId []).Nodup := by
  rw [List.nodup_flatMap]
  refine ⟨fun m _ => h.nodup m.memberId, ?_⟩
  refine (List.pairwise_map.mp hids).imp fun hne => ?_
  intro tp hm hm'
  exact hne (h.unique hm hm')

/-- As long as something that is wanted is left, somebody is below the quota. -/
theorem Dealt.exists_room (h : Dealt members done assignment)
    (hids : (members.map (·.memberId)).Nodup) {wanted : List TopicPartition}
    (hdone : ∀ tp ∈ done, tp ∈ wanted) {tp : TopicPartition} (htp : tp ∈ wanted) (hnew : tp ∉ done)
    {quota : ℕ} (hquota : wanted.length ≤ members.length * quota) :
    ∃ m ∈ members, (assignment.getD m.memberId []).length < quota := by
  by_contra hfull
  push Not at hfull
  have hsum : members.length * quota ≤
      (members.flatMap fun m => assignment.getD m.memberId []).length := by
    rw [List.length_flatMap]
    have hle := List.card_nsmul_le_sum
      (members.map fun m => (assignment.getD m.memberId []).length) quota (by
        intro n hn
        obtain ⟨m, hm, rfl⟩ := List.mem_map.mp hn
        exact hfull m hm)
    simpa using hle
  have hdealt : (tp :: members.flatMap fun m => assignment.getD m.memberId []).length ≤
      wanted.length := by
    refine (List.subperm_of_subset ?_ ?_).length_le
    · refine List.nodup_cons.mpr ⟨fun hmem => ?_, h.nodup_flatMap hids⟩
      obtain ⟨m, _, hm⟩ := List.mem_flatMap.mp hmem
      exact hnew (h.only _ _ hm)
    · intro t ht
      rcases List.mem_cons.mp ht with rfl | ht
      · exact htp
      · obtain ⟨m, _, hm⟩ := List.mem_flatMap.mp ht
        exact hdone t (h.only _ _ hm)
  rw [List.length_cons] at hdealt
  omega

/-! ### The quota -/

/-- All members subscribe to the same topics. -/
def SameTopics (members : List Subscription) : Prop :=
  ∀ m ∈ members, ∀ m' ∈ members, ∀ topic, topic ∈ m.topics ↔ topic ∈ m'.topics

namespace StickyAssignor

variable {valid : List TopicPartition} {quota : ℕ}

/-- The partitions a member wants. -/
def wantedBy (valid : List TopicPartition) (m : Subscription) : List TopicPartition :=
  valid.filter fun tp => tp.topic ∈ m.topics

theorem quotaOf_congr (sorted : List Subscription) {m m' : Subscription}
    (h : ∀ topic, topic ∈ m.topics ↔ topic ∈ m'.topics) :
    quotaOf valid sorted m = quotaOf valid sorted m' := by
  unfold quotaOf
  simp only [h]

theorem wantedBy_le_quota {m : Subscription} (hm : m ∈ members) :
    (wantedBy valid m).length ≤ members.length * quotaOf valid (sortedMembers members) m := by
  have hsharers : max ((sortedMembers members).filter fun m' =>
      m'.topics.any (· ∈ m.topics)).length 1 ≤ members.length := by
    refine max_le ?_ (List.length_pos_of_mem hm)
    exact (List.length_filter_le _ _).trans_eq (sortedMembers_perm members).length_eq
  refine le_trans ?_ (Nat.mul_le_mul_right _ hsharers)
  unfold quotaOf
  generalize hs : max ((sortedMembers members).filter fun m' =>
    m'.topics.any (· ∈ m.topics)).length 1 = sharers
  have hpos : 0 < sharers := by omega
  have hdiv := Nat.div_add_mod ((wantedBy valid m).length + sharers - 1) sharers
  have hmod := Nat.mod_lt ((wantedBy valid m).length + sharers - 1) hpos
  show _ ≤ sharers * (((wantedBy valid m).length + sharers - 1) / sharers)
  omega

/-! ### Nobody gets more than the quota -/

theorem keepClaims_load {m : Subscription} {claims : List TopicPartition} {kept : Kept}
    (h : ∀ id, (kept.assignment.getD id []).length ≤ quota) (hm : m.memberId ∈ kept.assignment) :
    ∀ id, ((keepClaims valid m quota claims kept).assignment.getD id []).length ≤ quota := by
  induction claims generalizing kept with
  | nil => exact h
  | cons tp claims ih =>
      rw [keepClaims]
      split
      · exact h
      · next hroom =>
          split
          · refine ih (fun id => ?_) ?_
            · rw [getD_push hm]
              split
              · next heq =>
                  subst heq
                  rw [List.length_append, List.length_singleton]
                  omega
              · exact h id
            · exact Std.TreeMap.mem_modify.mpr hm
          · exact ih h hm

theorem keys_keepClaims (m : Subscription) (quota : ℕ) (claims : List TopicPartition) (kept : Kept)
    (id : String) : id ∈ (keepClaims valid m quota claims kept).assignment ↔ id ∈ kept.assignment := by
  induction claims generalizing kept with
  | nil => rfl
  | cons tp claims ih =>
      rw [keepClaims]
      split
      · rfl
      · split
        · rw [ih]
          exact Std.TreeMap.mem_modify
        · exact ih kept

theorem keepAll_load {sorted queue : List Subscription}
    {claims : Std.TreeMap String (List TopicPartition)} {kept : Kept}
    (hquota : ∀ m ∈ queue, quotaOf valid sorted m = quota)
    (h : ∀ id, (kept.assignment.getD id []).length ≤ quota)
    (hkeys : ∀ m ∈ queue, m.memberId ∈ kept.assignment) :
    ∀ id, ((queue.foldl (fun kept member => keepClaims valid member (quotaOf valid sorted member)
      (claims.getD member.memberId []) kept) kept).assignment.getD id []).length ≤ quota := by
  induction queue generalizing kept with
  | nil => exact h
  | cons m queue ih =>
      have hm := hquota m List.mem_cons_self
      refine ih (fun m' hm' => hquota m' (List.mem_cons_of_mem _ hm')) ?_ fun m' hm' => ?_
      · beta_reduce
        rw [hm]
        exact keepClaims_load h (hkeys m List.mem_cons_self)
      · beta_reduce
        rw [keys_keepClaims]
        exact hkeys m' (List.mem_cons_of_mem _ hm')

theorem lightest_le {m : Subscription} {candidates : List Subscription}
    (h : lightest assignment candidates = some m) : ∀ m' ∈ candidates,
      (assignment.getD m.memberId []).length ≤ (assignment.getD m'.memberId []).length := by
  induction candidates generalizing m with
  | nil => simp [lightest] at h
  | cons first rest ih =>
      rw [lightest] at h
      split at h
      · next hnone =>
          obtain rfl := Option.some.inj h
          rw [lightest_eq_none hnone]
          simp
      · next best hbest =>
          have hrest := ih hbest
          split at h
          · next hlighter =>
              obtain rfl := Option.some.inj h
              intro m' hm'
              rcases List.mem_cons.mp hm' with rfl | hm'
              · simp only [lighter, decide_eq_true_eq] at hlighter
                omega
              · exact hrest m' hm'
          · next hheavier =>
              obtain rfl := Option.some.inj h
              intro m' hm'
              rcases List.mem_cons.mp hm' with rfl | hm'
              · exact le_rfl
              · have hle := hrest m' hm'
                simp only [lighter, decide_eq_true_eq] at hheavier
                omega

/-- Dealing a partition to whoever holds fewest keeps everybody within the quota. -/
theorem dealLightest_load (hids : (members.map (·.memberId)).Nodup) (hagree : SameTopics members)
    {m₀ : Subscription} (hm₀ : m₀ ∈ members) (h : Dealt members done assignment)
    (hdone : ∀ tp ∈ done, tp ∈ wantedBy valid m₀) {tp : TopicPartition} (hvalid : tp ∈ valid)
    (hnew : tp ∉ done) (hquota : (wantedBy valid m₀).length ≤ members.length * quota)
    (hload : ∀ id, (assignment.getD id []).length ≤ quota) :
    ∀ id, ((dealLightest (sortedMembers members) assignment tp).getD id []).length ≤ quota := by
  rw [dealLightest]
  split
  · exact hload
  · next m hm =>
      obtain ⟨hmem, htopic⟩ := List.mem_filter.mp (lightest_mem hm)
      have hmem : m ∈ members := mem_sortedMembers.mp hmem
      have htopic : tp.topic ∈ m.topics := by simpa using htopic
      have hwanted : tp ∈ wantedBy valid m₀ :=
        List.mem_filter.mpr ⟨hvalid, by simpa using (hagree m hmem m₀ hm₀ _).mp htopic⟩
      obtain ⟨m', hm', hroom⟩ := h.exists_room hids hdone hwanted hnew hquota
      have hcandidate : m' ∈ (sortedMembers members).filter fun m => tp.topic ∈ m.topics :=
        List.mem_filter.mpr ⟨mem_sortedMembers.mpr hm',
          by simpa using (hagree m hmem m' hm' _).mp htopic⟩
      have hle := lightest_le hm m' hcandidate
      intro id
      rw [getD_push ((h.keys _).mpr (List.mem_map_of_mem hmem))]
      split
      · next heq =>
          subst heq
          rw [List.length_append, List.length_singleton]
          omega
      · exact hload id

theorem dealAll_load (hids : (members.map (·.memberId)).Nodup) (hagree : SameTopics members)
    {m₀ : Subscription} (hm₀ : m₀ ∈ members) {rest : List TopicPartition} (hnodup : rest.Nodup)
    (hrest : ∀ tp ∈ rest, tp ∈ valid ∧ tp ∉ done) (h : Dealt members done assignment)
    (hdone : ∀ tp ∈ done, tp ∈ wantedBy valid m₀)
    (hquota : (wantedBy valid m₀).length ≤ members.length * quota)
    (hload : ∀ id, (assignment.getD id []).length ≤ quota) :
    ∀ id, ((rest.foldl (dealLightest (sortedMembers members)) assignment).getD id []).length ≤
      quota := by
  induction rest generalizing done assignment with
  | nil => exact hload
  | cons tp rest ih =>
      obtain ⟨hfirst, hnodup⟩ := List.nodup_cons.mp hnodup
      obtain ⟨hvalid, hnew⟩ := hrest tp List.mem_cons_self
      refine ih hnodup ?_ (dealLightest_dealt assignment tp done h hnew) ?_
        (dealLightest_load hids hagree hm₀ h hdone hvalid hnew hquota hload)
      · intro t ht
        obtain ⟨htvalid, htnew⟩ := hrest t (List.mem_cons_of_mem _ ht)
        refine ⟨htvalid, ?_⟩
        rintro (hdone | ⟨rfl, _⟩)
        · exact htnew hdone
        · exact hfirst ht
      · rintro t (ht | ⟨rfl, m, hm, htopic⟩)
        · exact hdone t ht
        · exact List.mem_filter.mpr ⟨hvalid, by simpa using (hagree m hm m₀ hm₀ _).mp htopic⟩

/-- What is kept before the rest is dealt out. -/
def keptOf (members : List Subscription) (valid : List TopicPartition) : Kept :=
  keepAll valid (sortedMembers members) (liveClaims members) ⟨∅, .seed members⟩

theorem assign_eq (hne : members ≠ []) (partitionsPerTopic : PartitionCounts) :
    let valid := allPartitions partitionsPerTopic
    assign members partitionsPerTopic =
      ((valid.filter fun tp => tp ∉ (keptOf members valid).taken).foldl
        (dealLightest (sortedMembers members)) (keptOf members valid).assignment).map
          fun _ => sortPartitions := by
  intro valid
  rw [assign, if_neg]
  · rfl
  · intro hempty
    have hlen := (sortedMembers_perm members).length_eq
    rw [List.isEmpty_iff.mp hempty] at hlen
    exact hne (List.length_eq_zero_iff.mp hlen.symm)

theorem keptOf_valid (members : List Subscription) (valid : List TopicPartition) :
    KeepsValid members valid (keptOf members valid) :=
  KeepsValid.keepAll (fun _ hm => mem_sortedMembers.mp hm) (liveClaims members)
    ⟨(Dealt.seed members).congr (by simp), by simp⟩

/-- If the members agree on the topics, nobody is given more than the quota. -/
theorem assign_load (hids : (members.map (·.memberId)).Nodup) (hagree : SameTopics members)
    {m₀ : Subscription} (hm₀ : m₀ ∈ members) (partitionsPerTopic : PartitionCounts) (id : String) :
    ((assign members partitionsPerTopic).getD id []).length ≤
      quotaOf (allPartitions partitionsPerTopic) (sortedMembers members) m₀ := by
  have hkept := keptOf_valid members (allPartitions partitionsPerTopic)
  rw [assign_eq (List.ne_nil_of_mem hm₀), (getD_sorted_perm _ id).length_eq]
  refine dealAll_load hids hagree hm₀ ((nodup_allPartitions partitionsPerTopic).filter _) ?_
    hkept.dealt ?_ (wantedBy_le_quota hm₀) ?_ id
  · intro tp htp
    simpa using List.mem_filter.mp htp
  · intro tp htp
    obtain ⟨hvalid, m, hm, htopic⟩ := hkept.valid tp htp
    exact List.mem_filter.mpr ⟨hvalid, by simpa using (hagree m hm m₀ hm₀ _).mp htopic⟩
  · refine keepAll_load (fun m hm => ?_) (fun id => ?_) fun m hm => ?_
    · exact quotaOf_congr _ (hagree m (mem_sortedMembers.mp hm) m₀ hm₀)
    · rw [List.eq_nil_iff_forall_not_mem.mpr fun tp htp =>
        absurd ((Dealt.seed members).only id tp htp) (Set.notMem_empty _)]
      exact Nat.zero_le _
    · exact ((Dealt.seed members).keys _).mpr (List.mem_map_of_mem (mem_sortedMembers.mp hm))

/-! ### Every claim within the quota is kept -/

theorem keepClaims_of_ne {m : Subscription} {claims : List TopicPartition} {kept : Kept}
    {id : String} (hm : m.memberId ∈ kept.assignment) (hne : id ≠ m.memberId) :
    (keepClaims valid m quota claims kept).assignment.getD id [] = kept.assignment.getD id [] := by
  induction claims generalizing kept with
  | nil => rfl
  | cons tp claims ih =>
      rw [keepClaims]
      split
      · rfl
      · split
        · rw [ih (Std.TreeMap.mem_modify.mpr hm), getD_push hm, if_neg hne]
        · exact ih hm

/-- What a member with so much room keeps of its claims, going through them in order:
those that exist, that nobody has taken and that it subscribes to. -/
def keeps (valid : List TopicPartition) (m : Subscription) :
    List TopicPartition → ℕ → Finset TopicPartition → List TopicPartition
  | [], _, _ => []
  | tp :: claims, room, taken =>
      if room = 0 then []
      else if tp ∈ valid ∧ tp ∉ taken ∧ tp.topic ∈ m.topics then
        tp :: keeps valid m claims (room - 1) (insert tp taken)
      else keeps valid m claims room taken

theorem keepClaims_eq (valid : List TopicPartition) (quota : ℕ) {m : Subscription}
    (claims : List TopicPartition) {kept : Kept} (hm : m.memberId ∈ kept.assignment) :
    let own := keeps valid m claims (quota - (kept.assignment.getD m.memberId []).length) kept.taken
    (keepClaims valid m quota claims kept).assignment.getD m.memberId [] =
        kept.assignment.getD m.memberId [] ++ own ∧
      (keepClaims valid m quota claims kept).taken = kept.taken ∪ own.toFinset := by
  induction claims generalizing kept with
  | nil => simp [keepClaims, keeps]
  | cons tp claims ih =>
      rw [keepClaims, keeps]
      by_cases hfull : quota ≤ (kept.assignment.getD m.memberId []).length
      · rw [if_pos hfull, if_pos (by omega)]
        simp
      rw [if_neg hfull, if_neg (by omega)]
      by_cases hgood : tp ∈ valid ∧ tp ∉ kept.taken ∧ tp.topic ∈ m.topics
      · rw [if_pos hgood, if_pos hgood]
        let kept' : Kept := ⟨insert tp kept.taken, kept.assignment.push m.memberId tp⟩
        have hpush : kept'.assignment.getD m.memberId [] =
            kept.assignment.getD m.memberId [] ++ [tp] := by
          rw [getD_push hm, if_pos rfl]
        have hm' : m.memberId ∈ kept'.assignment := Std.TreeMap.mem_modify.mpr hm
        obtain ⟨hlist, htaken⟩ := ih hm'
        rw [hpush, List.length_append, List.length_singleton, ← Nat.sub_sub] at hlist htaken
        refine ⟨?_, ?_⟩
        · rw [hlist, List.append_assoc]
          rfl
        · rw [htaken]
          ext t
          simp [kept']
      · rw [if_neg hgood, if_neg hgood]
        exact ih hm

/-- What the members of a queue keep, one after the other. -/
def shares (valid : List TopicPartition) (quota : Subscription → ℕ)
    (claims : Subscription → List TopicPartition) :
    List Subscription → Finset TopicPartition → List (List TopicPartition)
  | [], _ => []
  | m :: queue, taken =>
      let own := keeps valid m (claims m) (quota m) taken
      own :: shares valid quota claims queue (taken ∪ own.toFinset)

theorem keepAll_eq (valid : List TopicPartition) (sorted : List Subscription)
    {queue : List Subscription} (claims : Std.TreeMap String (List TopicPartition)) {kept : Kept}
    (hids : (queue.map (·.memberId)).Nodup) (hkeys : ∀ m ∈ queue, m.memberId ∈ kept.assignment)
    (hempty : ∀ m ∈ queue, kept.assignment.getD m.memberId [] = []) :
    let after := queue.foldl (fun kept member => keepClaims valid member
      (quotaOf valid sorted member) (claims.getD member.memberId []) kept) kept
    let lists := shares valid (quotaOf valid sorted) (fun m => claims.getD m.memberId []) queue
      kept.taken
    queue.map (fun m => after.assignment.getD m.memberId []) = lists ∧
      after.taken = kept.taken ∪ lists.flatten.toFinset := by
  -- the queue is worked off from the front; a member's list does not change afterwards
  have hlater : ∀ (queue : List Subscription) (kept : Kept) (id : String),
      (∀ m ∈ queue, m.memberId ∈ kept.assignment) → id ∉ queue.map (·.memberId) →
      (queue.foldl (fun kept member => keepClaims valid member (quotaOf valid sorted member)
        (claims.getD member.memberId []) kept) kept).assignment.getD id [] =
          kept.assignment.getD id [] := by
    intro queue
    induction queue with
    | nil => exact fun _ _ _ _ => rfl
    | cons m queue ih =>
        intro kept id hkeys hid
        rw [List.map_cons, List.mem_cons, not_or] at hid
        rw [List.foldl_cons, ih _ id _ hid.2,
          keepClaims_of_ne (hkeys m List.mem_cons_self) hid.1]
        intro m' hm'
        rw [keys_keepClaims]
        exact hkeys m' (List.mem_cons_of_mem _ hm')
  induction queue generalizing kept with
  | nil => simp [shares]
  | cons m queue ih =>
      rw [List.map_cons, List.nodup_cons] at hids
      have hm := hkeys m List.mem_cons_self
      obtain ⟨hlist, htaken⟩ := keepClaims_eq valid (quotaOf valid sorted m)
        (claims.getD m.memberId []) hm
      rw [hempty m List.mem_cons_self, List.length_nil, Nat.sub_zero] at hlist htaken
      rw [List.nil_append] at hlist
      have hkeys' : ∀ m' ∈ queue, m'.memberId ∈ (keepClaims valid m (quotaOf valid sorted m)
          (claims.getD m.memberId []) kept).assignment := fun m' hm' => by
        rw [keys_keepClaims]
        exact hkeys m' (List.mem_cons_of_mem _ hm')
      obtain ⟨hlists, hall⟩ := ih hids.2 hkeys' fun m' hm' => by
        rw [keepClaims_of_ne hm fun heq => hids.1 (heq ▸ List.mem_map_of_mem hm')]
        exact hempty m' (List.mem_cons_of_mem _ hm')
      rw [htaken] at hlists hall
      refine ⟨?_, ?_⟩
      · rw [List.map_cons, List.foldl_cons, hlater _ _ _ hkeys' hids.1, hlist, hlists]
        rfl
      · rw [List.foldl_cons, hall, shares, List.flatten_cons, List.toFinset_append,
          Finset.union_assoc]

/-- Claims that exist, are wanted and are nobody else's are kept as far as there is
room. -/
theorem keeps_eq_take {m : Subscription} {claims : List TopicPartition} {room : ℕ}
    {taken : Finset TopicPartition} (hnodup : claims.Nodup)
    (hclaims : ∀ tp ∈ claims, tp ∈ valid ∧ tp ∉ taken ∧ tp.topic ∈ m.topics) :
    keeps valid m claims room taken = claims.take room := by
  induction claims generalizing room taken with
  | nil => simp [keeps]
  | cons tp claims ih =>
      obtain ⟨hfirst, hnodup⟩ := List.nodup_cons.mp hnodup
      cases room with
      | zero => simp [keeps]
      | succ room =>
          rw [keeps, if_neg (by omega), if_pos (hclaims tp List.mem_cons_self), List.take_succ_cons,
            Nat.add_sub_cancel, ih hnodup]
          intro t ht
          obtain ⟨hvalid, hnew, htopic⟩ := hclaims t (List.mem_cons_of_mem _ ht)
          refine ⟨hvalid, fun hmem => ?_, htopic⟩
          rcases Finset.mem_insert.mp hmem with rfl | hmem
          · exact hfirst ht
          · exact hnew hmem

theorem shares_eq_take {quotas : Subscription → ℕ} {claims : Subscription → List TopicPartition}
    {queue : List Subscription} {taken : Finset TopicPartition}
    (hids : (queue.map (·.memberId)).Nodup)
    (hclaims : ∀ m ∈ queue, (claims m).Nodup ∧
      ∀ tp ∈ claims m, tp ∈ valid ∧ tp ∉ taken ∧ tp.topic ∈ m.topics)
    (hapart : ∀ m ∈ queue, ∀ m' ∈ queue, ∀ tp ∈ claims m, tp ∈ claims m' →
      m.memberId = m'.memberId) :
    shares valid quotas claims queue taken = queue.map fun m => (claims m).take (quotas m) := by
  induction queue generalizing taken with
  | nil => rfl
  | cons m queue ih =>
      rw [List.map_cons, List.nodup_cons] at hids
      obtain ⟨hnodup, hvalid⟩ := hclaims m List.mem_cons_self
      rw [shares, keeps_eq_take hnodup hvalid, List.map_cons, ih hids.2]
      · intro m' hm'
        obtain ⟨hnodup', hvalid'⟩ := hclaims m' (List.mem_cons_of_mem _ hm')
        refine ⟨hnodup', fun tp htp => ?_⟩
        obtain ⟨hv, hnew, htopic⟩ := hvalid' tp htp
        refine ⟨hv, fun hmem => ?_, htopic⟩
        rcases Finset.mem_union.mp hmem with hmem | hmem
        · exact hnew hmem
        · have heq := hapart m List.mem_cons_self m' (List.mem_cons_of_mem _ hm') tp
            (List.mem_of_mem_take (List.mem_toFinset.mp hmem)) htp
          exact hids.1 (heq ▸ List.mem_map_of_mem hm')
      · exact fun m₁ hm₁ m₂ hm₂ => hapart m₁ (List.mem_cons_of_mem _ hm₁) m₂
          (List.mem_cons_of_mem _ hm₂)

theorem mem_dealAll {sorted : List Subscription} {rest : List TopicPartition} {id : String}
    {tp : TopicPartition} (h : tp ∈ assignment.getD id []) :
    tp ∈ (rest.foldl (dealLightest sorted) assignment).getD id [] := by
  induction rest generalizing assignment with
  | nil => exact h
  | cons t rest ih =>
      refine ih ?_
      rw [dealLightest]
      split
      · exact h
      · next m _ =>
          by_cases hm : m.memberId ∈ assignment
          · rw [getD_push hm]
            split
            · exact List.mem_append_left _ h
            · exact h
          · rw [Assignment.push, Std.TreeMap.getD_modify]
            split
            · next heq =>
                rw [Std.LawfulEqCmp.compare_eq_iff_eq] at heq
                subst heq
                rw [Std.TreeMap.getD_eq_fallback hm] at h
                cases h
            · exact h

/-! ### Claims that are all of one generation -/

theorem getD_foldl_insert {f : Subscription → List TopicPartition}
    (claims : Std.TreeMap String (List TopicPartition)) (hids : (members.map (·.memberId)).Nodup)
    {m : Subscription} (hm : m ∈ members) :
    (members.foldl (fun claims m => claims.insert m.memberId (f m)) claims).getD m.memberId [] =
      f m := by
  have hlater : ∀ (members : List Subscription) (claims : Std.TreeMap String (List TopicPartition))
      (id : String), id ∉ members.map (·.memberId) →
      (members.foldl (fun claims m => claims.insert m.memberId (f m)) claims).getD id [] =
        claims.getD id [] := by
    intro members
    induction members with
    | nil => exact fun _ _ _ => rfl
    | cons first rest ih =>
        intro claims id hid
        rw [List.map_cons, List.mem_cons, not_or] at hid
        rw [List.foldl_cons, ih _ _ hid.2, Std.TreeMap.getD_insert, if_neg]
        rw [Std.LawfulEqCmp.compare_eq_iff_eq]
        exact fun h => hid.1 h.symm
  induction members generalizing claims with
  | nil => cases hm
  | cons first rest ih =>
      rw [List.map_cons, List.nodup_cons] at hids
      rcases List.mem_cons.mp hm with rfl | hm
      · rw [List.foldl_cons, hlater _ _ _ hids.1, Std.TreeMap.getD_insert,
          if_pos Std.ReflCmp.compare_self]
      · exact ih _ hids.2 hm

theorem highestGeneration_eq {generation : ℤ} {m : Subscription} (hm : m ∈ members)
    (h : ∀ m ∈ members, m.generation = generation) : highestGeneration members = generation := by
  cases members with
  | nil => cases hm
  | cons first rest =>
      have hfold : ∀ (rest : List Subscription), (∀ m ∈ rest, m.generation = generation) →
          rest.foldl (fun highest m => max highest m.generation) generation = generation := by
        intro rest
        induction rest with
        | nil => exact fun _ => rfl
        | cons m rest ih =>
            intro hrest
            rw [List.foldl_cons, hrest m List.mem_cons_self, max_self]
            exact ih fun m hm => hrest m (List.mem_cons_of_mem _ hm)
      rw [highestGeneration, h first List.mem_cons_self]
      exact hfold rest fun m hm => h m (List.mem_cons_of_mem _ hm)

/-- If all members are of one generation, every claim is believed. -/
theorem liveClaims_getD {generation : ℤ} (hgeneration : 0 ≤ generation)
    (h : ∀ m ∈ members, m.generation = generation) (hids : (members.map (·.memberId)).Nodup)
    {m : Subscription} (hm : m ∈ members) : (liveClaims members).getD m.memberId [] = m.owned := by
  rw [liveClaims, getD_foldl_insert _ hids hm, if_pos]
  rw [highestGeneration_eq hm h, h m hm]
  exact ⟨le_rfl, hgeneration⟩

/-- Before anything is dealt out, the members hold what they keep of their claims. -/
theorem keptOf_eq (valid : List TopicPartition) (hids : (members.map (·.memberId)).Nodup) :
    let lists := shares valid (quotaOf valid (sortedMembers members))
      (fun m => (liveClaims members).getD m.memberId []) (sortedMembers members) ∅
    (sortedMembers members).map (fun m => (keptOf members valid).assignment.getD m.memberId []) =
        lists ∧ (keptOf members valid).taken = lists.flatten.toFinset := by
  let start : Kept := ⟨∅, .seed members⟩
  have hids' : ((sortedMembers members).map (·.memberId)).Nodup :=
    ((sortedMembers_perm members).map _).nodup_iff.mpr hids
  have hkeys : ∀ m ∈ sortedMembers members, m.memberId ∈ start.assignment := fun m hm =>
    ((Dealt.seed members).keys _).mpr (List.mem_map_of_mem (mem_sortedMembers.mp hm))
  have hempty : ∀ m ∈ sortedMembers members, start.assignment.getD m.memberId [] = [] := fun m _ =>
    List.eq_nil_iff_forall_not_mem.mpr fun tp htp =>
      absurd ((Dealt.seed members).only m.memberId tp htp) (Set.notMem_empty _)
  obtain ⟨hlists, htaken⟩ := keepAll_eq valid (sortedMembers members) (liveClaims members) hids'
    hkeys hempty
  exact ⟨hlists, htaken.trans (Finset.empty_union _)⟩

/-- Claims of one generation that are disjoint and valid. -/
structure Settled (members : List Subscription) (partitionsPerTopic : PartitionCounts)
    (generation : ℤ) : Prop where
  ids : (members.map (·.memberId)).Nodup
  current : 0 ≤ generation
  generations : ∀ m ∈ members, m.generation = generation
  nodup : ∀ m ∈ members, m.owned.Nodup
  valid : ∀ m ∈ members, ∀ tp ∈ m.owned, tp ∈ allPartitions partitionsPerTopic ∧ tp.topic ∈ m.topics
  apart : ∀ m ∈ members, ∀ m' ∈ members, ∀ tp ∈ m.owned, tp ∈ m'.owned → m.memberId = m'.memberId

/-- If the claims are disjoint and valid, everybody keeps its claims up to its quota. -/
theorem Settled.keptOf {partitionsPerTopic : PartitionCounts} {generation : ℤ}
    (h : Settled members partitionsPerTopic generation) :
    let valid := allPartitions partitionsPerTopic
    let kept := StickyAssignor.keptOf members valid
    (∀ m ∈ members, kept.assignment.getD m.memberId [] =
      m.owned.take (quotaOf valid (sortedMembers members) m)) ∧
      ∀ tp, tp ∈ kept.taken ↔
        ∃ m ∈ members, tp ∈ m.owned.take (quotaOf valid (sortedMembers members) m) := by
  intro valid kept
  have hlive : ∀ m ∈ sortedMembers members, (liveClaims members).getD m.memberId [] = m.owned :=
    fun m hm => liveClaims_getD h.current h.generations h.ids (mem_sortedMembers.mp hm)
  have hshares : shares valid (quotaOf valid (sortedMembers members))
      (fun m => (liveClaims members).getD m.memberId []) (sortedMembers members) ∅ =
        (sortedMembers members).map fun m =>
          m.owned.take (quotaOf valid (sortedMembers members) m) := by
    rw [shares_eq_take]
    · exact List.map_congr_left fun m hm => by rw [hlive m hm]
    · exact ((sortedMembers_perm members).map _).nodup_iff.mpr h.ids
    · intro m hm
      rw [hlive m hm]
      have hm := mem_sortedMembers.mp hm
      exact ⟨h.nodup m hm, fun tp htp =>
        ⟨(h.valid m hm tp htp).1, Finset.notMem_empty _, (h.valid m hm tp htp).2⟩⟩
    · intro m hm m' hm' tp htp htp'
      rw [hlive m hm] at htp
      rw [hlive m' hm'] at htp'
      exact h.apart m (mem_sortedMembers.mp hm) m' (mem_sortedMembers.mp hm') tp htp htp'
  obtain ⟨hlists, htaken⟩ := keptOf_eq valid h.ids
  rw [hshares] at hlists htaken
  refine ⟨fun m hm => List.map_inj_left.mp hlists m (mem_sortedMembers.mpr hm), fun tp => ?_⟩
  rw [htaken, List.mem_toFinset, ← List.flatMap_def, List.mem_flatMap]
  simp only [mem_sortedMembers]

/-- If the claims are also within the quota, everybody keeps everything. -/
theorem Settled.owned_mem_assign {partitionsPerTopic : PartitionCounts} {generation : ℤ}
    (h : Settled members partitionsPerTopic generation) {m : Subscription} (hm : m ∈ members)
    (hquota : m.owned.length ≤ quotaOf (allPartitions partitionsPerTopic) (sortedMembers members) m)
    {tp : TopicPartition} (htp : tp ∈ m.owned) :
    tp ∈ (assign members partitionsPerTopic).getD m.memberId [] := by
  rw [assign_eq (List.ne_nil_of_mem hm), (getD_sorted_perm _ _).mem_iff]
  refine mem_dealAll ?_
  rw [h.keptOf.1 m hm, List.take_of_length_le hquota]
  exact htp

end StickyAssignor

/-! ### Withholding -/

namespace CooperativeStickyAssignor

theorem getD_publish (owner : PartitionMap String) (target : Assignment) (id : String) :
    (publish owner target).getD id [] =
      (target.getD id []).filter fun tp => (owner[tp]?).all (· = id) := by
  rw [publish, Std.TreeMap.getD_eq_getD_getElem?, Std.TreeMap.getD_eq_getD_getElem?,
    Std.TreeMap.getElem?_map]
  cases target[id]? <;> rfl

/-- The last member in the list that claims the partition. -/
def lastClaimant (members : List Subscription) (tp : TopicPartition) : Option String :=
  (members.filter fun m => tp ∈ m.owned).getLast?.map (·.memberId)

/-- Each claim replaces the ones before it. -/
theorem getElem?_owners (members : List Subscription) (tp : TopicPartition) :
    (owners members)[tp]? = lastClaimant members tp := by
  have hclaims : ∀ (id : String) (claims : List TopicPartition) (owner : PartitionMap String),
      (claims.foldl (fun owner tp => owner.insert tp id) owner)[tp]? =
        if tp ∈ claims then some id else owner[tp]? := by
    intro id claims
    induction claims with
    | nil => simp
    | cons t claims ih =>
        intro owner
        rw [List.foldl_cons, ih, Std.TreeMap.getElem?_insert]
        by_cases htp : tp ∈ claims
        · simp [htp]
        · by_cases heq : t = tp
          · simp [heq]
          · rw [if_neg htp, if_neg, if_neg]
            · simpa [htp] using fun h => heq h.symm
            · rwa [Std.LawfulEqCmp.compare_eq_iff_eq]
  induction members using List.reverseRecOn with
  | nil => simp [owners, lastClaimant]
  | append_singleton members m ih =>
      rw [owners] at ih ⊢
      rw [List.foldl_append, List.foldl_cons, List.foldl_nil, hclaims, ih, lastClaimant, lastClaimant,
        List.filter_append]
      by_cases htp : tp ∈ m.owned <;> simp [htp]

/-- Who is taken for the owner of a partition claims it. -/
theorem mem_owned_of_owners {tp : TopicPartition} {id : String}
    (h : (owners members)[tp]? = some id) : ∃ m ∈ members, m.memberId = id ∧ tp ∈ m.owned := by
  rw [getElem?_owners, lastClaimant, Option.map_eq_some_iff] at h
  obtain ⟨m, hlast, rfl⟩ := h
  obtain ⟨hm, htp⟩ := List.mem_filter.mp (List.mem_of_getLast? hlast)
  exact ⟨m, hm, rfl, by simpa using htp⟩

/-- If everybody keeps what it claims, nothing is withheld. -/
theorem publish_eq_of_kept {target : Assignment} (hdealt : Dealt members done target)
    (hkept : ∀ m ∈ members, ∀ tp ∈ m.owned, tp ∈ target.getD m.memberId []) (id : String) :
    (publish (owners members) target).getD id [] = target.getD id [] := by
  rw [getD_publish, List.filter_eq_self]
  intro tp htp
  rcases howner : (owners members)[tp]? with _ | id'
  · rfl
  · obtain ⟨m, hm, rfl, howned⟩ := mem_owned_of_owners howner
    simpa using hdealt.unique (hkept m hm tp howned) htp

end CooperativeStickyAssignor

/-- A member when it joins again, claiming what was published to it. -/
def rejoinedAs (published : Assignment) (generation : ℤ) (m : Subscription) : Subscription :=
  { m with owned := published.getD m.memberId [], generation }

def rejoined (members : List Subscription) (published : Assignment) (generation : ℤ) :
    List Subscription :=
  members.map (rejoinedAs published generation)

theorem quotaOf_rejoined (valid : List TopicPartition) (members : List Subscription)
    (published : Assignment) (generation : ℤ) (m : Subscription) :
    StickyAssignor.quotaOf valid (sortedMembers (rejoined members published generation))
        (rejoinedAs published generation m) =
      StickyAssignor.quotaOf valid (sortedMembers members) m := by
  have hsharers : ((sortedMembers (rejoined members published generation)).filter fun m' =>
      m'.topics.any (· ∈ m.topics)).length =
        ((sortedMembers members).filter fun m' => m'.topics.any (· ∈ m.topics)).length := by
    rw [((sortedMembers_perm _).filter _).length_eq, ((sortedMembers_perm members).filter _).length_eq,
      rejoined, List.filter_map, List.length_map]
    rfl
  exact congrArg (fun sharers => ((valid.filter fun tp => tp.topic ∈ m.topics).length +
    max sharers 1 - 1) / max sharers 1) hsharers

/-- Members that were given a part of what a sticky assignment gave them claim it
rightly when they join again. -/
theorem settled_rejoined (hids : (members.map (·.memberId)).Nodup)
    {partitionsPerTopic : PartitionCounts} {published : Assignment} {generation : ℤ}
    (hgeneration : 0 ≤ generation)
    (hpart : ∀ id, (published.getD id []).Sublist
      ((StickyAssignor.assign members partitionsPerTopic).getD id [])) :
    StickyAssignor.Settled (rejoined members published generation) partitionsPerTopic generation := by
  have hdealt : Dealt members (Wanted members partitionsPerTopic)
      (StickyAssignor.assign members partitionsPerTopic) :=
    StickyAssignor.assign_dealt members partitionsPerTopic
  refine ⟨?_, hgeneration, ?_, ?_, ?_, ?_⟩
  · rw [rejoined, List.map_map]
    exact hids
  · intro m' hm'
    obtain ⟨m, _, rfl⟩ := List.mem_map.mp hm'
    rfl
  · intro m' hm'
    obtain ⟨m, _, rfl⟩ := List.mem_map.mp hm'
    exact (hdealt.nodup m.memberId).sublist (hpart m.memberId)
  · intro m' hm' tp htp
    obtain ⟨m, hm, rfl⟩ := List.mem_map.mp hm'
    have htarget := (hpart m.memberId).mem htp
    have hwanted := hdealt.only _ _ htarget
    obtain ⟨m', hm', htopic, hcount⟩ := hdealt.once tp hwanted
    have hid : m.memberId = m'.memberId := by
      by_contra hne
      have hzero := hcount m.memberId
      rw [if_neg hne] at hzero
      exact List.count_eq_zero.mp hzero htarget
    obtain rfl := List.inj_on_of_nodup_map hids hm hm' hid
    exact ⟨(mem_wanted.mp hwanted).1, htopic⟩
  · intro m₁ hm₁ m₂ hm₂ tp htp₁ htp₂
    obtain ⟨m₁, _, rfl⟩ := List.mem_map.mp hm₁
    obtain ⟨m₂, _, rfl⟩ := List.mem_map.mp hm₂
    exact hdealt.unique ((hpart m₁.memberId).mem htp₁) ((hpart m₂.memberId).mem htp₂)

/-- **The handover converges in two rounds.** If the members agree on their topics,
then whatever they claimed in round one, round two publishes all that it decides,
takes nothing from anybody, and places every partition exactly once. -/
theorem handover_converges (members : List Subscription) (partitionsPerTopic : PartitionCounts)
    (hids : (members.map (·.memberId)).Nodup) (hagree : SameTopics members) {generation : ℤ}
    (hgeneration : 0 ≤ generation) :
    let first := cooperativeStickyAssignor.assign members partitionsPerTopic
    let again := rejoined members first generation
    let second := cooperativeStickyAssignor.assign again partitionsPerTopic
    (∀ id, second.getD id [] = (stickyAssignor.assign again partitionsPerTopic).getD id []) ∧
      (∀ id, ∀ tp ∈ first.getD id [], tp ∈ second.getD id []) ∧
      Dealt members (Wanted members partitionsPerTopic) second := by
  intro first again second
  let target := StickyAssignor.assign members partitionsPerTopic
  have hagain : again = members.map (rejoinedAs first generation) := rfl
  have hfirst : ∀ id, first.getD id [] = (target.getD id []).filter fun tp =>
      ((CooperativeStickyAssignor.owners members)[tp]?).all (· = id) := fun id =>
    CooperativeStickyAssignor.getD_publish _ target id
  have hdealt : Dealt members (Wanted members partitionsPerTopic) target :=
    StickyAssignor.assign_dealt members partitionsPerTopic
  have hpublished : ∀ {id tp}, tp ∈ first.getD id [] → tp ∈ target.getD id [] := by
    intro id tp htp
    rw [hfirst] at htp
    exact List.mem_of_mem_filter htp
  have hdealt' : Dealt again (Wanted again partitionsPerTopic)
      (StickyAssignor.assign again partitionsPerTopic) :=
    StickyAssignor.assign_dealt again partitionsPerTopic
  have hsettled : StickyAssignor.Settled again partitionsPerTopic generation :=
    settled_rejoined hids hgeneration fun id => by
      rw [hfirst]
      exact List.filter_sublist
  have hkept : ∀ m ∈ again, ∀ tp ∈ m.owned,
      tp ∈ (StickyAssignor.assign again partitionsPerTopic).getD m.memberId [] := by
    intro m' hm' tp htp
    refine hsettled.owned_mem_assign hm' ?_ htp
    obtain ⟨m, hm, rfl⟩ := List.mem_map.mp hm'
    refine le_trans ?_ (quotaOf_rejoined _ members first generation m).ge
    refine le_trans ?_ (StickyAssignor.assign_load hids hagree hm partitionsPerTopic m.memberId)
    show (first.getD m.memberId []).length ≤ _
    rw [hfirst]
    exact List.length_filter_le _ _
  have hsecond : ∀ id, second.getD id [] =
      (StickyAssignor.assign again partitionsPerTopic).getD id [] :=
    CooperativeStickyAssignor.publish_eq_of_kept hdealt' hkept
  refine ⟨hsecond, fun id tp htp => ?_, ?_, fun tp htp => ?_, fun id tp htp => ?_⟩
  · obtain ⟨m, hm, _, hcount⟩ := hdealt.once tp (hdealt.only id tp (hpublished htp))
    have hid : id = m.memberId := by
      by_contra hne
      have hzero := hcount id
      rw [if_neg hne] at hzero
      exact List.count_eq_zero.mp hzero (hpublished htp)
    subst hid
    rw [hsecond]
    exact hkept (rejoinedAs first generation m) (List.mem_map_of_mem hm) tp htp
  · intro id
    show id ∈ CooperativeStickyAssignor.publish _ _ ↔ _
    rw [CooperativeStickyAssignor.publish, Std.TreeMap.mem_map, hdealt'.keys, hagain, List.map_map]
    rfl
  · obtain ⟨count, hcount, hlow, hhigh, m, hm, htopic⟩ := htp
    obtain ⟨m', hm', htopic', honce⟩ := hdealt'.once tp
      ⟨count, hcount, hlow, hhigh, rejoinedAs first generation m, List.mem_map_of_mem hm, htopic⟩
    obtain ⟨m₁, hm₁, rfl⟩ := List.mem_map.mp hm'
    exact ⟨m₁, hm₁, htopic', fun id => by rw [hsecond]; exact honce id⟩
  · rw [hsecond] at htp
    obtain ⟨count, hcount, hlow, hhigh, m', hm', htopic⟩ := hdealt'.only id tp htp
    obtain ⟨m, hm, rfl⟩ := List.mem_map.mp hm'
    exact ⟨count, hcount, hlow, hhigh, m, hm, htopic⟩

/-- A member that held everything and one that is new. -/
def newcomer : List Subscription :=
  [⟨"a", ["t"], [⟨"t", 0⟩, ⟨"t", 1⟩, ⟨"t", 2⟩], 4⟩, ⟨"b", ["t"], [], -1⟩]

def newcomerTopics : PartitionCounts := (∅ : PartitionCounts).insert "t" 3

theorem handover_converges_newcomer :
    let first := cooperativeStickyAssignor.assign newcomer newcomerTopics
    let second := cooperativeStickyAssignor.assign (rejoined newcomer first 5) newcomerTopics
    first.toList = [("a", [⟨"t", 0⟩, ⟨"t", 1⟩]), ("b", [])] ∧
      second.toList = [("a", [⟨"t", 0⟩, ⟨"t", 1⟩]), ("b", [⟨"t", 2⟩])] ∧
      Dealt newcomer (Wanted newcomer newcomerTopics) second := by
  have hagree : SameTopics newcomer := by
    intro m hm m' hm' topic
    simp only [newcomer, List.mem_cons, List.not_mem_nil, or_false] at hm hm'
    rcases hm with rfl | rfl <;> rcases hm' with rfl | rfl <;> rfl
  exact ⟨by decide, by decide,
    (handover_converges newcomer newcomerTopics (by decide) hagree (by decide)).2.2⟩

/-! ### A reader that is not seen -/

namespace CooperativeStickyAssignor

/-- A partition that the member is the last to claim, and not the only one. -/
def Masks (members : List Subscription) (id : String) (tp : TopicPartition) : Prop :=
  lastClaimant members tp = some id ∧ ∃ m ∈ members, tp ∈ m.owned ∧ m.memberId ≠ id

/-- **A partition is published over the head of another reader exactly if the target
gives it to the last of several claimants.** Of several claims only the last one in
the list is looked at. -/
theorem published_alone_iff (members : List Subscription) (partitionsPerTopic : PartitionCounts) :
    (∀ id, ∀ tp ∈ (cooperativeStickyAssignor.assign members partitionsPerTopic).getD id [],
      ∀ m ∈ members, tp ∈ m.owned → m.memberId = id) ↔
      ∀ id tp, Masks members id tp →
        tp ∉ (stickyAssignor.assign members partitionsPerTopic).getD id [] := by
  have hpublished : ∀ id tp,
      tp ∈ (cooperativeStickyAssignor.assign members partitionsPerTopic).getD id [] ↔
        tp ∈ (stickyAssignor.assign members partitionsPerTopic).getD id [] ∧
          ∀ owner, lastClaimant members tp = some owner → owner = id := by
    intro id tp
    show tp ∈ (publish (owners members) (StickyAssignor.assign members partitionsPerTopic)).getD id []
      ↔ _
    rw [getD_publish, List.mem_filter, getElem?_owners, Option.all_eq_true]
    simp only [decide_eq_true_eq]
    rfl
  constructor
  · rintro halone id tp ⟨hlast, m, hm, howned, hne⟩ htarget
    refine hne (halone id tp ((hpublished id tp).mpr ⟨htarget, fun owner howner => ?_⟩) m hm howned)
    rw [hlast] at howner
    exact (Option.some.inj howner).symm
  · intro hmasks id tp htp m hm howned
    obtain ⟨htarget, hlast⟩ := (hpublished id tp).mp htp
    by_contra hne
    -- somebody claims it, so there is a last claimant, and it is this member
    rcases hclaimant : lastClaimant members tp with _ | owner
    · rw [lastClaimant, Option.map_eq_none_iff, List.getLast?_eq_none_iff,
        List.filter_eq_nil_iff] at hclaimant
      exact hclaimant m hm (by simpa using howned)
    · obtain rfl := hlast owner hclaimant
      exact hmasks owner tp ⟨hclaimant, m, hm, howned, hne⟩ htarget

/-- A member that was away still reads a partition that another one holds now. -/
def returning : List Subscription :=
  [⟨"a", ["t"], [⟨"t", 0⟩], 1⟩, ⟨"b", ["t"], [⟨"t", 0⟩], 5⟩]

/-- The partition is published to the second member while the first one reads it. -/
theorem reader_overlooked :
    (returning.map (·.memberId)).Nodup ∧
      (cooperativeStickyAssignor.assign returning ((∅ : PartitionCounts).insert "t" 1)).toList =
        [("a", []), ("b", [⟨"t", 0⟩])] ∧
      ¬∀ id, ∀ tp ∈ (cooperativeStickyAssignor.assign returning
        ((∅ : PartitionCounts).insert "t" 1)).getD id [],
          ∀ m ∈ returning, tp ∈ m.owned → m.memberId = id := by
  refine ⟨by decide, by decide, fun h => ?_⟩
  have hsame := h "b" ⟨"t", 0⟩ (by decide) ⟨"a", ["t"], [⟨"t", 0⟩], 1⟩ (by decide) (by decide)
  exact absurd hsame (by decide)

end CooperativeStickyAssignor

end Barnabas.Core
