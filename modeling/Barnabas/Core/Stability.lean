import Barnabas.Core.Balance
import Mathlib.Data.Prod.Lex

/-!
Whether a sticky assignment stays as it is when the members come back with it.

Where the subscriptions differ, a member may hold more than its quota. It then keeps
the first part of its list, and the surplus is dealt out again, in the order of the
partitions, to whoever is lightest at that time. So all of it returns exactly if each
partition finds its owner lighter than everybody else who wants it.
-/

namespace Barnabas.Core

open Barnabas.Lib

variable {members : List Subscription} {assignment : Assignment}
  {partitionsPerTopic : PartitionCounts}

theorem pairwise_allPartitions (partitionsPerTopic : PartitionCounts) :
    (allPartitions partitionsPerTopic).Pairwise fun t t' => compare t t' = .lt := by
  rw [allPartitions, List.pairwise_flatMap]
  constructor
  · rintro ⟨topic, count⟩ -
    rw [List.pairwise_map]
    refine List.pairwise_lt_range.imp fun {p p'} hlt => ?_
    show compareLex _ _ _ _ = _
    simpa [compareLex, compareOn, compare_lt_iff_lt] using hlt
  · refine Std.TreeMap.ordered_keys_toList.imp fun {a b} hlt => ?_
    intro t ht t' ht'
    obtain ⟨p, -, rfl⟩ := List.mem_map.mp ht
    obtain ⟨p', -, rfl⟩ := List.mem_map.mp ht'
    show compareLex _ _ _ _ = _
    simp [compareLex, compareOn, hlt]

namespace StickyAssignor

/-! ### The lightest -/

/-- What `min_by_key` compares. -/
def weight (assignment : Assignment) (m : Subscription) : ℕ ×ₗ String :=
  toLex (assignment.load m.memberId, m.memberId)

theorem lighter_iff (m m' : Subscription) :
    lighter assignment m m' = true ↔ weight assignment m < weight assignment m' := by
  rw [weight, weight, Prod.Lex.toLex_lt_toLex, lighter, decide_eq_true_iff]
  rfl

theorem lightest_weight_le {m : Subscription} {candidates : List Subscription}
    (h : lightest assignment candidates = some m) :
    ∀ m' ∈ candidates, weight assignment m ≤ weight assignment m' := by
  induction candidates generalizing m with
  | nil => simp [lightest] at h
  | cons first rest ih =>
      rw [lightest] at h
      split at h
      · next hnone =>
          obtain rfl := Option.some.inj h
          rw [lightest_eq_none hnone]
          simp
      · next best hbest =>
          rw [List.forall_mem_cons]
          split at h
          · next hlighter =>
              obtain rfl := Option.some.inj h
              exact ⟨((lighter_iff _ _).mp hlighter).le, ih hbest⟩
          · next hheavier =>
              obtain rfl := Option.some.inj h
              rw [lighter_iff, not_lt] at hheavier
              exact ⟨le_rfl, fun m' hm' => hheavier.trans (ih hbest m' hm')⟩

/-- A member is the lightest candidate if it is lighter than every other. -/
theorem lightest_eq_some_iff {m : Subscription} {candidates : List Subscription}
    (hids : (candidates.map (·.memberId)).Nodup) (hm : m ∈ candidates) :
    lightest assignment candidates = some m ↔ ∀ m' ∈ candidates, m'.memberId ≠ m.memberId →
      weight assignment m < weight assignment m' := by
  constructor
  · intro h m' hm' hne
    refine lt_of_le_of_ne (lightest_weight_le h m' hm') fun heq => hne ?_
    exact (congrArg Prod.snd (toLex.injective heq)).symm
  · intro h
    rcases hbest : lightest assignment candidates with _ | best
    · rw [lightest_eq_none hbest] at hm
      cases hm
    · have hmem := lightest_mem hbest
      by_cases hid : best.memberId = m.memberId
      · rw [List.inj_on_of_nodup_map hids hmem hm hid]
      · exact absurd (lightest_weight_le hbest m hm) (h best hmem hid).not_ge

/-! ### The order of the partitions -/

theorem pairwise_sortPartitions (partitions : List TopicPartition) :
    (sortPartitions partitions).Pairwise fun a b => (compare a b).isLE := by
  let le : TopicPartition → TopicPartition → Prop := fun a b => (compare a b).isLE
  haveI : Std.Total le := ⟨fun a b => by
    have hswap : compare b a = (compare a b).swap := Std.OrientedCmp.eq_swap
    simp only [le, hswap]
    cases compare a b <;> simp⟩
  haveI : IsTrans TopicPartition le := ⟨fun _ _ _ => Std.TransCmp.isLE_trans⟩
  exact List.pairwise_insertionSort le partitions

theorem sortPartitions_congr {partitions partitions' : List TopicPartition}
    (h : partitions.Perm partitions') : sortPartitions partitions = sortPartitions partitions' := by
  refine List.Perm.eq_of_pairwise (fun a b _ _ hle hge => ?_) (pairwise_sortPartitions partitions)
    (pairwise_sortPartitions partitions') ?_
  · exact Std.LawfulEqCmp.eq_of_compare (Std.OrientedCmp.isLE_antisymm hle hge)
  · exact (List.perm_insertionSort _ _).trans (h.trans (List.perm_insertionSort _ _).symm)

theorem getD_map_sortPartitions (assignment : Assignment) (id : String) :
    (assignment.map fun _ => sortPartitions).getD id [] = sortPartitions (assignment.getD id []) := by
  rw [Std.TreeMap.getD_eq_getD_getElem?, Std.TreeMap.getD_eq_getD_getElem?, Std.TreeMap.getElem?_map]
  cases assignment[id]? <;> rfl

/-! ### The surplus returns -/

/-- What a member holds when the turn of a partition comes, if everything before it
has returned: its quota, and what of its surplus is in front of the partition. -/
def standing (quota : ℕ) (owned : List TopicPartition) (tp : TopicPartition) : ℕ :=
  (owned.take quota).length + (owned.drop quota).countP fun t => compare t tp = .lt

/-- When the turn of the partition comes, the member is lighter than everybody else who
wants it. -/
def ReturnsTo (members : List Subscription) (partitionsPerTopic : PartitionCounts)
    (m : Subscription) (tp : TopicPartition) : Prop :=
  let quota := quotaOf (allPartitions partitionsPerTopic) (sortedMembers members)
  ∀ m' ∈ members, m'.memberId ≠ m.memberId → tp.topic ∈ m'.topics →
    standing (quota m) m.owned tp < standing (quota m') m'.owned tp ∨
      standing (quota m) m.owned tp = standing (quota m') m'.owned tp ∧ m.memberId < m'.memberId

/-- All that the members hold beyond their quotas returns to them. -/
def Undisturbed (members : List Subscription) (partitionsPerTopic : PartitionCounts) : Prop :=
  ∀ m ∈ members, ∀ tp ∈ m.owned.drop
      (quotaOf (allPartitions partitionsPerTopic) (sortedMembers members) m),
    ReturnsTo members partitionsPerTopic m tp

instance (members : List Subscription) (partitionsPerTopic : PartitionCounts) (m : Subscription)
    (tp : TopicPartition) : Decidable (ReturnsTo members partitionsPerTopic m tp) :=
  List.decidableBAll _ _

instance (members : List Subscription) (partitionsPerTopic : PartitionCounts) :
    Decidable (Undisturbed members partitionsPerTopic) :=
  List.decidableBAll _ _

/-- What is dealt out again. -/
def surplus (members : List Subscription) (partitionsPerTopic : PartitionCounts) :
    List TopicPartition :=
  (allPartitions partitionsPerTopic).filter fun tp =>
    tp ∉ (keptOf members (allPartitions partitionsPerTopic)).taken

/-- So far, everybody has got back what was dealt out of its surplus. -/
def Returned (members : List Subscription) (partitionsPerTopic : PartitionCounts)
    (dealt : List TopicPartition) (assignment : Assignment) : Prop :=
  let quota := quotaOf (allPartitions partitionsPerTopic) (sortedMembers members)
  ∀ m ∈ members, (assignment.getD m.memberId []).Perm
    (m.owned.take (quota m) ++ (m.owned.drop (quota m)).filter (· ∈ dealt))

/-- The members hold all that they want, in order. -/
structure Complete (members : List Subscription) (partitionsPerTopic : PartitionCounts)
    (generation : ℤ) : Prop extends Settled members partitionsPerTopic generation where
  owned : ∀ tp ∈ Wanted members partitionsPerTopic, ∃ m ∈ members, tp ∈ m.owned
  sorted : ∀ m ∈ members, sortPartitions m.owned = m.owned

section

variable {generation : ℤ} {dealt rest : List TopicPartition} {tp : TopicPartition}

theorem Settled.mem_surplus (h : Settled members partitionsPerTopic generation) {m : Subscription}
    (hm : m ∈ members) (htp : tp ∈ m.owned) :
    tp ∈ surplus members partitionsPerTopic ↔
      tp ∈ m.owned.drop (quotaOf (allPartitions partitionsPerTopic) (sortedMembers members) m) := by
  have hvalid := (h.valid m hm tp htp).1
  have hsplit := List.take_append_drop
    (quotaOf (allPartitions partitionsPerTopic) (sortedMembers members) m) m.owned
  have hapart := List.disjoint_of_nodup_append (hsplit.symm ▸ h.nodup m hm)
  rw [surplus, List.mem_filter, decide_eq_true_iff, h.keptOf.2]
  constructor
  · rintro ⟨-, hnew⟩
    rw [← hsplit, List.mem_append] at htp
    exact htp.resolve_left fun hkept => hnew ⟨m, hm, hkept⟩
  · intro hdrop
    refine ⟨hvalid, ?_⟩
    rintro ⟨m', hm', hkept⟩
    have hid := h.apart m hm m' hm' tp htp (List.mem_of_mem_take hkept)
    obtain rfl := List.inj_on_of_nodup_map h.ids hm hm' hid
    exact hapart hkept hdrop

/-- As long as everything has returned, the loads are the ones expected. -/
theorem Returned.load (h : Settled members partitionsPerTopic generation)
    (hsplit : surplus members partitionsPerTopic = dealt ++ tp :: rest)
    (hreturned : Returned members partitionsPerTopic dealt assignment) {m : Subscription}
    (hm : m ∈ members) :
    assignment.load m.memberId =
      standing (quotaOf (allPartitions partitionsPerTopic) (sortedMembers members) m) m.owned tp := by
  have hsorted : (dealt ++ tp :: rest).Pairwise fun t t' => compare t t' = .lt :=
    hsplit ▸ (pairwise_allPartitions partitionsPerTopic).filter _
  rw [List.pairwise_append, List.pairwise_cons] at hsorted
  obtain ⟨-, ⟨hrest, -⟩, hdealt⟩ := hsorted
  rw [Assignment.load, (hreturned m hm).length_eq, List.length_append, standing,
    ← List.countP_eq_length_filter]
  congr 1
  apply List.countP_congr
  intro t ht
  have hmem := (h.mem_surplus hm (List.mem_of_mem_drop ht)).mpr ht
  rw [hsplit, List.mem_append, List.mem_cons] at hmem
  rw [decide_eq_true_iff, decide_eq_true_iff]
  constructor
  · exact fun ht => hdealt t ht tp List.mem_cons_self
  · intro hlt
    rcases hmem with hmem | rfl | hmem
    · exact hmem
    · have hself : compare t t = .eq := Std.ReflCmp.compare_self
      rw [hself] at hlt
      cases hlt
    · have hswap : compare tp t = (compare t tp).swap := Std.OrientedCmp.eq_swap
      rw [hrest t hmem, hlt] at hswap
      cases hswap

/-- The partition at hand goes to its owner exactly if the owner is the lightest. -/
theorem Returned.lightest_iff (h : Settled members partitionsPerTopic generation)
    (hsplit : surplus members partitionsPerTopic = dealt ++ tp :: rest)
    (hreturned : Returned members partitionsPerTopic dealt assignment) {m : Subscription}
    (hm : m ∈ members) (htopic : tp.topic ∈ m.topics) :
    lightest assignment ((sortedMembers members).filter fun m => tp.topic ∈ m.topics) = some m ↔
      ReturnsTo members partitionsPerTopic m tp := by
  have hids : (((sortedMembers members).filter fun m => tp.topic ∈ m.topics).map
      (·.memberId)).Nodup :=
    (((sortedMembers_perm members).map _).nodup_iff.mpr h.ids).sublist (List.filter_sublist.map _)
  rw [lightest_eq_some_iff hids (by simpa using ⟨hm, htopic⟩)]
  simp only [List.mem_filter, mem_sortedMembers, decide_eq_true_eq, and_imp, weight,
    Prod.Lex.toLex_lt_toLex]
  have hload : ∀ m' ∈ members, assignment.load m'.memberId = _ := fun m' hm' =>
    hreturned.load h hsplit hm'
  constructor
  · intro hlight m' hm' hne htopic'
    rw [← hload m hm, ← hload m' hm']
    exact hlight m' hm' htopic' hne
  · intro hlight m' hm' htopic' hne
    rw [hload m hm, hload m' hm']
    exact hlight m' hm' hne htopic'

/-- A partition that went back to its owner. -/
theorem Returned.push (h : Settled members partitionsPerTopic generation)
    (hsplit : surplus members partitionsPerTopic = dealt ++ tp :: rest)
    (hreturned : Returned members partitionsPerTopic dealt assignment) {m : Subscription}
    (hm : m ∈ members) (hkey : m.memberId ∈ assignment)
    (htp : tp ∈ m.owned.drop
      (quotaOf (allPartitions partitionsPerTopic) (sortedMembers members) m)) :
    Returned members partitionsPerTopic (dealt ++ [tp]) (assignment.push m.memberId tp) := by
  have hnodup : (dealt ++ tp :: rest).Nodup :=
    hsplit ▸ (nodup_allPartitions partitionsPerTopic).filter _
  have hnew : tp ∉ dealt := fun hmem =>
    (List.nodup_append.mp hnodup).2.2 tp hmem tp List.mem_cons_self rfl
  intro m' hm'
  rw [getD_push hkey]
  split
  · next hid =>
      obtain rfl := List.inj_on_of_nodup_map h.ids hm' hm hid
      refine ((hreturned m' hm').append_right [tp]).trans ?_
      rw [List.append_assoc]
      refine List.Perm.append_left _ ?_
      have hnodup := (h.nodup m' hm').sublist (List.drop_sublist
        (quotaOf (allPartitions partitionsPerTopic) (sortedMembers members) m') _)
      rw [List.perm_ext_iff_of_nodup]
      · intro t
        simp only [List.mem_append, List.mem_filter, List.mem_singleton, decide_eq_true_eq]
        constructor
        · rintro (⟨ht, hdealt⟩ | rfl)
          · exact ⟨ht, .inl hdealt⟩
          · exact ⟨htp, .inr rfl⟩
        · rintro ⟨ht, hdealt | rfl⟩
          · exact .inl ⟨ht, hdealt⟩
          · exact .inr rfl
      · refine List.Nodup.append (hnodup.filter _) (List.nodup_singleton tp) ?_
        simpa using fun _ => hnew
      · exact hnodup.filter _
  · next hid =>
      have hother : ∀ t ∈ m'.owned.drop
          (quotaOf (allPartitions partitionsPerTopic) (sortedMembers members) m'), t ≠ tp := by
        rintro t ht rfl
        exact hid (h.apart m' hm' m hm t (List.mem_of_mem_drop ht) (List.mem_of_mem_drop htp))
      refine (hreturned m' hm').trans (List.Perm.of_eq ?_)
      congr 1
      apply List.filter_congr
      intro t ht
      simp [hother t ht]

/-- A partition that nobody wants is nobody's. -/
theorem Returned.skip (h : Settled members partitionsPerTopic generation)
    (hreturned : Returned members partitionsPerTopic dealt assignment)
    (hnone : ¬Subscribed members tp) :
    Returned members partitionsPerTopic (dealt ++ [tp]) assignment := by
  intro m hm
  refine (hreturned m hm).trans (List.Perm.of_eq ?_)
  congr 1
  apply List.filter_congr
  intro t ht
  have hne : t ≠ tp := by
    rintro rfl
    exact hnone ⟨m, hm, (h.valid m hm t (List.mem_of_mem_drop ht)).2⟩
  simp [hne]

/-- Every partition that is dealt out again is somebody's, or nobody wants it. -/
theorem Complete.surplus_cases (h : Complete members partitionsPerTopic generation)
    (htp : tp ∈ surplus members partitionsPerTopic) : ¬Subscribed members tp ∨
      ∃ m ∈ members, tp.topic ∈ m.topics ∧ tp ∈ m.owned.drop
        (quotaOf (allPartitions partitionsPerTopic) (sortedMembers members) m) := by
  by_cases hsubscribed : Subscribed members tp
  · right
    obtain ⟨m, hm, howned⟩ := h.owned tp (mem_wanted.mpr ⟨(List.mem_filter.mp htp).1, hsubscribed⟩)
    exact ⟨m, hm, (h.valid m hm tp howned).2, (h.mem_surplus hm howned).mp htp⟩
  · exact .inl hsubscribed

theorem dealLightest_of_lightest {m : Subscription} (hbest : lightest assignment
      ((sortedMembers members).filter fun m => tp.topic ∈ m.topics) = some m) :
    dealLightest (sortedMembers members) assignment tp = assignment.push m.memberId tp := by
  rw [dealLightest, hbest]

theorem dealLightest_of_unsubscribed (hnone : ¬Subscribed members tp) :
    dealLightest (sortedMembers members) assignment tp = assignment := by
  rcases dealLightest_cases members assignment tp with ⟨-, heq⟩ | ⟨m, hm, htopic, -⟩
  · exact heq
  · exact absurd ⟨m, hm, htopic⟩ hnone

/-- If every owner is the lightest in its turn, everything returns. -/
theorem Complete.returned_of_undisturbed (h : Complete members partitionsPerTopic generation)
    (hcalm : Undisturbed members partitionsPerTopic)
    (hsplit : surplus members partitionsPerTopic = dealt ++ rest)
    (hkeys : ∀ m ∈ members, m.memberId ∈ assignment)
    (hreturned : Returned members partitionsPerTopic dealt assignment) :
    Returned members partitionsPerTopic (surplus members partitionsPerTopic)
      (rest.foldl (dealLightest (sortedMembers members)) assignment) := by
  induction rest generalizing dealt assignment with
  | nil =>
      rw [hsplit, List.append_nil]
      exact hreturned
  | cons tp rest ih =>
      have hsplit' : surplus members partitionsPerTopic = (dealt ++ [tp]) ++ rest := by
        rw [hsplit, List.append_assoc, List.singleton_append]
      rw [List.foldl_cons]
      have htp : tp ∈ surplus members partitionsPerTopic := by simp [hsplit]
      rcases h.surplus_cases htp with hnone | ⟨m, hm, htopic, hdrop⟩
      · rw [dealLightest_of_unsubscribed hnone]
        exact ih hsplit' hkeys (hreturned.skip h.toSettled hnone)
      · have hbest := (hreturned.lightest_iff h.toSettled hsplit hm htopic).mpr (hcalm m hm tp hdrop)
        rw [dealLightest_of_lightest hbest]
        refine ih hsplit' (fun m' hm' => Std.TreeMap.mem_modify.mpr (hkeys m' hm')) ?_
        exact hreturned.push h.toSettled hsplit hm (hkeys m hm) hdrop

/-- If everything returned, every owner was the lightest in its turn. -/
theorem Complete.undisturbed_of_returned (h : Complete members partitionsPerTopic generation)
    (hsplit : surplus members partitionsPerTopic = dealt ++ rest)
    (hkeys : ∀ m ∈ members, m.memberId ∈ assignment)
    (hreturned : Returned members partitionsPerTopic dealt assignment)
    (hfinal : ∀ m ∈ members, ∀ tp,
      tp ∈ (rest.foldl (dealLightest (sortedMembers members)) assignment).getD m.memberId [] →
        tp ∈ m.owned) :
    ∀ m ∈ members, ∀ tp ∈ m.owned.drop
      (quotaOf (allPartitions partitionsPerTopic) (sortedMembers members) m), tp ∈ rest →
        ReturnsTo members partitionsPerTopic m tp := by
  induction rest generalizing dealt assignment with
  | nil => simp
  | cons tp rest ih =>
      have hsplit' : surplus members partitionsPerTopic = (dealt ++ [tp]) ++ rest := by
        rw [hsplit, List.append_assoc, List.singleton_append]
      rw [List.foldl_cons] at hfinal
      have htp : tp ∈ surplus members partitionsPerTopic := by simp [hsplit]
      rcases dealLightest_cases members assignment tp with ⟨hnone, heq⟩ | ⟨m, hm, htopic, heq, hbest⟩
      · rw [heq] at hfinal
        intro m hm t hdrop ht
        rcases List.mem_cons.mp ht with rfl | ht
        · exact absurd ⟨m, hm, (h.valid m hm t (List.mem_of_mem_drop hdrop)).2⟩ hnone
        · exact ih hsplit' hkeys (hreturned.skip h.toSettled hnone) hfinal m hm t hdrop ht
      · -- it stays where it went, so it went to its owner
        have howned : tp ∈ m.owned := by
          apply hfinal m hm tp
          apply mem_dealAll
          rw [heq, getD_push (hkeys m hm), if_pos rfl]
          exact List.mem_append_right _ List.mem_cons_self
        have hdrop := (h.mem_surplus hm howned).mp htp
        rw [heq] at hfinal
        intro m' hm' t hdrop' ht
        rcases List.mem_cons.mp ht with rfl | ht
        · have hid := h.apart m' hm' m hm t (List.mem_of_mem_drop hdrop') howned
          obtain rfl := List.inj_on_of_nodup_map h.ids hm' hm hid
          exact (hreturned.lightest_iff h.toSettled hsplit hm htopic).mp hbest
        · refine ih hsplit' (fun m hm => Std.TreeMap.mem_modify.mpr (hkeys m hm)) ?_ hfinal m' hm' t
            hdrop' ht
          exact hreturned.push h.toSettled hsplit hm (hkeys m hm) hdrop

theorem Settled.returned_nil (h : Settled members partitionsPerTopic generation) :
    Returned members partitionsPerTopic []
      (StickyAssignor.keptOf members (allPartitions partitionsPerTopic)).assignment := by
  intro m hm
  rw [h.keptOf.1 m hm]
  simp

/-- The members get back what they hold exactly if all of the surplus returns. -/
theorem Complete.assign_eq_iff (h : Complete members partitionsPerTopic generation) :
    (∀ m ∈ members, (assign members partitionsPerTopic).getD m.memberId [] = m.owned) ↔
      Undisturbed members partitionsPerTopic := by
  have hkept := keptOf_valid members (allPartitions partitionsPerTopic)
  have hkeys : ∀ m ∈ members, m.memberId ∈
      (keptOf members (allPartitions partitionsPerTopic)).assignment := fun m hm =>
    (hkept.dealt.keys _).mpr (List.mem_map_of_mem hm)
  constructor
  · intro hsame m hm tp hdrop
    have hne := List.ne_nil_of_mem hm
    refine h.undisturbed_of_returned (List.nil_append _).symm hkeys h.returned_nil ?_ m hm tp hdrop
      ((h.mem_surplus hm (List.mem_of_mem_drop hdrop)).mpr hdrop)
    intro m hm tp htp
    rw [← hsame m hm, assign_eq hne]
    exact (getD_sorted_perm _ _).mem_iff.mpr htp
  · intro hcalm m hm
    have hreturned := h.returned_of_undisturbed hcalm (List.nil_append _).symm hkeys h.returned_nil
      m hm
    have hall : (m.owned.drop (quotaOf (allPartitions partitionsPerTopic) (sortedMembers members) m)).filter
        (· ∈ surplus members partitionsPerTopic) =
          m.owned.drop (quotaOf (allPartitions partitionsPerTopic) (sortedMembers members) m) := by
      rw [List.filter_eq_self]
      intro t ht
      exact decide_eq_true ((h.mem_surplus hm (List.mem_of_mem_drop ht)).mpr ht)
    rw [hall, List.take_append_drop] at hreturned
    rw [assign_eq (List.ne_nil_of_mem hm), getD_map_sortPartitions, ← h.sorted m hm]
    exact sortPartitions_congr hreturned

end

/-- Members that join again with what they were given hold all that they want. -/
theorem complete_rejoined (hids : (members.map (·.memberId)).Nodup)
    (partitionsPerTopic : PartitionCounts) {generation : ℤ} (hgeneration : 0 ≤ generation) :
    Complete (rejoined members (assign members partitionsPerTopic) generation) partitionsPerTopic
      generation where
  toSettled := settled_rejoined hids hgeneration fun _ => .refl _
  owned := by
    rintro tp ⟨count, hcount, hlow, hhigh, m', hm', htopic⟩
    obtain ⟨m, hm, rfl⟩ := List.mem_map.mp hm'
    obtain ⟨owner, howner, _, honce⟩ := (assign_dealt members partitionsPerTopic).once tp
      ⟨count, hcount, hlow, hhigh, m, hm, htopic⟩
    refine ⟨_, List.mem_map_of_mem howner, List.count_pos_iff.mp ?_⟩
    show 0 < List.count tp ((assign members partitionsPerTopic).getD owner.memberId [])
    rw [honce, if_pos rfl]
    exact Nat.one_pos
  sorted := by
    intro m' hm'
    obtain ⟨m, hm, rfl⟩ := List.mem_map.mp hm'
    show sortPartitions ((assign members partitionsPerTopic).getD m.memberId []) = _
    rw [rejoinedAs, assign_eq (List.ne_nil_of_mem hm), getD_map_sortPartitions]
    exact sortPartitions_congr (List.perm_insertionSort _ _)

/-- Two results for the same members are the same if the lists are. -/
theorem toList_eq_iff {done done' : Set TopicPartition} {assignment' : Assignment}
    (h : Dealt members done assignment) (h' : Dealt members done' assignment') :
    assignment.toList = assignment'.toList ↔
      ∀ m ∈ members, assignment.getD m.memberId [] = assignment'.getD m.memberId [] := by
  rw [← Std.TreeMap.equiv_iff_toList_eq]
  constructor
  · exact fun heq m _ => heq.getD_eq
  · intro hlists
    apply Std.TreeMap.Equiv.of_forall_constGet?_eq
    intro id
    by_cases hid : id ∈ members.map (·.memberId)
    · obtain ⟨m, hm, rfl⟩ := List.mem_map.mp hid
      have hget := hlists m hm
      rw [Std.TreeMap.getD_eq_getD_getElem?, Std.TreeMap.getD_eq_getD_getElem?,
        Std.TreeMap.getElem?_eq_some_getElem ((h.keys _).mpr hid),
        Std.TreeMap.getElem?_eq_some_getElem ((h'.keys _).mpr hid)] at hget
      rw [Std.TreeMap.getElem?_eq_some_getElem ((h.keys _).mpr hid),
        Std.TreeMap.getElem?_eq_some_getElem ((h'.keys _).mpr hid)]
      exact congrArg some hget
    · rw [Std.TreeMap.getElem?_eq_none fun hmem => hid ((h.keys _).mp hmem),
        Std.TreeMap.getElem?_eq_none fun hmem => hid ((h'.keys _).mp hmem)]

/-- **A rebalance without a change moves nothing exactly if all of the surplus
returns.** -/
theorem stays_iff (members : List Subscription) (partitionsPerTopic : PartitionCounts)
    (hids : (members.map (·.memberId)).Nodup) {generation : ℤ} (hgeneration : 0 ≤ generation) :
    let first := stickyAssignor.assign members partitionsPerTopic
    let again := rejoined members first generation
    (stickyAssignor.assign again partitionsPerTopic).toList = first.toList ↔
      Undisturbed again partitionsPerTopic := by
  intro first again
  have hfirst : Dealt members (Wanted members partitionsPerTopic) first :=
    assign_dealt members partitionsPerTopic
  have hsecond : Dealt again (Wanted again partitionsPerTopic)
      (stickyAssignor.assign again partitionsPerTopic) := assign_dealt again partitionsPerTopic
  have hsecond' : Dealt members (Wanted again partitionsPerTopic)
      (stickyAssignor.assign again partitionsPerTopic) := by
    refine ⟨fun id => ?_, fun tp htp => ?_, hsecond.only⟩
    · rw [hsecond.keys, show again.map (·.memberId) = members.map (·.memberId) from List.map_map]
    · obtain ⟨m', hm', htopic, honce⟩ := hsecond.once tp htp
      obtain ⟨m, hm, rfl⟩ := List.mem_map.mp hm'
      exact ⟨m, hm, htopic, honce⟩
  have hcomplete : Complete again partitionsPerTopic generation :=
    complete_rejoined hids partitionsPerTopic hgeneration
  rw [toList_eq_iff hsecond' hfirst, ← hcomplete.assign_eq_iff]
  constructor
  · intro h m' hm'
    obtain ⟨m, hm, rfl⟩ := List.mem_map.mp hm'
    exact h m hm
  · exact fun h m hm => h _ (List.mem_map_of_mem hm)

/-- One member that wants one topic, and one that wants three. -/
def lopsided : List Subscription :=
  [⟨"a", ["z"], [], 4⟩, ⟨"b", ["x", "y", "z"], [⟨"z", 0⟩], 5⟩]

def threeTopics : PartitionCounts :=
  (((∅ : PartitionCounts).insert "x" 1).insert "y" 2).insert "z" 1

/-- The second member holds twice its quota, and one of the partitions moves on. -/
theorem rebalance_moves :
    let first := stickyAssignor.assign lopsided threeTopics
    first.toList = [("a", []), ("b", [⟨"x", 0⟩, ⟨"y", 0⟩, ⟨"y", 1⟩, ⟨"z", 0⟩])] ∧
      (stickyAssignor.assign (rejoined lopsided first 7) threeTopics).toList =
        [("a", [⟨"z", 0⟩]), ("b", [⟨"x", 0⟩, ⟨"y", 0⟩, ⟨"y", 1⟩])] := by
  decide

/-- The other way around, the partition is the first member's, and stays. -/
theorem stays_iff_lopsided :
    let members : List Subscription := [⟨"a", ["z"], [⟨"z", 0⟩], 4⟩, ⟨"b", ["x", "y", "z"], [], 4⟩]
    let first := stickyAssignor.assign members threeTopics
    (first.getD "b" []).length = 3 ∧
      (stickyAssignor.assign (rejoined members first 7) threeTopics).toList = first.toList := by
  intro members first
  exact ⟨by decide, (stays_iff members threeTopics (by decide) (by decide)).mpr
    (by decide)⟩

end StickyAssignor

end Barnabas.Core
