import Barnabas.Core.Placement
import Barnabas.Lib.Grouping

/-!
The blocks of the range assignor.

What a member gets is, topic by topic, the block of its place among the subscribers. The
block starts where the closed formula of the source says; the formula is a bound that
grows by the length of one block at a time, so the blocks follow one another from the
first partition to the last.
-/

namespace Barnabas.Core

open Barnabas.Lib

variable {topic : String} {low mid high : ℤ}

/-! ### Intervals of partitions -/

/-- The partitions of a topic from `low` up to `high`, in order. -/
def interval (topic : String) (low high : ℤ) : List TopicPartition :=
  (List.range (high - low).toNat).map fun p : ℕ => ⟨topic, low + p⟩

theorem interval_eq_nil (h : high ≤ low) : interval topic low high = [] := by
  rw [interval, Int.toNat_of_nonpos (by omega)]
  rfl

theorem topic_of_mem_interval {tp : TopicPartition} (h : tp ∈ interval topic low high) :
    tp.topic = topic := by
  obtain ⟨p, -, rfl⟩ := List.mem_map.mp h
  rfl

theorem interval_append (hlow : low ≤ mid) (hhigh : mid ≤ high) :
    interval topic low mid ++ interval topic mid high = interval topic low high := by
  have hlength : (high - low).toNat = (mid - low).toNat + (high - mid).toNat := by omega
  rw [interval, interval, interval, hlength, List.range_add, List.map_append, List.map_map]
  congr 1
  apply List.map_congr_left
  intro p _
  show (⟨topic, mid + p⟩ : TopicPartition) = ⟨topic, low + ((mid - low).toNat + p : ℕ)⟩
  congr 1
  omega

/-- Intervals that meet cover what lies between the first bound and the last. -/
theorem flatMap_interval {bound : ℕ → ℤ} {k : ℕ} (hmono : ∀ i < k, bound i ≤ bound (i + 1)) :
    ((List.range k).flatMap fun i => interval topic (bound i) (bound (i + 1))) =
      interval topic (bound 0) (bound k) := by
  suffices H : bound 0 ≤ bound k ∧ ((List.range k).flatMap fun i =>
      interval topic (bound i) (bound (i + 1))) = interval topic (bound 0) (bound k) from H.2
  induction k with
  | zero => simp [interval]
  | succ k ih =>
      obtain ⟨hle, htile⟩ := ih fun i hi => hmono i (by omega)
      have hnext := hmono k (by omega)
      constructor
      · omega
      · rw [List.range_succ, List.flatMap_append, htile, List.flatMap_singleton,
          interval_append hle hnext]

theorem pairwise_interval (topic : String) (low high : ℤ) :
    (interval topic low high).Pairwise fun a b => a.topic = b.topic ∧ a.partition < b.partition := by
  rw [interval, List.pairwise_map]
  refine List.pairwise_lt_range.imp fun {p p'} hlt => ?_
  exact ⟨rfl, by dsimp only; omega⟩

/-! ### Lists of blocks -/

section Places

variable {α β : Type} [DecidableEq α] {a : α} {f : ℕ → List β}

theorem flatMap_zipIdx_of_notMem {ids : List α} (h : a ∉ ids) (n : ℕ) :
    ((ids.zipIdx n).flatMap fun e => if a = e.1 then f e.2 else []) = [] := by
  apply List.flatMap_eq_nil_iff.mpr
  rintro ⟨b, i⟩ hb
  apply if_neg
  rintro rfl
  exact h (List.fst_mem_of_mem_zipIdx hb)

/-- In a list without repetition an element has one place. -/
theorem flatMap_zipIdx_of_nodup {ids : List α} (hnodup : ids.Nodup) {i : ℕ}
    (hi : ids[i]? = some a) (n : ℕ) :
    ((ids.zipIdx n).flatMap fun e => if a = e.1 then f e.2 else []) = f (n + i) := by
  induction ids generalizing i n with
  | nil => simp at hi
  | cons b ids ih =>
      obtain ⟨hb, hnodup⟩ := List.nodup_cons.mp hnodup
      rw [List.zipIdx_cons, List.flatMap_cons]
      cases i with
      | zero =>
          obtain rfl : b = a := Option.some.inj hi
          rw [if_pos rfl, flatMap_zipIdx_of_notMem hb, List.append_nil, Nat.add_zero]
      | succ i =>
          rw [List.getElem?_cons_succ] at hi
          have hne : a ≠ b := by
            rintro rfl
            exact hb (List.mem_of_getElem? hi)
          rw [if_neg hne, List.nil_append, ih hnodup hi, Nat.add_right_comm, Nat.add_assoc]

omit [DecidableEq α] in
theorem flatMap_eq_range {ids : List α} {g : α → List β}
    (h : ∀ i b, ids[i]? = some b → g b = f i) :
    ids.flatMap g = (List.range ids.length).flatMap f := by
  induction ids generalizing f with
  | nil => rfl
  | cons b ids ih =>
      have hrest := ih (f := fun i => f (i + 1)) fun i b hb => h (i + 1) b hb
      rw [List.flatMap_cons, hrest, h 0 b rfl, List.length_cons, List.range_succ_eq_map,
        List.flatMap_cons, List.flatMap_map]

end Places

namespace RangeAssignor

variable {members : List Subscription} {assignment : Assignment} {id : String}

/-! ### What a member is given -/

theorem mem_pushBlock (memberId : String) (length : ℕ) (start : ℤ) :
    id ∈ pushBlock topic memberId length start assignment ↔ id ∈ assignment := by
  induction length generalizing start assignment with
  | zero => rfl
  | succ length ih => rw [pushBlock, ih, Assignment.push, Std.TreeMap.mem_modify]

theorem getD_pushBlock {memberId : String} (hmember : memberId ∈ assignment) (length : ℕ)
    (start : ℤ) :
    (pushBlock topic memberId length start assignment).getD id [] =
      assignment.getD id [] ++
        if id = memberId then interval topic start (start + length) else [] := by
  induction length generalizing start assignment with
  | zero =>
      rw [interval_eq_nil (by simp), ite_self, List.append_nil]
      rfl
  | succ length ih =>
      have hkey : memberId ∈ assignment.push memberId ⟨topic, start⟩ := by
        rw [Assignment.push, Std.TreeMap.mem_modify]
        exact hmember
      have hfirst : interval topic start (start + 1) = [⟨topic, start⟩] := by
        simp [interval]
      rw [pushBlock, ih hkey, getD_push hmember]
      by_cases hid : id = memberId
      · rw [if_pos hid, if_pos hid, if_pos hid, List.append_assoc, ← hfirst,
          interval_append (by omega) (by omega)]
        push_cast
        rw [add_assoc, add_comm 1]
      · rw [if_neg hid, if_neg hid, if_neg hid]

/-- The block at a place among the subscribers, in the arithmetic of the source. -/
def blockAt (topic : String) (perMember withExtra : ℤ) (place : ℕ) : List TopicPartition :=
  let index := saturate32 place
  let start := wrap 32 (wrap 32 (perMember * index) + min index withExtra)
  let length := wrap 32 (perMember + if index < withExtra then 1 else 0)
  interval topic start (wrap 32 (start + length))

theorem getD_assignBlock {perMember withExtra : ℤ} {member : String × ℕ}
    (hmember : member.1 ∈ assignment) :
    (assignBlock topic perMember withExtra assignment member).getD id [] =
      assignment.getD id [] ++
        if id = member.1 then blockAt topic perMember withExtra member.2 else [] := by
  rw [assignBlock, getD_pushBlock hmember]
  congr 2
  rw [blockAt, interval, interval]
  congr 2
  omega

theorem mem_assignBlocks {perMember withExtra : ℤ} (places : List (String × ℕ)) :
    id ∈ places.foldl (assignBlock topic perMember withExtra) assignment ↔ id ∈ assignment := by
  induction places generalizing assignment with
  | nil => rfl
  | cons place places ih => rw [List.foldl_cons, ih, assignBlock, mem_pushBlock]

theorem getD_assignBlocks {perMember withExtra : ℤ} (places : List (String × ℕ))
    (hplaces : ∀ place ∈ places, place.1 ∈ assignment) :
    (places.foldl (assignBlock topic perMember withExtra) assignment).getD id [] =
      assignment.getD id [] ++ places.flatMap fun place =>
        if id = place.1 then blockAt topic perMember withExtra place.2 else [] := by
  induction places generalizing assignment with
  | nil => simp
  | cons place places ih =>
      have hkeys : ∀ next ∈ places,
          next.1 ∈ assignBlock topic perMember withExtra assignment place := by
        intro next hnext
        rw [assignBlock, mem_pushBlock]
        exact hplaces next (by simp [hnext])
      rw [List.foldl_cons, ih hkeys, getD_assignBlock (hplaces place (by simp)),
        List.flatMap_cons, List.append_assoc]

/-- What a member gets of one topic. -/
def share (members : List Subscription) (id : String) (entry : String × ℤ) :
    List TopicPartition :=
  let ids := subscribers members entry.1
  if ids.isEmpty ∨ entry.2 ≤ 0 then []
  else
    let membersCount := saturate32 ids.length
    ids.zipIdx.flatMap fun place =>
      if id = place.1 then
        blockAt entry.1 (entry.2 / membersCount) (entry.2 % membersCount) place.2
      else []

theorem mem_assignTopic {entry : String × ℤ} :
    id ∈ assignTopic members assignment entry ↔ id ∈ assignment := by
  rw [assignTopic]
  dsimp only
  split
  · rfl
  · exact mem_assignBlocks _

theorem getD_assignTopic {entry : String × ℤ}
    (hmembers : ∀ m ∈ members, m.memberId ∈ assignment) :
    (assignTopic members assignment entry).getD id [] =
      assignment.getD id [] ++ share members id entry := by
  rw [assignTopic, share]
  dsimp only
  split
  · rw [List.append_nil]
  · apply getD_assignBlocks
    rintro ⟨member, place⟩ hplace
    obtain ⟨m, hm, rfl, -⟩ := mem_subscribers.mp (List.fst_mem_of_mem_zipIdx hplace)
    exact hmembers m hm

theorem getD_assignTopics (entries : List (String × ℤ))
    (hmembers : ∀ m ∈ members, m.memberId ∈ assignment) :
    (entries.foldl (assignTopic members) assignment).getD id [] =
      assignment.getD id [] ++ entries.flatMap (share members id) := by
  induction entries generalizing assignment with
  | nil => simp
  | cons entry entries ih =>
      rw [List.foldl_cons, ih fun m hm => mem_assignTopic.mpr (hmembers m hm),
        getD_assignTopic hmembers, List.flatMap_cons, List.append_assoc]

/-- A member's list is what it gets of each topic, in the order of the topics. -/
theorem getD_assign (members : List Subscription) (partitionsPerTopic : PartitionCounts)
    (id : String) :
    (assign members partitionsPerTopic).getD id [] =
      partitionsPerTopic.toList.flatMap (share members id) := by
  obtain ⟨hkeys, hlists⟩ := seed_keys_and_lists members ∅ (by simp)
  have hseed : ∀ m ∈ members, m.memberId ∈ Assignment.seed members := by
    intro m hm
    rw [Assignment.seed, hkeys]
    exact .inr (List.mem_map_of_mem hm)
  rw [assign, getD_assignTopics _ hseed, Assignment.seed, hlists, List.nil_append]

/-! ### The blocks of one topic -/

theorem topic_of_mem_share {entry : String × ℤ} {tp : TopicPartition}
    (h : tp ∈ share members id entry) : tp.topic = entry.1 := by
  rw [share] at h
  dsimp only at h
  split at h
  · cases h
  · obtain ⟨place, -, hplace⟩ := List.mem_flatMap.mp h
    split at hplace
    · exact topic_of_mem_interval hplace
    · cases hplace

theorem nodup_subscribers (hdistinct : (members.map (·.memberId)).Nodup) (topic : String) :
    (subscribers members topic).Nodup := by
  apply (List.perm_insertionSort _ _).nodup_iff.mpr
  exact (List.filter_sublist.map _).nodup hdistinct

theorem pairwise_subscribers (hdistinct : (members.map (·.memberId)).Nodup) (topic : String) :
    (subscribers members topic).Pairwise (· < ·) := by
  have hle : (subscribers members topic).Pairwise (· ≤ ·) :=
    List.pairwise_insertionSort (· ≤ ·) _
  exact (hle.and (nodup_subscribers hdistinct topic)).imp fun h => lt_of_le_of_ne h.1 h.2

theorem share_eq_blockAt (hdistinct : (members.map (·.memberId)).Nodup) {entry : String × ℤ}
    (hcount : 0 < entry.2) {i : ℕ} (hi : (subscribers members entry.1)[i]? = some id) :
    share members id entry =
      blockAt entry.1 (entry.2 / saturate32 (subscribers members entry.1).length)
        (entry.2 % saturate32 (subscribers members entry.1).length) i := by
  have hskip : ¬((subscribers members entry.1).isEmpty ∨ entry.2 ≤ 0) := by
    rw [not_or, List.isEmpty_iff]
    refine ⟨fun hempty => ?_, by omega⟩
    rw [hempty] at hi
    cases hi
  rw [share]
  dsimp only
  rw [if_neg hskip, flatMap_zipIdx_of_nodup (nodup_subscribers hdistinct entry.1) hi, zero_add]

theorem share_eq_nil {entry : String × ℤ} (h : id ∉ subscribers members entry.1) :
    share members id entry = [] := by
  rw [share]
  dsimp only
  split
  · rfl
  · exact flatMap_zipIdx_of_notMem h 0

theorem pairwise_share (hdistinct : (members.map (·.memberId)).Nodup) (entry : String × ℤ) :
    (share members id entry).Pairwise fun a b =>
      a.topic = b.topic ∧ a.partition < b.partition := by
  by_cases hid : id ∈ subscribers members entry.1
  · obtain ⟨i, hi⟩ := List.mem_iff_getElem?.mp hid
    by_cases hcount : 0 < entry.2
    · rw [share_eq_blockAt hdistinct hcount hi, blockAt]
      exact pairwise_interval _ _ _
    · have hskip : (subscribers members entry.1).isEmpty ∨ entry.2 ≤ 0 := .inr (by omega)
      rw [share]
      dsimp only
      rw [if_pos hskip]
      exact List.Pairwise.nil
  · rw [share_eq_nil hid]
    exact List.Pairwise.nil

/-! ### The closed formula -/

/-- The `i32` expressions that a block is computed with. -/
def blockExpressions (perMember withExtra index : ℤ) : List ℤ :=
  let start := perMember * index + min index withExtra
  let length := perMember + if index < withExtra then 1 else 0
  [perMember * index, start, length, start + length]

section Formula

variable {count : ℤ} {k i : ℕ}

theorem saturate32_of_le {n : ℕ} (h : (n : ℤ) ≤ i32Max) : saturate32 n = n := min_eq_left h

/-- A bound is followed by the next one after the length of one block. -/
theorem bound_succ (perMember withExtra : ℤ) (hi : i < k) :
    bound perMember withExtra k (i + 1) =
      bound perMember withExtra k i + (perMember + if (i : ℤ) < withExtra then 1 else 0) := by
  have hprod : perMember * ((i : ℤ) + 1) = perMember * i + perMember := by ring
  have hhere : min (i : ℤ) k = i := min_eq_left (by omega)
  have hnext : min ((i + 1 : ℕ) : ℤ) k = i + 1 := min_eq_left (by omega)
  rw [bound, bound, hhere, hnext, hprod]
  split
  · omega
  · omega

theorem fits_blockExpressions (hcount : 0 < count) (hmax : count ≤ i32Max) (hi : i < k) :
    ∀ x ∈ blockExpressions (count / k) (count % k) i, Fits 32 x := by
  have hk : (0 : ℤ) < k := by omega
  have hextra : 0 ≤ count % k := Int.emod_nonneg count (ne_of_gt hk)
  have hper : 0 ≤ count / k := Int.ediv_nonneg (le_of_lt hcount) (le_of_lt hk)
  have hdiv : count / k * k + count % k = count := by
    rw [mul_comm]
    exact Int.mul_ediv_add_emod count k
  have hprod : 0 ≤ count / k * i := mul_nonneg hper (Int.natCast_nonneg i)
  have hstep : count / k * i + count / k ≤ count / k * k := by
    calc count / k * i + count / k = count / k * (i + 1) := by ring
      _ ≤ count / k * k := Int.mul_le_mul_of_nonneg_left (by omega) hper
  have hrange : ∀ x, 0 ≤ x → x ≤ count → Fits 32 x := by
    intro x hlow hhigh
    rw [i32Max] at hmax
    constructor
    · norm_num
      omega
    · norm_num
      omega
  intro x hx
  apply hrange
  · simp only [blockExpressions, List.mem_cons, List.not_mem_nil, or_false] at hx
    split at hx <;> omega
  · simp only [blockExpressions, List.mem_cons, List.not_mem_nil, or_false] at hx
    split at hx <;> omega

/-- Without overflow the arithmetic of the source is that of the formula. -/
theorem blockAt_eq_interval (topic : String) (hcount : 0 < count) (hmax : count ≤ i32Max)
    (hk : (k : ℤ) ≤ i32Max) (hi : i < k) :
    blockAt topic (count / saturate32 k) (count % saturate32 k) i =
      interval topic (bound (count / k) (count % k) k i)
        (bound (count / k) (count % k) k (i + 1)) := by
  have hsaturate := saturate32_of_le hk
  rcases block_arithmetic hcount hmax hi hsaturate.symm with ⟨-, hstart, hend⟩ | ⟨hge, -⟩
  · rw [hsaturate, blockAt, hend, hstart]
  · omega

end Formula

/-- A topic as it is shared out among its subscribers: in the order of their ids each gets
one interval, of the length that its place gives it, and the intervals follow one another
from the first partition to the last. -/
structure ExactBlocks (members : List Subscription) (partitionsPerTopic : PartitionCounts)
    (topic : String) (count : ℤ) : Prop where
  order : (subscribers members topic).Pairwise (· < ·)
  blocks : ∃ bound : ℕ → ℤ, bound 0 = 0 ∧
    bound (subscribers members topic).length = max count 0 ∧
    ∀ i id, (subscribers members topic)[i]? = some id →
      bound (i + 1) = bound i +
        (count.toNat / (subscribers members topic).length +
          if i < count.toNat % (subscribers members topic).length then 1 else 0 : ℕ) ∧
      ((assign members partitionsPerTopic).getD id []).filter (·.topic = topic) =
        interval topic (bound i) (bound (i + 1))
  tiles : ((subscribers members topic).flatMap fun id =>
    ((assign members partitionsPerTopic).getD id []).filter (·.topic = topic)) =
      interval topic 0 count
  others : ∀ id, id ∉ subscribers members topic →
    ((assign members partitionsPerTopic).getD id []).filter (·.topic = topic) = []
  fits : 0 < count → ∀ i < (subscribers members topic).length,
    ∀ x ∈ blockExpressions (count / saturate32 (subscribers members topic).length)
      (count % saturate32 (subscribers members topic).length) (saturate32 i), Fits 32 x

section Exact

variable {partitionsPerTopic : PartitionCounts} {count : ℤ}

theorem filter_assign (hcount : partitionsPerTopic[topic]? = some count) (id : String) :
    ((assign members partitionsPerTopic).getD id []).filter (·.topic = topic) =
      share members id (topic, count) := by
  have hread := filter_flatMap_toList (m := partitionsPerTopic)
    (fun (e : String × ℤ) _ (htp : _ ∈ share members id e) => topic_of_mem_share htp) topic
  rw [getD_assign]
  rw [hcount, Option.toList_some, List.flatMap_singleton] at hread
  exact hread

/-- The bounds between the blocks of a topic; they are all 0 if it has no partition. -/
def boundOf (count : ℤ) (k i : ℕ) : ℤ := bound ((max count 0) / k) ((max count 0) % k) k i

theorem share_eq_interval (hdistinct : (members.map (·.memberId)).Nodup)
    (hmax : count ≤ i32Max) (hk : ((subscribers members topic).length : ℤ) ≤ i32Max) {i : ℕ}
    (hi : (subscribers members topic)[i]? = some id) :
    share members id (topic, count) =
      interval topic (boundOf count (subscribers members topic).length i)
        (boundOf count (subscribers members topic).length (i + 1)) := by
  obtain ⟨hlt, -⟩ := List.getElem?_eq_some_iff.mp hi
  by_cases hcount : 0 < count
  · have hshare := @share_eq_blockAt _ _ hdistinct (topic, count) hcount i hi
    rw [hshare, blockAt_eq_interval topic hcount hmax hk hlt, boundOf, boundOf,
      max_eq_left (le_of_lt hcount)]
  · have hskip : (subscribers members topic).isEmpty ∨ count ≤ 0 := .inr (by omega)
    rw [share]
    dsimp only
    rw [if_pos hskip, interval_eq_nil]
    rw [boundOf, boundOf, max_eq_right (by omega)]
    simp [bound]

theorem boundOf_succ {k i : ℕ} (hi : i < k) :
    boundOf count k (i + 1) = boundOf count k i +
      (count.toNat / k + if i < count.toNat % k then 1 else 0 : ℕ) := by
  have hextra : (i : ℤ) < (count.toNat : ℤ) % k ↔ i < count.toNat % k := by
    rw [← Int.natCast_mod, Nat.cast_lt]
  rw [boundOf, boundOf, bound_succ _ _ hi, ← Int.toNat_eq_max]
  simp only [hextra]
  push_cast
  rfl

theorem exactBlocks_of_le (hdistinct : (members.map (·.memberId)).Nodup)
    (hcount : partitionsPerTopic[topic]? = some count) (hmax : count ≤ i32Max)
    (hpos : 0 < (subscribers members topic).length)
    (hk : ((subscribers members topic).length : ℤ) ≤ i32Max) :
    ExactBlocks members partitionsPerTopic topic count := by
  have hfirst : boundOf count (subscribers members topic).length 0 = 0 :=
    bound_zero (by omega)
  have hlast : boundOf count (subscribers members topic).length
      (subscribers members topic).length = max count 0 :=
    bound_membersCount (by omega) (le_refl _)
  constructor
  case order => exact pairwise_subscribers hdistinct topic
  case blocks =>
    refine ⟨boundOf count (subscribers members topic).length, hfirst, hlast, ?_⟩
    intro i id hi
    constructor
    · exact boundOf_succ (List.getElem?_eq_some_iff.mp hi).1
    · rw [filter_assign hcount, share_eq_interval hdistinct hmax hk hi]
  case tiles =>
    have hplaces : ((subscribers members topic).flatMap fun id =>
        ((assign members partitionsPerTopic).getD id []).filter (·.topic = topic)) =
        (List.range (subscribers members topic).length).flatMap fun i =>
          interval topic (boundOf count (subscribers members topic).length i)
            (boundOf count (subscribers members topic).length (i + 1)) := by
      apply flatMap_eq_range
      intro i id hi
      rw [filter_assign hcount, share_eq_interval hdistinct hmax hk hi]
    rw [hplaces, flatMap_interval, hfirst, hlast]
    · rw [interval, interval]
      congr 2
      omega
    · intro i hi
      rw [boundOf_succ hi]
      exact Int.le_add_of_nonneg_right (Int.natCast_nonneg _)
  case others =>
    intro id hid
    rw [filter_assign hcount, share_eq_nil hid]
  case fits =>
    intro hpartitions i hi
    rw [saturate32_of_le hk, saturate32_of_le (by omega)]
    exact fits_blockExpressions hpartitions hmax hi

/-- A member's list goes through the topics in order, and up through each of them. -/
theorem pairwise_assign (hdistinct : (members.map (·.memberId)).Nodup) (id : String) :
    ((assign members partitionsPerTopic).getD id []).Pairwise fun a b =>
      a.topic < b.topic ∨ a.topic = b.topic ∧ a.partition < b.partition := by
  rw [getD_assign, List.pairwise_flatMap]
  constructor
  · intro entry _
    exact (pairwise_share hdistinct entry).imp .inr
  · refine Std.TreeMap.ordered_keys_toList.imp fun {entry entry'} hlt => ?_
    intro a ha b hb
    left
    rw [topic_of_mem_share ha, topic_of_mem_share hb]
    exact compare_lt_iff_lt.mp hlt

end Exact

end RangeAssignor

/-- **Range blocks are exact.** Members have distinct ids and a count is any `i32`. Each
topic with between 1 and `i32::MAX` subscribers is tiled by their blocks, in the order of
the ids, no expression of the arithmetic overflows, and every member's list is grouped by
topic, in the order of the topics, with the partitions ascending. -/
theorem range_blocks_exact (members : List Subscription)
    (hdistinct : (members.map (·.memberId)).Nodup) (partitionsPerTopic : PartitionCounts)
    (hcounts : ∀ (topic : String) (count : ℤ), partitionsPerTopic[topic]? = some count →
      Fits 32 count) :
    (∀ (topic : String) (count : ℤ), partitionsPerTopic[topic]? = some count →
      0 < (RangeAssignor.subscribers members topic).length →
      ((RangeAssignor.subscribers members topic).length : ℤ) ≤ i32Max →
        RangeAssignor.ExactBlocks members partitionsPerTopic topic count) ∧
    ∀ id, ((rangeAssignor.assign members partitionsPerTopic).getD id []).Pairwise fun a b =>
      a.topic < b.topic ∨ a.topic = b.topic ∧ a.partition < b.partition := by
  constructor
  · intro topic count hcount hpos hk
    have hlt := (hcounts topic count hcount).2
    have hmax : count ≤ i32Max := by
      rw [i32Max]
      norm_num at hlt ⊢
      omega
    exact RangeAssignor.exactBlocks_of_le hdistinct hcount hmax hpos hk
  · exact RangeAssignor.pairwise_assign hdistinct

/-- Three members share two topics that do not divide evenly. -/
def trio : List Subscription :=
  [⟨"c2", ["a"], [], -1⟩, ⟨"c0", ["a", "b"], [], -1⟩, ⟨"c1", ["b", "a"], [], -1⟩]

def trioTopics : PartitionCounts := ((∅ : PartitionCounts).insert "a" 5).insert "b" 3

theorem range_blocks_exact_trio :
    (rangeAssignor.assign trio trioTopics).toList =
        [("c0", [⟨"a", 0⟩, ⟨"a", 1⟩, ⟨"b", 0⟩, ⟨"b", 1⟩]),
          ("c1", [⟨"a", 2⟩, ⟨"a", 3⟩, ⟨"b", 2⟩]), ("c2", [⟨"a", 4⟩])] ∧
      RangeAssignor.ExactBlocks trio trioTopics "a" 5 ∧
      ((rangeAssignor.assign trio trioTopics).getD "c0" []).Pairwise fun a b =>
        a.topic < b.topic ∨ a.topic = b.topic ∧ a.partition < b.partition := by
  have hexact := range_blocks_exact trio (by decide) trioTopics (by
    intro topic count hcount
    have hmem := Std.TreeMap.mem_toList_iff_getElem?_eq_some.mpr hcount
    have hall : ∀ e ∈ trioTopics.toList, Fits 32 e.2 := by decide
    exact hall _ hmem)
  constructor
  · decide
  · exact ⟨hexact.1 "a" 5 (by decide) (by decide) (by decide),
      hexact.2 "c0"⟩

end Barnabas.Core
