import Barnabas.Core.Group
import Mathlib.Data.Set.Insert
import Mathlib.Tactic.Ring

/-!
Every partition is placed exactly once.

The three eager assignors build their result by pushing partitions one at a
time. `Dealt` is what holds of the assignment after the partitions of a set have
been pushed, and `Dealt.push` is the only step there is: a partition not dealt
before goes to a member subscribed to its topic. What remains for each assignor
is to say which partitions it pushes.
-/

namespace Barnabas.Core

open Barnabas.Lib

/-- The partitions of `done` have been dealt, each exactly once and to a member
subscribed to its topic, and nothing else has. -/
structure Dealt (members : List Subscription) (done : Set TopicPartition)
    (assignment : Assignment) : Prop where
  keys : ∀ id, id ∈ assignment ↔ id ∈ members.map (·.memberId)
  once : ∀ tp ∈ done, ∃ m ∈ members, tp.topic ∈ m.topics ∧
    ∀ id, (assignment.getD id []).count tp = if id = m.memberId then 1 else 0
  only : ∀ id, ∀ tp ∈ assignment.getD id [], tp ∈ done

/-- The partitions that have to be placed: those that exist and that somebody
subscribed to. -/
def Wanted (members : List Subscription) (partitionsPerTopic : PartitionCounts) :
    Set TopicPartition :=
  {tp | ∃ count, partitionsPerTopic[tp.topic]? = some count ∧ 0 ≤ tp.partition ∧
    tp.partition < count ∧ ∃ m ∈ members, tp.topic ∈ m.topics}

variable {members : List Subscription} {done : Set TopicPartition} {assignment : Assignment}

/-! ### Seeding and pushing -/

theorem seed_keys_and_lists (members : List Subscription) (assignment : Assignment)
    (hlists : ∀ id, assignment.getD id [] = []) :
    (∀ id, id ∈ members.foldl (fun a m => a.insert m.memberId []) assignment ↔
      id ∈ assignment ∨ id ∈ members.map (·.memberId)) ∧
    ∀ id, (members.foldl (fun a m => a.insert m.memberId []) assignment).getD id [] = [] := by
  induction members generalizing assignment with
  | nil => simpa using hlists
  | cons m members ih =>
      have hinsert : ∀ id, (assignment.insert m.memberId []).getD id [] = [] := by
        intro id
        rw [Std.TreeMap.getD_insert]
        split
        · rfl
        · exact hlists id
      obtain ⟨hkeys, hempty⟩ := ih (assignment.insert m.memberId []) hinsert
      refine ⟨fun id => ?_, hempty⟩
      rw [List.foldl_cons, hkeys, Std.TreeMap.mem_insert, List.map_cons, List.mem_cons,
        Std.LawfulEqCmp.compare_eq_iff_eq, eq_comm]
      tauto

theorem Dealt.seed (members : List Subscription) : Dealt members ∅ (.seed members) := by
  obtain ⟨hkeys, hlists⟩ := seed_keys_and_lists members ∅ (by simp)
  refine ⟨fun id => ?_, by simp, fun id tp htp => ?_⟩
  · rw [Assignment.seed, hkeys]
    simp
  · rw [Assignment.seed, hlists] at htp
    simp at htp

theorem getD_push {id memberId : String} {tp : TopicPartition} (h : memberId ∈ assignment) :
    (assignment.push memberId tp).getD id [] =
      if id = memberId then assignment.getD id [] ++ [tp] else assignment.getD id [] := by
  rw [Assignment.push, Std.TreeMap.getD_modify]
  by_cases hid : id = memberId
  · subst hid
    rw [if_pos (Std.ReflCmp.compare_self), if_pos rfl,
      @Std.TreeMap.getElem?_eq_some_getD _ _ _ _ _ _ [] h]
    rfl
  · rw [if_neg (by rw [Std.LawfulEqCmp.compare_eq_iff_eq]; exact fun h => hid h.symm),
      if_neg hid]

/-- A new partition goes to a subscribed member. -/
theorem Dealt.push (h : Dealt members done assignment) {m : Subscription} (hm : m ∈ members)
    {tp : TopicPartition} (htopic : tp.topic ∈ m.topics) (hnew : tp ∉ done) :
    Dealt members (insert tp done) (assignment.push m.memberId tp) := by
  have hkey : m.memberId ∈ assignment := (h.keys _).mpr (List.mem_map_of_mem hm)
  have hnone : ∀ id, (assignment.getD id []).count tp = 0 := fun id =>
    List.count_eq_zero.mpr fun hmem => hnew (h.only id tp hmem)
  refine ⟨fun id => ?_, ?_, fun id tp' htp' => ?_⟩
  · rw [Assignment.push, Std.TreeMap.mem_modify, h.keys]
  · rintro tp' (rfl | htp')
    · refine ⟨m, hm, htopic, fun id => ?_⟩
      rw [getD_push hkey]
      split <;> simp [hnone id]
    · obtain ⟨m', hm', htopic', hcount⟩ := h.once tp' htp'
      refine ⟨m', hm', htopic', fun id => ?_⟩
      have hne : tp ≠ tp' := fun heq => hnew (heq ▸ htp')
      rw [getD_push hkey, ← hcount id]
      split
      · rw [List.count_append, List.count_singleton]
        simp [hne]
      · rfl
  · rw [getD_push hkey] at htp'
    split at htp'
    · rcases List.mem_append.mp htp' with hmem | hmem
      · exact Or.inr (h.only id tp' hmem)
      · exact Or.inl (List.mem_singleton.mp hmem)
    · exact Or.inr (h.only id tp' htp')

theorem Dealt.congr {done' : Set TopicPartition} (h : Dealt members done assignment)
    (heq : ∀ tp, tp ∈ done ↔ tp ∈ done') : Dealt members done' assignment :=
  (Set.ext heq) ▸ h

theorem mem_allPartitions {partitionsPerTopic : PartitionCounts} {tp : TopicPartition} :
    tp ∈ allPartitions partitionsPerTopic ↔
      ∃ count, partitionsPerTopic[tp.topic]? = some count ∧ 0 ≤ tp.partition ∧
        tp.partition < count := by
  obtain ⟨topic, partition⟩ := tp
  simp only [allPartitions, List.mem_flatMap, List.mem_map, List.mem_range,
    TopicPartition.mk.injEq, Prod.exists, Std.TreeMap.mem_toList_iff_getElem?_eq_some]
  constructor
  · rintro ⟨topic', count, hcount, p, hp, rfl, rfl⟩
    exact ⟨count, hcount, by omega, by omega⟩
  · rintro ⟨count, hcount, hnonneg, hlt⟩
    exact ⟨topic, count, hcount, partition.toNat, by omega, rfl, by omega⟩

theorem nodup_allPartitions (partitionsPerTopic : PartitionCounts) :
    (allPartitions partitionsPerTopic).Nodup := by
  rw [allPartitions, List.nodup_flatMap]
  constructor
  · rintro ⟨topic, count⟩ -
    refine List.nodup_range.map fun p p' h => ?_
    simpa using h
  · refine Std.TreeMap.distinct_keys_toList.imp fun {a b} hne => ?_
    intro tp ha hb
    obtain ⟨p, -, rfl⟩ := List.mem_map.mp ha
    obtain ⟨p', -, heq⟩ := List.mem_map.mp hb
    have htopic : a.1 = b.1 := by
      have := congrArg TopicPartition.topic heq
      exact this.symm
    exact hne (by rw [htopic]; exact Std.ReflCmp.compare_self)

theorem mem_wanted {partitionsPerTopic : PartitionCounts} {tp : TopicPartition} :
    tp ∈ Wanted members partitionsPerTopic ↔
      tp ∈ allPartitions partitionsPerTopic ∧ ∃ m ∈ members, tp.topic ∈ m.topics := by
  rw [mem_allPartitions, Wanted, Set.mem_ofPred_eq]
  constructor
  · rintro ⟨count, hcount, hnonneg, hlt, hm⟩
    exact ⟨⟨count, hcount, hnonneg, hlt⟩, hm⟩
  · rintro ⟨⟨count, hcount, hnonneg, hlt⟩, hm⟩
    exact ⟨count, hcount, hnonneg, hlt, hm⟩

@[simp] theorem mem_sortedMembers {m : Subscription} : m ∈ sortedMembers members ↔ m ∈ members :=
  List.mem_insertionSort _

/-- The partition has a subscriber. -/
def Subscribed (members : List Subscription) (tp : TopicPartition) : Prop :=
  ∃ m ∈ members, tp.topic ∈ m.topics

/-- Dealing a list of partitions, given what dealing one of them does. The state
of the loop may hold more than the assignment. -/
theorem Dealt.foldl {σ : Type} (view : σ → Assignment) {step : σ → TopicPartition → σ}
    (hstep : ∀ s tp done, Dealt members done (view s) → tp ∉ done →
      Dealt members (done ∪ {t | t = tp ∧ Subscribed members tp}) (view (step s tp)))
    {partitions : List TopicPartition} (hnodup : partitions.Nodup) {s : σ}
    (h : Dealt members done (view s)) (hnew : ∀ tp ∈ partitions, tp ∉ done) :
    Dealt members (done ∪ {tp | tp ∈ partitions ∧ Subscribed members tp})
      (view (partitions.foldl step s)) := by
  induction partitions generalizing done s with
  | nil => exact h.congr (by simp)
  | cons tp partitions ih =>
      obtain ⟨htp, hnodup⟩ := List.nodup_cons.mp hnodup
      have hnext := ih hnodup (hstep s tp done h (hnew tp (by simp))) (by
        rintro tp' htp' (hdone | ⟨rfl, -⟩)
        · exact hnew tp' (by simp [htp']) hdone
        · exact htp htp')
      refine hnext.congr fun tp' => ?_
      simp only [Set.mem_union, Set.mem_ofPred_eq, List.mem_cons]
      grind

/-- In an empty group there is nothing to deal. -/
theorem dealt_of_isEmpty {partitionsPerTopic : PartitionCounts}
    (hempty : (sortedMembers members).isEmpty = true) :
    Dealt members (Wanted members partitionsPerTopic) (.seed members) := by
  refine (Dealt.seed members).congr fun tp => ?_
  have hnone : ∀ m, m ∉ members := by
    intro m hm
    have := mem_sortedMembers.mpr hm
    simp [List.isEmpty_iff.mp hempty] at this
  simp [mem_wanted, hnone]

/-! ### Round robin -/

namespace RoundRobinAssignor

variable {sorted : List Subscription} {topic : String}

theorem seek_found {unseen next n : ℕ} (h : seek sorted topic unseen next = (n, true)) :
    ∃ m, sorted[n % sorted.length]? = some m ∧ topic ∈ m.topics := by
  induction unseen generalizing next with
  | zero => simp [seek] at h
  | succ unseen ih =>
      rw [seek] at h
      split at h
      · rename_i hany
        obtain rfl : next = n := by simpa using h
        simpa [Option.any_eq_true] using hany
      · exact ih h

theorem seek_missed {unseen next n : ℕ} (h : seek sorted topic unseen next = (n, false)) :
    ∀ k < unseen, ∀ m ∈ sorted[(next + k) % sorted.length]?, topic ∉ m.topics := by
  induction unseen generalizing next with
  | zero => simp
  | succ unseen ih =>
      rw [seek] at h
      split at h
      · simp at h
      · rename_i hany
        rintro (_ | k) hk m hm
        · intro htopic
          exact hany (Option.any_eq_true _ _ |>.mpr ⟨m, hm, by simpa using htopic⟩)
        · rw [← Nat.add_assoc, Nat.add_right_comm] at hm
          exact ih h k (by omega) m hm

/-- The cursor passes every member before it gives up. -/
theorem seek_missed_all {next n : ℕ}
    (h : seek sorted topic sorted.length next = (n, false)) : ∀ m ∈ sorted, topic ∉ m.topics := by
  intro m hm
  obtain ⟨i, hi, rfl⟩ := List.mem_iff_getElem.mp hm
  have hpos : 0 < sorted.length := by omega
  obtain ⟨k, hk, hmod⟩ : ∃ k < sorted.length, (next + k) % sorted.length = i := by
    have hnext := Nat.mod_lt next hpos
    refine ⟨(i + (sorted.length - next % sorted.length)) % sorted.length,
      Nat.mod_lt _ hpos, ?_⟩
    rw [Nat.add_mod_mod, ← Nat.mod_add_mod, ← Nat.add_assoc, Nat.add_right_comm,
      show next % sorted.length + (sorted.length - next % sorted.length) + i =
        i + sorted.length by omega, Nat.add_mod_right, Nat.mod_eq_of_lt hi]
  refine seek_missed h k hk _ ?_
  rw [hmod]
  exact List.getElem?_eq_getElem hi

theorem deal_dealt (cursor : ℕ × Assignment) (tp : TopicPartition) (done : Set TopicPartition)
    (h : Dealt members done cursor.2) (hnew : tp ∉ done) :
    Dealt members (done ∪ {t | t = tp ∧ Subscribed members tp})
      (deal (sortedMembers members) cursor tp).2 := by
  rw [deal]
  rcases hseek : seek (sortedMembers members) tp.topic (sortedMembers members).length cursor.1
    with ⟨next, _ | _⟩
  · have hnone : ¬Subscribed members tp := fun ⟨m, hm, htopic⟩ =>
      seek_missed_all hseek m (mem_sortedMembers.mpr hm) htopic
    simp only [Bool.false_eq_true, if_false]
    exact h.congr (by simp [hnone])
  · obtain ⟨m, hm, htopic⟩ := seek_found hseek
    have hmem : m ∈ members := mem_sortedMembers.mp (List.mem_of_getElem? hm)
    simp only [if_true, hm]
    refine (h.push hmem htopic hnew).congr fun t => ?_
    have hsubscribed : Subscribed members tp := ⟨m, hmem, htopic⟩
    simp [hsubscribed]

theorem assign_dealt (members : List Subscription) (partitionsPerTopic : PartitionCounts) :
    Dealt members (Wanted members partitionsPerTopic) (assign members partitionsPerTopic) := by
  rw [assign]
  split
  · rename_i hempty
    exact dealt_of_isEmpty hempty
  · refine (Dealt.foldl Prod.snd deal_dealt (nodup_allPartitions partitionsPerTopic)
      (s := (0, Assignment.seed members)) (Dealt.seed members) (by simp)).congr fun tp => ?_
    simp [mem_wanted, Subscribed]

end RoundRobinAssignor

/-! ### Sticky -/

namespace StickyAssignor

theorem lightest_mem {m : Subscription} {candidates : List Subscription}
    (h : lightest assignment candidates = some m) : m ∈ candidates := by
  induction candidates with
  | nil => simp [lightest] at h
  | cons m' candidates ih =>
      rw [lightest] at h
      split at h
      · simp_all
      · rename_i m'' hm''
        split at h
        · obtain rfl : m'' = m := by simpa using h
          exact List.mem_cons_of_mem _ (ih hm'')
        · simp_all

theorem lightest_eq_none {candidates : List Subscription}
    (h : lightest assignment candidates = none) : candidates = [] := by
  cases candidates with
  | nil => rfl
  | cons m candidates =>
      rw [lightest] at h
      split at h
      · simp at h
      · split at h <;> simp at h

theorem dealLightest_dealt (assignment : Assignment) (tp : TopicPartition)
    (done : Set TopicPartition) (h : Dealt members done assignment) (hnew : tp ∉ done) :
    Dealt members (done ∪ {t | t = tp ∧ Subscribed members tp})
      (dealLightest (sortedMembers members) assignment tp) := by
  rw [dealLightest]
  split
  · rename_i hnone
    have hcandidates := List.filter_eq_nil_iff.mp (lightest_eq_none hnone)
    have hunsubscribed : ¬Subscribed members tp := fun ⟨m, hm, htopic⟩ =>
      hcandidates m (mem_sortedMembers.mpr hm) (by simpa using htopic)
    exact h.congr (by simp [hunsubscribed])
  · rename_i m hm
    obtain ⟨hmem, htopic⟩ := List.mem_filter.mp (lightest_mem hm)
    have htopic : tp.topic ∈ m.topics := by simpa using htopic
    refine (h.push (mem_sortedMembers.mp hmem) htopic hnew).congr fun t => ?_
    have hsubscribed : Subscribed members tp := ⟨m, mem_sortedMembers.mp hmem, htopic⟩
    simp [hsubscribed]

/-- What has been kept: valid partitions with a subscriber. -/
structure KeepsValid (members : List Subscription) (valid : List TopicPartition) (kept : Kept) :
    Prop where
  dealt : Dealt members kept.taken kept.assignment
  valid : ∀ tp ∈ kept.taken, tp ∈ valid ∧ Subscribed members tp

theorem KeepsValid.keepClaims {valid : List TopicPartition} {kept : Kept} {m : Subscription}
    (hm : m ∈ members) (quota : ℕ) (claims : List TopicPartition)
    (h : KeepsValid members valid kept) :
    KeepsValid members valid (keepClaims valid m quota claims kept) := by
  induction claims generalizing kept with
  | nil => exact h
  | cons tp claims ih =>
      rw [StickyAssignor.keepClaims]
      split
      · exact h
      · split
        · rename_i hkeep
          obtain ⟨hvalid, hnew, htopic⟩ := hkeep
          apply ih
          refine ⟨?_, fun tp' htp' => ?_⟩
          · rw [Finset.coe_insert]
            exact h.dealt.push hm htopic (by simpa using hnew)
          · rcases Finset.mem_insert.mp htp' with rfl | htp'
            · exact ⟨hvalid, m, hm, htopic⟩
            · exact h.valid tp' htp'
        · exact ih h

theorem KeepsValid.keepAll {valid : List TopicPartition} {kept : Kept}
    {sorted queue : List Subscription} (hqueue : ∀ m ∈ queue, m ∈ members)
    (claims : Std.TreeMap String (List TopicPartition)) (h : KeepsValid members valid kept) :
    KeepsValid members valid (queue.foldl (fun kept member => StickyAssignor.keepClaims valid member
      (quotaOf valid sorted member) (claims.getD member.memberId []) kept) kept) := by
  induction queue generalizing kept with
  | nil => exact h
  | cons m queue ih =>
      exact ih (fun m hm => hqueue m (by simp [hm])) (h.keepClaims (hqueue m (by simp)) _ _)

theorem getD_sorted_perm (assignment : Assignment) (id : String) :
    ((assignment.map fun _ => sortPartitions).getD id []).Perm (assignment.getD id []) := by
  rw [Std.TreeMap.getD_eq_getD_getElem?, Std.TreeMap.getD_eq_getD_getElem?, Std.TreeMap.getElem?_map]
  cases assignment[id]? with
  | none => exact List.Perm.refl _
  | some partitions => exact List.perm_insertionSort _ _

/-- Sorting the lists changes no count. -/
theorem dealt_sorted (h : Dealt members done assignment) :
    Dealt members done (assignment.map fun _ => sortPartitions) := by
  refine ⟨fun id => ?_, fun tp htp => ?_, fun id tp htp => ?_⟩
  · rw [Std.TreeMap.mem_map, h.keys]
  · obtain ⟨m, hm, htopic, hcount⟩ := h.once tp htp
    exact ⟨m, hm, htopic, fun id => by rw [(getD_sorted_perm _ id).count_eq, hcount]⟩
  · exact h.only id tp ((getD_sorted_perm _ id).mem_iff.mp htp)

theorem assign_dealt (members : List Subscription) (partitionsPerTopic : PartitionCounts) :
    Dealt members (Wanted members partitionsPerTopic) (assign members partitionsPerTopic) := by
  rw [assign]
  split
  · rename_i hempty
    exact dealt_of_isEmpty hempty
  · apply dealt_sorted
    have hseed : KeepsValid members (allPartitions partitionsPerTopic)
        ⟨∅, Assignment.seed members⟩ :=
      ⟨(Dealt.seed members).congr (by simp), by simp⟩
    have hkept : KeepsValid members (allPartitions partitionsPerTopic)
        (StickyAssignor.keepAll (allPartitions partitionsPerTopic) (sortedMembers members)
          (liveClaims members) ⟨∅, Assignment.seed members⟩) :=
      hseed.keepAll (fun m hm => mem_sortedMembers.mp hm) (liveClaims members)
    refine (Dealt.foldl id dealLightest_dealt
      ((nodup_allPartitions partitionsPerTopic).filter _) hkept.dealt ?_).congr fun tp => ?_
    · intro tp htp
      simpa using (List.mem_filter.mp htp).2
    · have hvalid := hkept.valid tp
      simp only [Set.mem_union, Set.mem_ofPred_eq, List.mem_filter, mem_wanted, Finset.mem_coe,
        decide_eq_true_eq]
      change _ ↔ _ ∧ Subscribed members tp
      tauto

end StickyAssignor

/-! ### Range -/

namespace RangeAssignor

/-- The partitions of a topic in `[low, high)`. -/
def block (topic : String) (low high : ℤ) : Set TopicPartition :=
  {tp | tp.topic = topic ∧ low ≤ tp.partition ∧ tp.partition < high}

theorem pushBlock_dealt {topic : String} {m : Subscription} (hm : m ∈ members)
    (htopic : topic ∈ m.topics) (length : ℕ) (start : ℤ) (h : Dealt members done assignment)
    (hnew : ∀ tp ∈ block topic start (start + length), tp ∉ done) :
    Dealt members (done ∪ block topic start (start + length))
      (pushBlock topic m.memberId length start assignment) := by
  induction length generalizing start done assignment with
  | zero =>
      refine h.congr fun tp => (or_iff_left ?_).symm
      rintro ⟨-, hlow, hhigh⟩
      simp only [Nat.cast_zero] at hhigh
      omega
  | succ length ih =>
      have hfirst : (⟨topic, start⟩ : TopicPartition) ∉ done :=
        hnew _ ⟨rfl, le_refl _, by simp⟩
      refine (ih (start + 1) (h.push hm htopic hfirst) ?_).congr fun tp => ?_
      · rintro tp ⟨rfl, hlow, hhigh⟩ (heq | hdone)
        · have := congrArg TopicPartition.partition heq
          dsimp only at this
          omega
        · exact hnew tp ⟨rfl, by omega, by push_cast; omega⟩ hdone
      · obtain ⟨topic', partition⟩ := tp
        simp only [block, Set.mem_union, Set.mem_insert_iff, Set.mem_ofPred_eq,
          TopicPartition.mk.injEq, Nat.cast_add, Nat.cast_one]
        have hsplit : start ≤ partition ∧ partition < start + (length + 1) ↔
            partition = start ∨ start + 1 ≤ partition ∧ partition < start + 1 + length := by
          omega
        rw [hsplit]
        tauto

/-- Where the blocks of the first `i` members end. -/
def bound (perMember withExtra membersCount : ℤ) (i : ℕ) : ℤ :=
  perMember * min (i : ℤ) membersCount + min (min (i : ℤ) membersCount) withExtra

section Arithmetic

variable {count membersCount : ℤ}

theorem bound_zero (hmembers : 0 < membersCount) :
    bound (count / membersCount) (count % membersCount) membersCount 0 = 0 := by
  have := Int.emod_nonneg count (ne_of_gt hmembers)
  simp [bound, min_eq_left (le_of_lt hmembers), min_eq_left this]

theorem bound_membersCount (hmembers : 0 < membersCount) {i : ℕ} (hi : membersCount ≤ i) :
    bound (count / membersCount) (count % membersCount) membersCount i = count := by
  have hlt := Int.emod_lt_of_pos count hmembers
  rw [bound, min_eq_right hi, min_eq_right (le_of_lt hlt), mul_comm, Int.mul_ediv_add_emod]

/-- The `i32` expressions of a member's block. A member past `i32::MAX` of them
gets an empty block: its start is already the count, and if its length is not
zero the end wraps around. -/
theorem block_arithmetic (hcount : 0 < count) (hmax : count ≤ i32Max) {len i : ℕ} (hi : i < len)
    (hmembers : membersCount = saturate32 len) :
    let perMember := count / membersCount
    let withExtra := count % membersCount
    let index := saturate32 i
    let start := wrap 32 (wrap 32 (perMember * index) + min index withExtra)
    let length := wrap 32 (perMember + if index < withExtra then 1 else 0)
    ((i : ℤ) < membersCount ∧ start = bound perMember withExtra membersCount i ∧
        wrap 32 (start + length) = bound perMember withExtra membersCount (i + 1)) ∨
      (membersCount ≤ i ∧ wrap 32 (start + length) ≤ start) := by
  intro perMember withExtra index start length
  have hmc : 0 < membersCount ∧ membersCount ≤ i32Max ∧ membersCount ≤ len := by
    rw [hmembers, saturate32]
    simp only [i32Max]
    omega
  obtain ⟨hpos, hle, hlen⟩ := hmc
  have hextra : 0 ≤ withExtra := Int.emod_nonneg count (ne_of_gt hpos)
  have hextraLt : withExtra < membersCount := Int.emod_lt_of_pos count hpos
  have hper : 0 ≤ perMember := Int.ediv_nonneg (le_of_lt hcount) (le_of_lt hpos)
  have hdiv : perMember * membersCount + withExtra = count := by
    rw [mul_comm]
    exact Int.mul_ediv_add_emod count membersCount
  by_cases hlt : (i : ℤ) < membersCount
  · left
    have hindex : index = i := min_eq_left (by omega)
    have hprod : 0 ≤ perMember * i := mul_nonneg hper (Int.natCast_nonneg i)
    have hstep : perMember * i + perMember ≤ perMember * membersCount := by
      calc perMember * i + perMember = perMember * (i + 1) := by ring
        _ ≤ perMember * membersCount := Int.mul_le_mul_of_nonneg_left (by omega) hper
    have hstart : start = perMember * i + min (i : ℤ) withExtra := by
      simp only [start, hindex]
      rw [wrap32_eq_self hprod (by omega), wrap32_eq_self (by omega) (by omega)]
    have hlength : length = perMember + if (i : ℤ) < withExtra then 1 else 0 := by
      simp only [length, hindex]
      split <;> rw [wrap32_eq_self (by omega) (by omega)]
    have hbound : bound perMember withExtra membersCount (i + 1) =
        perMember * i + perMember + min ((i : ℤ) + 1) withExtra := by
      rw [bound, min_eq_left (by push_cast; omega)]
      push_cast
      ring
    refine ⟨hlt, ?_, ?_⟩
    · rw [hstart, bound, min_eq_left (le_of_lt hlt)]
    · rw [hbound, hstart, hlength]
      split <;> rw [wrap32_eq_self (by omega) (by omega)] <;> omega
  · right
    have hfull : membersCount = i32Max := by
      rw [hmembers, saturate32] at hlt ⊢
      omega
    have hindex : index = i32Max := min_eq_right (by omega)
    have hnot : ¬index < withExtra := by omega
    have hper' : perMember = 0 ∨ perMember = 1 := by
      by_contra hne
      have hmul : 2 * membersCount ≤ perMember * membersCount :=
        Int.mul_le_mul_of_nonneg_right (by omega) (le_of_lt hpos)
      omega
    refine ⟨not_lt.mp hlt, ?_⟩
    rcases hper' with hzero | hone
    · have hlength : length = 0 := by
        simp only [length, if_neg hnot, hzero]
        rfl
      have hstart : start = withExtra := by
        simp only [start, hzero, zero_mul, min_eq_right (not_lt.mp hnot)]
        exact (congrArg (wrap 32) (zero_add withExtra)).trans
          (wrap32_eq_self hextra (by omega))
      rw [hlength, hstart, add_zero, wrap32_eq_self hextra (by omega)]
    · have hextra0 : withExtra = 0 := by
        rw [hone, one_mul] at hdiv
        omega
      have hlength : length = 1 := by
        simp only [length, if_neg hnot, hone]
        rfl
      have hstart : start = i32Max := by
        simp only [start, hone, one_mul, hindex, hextra0]
        decide
      rw [hlength, hstart]
      decide

theorem bound_mono {perMember : ℤ} (withExtra membersCount : ℤ) (hper : 0 ≤ perMember) (i : ℕ) :
    bound perMember withExtra membersCount i ≤ bound perMember withExtra membersCount (i + 1) := by
  have hmin : min (i : ℤ) membersCount ≤ min ((i + 1 : ℕ) : ℤ) membersCount := by
    push_cast
    omega
  have hmul := Int.mul_le_mul_of_nonneg_left hmin hper
  rw [bound, bound]
  omega

end Arithmetic

theorem block_union_block {topic : String} {low mid high : ℤ} (hlow : low ≤ mid)
    (hhigh : mid ≤ high) : block topic low mid ∪ block topic mid high = block topic low high := by
  ext tp
  simp only [block, Set.mem_union, Set.mem_ofPred_eq]
  have hsplit : low ≤ tp.partition ∧ tp.partition < high ↔
      low ≤ tp.partition ∧ tp.partition < mid ∨ mid ≤ tp.partition ∧ tp.partition < high := by
    omega
  rw [hsplit]
  tauto

section Topic

variable {topic : String} {count membersCount : ℤ}

/-- One member's block continues where the blocks before it end. -/
theorem assignBlock_dealt (hcount : 0 < count) (hmax : count ≤ i32Max) {len i : ℕ} (hi : i < len)
    (hmembers : membersCount = saturate32 len) {m : Subscription} (hm : m ∈ members)
    (htopic : topic ∈ m.topics) (hnew : ∀ tp ∈ done, tp.topic ≠ topic)
    (h : Dealt members (done ∪ block topic 0
      (bound (count / membersCount) (count % membersCount) membersCount i)) assignment) :
    Dealt members (done ∪ block topic 0
        (bound (count / membersCount) (count % membersCount) membersCount (i + 1)))
      (assignBlock topic (count / membersCount) (count % membersCount) assignment
        (m.memberId, i)) := by
  have hpos : 0 < membersCount := by
    rw [hmembers, saturate32]
    simp only [i32Max]
    omega
  have hper : 0 ≤ count / membersCount := Int.ediv_nonneg (le_of_lt hcount) (le_of_lt hpos)
  have hmono := bound_mono (count % membersCount) membersCount hper
  rw [assignBlock]
  dsimp only
  rcases block_arithmetic hcount hmax hi hmembers with ⟨hlt, hstart, hend⟩ | ⟨hge, hend⟩
  · rw [hend, hstart]
    have hnonneg : 0 ≤ bound (count / membersCount) (count % membersCount) membersCount i := by
      have hextra := Int.emod_nonneg count (ne_of_gt hpos)
      have hprod : 0 ≤ count / membersCount * min (i : ℤ) membersCount :=
        mul_nonneg hper (by omega)
      rw [bound]
      omega
    have hlen : bound (count / membersCount) (count % membersCount) membersCount i +
        ((bound (count / membersCount) (count % membersCount) membersCount (i + 1) -
          bound (count / membersCount) (count % membersCount) membersCount i).toNat : ℤ) =
        bound (count / membersCount) (count % membersCount) membersCount (i + 1) := by
      have := hmono i
      omega
    have hpush := pushBlock_dealt hm htopic
      (bound (count / membersCount) (count % membersCount) membersCount (i + 1) -
        bound (count / membersCount) (count % membersCount) membersCount i).toNat
      (bound (count / membersCount) (count % membersCount) membersCount i) h (by
        rintro tp ⟨rfl, hlow, -⟩ (hdone | ⟨-, -, hhigh⟩)
        · exact hnew tp hdone rfl
        · omega)
    rw [hlen, Set.union_assoc, block_union_block hnonneg (hmono i)] at hpush
    exact hpush
  · rw [Int.toNat_of_nonpos (by omega), pushBlock]
    rw [bound_membersCount hpos hge] at h
    rw [bound_membersCount hpos (by push_cast; omega)]
    exact h

theorem assignBlocks_dealt (topic : String) (len : ℕ) (hcount : 0 < count) (hmax : count ≤ i32Max)
    (hmembers : membersCount = saturate32 len) (hnew : ∀ tp ∈ done, tp.topic ≠ topic)
    (ids : List String) (i : ℕ) (hlen : i + ids.length ≤ len)
    (hids : ∀ id ∈ ids, ∃ m ∈ members, m.memberId = id ∧ topic ∈ m.topics)
    (h : Dealt members (done ∪ block topic 0
      (bound (count / membersCount) (count % membersCount) membersCount i)) assignment) :
    Dealt members (done ∪ block topic 0
        (bound (count / membersCount) (count % membersCount) membersCount (i + ids.length)))
      ((ids.zipIdx i).foldl
        (assignBlock topic (count / membersCount) (count % membersCount)) assignment) := by
  induction ids generalizing i assignment with
  | nil => exact h
  | cons id ids ih =>
      obtain ⟨m, hm, rfl, htopic⟩ := hids id (by simp)
      simp only [List.length_cons] at hlen
      have hnext := ih (i + 1) (by omega) (fun id hid => hids id (by simp [hid]))
        (assignBlock_dealt hcount hmax (by omega) hmembers hm htopic hnew h)
      rw [Nat.add_right_comm] at hnext
      exact hnext

end Topic

theorem mem_subscribers {topic id : String} :
    id ∈ subscribers members topic ↔ ∃ m ∈ members, m.memberId = id ∧ topic ∈ m.topics := by
  simp only [subscribers, List.mem_insertionSort, List.mem_map, List.mem_filter,
    decide_eq_true_eq]
  constructor
  · rintro ⟨m, ⟨hm, htopic⟩, rfl⟩
    exact ⟨m, hm, rfl, htopic⟩
  · rintro ⟨m, hm, rfl, htopic⟩
    exact ⟨m, ⟨hm, htopic⟩, rfl⟩

theorem assignTopic_dealt (topic : String) {count : ℤ} (hmax : count ≤ i32Max)
    (hnew : ∀ tp ∈ done, tp.topic ≠ topic) (h : Dealt members done assignment) :
    Dealt members (done ∪ {tp | tp ∈ block topic 0 count ∧ Subscribed members tp})
      (assignTopic members assignment (topic, count)) := by
  rw [assignTopic]
  dsimp only
  split
  · rename_i hskip
    refine h.congr fun tp => (or_iff_left ?_).symm
    rintro ⟨⟨rfl, hlow, hhigh⟩, m, hm, htopic⟩
    rcases hskip with hempty | hnone
    · have hmem := mem_subscribers.mpr ⟨m, hm, rfl, htopic⟩
      simp [List.isEmpty_iff.mp hempty] at hmem
    · omega
  · rename_i hsome
    rw [not_or, not_le, List.isEmpty_iff] at hsome
    obtain ⟨hnonempty, hcount⟩ := hsome
    have hlen : 0 < (subscribers members topic).length := List.length_pos_iff.mpr hnonempty
    have hpos : 0 < saturate32 (subscribers members topic).length := by
      simp only [saturate32, i32Max]
      omega
    have hle : saturate32 (subscribers members topic).length ≤
        (subscribers members topic).length := by
      simp only [saturate32]
      omega
    have hblocks := assignBlocks_dealt topic
      (subscribers members topic).length hcount hmax rfl hnew
      (subscribers members topic) 0 (by simp) (fun id hid => mem_subscribers.mp hid)
      (h.congr (by
        intro tp
        rw [bound_zero hpos]
        refine (or_iff_left ?_).symm
        rintro ⟨-, hlow, hhigh⟩
        omega))
    rw [Nat.zero_add, bound_membersCount hpos hle] at hblocks
    refine hblocks.congr fun tp => or_congr_right (and_iff_left_of_imp ?_).symm
    rintro ⟨rfl, -, -⟩
    obtain ⟨id, hid⟩ := List.exists_mem_of_length_pos hlen
    obtain ⟨m, hm, -, htopic⟩ := mem_subscribers.mp hid
    exact ⟨m, hm, htopic⟩

theorem assignTopics_dealt (entries : List (String × ℤ))
    (hdistinct : entries.Pairwise fun a b => a.1 ≠ b.1) (hmax : ∀ e ∈ entries, e.2 ≤ i32Max)
    (hnew : ∀ tp ∈ done, ∀ e ∈ entries, tp.topic ≠ e.1) (h : Dealt members done assignment) :
    Dealt members (done ∪ {tp | ∃ e ∈ entries, tp ∈ block e.1 0 e.2 ∧ Subscribed members tp})
      (entries.foldl (assignTopic members) assignment) := by
  induction entries generalizing done assignment with
  | nil => exact h.congr (by simp)
  | cons e entries ih =>
      obtain ⟨he, hdistinct⟩ := List.pairwise_cons.mp hdistinct
      have htopic := assignTopic_dealt e.1 (hmax e (by simp))
        (fun tp htp => hnew tp htp e (by simp)) h
      refine (ih hdistinct (fun e he => hmax e (by simp [he])) ?_ htopic).congr fun tp => ?_
      · rintro tp (htp | ⟨⟨heq, -⟩, -⟩) e' he'
        · exact hnew tp htp e' (by simp [he'])
        · exact heq ▸ he e' he'
      · simp only [Set.mem_union, Set.mem_ofPred_eq, List.exists_mem_cons_iff, or_assoc]

theorem assign_dealt (members : List Subscription) (partitionsPerTopic : PartitionCounts)
    (hcounts : ∀ (topic : String) (count : ℤ), partitionsPerTopic[topic]? = some count →
      count ≤ i32Max) :
    Dealt members (Wanted members partitionsPerTopic) (assign members partitionsPerTopic) := by
  have hdistinct : partitionsPerTopic.toList.Pairwise fun a b => a.1 ≠ b.1 :=
    Std.TreeMap.distinct_keys_toList.imp fun {a b} hne heq =>
      hne (by rw [heq]; exact Std.ReflCmp.compare_self)
  refine (assignTopics_dealt partitionsPerTopic.toList hdistinct (fun e he => ?_) (by simp)
    (Dealt.seed members)).congr fun tp => ?_
  · exact hcounts e.1 e.2 (Std.TreeMap.mem_toList_iff_getElem?_eq_some.mp he)
  · simp only [Set.mem_union, Set.mem_empty_iff_false, false_or, Set.mem_ofPred_eq, Prod.exists,
      Std.TreeMap.mem_toList_iff_getElem?_eq_some, block, Wanted, Subscribed]
    constructor
    · rintro ⟨topic, count, hcount, ⟨rfl, hlow, hhigh⟩, hm⟩
      exact ⟨count, hcount, hlow, hhigh, hm⟩
    · rintro ⟨count, hcount, hlow, hhigh, hm⟩
      exact ⟨tp.topic, count, hcount, ⟨rfl, hlow, hhigh⟩, hm⟩

end RangeAssignor

/-- **Every partition is placed exactly once.** The keys of an eager assignment
are the member ids; each partition of each topic with a subscriber appears once in
the whole result, in the list of a member subscribed to its topic; nothing else
appears. Member ids need not be distinct for this, and counts are any `i32`. -/
theorem assignors_place_once (members : List Subscription) (partitionsPerTopic : PartitionCounts)
    (hcounts : ∀ (topic : String) (count : ℤ), partitionsPerTopic[topic]? = some count →
      Fits 32 count) :
    ∀ assignor ∈ [rangeAssignor, roundRobinAssignor, stickyAssignor],
      Dealt members (Wanted members partitionsPerTopic)
        (assignor.assign members partitionsPerTopic) := by
  intro assignor hassignor
  simp only [List.mem_cons, List.not_mem_nil, or_false] at hassignor
  rcases hassignor with rfl | rfl | rfl
  · refine RangeAssignor.assign_dealt members partitionsPerTopic fun topic count hcount => ?_
    have hlt := (hcounts topic count hcount).2
    simp only [i32Max]
    norm_num at hlt ⊢
    omega
  · exact RoundRobinAssignor.assign_dealt members partitionsPerTopic
  · exact StickyAssignor.assign_dealt members partitionsPerTopic

/-- Two members that both claim the same partition. -/
def rivals : List Subscription :=
  [⟨"c1", ["a", "b"], [⟨"a", 0⟩, ⟨"a", 1⟩], 3⟩, ⟨"c0", ["a", "a"], [⟨"a", 1⟩], 3⟩]

def rivalTopics : PartitionCounts := ((∅ : PartitionCounts).insert "a" 3).insert "b" (-1)

theorem assignors_place_once_rivals :
    (stickyAssignor.assign rivals rivalTopics).toList =
        [("c0", [⟨"a", 1⟩, ⟨"a", 2⟩]), ("c1", [⟨"a", 0⟩])] ∧
      ∀ assignor ∈ [rangeAssignor, roundRobinAssignor, stickyAssignor],
        Dealt rivals (Wanted rivals rivalTopics) (assignor.assign rivals rivalTopics) :=
  ⟨by decide, assignors_place_once rivals rivalTopics (by
    intro topic count hcount
    have hmem := Std.TreeMap.mem_toList_iff_getElem?_eq_some.mpr hcount
    have hall : ∀ e ∈ rivalTopics.toList, Fits 32 e.2 := by decide
    exact hall _ hmem)⟩

end Barnabas.Core
