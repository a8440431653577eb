import Barnabas.Core.TopicPartition
import Barnabas.Lib.MachineInt
import Mathlib.Data.Finset.Insert
import Mathlib.Data.List.Sort

/-!
Consumer group assignment (`barnabas-core/src/group.rs`): who gets which
partitions. Under the classic protocol the group leader computes the assignment,
so this is client-side logic.

An assignment is built by pushing partitions onto the lists of a map that is
seeded with every member; the three eager assignors differ in what they push
where, and the cooperative one holds back a part of what the sticky one decides.
Strings are compared by code point, which is the byte order of UTF-8.
-/

namespace Barnabas.Core

open Barnabas.Lib

/-- One member's declared interest, as it arrives in `JoinGroup`. -/
structure Subscription where
  memberId : String
  topics : List String
  owned : List TopicPartition
  /-- The generation `owned` was true in, or -1 if the member did not say. -/
  generation : ℤ
  deriving DecidableEq, Repr

/-- What the leader decided: member id to the partitions it owns. -/
abbrev Assignment := Std.TreeMap String (List TopicPartition)

abbrev PartitionCounts := Std.TreeMap String ℤ

/-- How partitions are shared out; the name is what goes on the wire. -/
structure Assignor where
  name : String
  assign : List Subscription → PartitionCounts → Assignment

namespace Assignment

/-- Every member appears in the result. -/
def seed (members : List Subscription) : Assignment :=
  members.foldl (fun assignment m => assignment.insert m.memberId []) ∅

/-- `assignment.get_mut(member).expect(..).push(tp)`; every member is seeded. -/
def push (assignment : Assignment) (memberId : String) (tp : TopicPartition) : Assignment :=
  assignment.modify memberId (· ++ [tp])

end Assignment

/-- `i32::try_from(n).unwrap_or(i32::MAX)`. -/
def saturate32 (n : ℕ) : ℤ := min (n : ℤ) i32Max

/-! ### Contiguous ranges per topic -/

namespace RangeAssignor

/-- The members subscribed to a topic, in id order. -/
def subscribers (members : List Subscription) (topic : String) : List String :=
  ((members.filter fun m => topic ∈ m.topics).map (·.memberId)).insertionSort (· ≤ ·)

/-- Push `length` partitions from `start` on. -/
def pushBlock (topic memberId : String) : ℕ → ℤ → Assignment → Assignment
  | 0, _, assignment => assignment
  | length + 1, start, assignment =>
      pushBlock topic memberId length (start + 1) (assignment.push memberId ⟨topic, start⟩)

/-- The block of the member at `index`, in Java's arithmetic on `i32`. The loop
runs over `start..start + length`, which is empty if the end is not above the
start. -/
def assignBlock (topic : String) (perMember withExtra : ℤ) (assignment : Assignment)
    (member : String × ℕ) : Assignment :=
  let index := saturate32 member.2
  let start := wrap 32 (wrap 32 (perMember * index) + min index withExtra)
  let length := wrap 32 (perMember + if index < withExtra then 1 else 0)
  pushBlock topic member.1 (wrap 32 (start + length) - start).toNat start assignment

/-- One topic. Where the division is reached, both operands are positive. -/
def assignTopic (members : List Subscription) (assignment : Assignment)
    (entry : String × ℤ) : Assignment :=
  let (topic, count) := entry
  let subscribers := subscribers members topic
  if subscribers.isEmpty ∨ count ≤ 0 then assignment
  else
    let membersCount := saturate32 subscribers.length
    let perMember := count / membersCount
    let withExtra := count % membersCount
    subscribers.zipIdx.foldl (assignBlock topic perMember withExtra) assignment

def assign (members : List Subscription) (partitionsPerTopic : PartitionCounts) : Assignment :=
  partitionsPerTopic.toList.foldl (assignTopic members) (.seed members)

end RangeAssignor

/-- Contiguous ranges per topic, Java's `RangeAssignor`. -/
def rangeAssignor : Assignor := ⟨"range", RangeAssignor.assign⟩

/-- Every partition in the group, topic-major then partition. -/
def allPartitions (partitionsPerTopic : PartitionCounts) : List TopicPartition :=
  partitionsPerTopic.toList.flatMap fun (topic, count) =>
    (List.range (max count 0).toNat).map fun p : ℕ => ⟨topic, (p : ℤ)⟩

def sortedMembers (members : List Subscription) : List Subscription :=
  members.insertionSort (·.memberId ≤ ·.memberId)

/-! ### One partition at a time around the members -/

namespace RoundRobinAssignor

/-- The `while` loop: advance to a member that wants the topic, looking at each
member at most once. Returns the cursor and whether a member was found. -/
def seek (sorted : List Subscription) (topic : String) : ℕ → ℕ → ℕ × Bool
  | 0, next => (next, false)
  | unseen + 1, next =>
      if (sorted[next % sorted.length]?).any fun m => topic ∈ m.topics then (next, true)
      else seek sorted topic unseen (next + 1)

/-- Deal one partition. If nobody wants the topic, the partition stays
unassigned. -/
def deal (sorted : List Subscription) (cursor : ℕ × Assignment) (tp : TopicPartition) :
    ℕ × Assignment :=
  let (next, assignment) := cursor
  let (next, found) := seek sorted tp.topic sorted.length next
  if found then
    match sorted[next % sorted.length]? with
    | none => (next + 1, assignment)
    | some member => (next + 1, assignment.push member.memberId tp)
  else (next, assignment)

def assign (members : List Subscription) (partitionsPerTopic : PartitionCounts) : Assignment :=
  let sorted := sortedMembers members
  if sorted.isEmpty then .seed members
  else ((allPartitions partitionsPerTopic).foldl (deal sorted) (0, .seed members)).2

end RoundRobinAssignor

/-- One partition at a time around the members, Java's `RoundRobinAssignor`. -/
def roundRobinAssignor : Assignor := ⟨"roundrobin", RoundRobinAssignor.assign⟩

/-! ### Keep what you had where possible -/

namespace StickyAssignor

/-- The highest generation any member reports, or -1 in an empty group. -/
def highestGeneration : List Subscription → ℤ
  | [] => -1
  | m :: members => members.foldl (fun highest m => max highest m.generation) m.generation

/-- The ownership claims worth believing: a claim from below the highest
generation in the group is stale. -/
def liveClaims (members : List Subscription) : Std.TreeMap String (List TopicPartition) :=
  let highest := highestGeneration members
  members.foldl (fun claims m => claims.insert m.memberId
    (if highest ≤ m.generation ∧ 0 ≤ highest then m.owned else [])) ∅

/-- A member's fair share: the partitions it wants over the members that want any
of its topics, rounded up. -/
def quotaOf (valid : List TopicPartition) (sorted : List Subscription) (member : Subscription) :
    ℕ :=
  let wanted := (valid.filter fun tp => tp.topic ∈ member.topics).length
  let sharers := max (sorted.filter fun m => m.topics.any (· ∈ member.topics)).length 1
  (wanted + sharers - 1) / sharers

/-- The partitions taken so far and the assignment they went into. -/
structure Kept where
  taken : Finset TopicPartition
  assignment : Assignment

/-- The claims of one member, up to its quota. -/
def keepClaims (valid : List TopicPartition) (member : Subscription) (quota : ℕ) :
    List TopicPartition → Kept → Kept
  | [], kept => kept
  | tp :: claims, kept =>
      if quota ≤ (kept.assignment.getD member.memberId []).length then kept
      else if tp ∈ valid ∧ tp ∉ kept.taken ∧ tp.topic ∈ member.topics then
        keepClaims valid member quota claims
          ⟨insert tp kept.taken, kept.assignment.push member.memberId tp⟩
      else keepClaims valid member quota claims kept

def keepAll (valid : List TopicPartition) (sorted : List Subscription)
    (claims : Std.TreeMap String (List TopicPartition)) (kept : Kept) : Kept :=
  sorted.foldl (fun kept member =>
    keepClaims valid member (quotaOf valid sorted member) (claims.getD member.memberId []) kept)
    kept

/-- The order of `min_by_key`: the number of partitions held, then the id. -/
def lighter (assignment : Assignment) (m m' : Subscription) : Bool :=
  let load := (assignment.getD m.memberId []).length
  let load' := (assignment.getD m'.memberId []).length
  load < load' ∨ load = load' ∧ m.memberId < m'.memberId

/-- `min_by_key`: the first of the members that hold fewest. -/
def lightest (assignment : Assignment) : List Subscription → Option Subscription
  | [] => none
  | m :: members =>
      match lightest assignment members with
      | none => some m
      | some m' => if lighter assignment m' m then some m' else some m

/-- What is left goes to whoever holds fewest. -/
def dealLightest (sorted : List Subscription) (assignment : Assignment) (tp : TopicPartition) :
    Assignment :=
  match lightest assignment (sorted.filter fun m => tp.topic ∈ m.topics) with
  | none => assignment
  | some member => assignment.push member.memberId tp

def sortPartitions (partitions : List TopicPartition) : List TopicPartition :=
  partitions.insertionSort fun a b => (compare a b).isLE

/-- Each member keeps at most its fair share of what it holds, and the rest is
dealt out again. -/
def assign (members : List Subscription) (partitionsPerTopic : PartitionCounts) : Assignment :=
  let sorted := sortedMembers members
  if sorted.isEmpty then .seed members
  else
    let valid := allPartitions partitionsPerTopic
    let kept := keepAll valid sorted (liveClaims members) ⟨∅, .seed members⟩
    let remaining := valid.filter fun tp => tp ∉ kept.taken
    (remaining.foldl (dealLightest sorted) kept.assignment).map fun _ => sortPartitions

end StickyAssignor

/-- Keep what you had where possible, Java's `StickyAssignor` in spirit. -/
def stickyAssignor : Assignor := ⟨"sticky", StickyAssignor.assign⟩

/-! ### Sticky, one rebalance at a time -/

namespace CooperativeStickyAssignor

/-- Who holds what right now, from the raw claims: whoever's claim is stale is
still reading. -/
def owners (members : List Subscription) : PartitionMap String :=
  members.foldl (fun owner m => m.owned.foldl (fun owner tp => owner.insert tp m.memberId) owner) ∅

/-- Publish only what is not being taken from someone else. -/
def publish (owner : PartitionMap String) (target : Assignment) : Assignment :=
  target.map fun memberId partitions => partitions.filter fun tp => (owner[tp]?).all (· = memberId)

def assign (members : List Subscription) (partitionsPerTopic : PartitionCounts) : Assignment :=
  publish (owners members) (StickyAssignor.assign members partitionsPerTopic)

end CooperativeStickyAssignor

/-- Sticky, but a partition that moves is given to neither side in this round. -/
def cooperativeStickyAssignor : Assignor :=
  ⟨"cooperative-sticky", CooperativeStickyAssignor.assign⟩

end Barnabas.Core
