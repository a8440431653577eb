import Barnabas.Client.Classic
import Barnabas.Client.Tape
import Barnabas.Core.Stability

/-!
The blobs of the group protocol survive the round trip
(`barnabas-client/src/group.rs`).

The partitions of a blob are listed by topic, so a flat list comes back regrouped: the
topics in order, and of each topic its partitions in the order they had. The codec of the
protocol crate is a parameter; all that is asked of it is that a body it has encoded under
the version this client writes is decoded again.
-/

namespace Barnabas.Client

open Barnabas.Core Barnabas.Lib

/-- `grouped` is `partitions` with the topics brought into order, and nothing else moved. -/
structure StableGrouping (partitions grouped : List TopicPartition) : Prop where
  perm : grouped.Perm partitions
  topics : grouped.Pairwise (·.topic ≤ ·.topic)
  stable : ∀ topic, grouped.filter (·.topic = topic) = partitions.filter (·.topic = topic)

/-- There is one such list. -/
theorem StableGrouping.unique {partitions grouped grouped' : List TopicPartition}
    (h : StableGrouping partitions grouped) (h' : StableGrouping partitions grouped') :
    grouped = grouped' :=
  eq_of_pairwise_of_filter_eq h.topics h'.topics fun topic => by rw [h.stable, h'.stable]

theorem stableGrouping_self {partitions : List TopicPartition}
    (h : partitions.Pairwise (·.topic ≤ ·.topic)) : StableGrouping partitions partitions :=
  ⟨.refl _, h, fun _ => rfl⟩

theorem topic_le_of_isLE {a b : TopicPartition} (h : (compare a b).isLE) : a.topic ≤ b.topic := by
  change ((compare a.topic b.topic).then (compare a.partition b.partition)).isLE at h
  rw [← compare_le_iff_le]
  cases htopic : compare a.topic b.topic with
  | lt => simp
  | eq => simp
  | gt =>
      rw [htopic] at h
      cases h

namespace ClassicProtocol

theorem spread_byTopic (partitions : List TopicPartition) :
    spread (byTopic partitions) =
      (flatten (Producer.byTopic (partitions.map (·, ())))).map (·.1) := by
  rw [spread, byTopic, flatten, List.flatMap_map, List.map_flatMap]
  simp only [List.map_map, Function.comp_def]

/-- Gathering by topic moves nothing within a topic. -/
theorem filter_flatten_byTopic {α : Type} (entries : List (TopicPartition × α))
    (topic : String) :
    (flatten (Producer.byTopic entries)).filter (·.1.topic = topic) =
      entries.filter (·.1.topic = topic) := by
  let entry (topic : String) (part : ℤ × α) : TopicPartition × α := (⟨topic, part.1⟩, part.2)
  have hgather := getD_foldl_gather (fun e : TopicPartition × α => e.1.topic)
    (fun e => (e.1.partition, e.2)) entries ∅ topic
  have hread := filter_gathered entry (·.1.topic) (fun _ _ => rfl)
    (entries.foldl (fun m e =>
      m.insert e.1.topic (m.getD e.1.topic [] ++ [(e.1.partition, e.2)])) ∅) topic
  rw [hgather, Std.TreeMap.getD_emptyc, List.nil_append, List.map_map] at hread
  refine hread.trans ?_
  conv_rhs => rw [← List.map_id (entries.filter _)]
  apply List.map_congr_left
  rintro ⟨⟨topic', partition⟩, a⟩ he
  have htopic : topic' = topic := by simpa using (List.mem_filter.mp he).2
  rw [← htopic]
  rfl

theorem pairwise_flatten_byTopic {α : Type} (entries : List (TopicPartition × α)) :
    (flatten (Producer.byTopic entries)).Pairwise (·.1.topic ≤ ·.1.topic) := by
  let entry (topic : String) (part : ℤ × α) : TopicPartition × α := (⟨topic, part.1⟩, part.2)
  have hordered := pairwise_gathered entry (·.1.topic) (fun _ _ => rfl)
    (entries.foldl (fun m e =>
      m.insert e.1.topic (m.getD e.1.topic [] ++ [(e.1.partition, e.2)])) ∅)
  refine hordered.imp fun {a b} hle => ?_
  rw [← compare_le_iff_le]
  intro hgt
  rw [hgt] at hle
  cases hle

theorem stableGrouping_spread (partitions : List TopicPartition) :
    StableGrouping partitions (spread (byTopic partitions)) where
  perm := by
    have hperm := (flatten_byTopic_perm (partitions.map (·, ()))).map Prod.fst
    rw [List.map_map] at hperm
    rw [spread_byTopic]
    exact hperm.trans (by simp [Function.comp_def])
  topics := by
    rw [spread_byTopic, List.pairwise_map]
    exact pairwise_flatten_byTopic _
  stable topic := by
    rw [spread_byTopic, List.filter_map]
    have hread := filter_flatten_byTopic (partitions.map (·, ())) topic
    simp only [Function.comp_def]
    rw [hread, List.filter_map, List.map_map]
    simp [Function.comp_def]

/-! ### The round trips -/

/-- What is relied on in the protocol crate: a body that it has encoded under the version
this client writes it decodes to the same body. -/
structure Inverse (codec : Codec) : Prop where
  subscription : ∀ body bytes, codec.encodeSubscription protocolVersion body = .ok bytes →
    codec.decodeSubscription protocolVersion bytes = .ok body
  assignment : ∀ body bytes, codec.encodeAssignment protocolVersion body = .ok bytes →
    codec.decodeAssignment protocolVersion bytes = .ok body

theorem readVersion_writeVersion (body : Bytes) :
    readVersion (writeVersion body) = .ok (protocolVersion, body) := by
  have hversion : wrap 16 ((0 : UInt8).toNat * 256 + (2 : UInt8).toNat) = protocolVersion := by
    decide
  rw [writeVersion, readVersion, hversion]

theorem readVersion_of_short {blob : Bytes} (h : blob.length < 2) :
    readVersion blob =
      .error (.core (.codec "consumer protocol blob is too short for its version")) := by
  rcases blob with _ | ⟨first, _ | ⟨second, rest⟩⟩
  · rfl
  · rfl
  · simp only [List.length_cons] at h
    omega

theorem decodeSubscription_encodeSubscription {codec : Codec} (h : Inverse codec)
    {s : Subscription} {blob : Bytes} (hencode : encodeSubscription codec s = .ok blob)
    (memberId : String) :
    decodeSubscription codec memberId blob =
      .ok ⟨memberId, s.topics, spread (byTopic s.owned), s.generation⟩ := by
  rw [encodeSubscription] at hencode
  cases hbody : codec.encodeSubscription protocolVersion
      ⟨s.topics, byTopic s.owned, s.generation⟩ with
  | error e =>
      rw [hbody] at hencode
      cases hencode
  | ok body =>
      rw [hbody] at hencode
      cases hencode
      rw [decodeSubscription, readVersion_writeVersion]
      dsimp only
      rw [h.subscription _ _ hbody]
      rfl

theorem decodeAssignment_encodeAssignment {codec : Codec} (h : Inverse codec)
    {partitions : List TopicPartition} {blob : Bytes}
    (hencode : encodeAssignment codec partitions = .ok blob) :
    decodeAssignment codec blob =
      .ok (StickyAssignor.sortPartitions (spread (byTopic partitions))) := by
  rw [encodeAssignment] at hencode
  cases hbody : codec.encodeAssignment protocolVersion (byTopic partitions) with
  | error e =>
      rw [hbody] at hencode
      cases hencode
  | ok body =>
      rw [hbody] at hencode
      cases hencode
      rw [decodeAssignment, readVersion_writeVersion]
      dsimp only
      rw [h.assignment _ _ hbody]

/-- What comes back of a blob. An encoder refuses only what the codec refuses. -/
structure RoundTrips (codec : Codec) : Prop where
  subscription : ∀ s blob, encodeSubscription codec s = .ok blob →
    ∃ decoded, decodeSubscription codec s.memberId blob = .ok decoded ∧
      decoded.memberId = s.memberId ∧ decoded.topics = s.topics ∧
      decoded.generation = s.generation ∧ StableGrouping s.owned decoded.owned ∧
      (s.owned.Pairwise (fun a b => (compare a b).isLE) → decoded.owned = s.owned)
  assignment : ∀ partitions blob, encodeAssignment codec partitions = .ok blob →
    ∃ decoded, decodeAssignment codec blob = .ok decoded ∧ decoded.Perm partitions ∧
      decoded.Pairwise fun a b => (compare a b).isLE
  refused : (∀ s, (encodeSubscription codec s).isOk =
      (codec.encodeSubscription protocolVersion ⟨s.topics, byTopic s.owned, s.generation⟩).isOk) ∧
    ∀ partitions, (encodeAssignment codec partitions).isOk =
      (codec.encodeAssignment protocolVersion (byTopic partitions)).isOk
  short : ∀ blob : Bytes, blob.length < 2 →
    (∀ memberId, ∃ e, decodeSubscription codec memberId blob = .error e) ∧
      ∃ e, decodeAssignment codec blob = .error e

/-- **Group blobs survive the round trip.** If the codec of the protocol crate does, a
subscription comes back with its partitions grouped by topic, an assignment comes back
sorted, and a blob too short for its version is an error. -/
theorem blobs_roundTrip (codec : Codec) (h : Inverse codec) : RoundTrips codec where
  subscription s blob hencode := by
    refine ⟨_, decodeSubscription_encodeSubscription h hencode s.memberId, rfl, rfl, rfl,
      stableGrouping_spread s.owned, ?_⟩
    intro hsorted
    exact (stableGrouping_spread s.owned).unique
      (stableGrouping_self (hsorted.imp fun hle => topic_le_of_isLE hle))
  assignment partitions blob hencode :=
    ⟨_, decodeAssignment_encodeAssignment h hencode,
      (List.perm_insertionSort _ _).trans (stableGrouping_spread partitions).perm,
      StickyAssignor.pairwise_sortPartitions _⟩
  refused := by
    constructor
    · intro s
      rw [encodeSubscription]
      cases codec.encodeSubscription protocolVersion ⟨s.topics, byTopic s.owned, s.generation⟩ with
      | error e => rfl
      | ok body => rfl
    · intro partitions
      rw [encodeAssignment]
      cases codec.encodeAssignment protocolVersion (byTopic partitions) with
      | error e => rfl
      | ok body => rfl
  short blob hshort := by
    rw [decodeAssignment, readVersion_of_short hshort]
    refine ⟨fun memberId => ?_, _, rfl⟩
    rw [decodeSubscription, readVersion_of_short hshort]
    exact ⟨_, rfl⟩

/-! ### A subscription and an assignment -/

def heldSubscription : Subscription :=
  ⟨"m-1", ["a", "b"], [⟨"b", 3⟩, ⟨"a", 1⟩, ⟨"a", 0⟩], 7⟩

def heldBody : SubscriptionBody := ⟨["a", "b"], [("a", [1, 0]), ("b", [3])], 7⟩

def heldBytes : Bytes :=
  [0, 0, 0, 2, 0, 1, 97, 0, 1, 98, 255, 255, 255, 255,
    0, 0, 0, 2, 0, 1, 97, 0, 0, 0, 2, 0, 0, 0, 1, 0, 0, 0, 0, 0, 1, 98, 0, 0, 0, 1, 0, 0, 0, 3,
    0, 0, 0, 7]

def givenPartitions : List TopicPartition := [⟨"b", 7⟩, ⟨"a", 1⟩, ⟨"a", 0⟩]

def givenBody : AssignmentBody := [("a", [1, 0]), ("b", [7])]

def givenBytes : Bytes :=
  [0, 0, 0, 2, 0, 1, 97, 0, 0, 0, 2, 0, 0, 0, 1, 0, 0, 0, 0, 0, 1, 98, 0, 0, 0, 1, 0, 0, 0, 7,
    255, 255, 255, 255]

/-- A codec that knows one subscription and one assignment, in the format of the protocol. -/
def heldCodec : Codec :=
  { Tape.codec with
    encodeSubscription := fun version body =>
      if version = 2 ∧ body = heldBody then .ok heldBytes else .error "unknown"
    decodeSubscription := fun version bytes =>
      if version = 2 ∧ bytes = heldBytes then .ok heldBody else .error "unknown"
    encodeAssignment := fun version body =>
      if version = 2 ∧ body = givenBody then .ok givenBytes else .error "unknown"
    decodeAssignment := fun version bytes =>
      if version = 2 ∧ bytes = givenBytes then .ok givenBody else .error "unknown" }

theorem inverse_heldCodec : Inverse heldCodec where
  subscription body bytes hencode := by
    by_cases h : protocolVersion = 2 ∧ body = heldBody
    · have hbytes : heldBytes = bytes := Except.ok.inj ((if_pos h).symm.trans hencode)
      have hdecode : heldCodec.decodeSubscription protocolVersion heldBytes = .ok heldBody := by
        decide
      rw [h.2, ← hbytes]
      exact hdecode
    · have herror := (if_neg h).symm.trans hencode
      cases herror
  assignment body bytes hencode := by
    by_cases h : protocolVersion = 2 ∧ body = givenBody
    · have hbytes : givenBytes = bytes := Except.ok.inj ((if_pos h).symm.trans hencode)
      have hdecode : heldCodec.decodeAssignment protocolVersion givenBytes = .ok givenBody := by
        decide
      rw [h.2, ← hbytes]
      exact hdecode
    · have herror := (if_neg h).symm.trans hencode
      cases herror

theorem blobs_roundTrip_held :
    encodeSubscription heldCodec heldSubscription = .ok (0 :: 2 :: heldBytes) ∧
      decodeSubscription heldCodec "m-1" (0 :: 2 :: heldBytes) =
        .ok ⟨"m-1", ["a", "b"], [⟨"a", 1⟩, ⟨"a", 0⟩, ⟨"b", 3⟩], 7⟩ ∧
      encodeAssignment heldCodec givenPartitions = .ok (0 :: 2 :: givenBytes) ∧
      decodeAssignment heldCodec (0 :: 2 :: givenBytes) =
        .ok [⟨"a", 0⟩, ⟨"a", 1⟩, ⟨"b", 7⟩] ∧
      RoundTrips heldCodec :=
  ⟨by decide, by decide, by decide, by decide,
    blobs_roundTrip heldCodec inverse_heldCodec⟩

end ClassicProtocol

end Barnabas.Client
