import Barnabas.Core.Handover
import Barnabas.Core.Member
import Mathlib.Data.Finset.Erase
import Mathlib.Logic.Function.Basic

/-!
No partition is held twice in a cooperative group.

The group is a coordinator and any number of members, each a `GroupMember` with at
most one request under way, as the client has it. The coordinator follows the
classic protocol: it completes a round when everybody who is in the group has
joined again, and relays what the leader decided. Requests are served and answers
are heard in any order, each may get lost, and everything may be refused with any
code that does not throw the member out. Somebody who leaves is gone: the client
drops the machine and begins with a new one.

Between two rounds a member holds what it claimed when it joined, or what was
published to it. The assignor withholds whatever somebody else claims, so that none
of these meet.
-/

namespace Barnabas.Core

open Barnabas.Lib

/-- What is under way between a member and the coordinator. -/
inductive Mail
  | idle
  | join (sub : Subscription)
  | joinHeld (sub : Subscription)
  | joinAnswer (error generation : ℤ) (memberId leaderId : String) (members : List Subscription)
  | sync (generation : ℤ) (assignment : Assignment)
  | syncHeld
  | syncAnswer (error : ℤ) (assigned : List TopicPartition)
  | heartbeat (generation : ℤ)
  | heartbeatAnswer (error : ℤ)

structure Client where
  machine : GroupMember
  mail : Mail

/-- Where the coordinator stands: everybody has to join, the leader has to decide,
or its decision is relayed. -/
inductive Round
  | preparing
  | completing (leader : String) (subs : List Subscription)
  | stable (assignment : Assignment)

structure Group where
  clients : ℕ → Option Client
  members : Finset String
  used : Finset String
  generation : ℤ
  round : Round

namespace Group

def start : Group := ⟨fun _ => none, ∅, {""}, 0, .preparing⟩

def put (s : Group) (k : ℕ) (c : Client) : Group :=
  { s with clients := Function.update s.clients k (some c) }

/-! ### The steps -/

/-- The request a member sends next; a leader divides the partitions it knows of. -/
def request (m : GroupMember) (partitionsPerTopic : PartitionCounts) : Mail :=
  match m.step with
  | .join _ => .join m.subscription
  | .assignAndSync members =>
      .sync m.generation (cooperativeStickyAssignor.assign members partitionsPerTopic)
  | .sync => .sync m.generation ∅
  | .heartbeat => .heartbeat m.generation
  | .findCoordinator => .idle

/-- The coordinator takes a request. A member without an id is offered one; a
generation that is over is refused; a follower waits for the leader. -/
def serve (s : Group) (k : ℕ) (newId : String) (c : Client) : Group :=
  match c.mail with
  | .join sub =>
      if sub.memberId = "" then
        { s with used := insert newId s.used }.put k
          ⟨c.machine, .joinAnswer Codes.memberIdRequired (-1) newId "" []⟩
      else
        { s with members := insert sub.memberId s.members, round := .preparing }.put k
          ⟨c.machine, .joinHeld sub⟩
  | .sync generation assignment =>
      if generation ≠ s.generation then
        s.put k ⟨c.machine, .syncAnswer Codes.illegalGeneration []⟩
      else
        match s.round with
        | .preparing => s.put k ⟨c.machine, .syncAnswer Codes.rebalanceInProgress []⟩
        | .completing leader _ =>
            if c.machine.memberId = leader then
              { s with round := .stable assignment }.put k
                ⟨c.machine, .syncAnswer 0 (assignment.getD c.machine.memberId [])⟩
            else s.put k ⟨c.machine, .syncHeld⟩
        | .stable assignment =>
            s.put k ⟨c.machine, .syncAnswer 0 (assignment.getD c.machine.memberId [])⟩
  | .syncHeld =>
      match s.round with
      | .stable assignment =>
          s.put k ⟨c.machine, .syncAnswer 0 (assignment.getD c.machine.memberId [])⟩
      | _ => s
  | .heartbeat generation =>
      if generation ≠ s.generation then s.put k ⟨c.machine, .heartbeatAnswer Codes.illegalGeneration⟩
      else
        match s.round with
        | .preparing => s.put k ⟨c.machine, .heartbeatAnswer Codes.rebalanceInProgress⟩
        | _ => s.put k ⟨c.machine, .heartbeatAnswer 0⟩
  | _ => s

/-- A request is answered with an error. -/
def refusal (error : ℤ) : Mail → Mail
  | .join _ | .joinHeld _ => .joinAnswer error (-1) "" "" []
  | .sync .. | .syncHeld => .syncAnswer error []
  | .heartbeat _ => .heartbeatAnswer error
  | mail => mail

/-- The machine hears what was answered. -/
def hear (c : Client) : Client :=
  match c.mail with
  | .joinAnswer error generation memberId leaderId members =>
      ⟨(c.machine.onJoin error generation memberId leaderId members).2, .idle⟩
  | .syncAnswer error assigned => ⟨(c.machine.onSync error assigned).2, .idle⟩
  | .heartbeatAnswer error => ⟨(c.machine.onHeartbeat error).2, .idle⟩
  | _ => c

/-- The answer to a join that was held until the round was complete. -/
def answerJoin (generation : ℤ) (leader : String) (subs : List Subscription) (c : Client) : Client :=
  match c.mail with
  | .joinHeld sub => ⟨c.machine, .joinAnswer 0 generation sub.memberId leader
      (if leader = sub.memberId then subs else [])⟩
  | _ => c

inductive Event
  | arrive (k : ℕ) (groupId : String) (topics : List String)
  | send (k : ℕ) (partitionsPerTopic : PartitionCounts)
  | serve (k : ℕ) (newId : String)
  | refuse (k : ℕ) (error : ℤ)
  | complete (leader : String) (subs : List Subscription)
  | prepare
  | hear (k : ℕ)
  | lose (k : ℕ)
  | requestRejoin (k : ℕ)
  | setTopics (k : ℕ) (topics : List String)
  | leave (k : ℕ)

/-- The group after an event. What concerns a member that is not there changes
nothing. -/
def next (s : Group) : Event → Group
  | .arrive k groupId topics => s.put k ⟨.new groupId topics .cooperative, .idle⟩
  | .send k partitionsPerTopic =>
      match s.clients k with
      | some c => s.put k ⟨c.machine, request c.machine partitionsPerTopic⟩
      | none => s
  | .serve k newId =>
      match s.clients k with
      | some c => s.serve k newId c
      | none => s
  | .refuse k error =>
      match s.clients k with
      | some c => s.put k ⟨c.machine, refusal error c.mail⟩
      | none => s
  | .complete leader subs =>
      { s with
        generation := s.generation + 1
        round := .completing leader subs
        clients := fun k => (s.clients k).map (answerJoin (s.generation + 1) leader subs) }
  | .prepare => { s with round := .preparing }
  | .hear k =>
      match s.clients k with
      | some c => s.put k (hear c)
      | none => s
  | .lose k =>
      match s.clients k with
      | some c => s.put k ⟨c.machine, .idle⟩
      | none => s
  | .requestRejoin k =>
      match s.clients k with
      | some c => s.put k ⟨c.machine.requestRejoin, c.mail⟩
      | none => s
  | .setTopics k topics =>
      match s.clients k with
      | some c => s.put k ⟨c.machine.setTopics topics, c.mail⟩
      | none => s
  | .leave k =>
      match s.clients k with
      | some c =>
          { s with
            clients := Function.update s.clients k none
            members := s.members.erase c.machine.memberId
            round := .preparing }
      | none => s

/-- The round has all that it needs: everybody in the group has joined, and `subs`
are the subscriptions they joined with. -/
structure Complete (s : Group) (leader : String) (subs : List Subscription) : Prop where
  preparing : s.round = .preparing
  all : ∀ k c, s.clients k = some c → c.machine.memberId ∈ s.members →
    ∃ sub ∈ subs, c.mail = .joinHeld sub
  held : ∀ sub ∈ subs, ∃ k c, s.clients k = some c ∧ c.mail = .joinHeld sub
  distinct : (subs.map (·.memberId)).Nodup
  leads : leader ∈ subs.map (·.memberId)

/-- When an event can happen. A member has one request at a time, and does nothing
else while one is under way. -/
def Enabled (s : Group) : Event → Prop
  | .arrive k _ _ => s.clients k = none
  | .send k _ => ∃ m, s.clients k = some ⟨m, .idle⟩
  | .serve _ newId => newId ∉ s.used
  | .refuse _ error => error ≠ 0 ∧ error ≠ Codes.memberIdRequired ∧ ¬Codes.Fences error
  | .complete leader subs => s.Complete leader subs
  | .requestRejoin k | .setTopics k _ | .leave k => ∃ m, s.clients k = some ⟨m, .idle⟩
  | _ => True

/-- The groups that can come about. -/
inductive Reachable : Group → Prop
  | start : Reachable start
  | next {s : Group} {e : Event} : Reachable s → s.Enabled e → Reachable (s.next e)

end Group

/-! ### What the leader decides -/

namespace CooperativeStickyAssignor

variable {members : List Subscription}

/-- A partition that somebody claims has an owner. -/
theorem exists_owner {m : Subscription} (hm : m ∈ members) {tp : TopicPartition}
    (htp : tp ∈ m.owned) : ∃ id, (owners members)[tp]? = some id := by
  have hkeep : ∀ (id : String) (claims : List TopicPartition) (owner : PartitionMap String),
      tp ∈ owner ∨ tp ∈ claims → tp ∈ claims.foldl (fun owner tp => owner.insert tp id) owner := by
    intro id claims
    induction claims with
    | nil => exact fun owner h => h.resolve_right (List.not_mem_nil)
    | cons t claims ih =>
        intro owner h
        refine ih _ ?_
        rw [Std.TreeMap.mem_insert, Std.LawfulEqCmp.compare_eq_iff_eq]
        rcases h with h | h
        · exact .inl (.inr h)
        · rcases List.mem_cons.mp h with rfl | h
          · exact .inl (.inl rfl)
          · exact .inr h
  have hall : ∀ (members : List Subscription) (owner : PartitionMap String),
      tp ∈ owner ∨ (∃ m ∈ members, tp ∈ m.owned) → tp ∈ members.foldl (fun owner m =>
        m.owned.foldl (fun owner tp => owner.insert tp m.memberId) owner) owner := by
    intro members
    induction members with
    | nil =>
        rintro owner (h | ⟨m, hm, _⟩)
        · exact h
        · cases hm
    | cons first rest ih =>
        intro owner h
        refine ih _ ?_
        rcases h with h | ⟨m, hm, htp⟩
        · exact .inl (hkeep _ _ _ (.inl h))
        · rcases List.mem_cons.mp hm with rfl | hm
          · exact .inl (hkeep _ _ _ (.inr htp))
          · exact .inr ⟨m, hm, htp⟩
  have hmem : tp ∈ owners members := hall members ∅ (.inr ⟨m, hm, htp⟩)
  exact Option.isSome_iff_exists.mp (Std.TreeMap.isSome_getElem?_iff_mem.mpr hmem)

variable {partitionsPerTopic : PartitionCounts} {id : String} {tp : TopicPartition}

theorem mem_target (h : tp ∈ (assign members partitionsPerTopic).getD id []) :
    tp ∈ (StickyAssignor.assign members partitionsPerTopic).getD id [] := by
  rw [assign, getD_publish] at h
  exact List.mem_of_mem_filter h

/-- What is published to a member is claimed by nobody else. -/
theorem owner_of_published (hapart : ∀ m ∈ members, ∀ m' ∈ members, ∀ tp ∈ m.owned, tp ∈ m'.owned →
      m.memberId = m'.memberId) (h : tp ∈ (assign members partitionsPerTopic).getD id [])
    {m : Subscription} (hm : m ∈ members) (htp : tp ∈ m.owned) : m.memberId = id := by
  rw [assign, getD_publish] at h
  obtain ⟨id', howner⟩ := exists_owner hm htp
  have hid := (List.mem_filter.mp h).2
  rw [howner] at hid
  obtain ⟨m', hm', rfl, htp'⟩ := mem_owned_of_owners howner
  rw [hapart m hm m' hm' tp htp htp']
  simpa using hid

/-- It goes to a member of the round. -/
theorem mem_ids_of_published (h : tp ∈ (assign members partitionsPerTopic).getD id []) :
    id ∈ members.map (·.memberId) := by
  have hdealt := StickyAssignor.assign_dealt members partitionsPerTopic
  rw [← hdealt.keys]
  by_contra hnone
  have hempty := mem_target h
  rw [Std.TreeMap.getD_eq_fallback hnone] at hempty
  cases hempty

theorem unique_of_published {id' : String} (h : tp ∈ (assign members partitionsPerTopic).getD id [])
    (h' : tp ∈ (assign members partitionsPerTopic).getD id' []) : id = id' :=
  (StickyAssignor.assign_dealt members partitionsPerTopic).unique (mem_target h) (mem_target h')

end CooperativeStickyAssignor

namespace Group

/-! ### The invariant -/

/-- What a sync that was answered gives its member. -/
def assigned : Mail → List TopicPartition
  | .syncAnswer _ partitions => partitions
  | _ => []

/-- The share of a member, once the leader has decided. -/
def share : Round → String → List TopicPartition
  | .stable assignment, id => assignment.getD id []
  | _, _ => []

/-- The id a client has, or is about to take. -/
def idOf (c : Client) : String :=
  match c.mail with
  | .joinAnswer error _ memberId _ _ =>
      if error = Codes.memberIdRequired then memberId else c.machine.memberId
  | _ => c.machine.memberId

/-- What a client holds or can come to hold in this round. -/
def Reach (s : Group) (c : Client) (tp : TopicPartition) : Prop :=
  tp ∈ c.machine.assignment ∨ tp ∈ assigned c.mail ∨ tp ∈ share s.round (idOf c)

/-- If the leader has yet to decide, it is to divide the partitions among these. -/
def Divides (s : Group) (members : List Subscription) : Prop :=
  ∀ leader subs, s.round = .completing leader subs → members = subs

/-- If the leader has yet to decide, this is a decision it can make. -/
def Decides (s : Group) (assignment : Assignment) : Prop :=
  ∀ leader subs, s.round = .completing leader subs → assignment = ∅ ∨
    ∃ partitionsPerTopic, assignment = CooperativeStickyAssignor.assign subs partitionsPerTopic

/-- What is under way fits the machine it belongs to and the round. -/
def Fits (s : Group) (m : GroupMember) : Mail → Prop
  | .join sub => sub = m.subscription
  | .joinHeld sub => sub = m.subscription ∧ m.memberId ∈ s.members
  | .joinAnswer error generation memberId leaderId members =>
      ¬Codes.Fences error ∧
      (error = Codes.memberIdRequired → m.memberId = "" ∧ m.assignment = []) ∧
      (error = 0 → memberId = m.memberId ∧ generation ≤ s.generation ∧
        (generation = s.generation → leaderId = memberId → s.Divides members))
  | .sync generation assignment =>
      generation ≤ s.generation ∧ (generation = s.generation → s.Decides assignment)
  | .syncAnswer error _ => ¬Codes.Fences error
  | .heartbeatAnswer error => ¬Codes.Fences error
  | _ => True

/-- What holds of each client. -/
structure ClientOk (s : Group) (c : Client) : Prop where
  protocol : c.machine.protocol = .cooperative
  generation : c.machine.generation ≤ s.generation
  known : idOf c ∈ s.used
  mail : s.Fits c.machine c.mail
  leads : c.machine.state = .syncing → c.machine.leader → c.machine.generation = s.generation →
    s.Divides c.machine.pendingMembers
  inGroup : ∀ tp, s.Reach c tp → idOf c ∈ s.members
  claims : ∀ leader subs, s.round = .completing leader subs → ∀ tp, s.Reach c tp →
    ∃ sub ∈ subs, sub.memberId = idOf c ∧ tp ∈ sub.owned
  listed : ∀ leader subs, s.round = .completing leader subs →
    idOf c ∈ subs.map (·.memberId) → idOf c ∈ s.members

/-- What holds of a round on its own. -/
structure RoundOk (s : Group) : Prop where
  nobody : "" ∈ s.used ∧ "" ∉ s.members
  used : s.members ⊆ s.used
  generation : 0 ≤ s.generation
  subs : ∀ leader subs, s.round = .completing leader subs →
    (∀ sub ∈ subs, sub.memberId ∈ s.used ∧ sub.memberId ≠ "") ∧
    ∀ sub ∈ subs, ∀ sub' ∈ subs, ∀ tp ∈ sub.owned, tp ∈ sub'.owned → sub.memberId = sub'.memberId
  shares : ∀ id, ∀ tp ∈ share s.round id, id ∈ s.used ∧ id ≠ ""

structure Inv (s : Group) : Prop where
  round : s.RoundOk
  client : ∀ k c, s.clients k = some c → s.ClientOk c
  distinct : ∀ k k' c c', s.clients k = some c → s.clients k' = some c' → idOf c = idOf c' →
    idOf c ≠ "" → k = k'
  apart : ∀ k k' c c', s.clients k = some c → s.clients k' = some c' → k ≠ k' →
    ∀ tp, s.Reach c tp → ¬s.Reach c' tp

/-! ### One client changes -/

variable {s : Group} {k : ℕ} {c : Client}

/-- A client whose id is its own and that can come to hold nothing of the others. -/
theorem Inv.put (h : Inv s) {c : Client} (hok : s.ClientOk c)
    (hid : ∀ i d, i ≠ k → s.clients i = some d → idOf d = idOf c → idOf c = "")
    (hreach : ∀ i d, i ≠ k → s.clients i = some d → ∀ tp, s.Reach c tp → ¬s.Reach d tp) :
    Inv (s.put k c) := by
  have hcases : ∀ i d, (s.put k c).clients i = some d →
      i = k ∧ d = c ∨ i ≠ k ∧ s.clients i = some d := by
    intro i d hd
    by_cases hi : i = k
    · subst hi
      simp only [Group.put, Function.update_self, Option.some.injEq] at hd
      exact .inl ⟨rfl, hd.symm⟩
    · simp only [Group.put, Function.update_of_ne hi] at hd
      exact .inr ⟨hi, hd⟩
  refine ⟨⟨h.round.nobody, h.round.used, h.round.generation, h.round.subs, h.round.shares⟩,
    fun i d hd => ?_, fun i j d d' hd hd' heq hne => ?_, fun i j d d' hd hd' hij tp htp htp' => ?_⟩
  · have hclient : s.ClientOk d := by
      rcases hcases i d hd with ⟨_, rfl⟩ | ⟨_, hd⟩
      · exact hok
      · exact h.client i d hd
    exact ⟨hclient.protocol, hclient.generation, hclient.known, hclient.mail, hclient.leads,
      hclient.inGroup, hclient.claims, hclient.listed⟩
  · rcases hcases i d hd with ⟨rfl, rfl⟩ | ⟨hi, hold⟩
    · rcases hcases j d' hd' with ⟨rfl, rfl⟩ | ⟨hj, hold'⟩
      · rfl
      · exact absurd (hid j d' hj hold' heq.symm) hne
    · rcases hcases j d' hd' with ⟨rfl, rfl⟩ | ⟨hj, hold'⟩
      · exact absurd (heq.trans (hid i d hi hold heq)) hne
      · exact h.distinct i j d d' hold hold' heq hne
  · rcases hcases i d hd with ⟨rfl, rfl⟩ | ⟨hi, hold⟩
    · rcases hcases j d' hd' with ⟨rfl, rfl⟩ | ⟨hj, hold'⟩
      · exact hij rfl
      · exact hreach j d' hj hold' tp htp htp'
    · rcases hcases j d' hd' with ⟨rfl, rfl⟩ | ⟨hj, hold'⟩
      · exact hreach i d hi hold tp htp' htp
      · exact h.apart i j d d' hold hold' hij tp htp htp'

/-- A client that comes to hold nothing it could not come to hold before. -/
theorem Inv.replace (h : Inv s) (hc : s.clients k = some c) {c' : Client} (hok : s.ClientOk c')
    (hid : idOf c' = idOf c) (hreach : ∀ tp, s.Reach c' tp → s.Reach c tp) :
    Inv (s.put k c') := by
  refine h.put hok (fun i d hi hd heq => ?_) fun i d hi hd tp htp =>
    h.apart k i c d hc hd (Ne.symm hi) tp (hreach tp htp)
  by_contra hne
  exact hi (h.distinct i k d c hd hc (heq.trans hid) (heq ▸ hne))

/-- A client without an id holds nothing and never meets the others. -/
theorem Inv.nameless (h : Inv s) {m : GroupMember} (hprotocol : m.protocol = .cooperative)
    (hgeneration : m.generation ≤ s.generation) (hid : m.memberId = "") (hempty : m.assignment = [])
    (hleads : m.state = .syncing → m.leader → m.generation = s.generation →
      s.Divides m.pendingMembers) : Inv (s.put k ⟨m, .idle⟩) := by
  have hnothing : ∀ tp, ¬s.Reach ⟨m, .idle⟩ tp := by
    rintro tp (htp | htp | htp)
    · rw [hempty] at htp
      cases htp
    · cases htp
    · exact (h.round.shares _ tp htp).2 hid
  have hown : idOf ⟨m, .idle⟩ = "" := hid
  refine h.put ⟨hprotocol, hgeneration, hown ▸ h.round.nobody.1, trivial,
    hleads, fun tp htp => absurd htp (hnothing tp),
    fun _ _ _ tp htp => absurd htp (hnothing tp), fun leader subs hround hmem => ?_⟩
    (fun _ _ _ _ _ => hown) fun _ _ _ _ tp htp => absurd htp (hnothing tp)
  obtain ⟨sub, hsub, heq⟩ := List.mem_map.mp hmem
  exact absurd (heq.trans hown) ((h.round.subs leader subs hround).1 sub hsub).2

/-- A machine that at most goes back to the start. -/
structure Calm (m m' : GroupMember) : Prop where
  memberId : m'.memberId = m.memberId
  generation : m'.generation = m.generation
  protocol : m'.protocol = m.protocol
  assignment : m'.assignment = m.assignment
  state : m'.state = .unjoined ∨ m' = m

theorem Calm.refl (m : GroupMember) : Calm m m := ⟨rfl, rfl, rfl, rfl, .inr rfl⟩

theorem calm_revokeAndRejoin {m : GroupMember} (h : m.protocol = .cooperative) :
    Calm m m.revokeAndRejoin := by
  refine ⟨GroupMember.memberId_revokeAndRejoin m, ?_, GroupMember.protocol_revokeAndRejoin m, ?_,
    .inl rfl⟩
  · simp [GroupMember.revokeAndRejoin, h]
  · rw [GroupMember.assignment_revokeAndRejoin, h, if_neg (by decide)]

theorem calm_onRefused {m : GroupMember} (h : m.protocol = .cooperative) {error : ℤ}
    (herror : ¬Codes.Fences error) : Calm m (m.onRefused error).2 := by
  rw [GroupMember.onRefused_snd, if_neg herror]
  exact calm_revokeAndRejoin h

/-- A machine that has heard its answer, and holds only what it could come to hold. -/
theorem Inv.settle (h : Inv s) (hc : s.clients k = some c) {m : GroupMember}
    (hid : m.memberId = idOf c) (hprotocol : m.protocol = .cooperative)
    (hgeneration : m.generation ≤ s.generation) (hassignment : ∀ tp ∈ m.assignment, s.Reach c tp)
    (hleads : m.state = .syncing → m.leader → m.generation = s.generation →
      s.Divides m.pendingMembers) : Inv (s.put k ⟨m, .idle⟩) := by
  have hok := h.client k c hc
  have hown : idOf ⟨m, .idle⟩ = idOf c := hid
  have hreach : ∀ tp, s.Reach ⟨m, .idle⟩ tp → s.Reach c tp := by
    rintro tp (htp | htp | htp)
    · exact hassignment tp htp
    · cases htp
    · exact .inr (.inr (hown ▸ htp))
  refine h.replace hc ⟨hprotocol, hgeneration, hown ▸ hok.known, trivial, hleads,
    fun tp htp => hown ▸ hok.inGroup tp (hreach tp htp), fun leader subs hround tp htp => ?_,
    fun leader subs hround hmem => hown ▸ hok.listed leader subs hround (hown ▸ hmem)⟩ hown hreach
  rw [hown]
  exact hok.claims leader subs hround tp (hreach tp htp)

/-- A step of a client that gives its machine nothing keeps the invariant. -/
theorem Inv.calm (h : Inv s) (hc : s.clients k = some c) {m : GroupMember} {mail : Mail}
    (hcalm : Calm c.machine m) (hfits : s.Fits m mail) (hid : idOf ⟨m, mail⟩ = idOf c)
    (hassigned : ∀ tp ∈ assigned mail, s.Reach c tp) : Inv (s.put k ⟨m, mail⟩) := by
  have hok := h.client k c hc
  have hreach : ∀ tp, s.Reach ⟨m, mail⟩ tp → s.Reach c tp := by
    rintro tp (htp | htp | htp)
    · exact .inl (hcalm.assignment ▸ htp)
    · exact hassigned tp htp
    · exact .inr (.inr (hid ▸ htp))
  refine h.replace hc ⟨hcalm.protocol.trans hok.protocol, hcalm.generation.trans_le hok.generation,
    hid ▸ hok.known, hfits, fun hsyncing hleader hgeneration => ?_,
    fun tp htp => hid ▸ hok.inGroup tp (hreach tp htp), fun leader subs hround tp htp => ?_,
    fun leader subs hround hmem => hid ▸ hok.listed leader subs hround (hid ▸ hmem)⟩ hid hreach
  · rcases hcalm.state with hstate | rfl
    · rw [hsyncing] at hstate
      cases hstate
    · exact hok.leads hsyncing hleader hgeneration
  · rw [hid]
    exact hok.claims leader subs hround tp (hreach tp htp)

theorem idOf_eq {m : GroupMember} {mail : Mail}
    (h : ∀ generation memberId leaderId members,
      mail ≠ .joinAnswer Codes.memberIdRequired generation memberId leaderId members) :
    idOf ⟨m, mail⟩ = m.memberId := by
  cases mail with
  | joinAnswer error generation memberId leaderId members =>
      refine if_neg fun herror => ?_
      exact h generation memberId leaderId members (by rw [herror])
  | _ => rfl

/-! ### The coordinator changes -/

/-- What is under way still fits if the ids only grow and no new round is to be
decided. -/
theorem Fits.mono {s' : Group} {m : GroupMember} {mail : Mail} (h : s.Fits m mail)
    (hmembers : s.members ⊆ s'.members) (hgeneration : s'.generation = s.generation)
    (hsame : ∀ leader subs, s'.round = .completing leader subs →
      s.round = .completing leader subs) : s'.Fits m mail := by
  cases mail with
  | joinHeld sub => exact ⟨h.1, hmembers h.2⟩
  | joinAnswer error generation memberId leaderId members =>
      refine ⟨h.1, h.2.1, fun hnone => ?_⟩
      obtain ⟨hid, hle, hdivides⟩ := h.2.2 hnone
      rw [hgeneration]
      exact ⟨hid, hle, fun heq hleads leader subs hcompleting =>
        hdivides heq hleads leader subs (hsame leader subs hcompleting)⟩
  | sync generation assignment =>
      rw [Fits, hgeneration]
      exact ⟨h.1, fun heq leader subs hcompleting =>
        h.2 heq leader subs (hsame leader subs hcompleting)⟩
  | _ => exact h

/-- The ids may grow, and a new round may begin at any time. -/
theorem Inv.mono (h : Inv s) {members used : Finset String} {round : Round}
    (hmembers : s.members ⊆ members) (hused : s.used ⊆ used) (hsub : members ⊆ used)
    (hnobody : "" ∉ members) (hround : round = s.round ∨ round = .preparing) :
    Inv { s with members, used, round } := by
  have hsame : ∀ leader subs, round = .completing leader subs →
      s.round = .completing leader subs := by
    intro leader subs hcompleting
    rcases hround with heq | heq
    · rwa [← heq]
    · rw [hcompleting] at heq
      cases heq
  have hshare : ∀ id, ∀ tp ∈ share round id, tp ∈ share s.round id := by
    intro id tp htp
    rcases hround with rfl | rfl
    · exact htp
    · cases htp
  have hreach : ∀ c tp, { s with members, used, round : Group }.Reach c tp → s.Reach c tp := by
    rintro c tp (htp | htp | htp)
    · exact .inl htp
    · exact .inr (.inl htp)
    · exact .inr (.inr (hshare _ tp htp))
  refine ⟨⟨⟨hused h.round.nobody.1, hnobody⟩, hsub, h.round.generation, fun leader subs hc => ?_,
    fun id tp htp => ?_⟩, fun k c hc => ?_, h.distinct, fun k k' c c' hc hc' hne tp htp htp' => ?_⟩
  · obtain ⟨hids, hclaims⟩ := h.round.subs leader subs (hsame leader subs hc)
    exact ⟨fun sub hsub => ⟨hused (hids sub hsub).1, (hids sub hsub).2⟩, hclaims⟩
  · obtain ⟨hid, hne⟩ := h.round.shares id tp (hshare id tp htp)
    exact ⟨hused hid, hne⟩
  · have hok := h.client k c hc
    exact ⟨hok.protocol, hok.generation, hused hok.known, hok.mail.mono hmembers rfl hsame,
      fun hsyncing hleader hgeneration leader subs hc =>
        hok.leads hsyncing hleader hgeneration leader subs (hsame leader subs hc),
      fun tp htp => hmembers (hok.inGroup tp (hreach c tp htp)),
      fun leader subs hc tp htp => hok.claims leader subs (hsame leader subs hc) tp (hreach c tp htp),
      fun leader subs hc hmem => hmembers (hok.listed leader subs (hsame leader subs hc) hmem)⟩
  · exact h.apart k k' c c' hc hc' hne tp (hreach c tp htp) (hreach c' tp htp')

theorem Inv.preparing (h : Inv s) : Inv { s with round := .preparing } :=
  h.mono (Finset.Subset.refl _) (Finset.Subset.refl _) h.round.used h.round.nobody.2 (.inr rfl)

/-- The leader's decision becomes everybody's share. -/
theorem Inv.decided (h : Inv s) {leader : String} {subs : List Subscription}
    (hround : s.round = .completing leader subs) {assignment : Assignment}
    (hdecides : s.Decides assignment) : Inv { s with round := .stable assignment } := by
  obtain ⟨hids, hclaims⟩ := h.round.subs leader subs hround
  have hlisted : ∀ id, ∀ tp ∈ assignment.getD id [], id ∈ subs.map (·.memberId) := by
    intro id tp htp
    rcases hdecides leader subs hround with rfl | ⟨partitionsPerTopic, rfl⟩
    · simp at htp
    · exact CooperativeStickyAssignor.mem_ids_of_published htp
  have hunique : ∀ id id' tp, tp ∈ assignment.getD id [] → tp ∈ assignment.getD id' [] →
      id = id' := by
    intro id id' tp htp htp'
    rcases hdecides leader subs hround with rfl | ⟨partitionsPerTopic, rfl⟩
    · simp at htp
    · exact CooperativeStickyAssignor.unique_of_published htp htp'
  have howner : ∀ id, ∀ tp ∈ assignment.getD id [], ∀ sub ∈ subs, tp ∈ sub.owned →
      sub.memberId = id := by
    intro id tp htp sub hsub howned
    rcases hdecides leader subs hround with rfl | ⟨partitionsPerTopic, rfl⟩
    · simp at htp
    · exact CooperativeStickyAssignor.owner_of_published hclaims htp hsub howned
  have hused : ∀ id, ∀ tp ∈ assignment.getD id [], id ∈ s.used ∧ id ≠ "" := by
    intro id tp htp
    obtain ⟨sub, hsub, rfl⟩ := List.mem_map.mp (hlisted id tp htp)
    exact hids sub hsub
  -- what a client could come to hold before, it claimed when it joined
  have hreach : ∀ c tp, { s with round := .stable assignment : Group }.Reach c tp →
      s.Reach c tp ∨ tp ∈ assignment.getD (idOf c) [] := by
    rintro c tp (htp | htp | htp)
    · exact .inl (.inl htp)
    · exact .inl (.inr (.inl htp))
    · exact .inr htp
  refine ⟨⟨h.round.nobody, h.round.used, h.round.generation, nofun, hused⟩, fun k c hc => ?_,
    h.distinct, fun k k' c c' hc hc' hne tp htp htp' => ?_⟩
  · have hok := h.client k c hc
    refine ⟨hok.protocol, hok.generation, hok.known,
      hok.mail.mono (Finset.Subset.refl _) rfl nofun, fun _ _ _ => nofun, fun tp htp => ?_,
      nofun, nofun⟩
    rcases hreach c tp htp with htp | htp
    · exact hok.inGroup tp htp
    · exact hok.listed leader subs hround (hlisted _ tp htp)
  · have hclaimed : ∀ i d, s.clients i = some d → s.Reach d tp →
        ∃ sub ∈ subs, sub.memberId = idOf d ∧ tp ∈ sub.owned := fun i d hd =>
      (h.client i d hd).claims leader subs hround tp
    rcases hreach c tp htp with hold | hshare
    · rcases hreach c' tp htp' with hold' | hshare'
      · exact h.apart k k' c c' hc hc' hne tp hold hold'
      · obtain ⟨sub, hsub, hid, howned⟩ := hclaimed k c hc hold
        have heq := (howner _ tp hshare' sub hsub howned).symm.trans hid
        exact hne (h.distinct k k' c c' hc hc' heq.symm (heq ▸ (hused _ tp hshare').2))
    · rcases hreach c' tp htp' with hold' | hshare'
      · obtain ⟨sub, hsub, hid, howned⟩ := hclaimed k' c' hc' hold'
        have heq := (howner _ tp hshare sub hsub howned).symm.trans hid
        exact hne (h.distinct k k' c c' hc hc' heq (hused _ tp hshare).2)
      · exact hne (h.distinct k k' c c' hc hc' (hunique _ _ tp hshare hshare')
          (hused _ tp hshare).2)

/-- When a round completes, a client either had joined, with a subscription that
counts, or holds nothing. -/
theorem Inv.answerJoin_cases (h : Inv s) {leader : String} {subs : List Subscription}
    (hcomplete : s.Complete leader subs) (hc : s.clients k = some c) (generation : ℤ) :
    c.mail = .joinHeld c.machine.subscription ∧ c.machine.subscription ∈ subs ∧
        answerJoin generation leader subs c = ⟨c.machine, .joinAnswer 0 generation c.machine.memberId leader
          (if leader = c.machine.memberId then subs else [])⟩ ∨
      (∀ sub, c.mail ≠ .joinHeld sub) ∧ answerJoin generation leader subs c = c ∧
        ∀ tp, ¬s.Reach c tp := by
  have hok := h.client k c hc
  obtain ⟨m, mail⟩ := c
  by_cases hheld : ∃ sub, mail = .joinHeld sub
  · obtain ⟨sub, rfl⟩ := hheld
    obtain ⟨rfl, hmember⟩ : sub = m.subscription ∧ m.memberId ∈ s.members := hok.mail
    obtain ⟨sub', hsub', heq⟩ := hcomplete.all k _ hc hmember
    obtain rfl : m.subscription = sub' := by simpa using heq
    exact .inl ⟨rfl, hsub', rfl⟩
  · push Not at hheld
    refine .inr ⟨hheld, ?_, fun tp htp => ?_⟩
    · cases mail with
      | joinHeld sub => exact absurd rfl (hheld sub)
      | _ => rfl
    · have hmember := hok.inGroup tp htp
      have hout : m.memberId ∉ s.members := fun hin => by
        obtain ⟨sub, _, heq⟩ := hcomplete.all k _ hc hin
        exact hheld sub heq
      by_cases hoffer : ∃ generation memberId leaderId members,
          mail = .joinAnswer Codes.memberIdRequired generation memberId leaderId members
      · obtain ⟨generation, memberId, leaderId, members, rfl⟩ := hoffer
        obtain ⟨_, hnothing⟩ := hok.mail.2.1 rfl
        rcases htp with htp | htp | htp
        · rw [hnothing] at htp
          cases htp
        · cases htp
        · rw [hcomplete.preparing] at htp
          cases htp
      · push Not at hoffer
        rw [idOf_eq hoffer] at hmember
        exact hout hmember

/-- Everybody's join is answered. -/
theorem Inv.completed (h : Inv s) {leader : String} {subs : List Subscription}
    (hcomplete : s.Complete leader subs) : Inv (s.next (.complete leader subs)) := by
  have hclients : ∀ k d, (s.next (.complete leader subs)).clients k = some d →
      ∃ c, s.clients k = some c ∧ answerJoin (s.generation + 1) leader subs c = d := fun k d hd =>
    Option.map_eq_some_iff.mp hd
  have hmembers : ∀ sub ∈ subs, ∃ k c, s.clients k = some c ∧ c.machine.subscription = sub ∧
      sub.memberId ∈ s.members := by
    intro sub hsub
    obtain ⟨k, c, hc, hmail⟩ := hcomplete.held sub hsub
    have hfits := (h.client k c hc).mail
    rw [hmail] at hfits
    exact ⟨k, c, hc, hfits.1.symm, hfits.1 ▸ hfits.2⟩
  have hid : ∀ k c, s.clients k = some c → idOf (answerJoin (s.generation + 1) leader subs c) = idOf c := by
    intro k c hc
    rcases h.answerJoin_cases hcomplete hc (s.generation + 1) with ⟨hmail, _, hanswer⟩ | ⟨_, hanswer, _⟩
    · rw [hanswer, idOf, idOf, hmail]
      rfl
    · rw [hanswer]
  -- nobody can come to hold more than before, and what anybody holds it claimed
  have hreach : ∀ k c tp, s.clients k = some c →
      (s.next (.complete leader subs)).Reach (answerJoin (s.generation + 1) leader subs c) tp →
        c.machine.subscription ∈ subs ∧ tp ∈ c.machine.assignment ∧
          idOf c = c.machine.memberId := by
    intro k c tp hc htp
    rcases h.answerJoin_cases hcomplete hc (s.generation + 1) with ⟨hmail, hsub, hanswer⟩ | ⟨_, hanswer, hnone⟩
    · rw [hanswer] at htp
      have hown : idOf c = c.machine.memberId := by rw [idOf, hmail]
      rcases htp with htp | htp | htp
      · exact ⟨hsub, htp, hown⟩
      · cases htp
      · cases htp
    · rw [hanswer] at htp
      rcases htp with htp | htp | htp
      · exact absurd (.inl htp) (hnone tp)
      · exact absurd (.inr (.inl htp)) (hnone tp)
      · cases htp
  refine ⟨⟨h.round.nobody, h.round.used, (h.round.generation.trans (by omega) : _ ≤ s.generation + 1),
    fun leader' subs' hround => ?_, fun id tp htp => by cases htp⟩, fun k d hd => ?_,
    fun k k' d d' hd hd' heq hne => ?_, fun k k' d d' hd hd' hne tp htp htp' => ?_⟩
  · obtain ⟨rfl, rfl⟩ : leader = leader' ∧ subs = subs' := by simpa [next] using hround
    refine ⟨fun sub hsub => ?_, fun sub hsub sub' hsub' tp htp htp' => ?_⟩
    · obtain ⟨_, _, _, _, hmember⟩ := hmembers sub hsub
      exact ⟨h.round.used hmember, fun hempty => h.round.nobody.2 (hempty ▸ hmember)⟩
    · obtain ⟨k, c, hc, rfl, _⟩ := hmembers sub hsub
      obtain ⟨k', c', hc', rfl, _⟩ := hmembers sub' hsub'
      by_cases hk : k = k'
      · subst hk
        rw [Option.some.inj (hc.symm.trans hc')]
      · exact absurd (.inl htp') (h.apart k k' c c' hc hc' hk tp (.inl htp))
  · obtain ⟨c, hc, rfl⟩ := hclients k d hd
    have hok := h.client k c hc
    have hmachine : (answerJoin (s.generation + 1) leader subs c).machine = c.machine := by
      rcases h.answerJoin_cases hcomplete hc (s.generation + 1) with ⟨_, _, hanswer⟩ | ⟨_, hanswer, _⟩ <;>
        rw [hanswer]
    have hgeneration : c.machine.generation < s.generation + 1 :=
      hok.generation.trans_lt (by omega)
    refine ⟨by rw [hmachine]; exact hok.protocol, by rw [hmachine]; exact hgeneration.le,
      by rw [hid k c hc]; exact hok.known, ?_, ?_, fun tp htp => ?_, fun leader' subs' hround tp htp => ?_,
      fun leader' subs' hround hmem => ?_⟩
    · rcases h.answerJoin_cases hcomplete hc (s.generation + 1) with ⟨_, _, hanswer⟩ | ⟨_, hanswer, _⟩
      · rw [hanswer]
        refine ⟨by decide, fun herror => absurd herror (by decide), fun _ => ⟨rfl, le_rfl,
          fun _ hleads leader' subs' hround => ?_⟩⟩
        obtain ⟨rfl, rfl⟩ : leader = leader' ∧ subs = subs' := by simpa [next] using hround
        rw [if_pos hleads]
      · rw [hanswer]
        have hfits := hok.mail
        obtain ⟨m, mail⟩ := c
        cases mail with
        | joinAnswer error generation memberId leaderId members =>
            refine ⟨hfits.1, hfits.2.1, fun hnone => ?_⟩
            obtain ⟨hown, hle, _⟩ := hfits.2.2 hnone
            have hlt : generation < s.generation + 1 := hle.trans_lt (by omega)
            exact ⟨hown, hlt.le, fun heq => absurd heq hlt.ne⟩
        | sync generation assignment =>
            have hlt : generation < s.generation + 1 := hfits.1.trans_lt (by omega)
            exact ⟨hlt.le, fun heq => absurd heq hlt.ne⟩
        | _ => exact hfits
    · rw [hmachine]
      exact fun _ _ heq => absurd heq hgeneration.ne
    · obtain ⟨hsub, _, hown⟩ := hreach k c tp hc htp
      obtain ⟨_, _, _, _, hmember⟩ := hmembers _ hsub
      rw [hid k c hc, hown]
      exact hmember
    · obtain ⟨rfl, rfl⟩ : leader = leader' ∧ subs = subs' := by simpa [next] using hround
      obtain ⟨hsub, hmem, hown⟩ := hreach k c tp hc htp
      exact ⟨_, hsub, by rw [hid k c hc, hown]; rfl, hmem⟩
    · obtain ⟨rfl, rfl⟩ : leader = leader' ∧ subs = subs' := by simpa [next] using hround
      obtain ⟨sub, hsub, heq⟩ := List.mem_map.mp hmem
      obtain ⟨_, _, _, _, hmember⟩ := hmembers sub hsub
      exact heq ▸ hmember
  · obtain ⟨c, hc, rfl⟩ := hclients k d hd
    obtain ⟨c', hc', rfl⟩ := hclients k' d' hd'
    rw [hid k c hc] at heq hne
    rw [hid k' c' hc'] at heq
    exact h.distinct k k' c c' hc hc' heq hne
  · obtain ⟨c, hc, rfl⟩ := hclients k d hd
    obtain ⟨c', hc', rfl⟩ := hclients k' d' hd'
    exact h.apart k k' c c' hc hc' hne tp (.inl (hreach k c tp hc htp).2.1)
      (.inl (hreach k' c' tp hc' htp').2.1)

/-! ### The steps keep it -/

theorem inv_start : Inv start where
  round := ⟨by simp [start], by simp [start], le_rfl, nofun, fun _ _ h => (List.not_mem_nil h).elim⟩
  client _ _ h := (Option.some_ne_none _ h.symm).elim
  distinct _ _ _ _ h := (Option.some_ne_none _ h.symm).elim
  apart _ _ _ _ h := (Option.some_ne_none _ h.symm).elim

/-- A member sends its next request. -/
theorem Inv.sent (h : Inv s) {m : GroupMember} (hc : s.clients k = some ⟨m, .idle⟩)
    (partitionsPerTopic : PartitionCounts) : Inv (s.put k ⟨m, request m partitionsPerTopic⟩) := by
  have hok := h.client k _ hc
  have hmail : s.Fits m (request m partitionsPerTopic) ∧ assigned (request m partitionsPerTopic) = [] ∧
      idOf ⟨m, request m partitionsPerTopic⟩ = m.memberId := by
    unfold request
    rcases hstate : m.state with _ | _ | _ | _
    · simp [GroupMember.step, hstate, Fits, assigned, idOf]
    · simp [GroupMember.step, hstate, Fits, assigned, idOf]
    · by_cases hleader : m.leader
      · simp only [GroupMember.step, hstate, hleader, if_true]
        refine ⟨⟨hok.generation, fun heq leader subs hround => .inr ⟨partitionsPerTopic, ?_⟩⟩, rfl, rfl⟩
        rw [← hok.leads hstate hleader heq leader subs hround]
        rfl
      · simp only [GroupMember.step, hstate, hleader]
        exact ⟨⟨hok.generation, fun _ _ _ _ => .inl rfl⟩, rfl, rfl⟩
    · simp [GroupMember.step, hstate, Fits, assigned, idOf]
  refine h.calm hc (.refl m) hmail.1 hmail.2.2 fun tp htp => ?_
  rw [hmail.2.1] at htp
  cases htp

/-- The coordinator offers an id that nobody has had. -/
theorem Inv.offered (h : Inv s) {sub : Subscription} (hc : s.clients k = some c)
    (hmail : c.mail = .join sub) (hnameless : sub.memberId = "") {newId : String}
    (hnew : newId ∉ s.used) :
    Inv ({ s with used := insert newId s.used }.put k
      ⟨c.machine, .joinAnswer Codes.memberIdRequired (-1) newId "" []⟩) := by
  have hok := h.client k c hc
  have hfits := hok.mail
  rw [hmail] at hfits
  have hid : c.machine.memberId = "" := by
    rw [hfits] at hnameless
    exact hnameless
  have hown : idOf c = "" := by rw [idOf, hmail, hid]
  have hempty : c.machine.assignment = [] := by
    refine List.eq_nil_iff_forall_not_mem.mpr fun tp htp => ?_
    exact h.round.nobody.2 (hown ▸ hok.inGroup tp (.inl htp))
  let s' : Group := { s with used := insert newId s.used }
  have hgrown : Inv s' := h.mono (Finset.Subset.refl _) (Finset.subset_insert _ _)
    (h.round.used.trans (Finset.subset_insert _ _)) h.round.nobody.2 (.inl rfl)
  let c' : Client := ⟨c.machine, .joinAnswer Codes.memberIdRequired (-1) newId "" []⟩
  have hown' : idOf c' = newId := rfl
  have hnothing : ∀ tp, ¬s'.Reach c' tp := by
    rintro tp (htp | htp | htp)
    · change tp ∈ c.machine.assignment at htp
      rw [hempty] at htp
      cases htp
    · cases htp
    · exact hnew (h.round.shares _ tp htp).1
  have hok' := hgrown.client k c hc
  refine hgrown.put (c := c') ⟨hok'.protocol, hok'.generation, Finset.mem_insert_self _ _,
    ⟨by decide, fun _ => ⟨hid, hempty⟩, fun hnone => absurd hnone (by decide)⟩, hok'.leads,
    fun tp htp => absurd htp (hnothing tp), fun _ _ _ tp htp => absurd htp (hnothing tp),
    fun leader subs hround hmem => ?_⟩ (fun i d hi hd heq => ?_)
    fun _ _ _ _ tp htp => absurd htp (hnothing tp)
  · obtain ⟨sub', hsub', heq⟩ := List.mem_map.mp hmem
    exact absurd ((h.round.subs leader subs hround).1 sub' hsub').1 (by rw [heq]; exact hnew)
  · exact absurd (h.client i d hd).known (by rw [heq]; exact hnew)

/-- The coordinator takes a request. -/
theorem Inv.served (h : Inv s) (hc : s.clients k = some c) {newId : String} (hnew : newId ∉ s.used) :
    Inv (s.serve k newId c) := by
  have hok := h.client k c hc
  -- an answer that gives nothing
  have hrefused : ∀ mail, s.Fits c.machine mail → assigned mail = [] →
      idOf ⟨c.machine, mail⟩ = idOf c → Inv (s.put k ⟨c.machine, mail⟩) := by
    intro mail hfits hnone hid
    refine h.calm hc (.refl _) hfits hid fun tp htp => ?_
    rw [hnone] at htp
    cases htp
  -- the share of a round that was decided
  have hshare : ∀ {assignment : Assignment}, s.round = .stable assignment →
      idOf c = c.machine.memberId → Inv (s.put k
        ⟨c.machine, .syncAnswer 0 (assignment.getD c.machine.memberId [])⟩) := by
    intro assignment hround hown
    refine h.calm hc (.refl _) (show ¬Codes.Fences 0 by decide) hown.symm fun tp htp =>
      .inr (.inr ?_)
    rw [hround, hown]
    exact htp
  unfold serve
  rcases hmail : c.mail with _ | sub | _ | _ | ⟨generation, assignment⟩ | _ | _ | generation | _
  · exact h
  · have hown : idOf c = c.machine.memberId := by rw [idOf, hmail]
    have hfits := hok.mail
    rw [hmail] at hfits
    dsimp only
    split
    · next hnameless => exact h.offered hc hmail hnameless hnew
    · next hnamed =>
        have hid : sub.memberId = idOf c := by rw [hown, hfits]; rfl
        have hjoined := h.mono (Finset.subset_insert sub.memberId s.members) (Finset.Subset.refl _)
          (Finset.insert_subset (hid ▸ hok.known) h.round.used)
          (fun hmem => (Finset.mem_insert.mp hmem).elim (fun heq => hnamed heq.symm) h.round.nobody.2)
          (.inr rfl : Round.preparing = s.round ∨ _)
        refine hjoined.calm hc (.refl _) ⟨hfits, ?_⟩ hown.symm nofun
        rw [hfits]
        exact Finset.mem_insert_self _ _
  · exact h
  · exact h
  · have hown : idOf c = c.machine.memberId := by rw [idOf, hmail]
    have hfits := hok.mail
    rw [hmail] at hfits
    dsimp only
    split
    · exact hrefused _ (show ¬Codes.Fences Codes.illegalGeneration by decide) rfl hown.symm
    · next hcurrent =>
        rw [not_not] at hcurrent
        split
        · exact hrefused _ (show ¬Codes.Fences Codes.rebalanceInProgress by decide) rfl hown.symm
        · next leader subs hround =>
            split
            · have hdecided := h.decided hround (hfits.2 hcurrent)
              refine hdecided.calm hc (.refl _) (show ¬Codes.Fences 0 by decide) hown.symm
                fun tp htp => .inr (.inr ?_)
              rw [hown]
              exact htp
            · exact hrefused _ trivial rfl hown.symm
        · next assignment hround => exact hshare hround hown
  · have hown : idOf c = c.machine.memberId := by rw [idOf, hmail]
    dsimp only
    split
    · next assignment hround => exact hshare hround hown
    · exact h
  · exact h
  · have hown : idOf c = c.machine.memberId := by rw [idOf, hmail]
    dsimp only
    split
    · exact hrefused _ (show ¬Codes.Fences Codes.illegalGeneration by decide) rfl hown.symm
    · split
      · exact hrefused _ (show ¬Codes.Fences Codes.rebalanceInProgress by decide) rfl hown.symm
      · exact hrefused _ (show ¬Codes.Fences 0 by decide) rfl hown.symm
  · exact h

/-- A machine hears an answer. -/
theorem Inv.heard (h : Inv s) (hc : s.clients k = some c) : Inv (s.put k (hear c)) := by
  have hok := h.client k c hc
  obtain ⟨m, mail⟩ := c
  have hcalm : ∀ m', Calm m m' → idOf ⟨m, mail⟩ = m.memberId → Inv (s.put k ⟨m', .idle⟩) := by
    intro m' hm' hown
    exact h.calm hc hm' trivial (hm'.memberId.trans hown.symm) (by simp [assigned])
  have hprotocol : m.protocol = .cooperative := hok.protocol
  cases mail with
  | joinAnswer error generation memberId leaderId members =>
      obtain ⟨hfences, hoffer, hjoined⟩ := hok.mail
      show Inv (s.put k ⟨(m.onJoin error generation memberId leaderId members).2, .idle⟩)
      by_cases hnone : error = 0
      · -- the machine takes the generation; what it holds stays
        obtain ⟨hid, hle, hdivides⟩ := hjoined hnone
        subst hnone
        rw [GroupMember.onJoin_none m ⟨generation, memberId, leaderId, members⟩]
        refine h.settle hc ?_ hprotocol hle (fun tp htp => .inl htp) fun _ hleader heq => ?_
        · exact hid
        · have hleads : leaderId = memberId := by simpa [GroupMember.joined] using hleader
          have hpending : (m.joined ⟨generation, memberId, leaderId, members⟩).pendingMembers =
              members := if_pos hleads
          rw [hpending]
          exact hdivides heq hleads
      · rw [GroupMember.onJoin, if_neg (show ¬error = Codes.none from hnone)]
        by_cases hrequired : error = Codes.memberIdRequired
        · rw [if_pos hrequired]
          exact h.settle hc (if_pos hrequired).symm hprotocol hok.generation (fun tp htp => .inl htp) (by simp)
        · have hown : idOf ⟨m, .joinAnswer error generation memberId leaderId members⟩ =
              m.memberId := if_neg hrequired
          rw [if_neg hrequired, if_neg hfences]
          split
          · exact hcalm _ ⟨rfl, rfl, rfl, rfl, .inl rfl⟩ hown
          · exact hcalm _ (calm_revokeAndRejoin hprotocol) hown
  | syncAnswer error partitions =>
      show Inv (s.put k ⟨(m.onSync error partitions).2, .idle⟩)
      by_cases hnone : error = Codes.none
      · have hgiven : ∀ tp ∈ StickyAssignor.sortPartitions partitions,
            s.Reach ⟨m, .syncAnswer error partitions⟩ tp := by
          intro tp htp
          rw [StickyAssignor.sortPartitions, List.mem_insertionSort] at htp
          exact .inr (.inl htp)
        rw [GroupMember.onSync, if_pos hnone]
        dsimp only
        split
        · exact h.settle hc rfl hprotocol hok.generation hgiven (by simp)
        · exact h.settle hc rfl hprotocol hok.generation hgiven (by simp)
      · rw [GroupMember.onSync, if_neg hnone]
        exact hcalm _ (calm_onRefused hprotocol hok.mail) rfl
  | heartbeatAnswer error =>
      show Inv (s.put k ⟨(m.onHeartbeat error).2, .idle⟩)
      unfold GroupMember.onHeartbeat
      split
      · exact hcalm m (.refl m) rfl
      · exact hcalm _ (calm_onRefused hprotocol hok.mail) rfl
  | _ => exact h.calm hc (.refl m) hok.mail rfl (by simp [assigned])

/-- A member leaves, and is gone. -/
theorem Inv.left (h : Inv s) {m : GroupMember} (hc : s.clients k = some ⟨m, .idle⟩) :
    Inv { s with
      clients := Function.update s.clients k none
      members := s.members.erase m.memberId
      round := .preparing } := by
  have hprepared := h.preparing
  have hclients : ∀ i d, Function.update s.clients k none i = some d →
      i ≠ k ∧ s.clients i = some d := by
    intro i d hd
    by_cases hi : i = k
    · subst hi
      simp at hd
    · rw [Function.update_of_ne hi] at hd
      exact ⟨hi, hd⟩
  -- the others have other ids, so that they stay in the group
  have hstays : ∀ i d, i ≠ k → s.clients i = some d → idOf d ∈ s.members →
      idOf d ∈ s.members.erase m.memberId := by
    intro i d hi hd hmem
    refine Finset.mem_erase.mpr ⟨fun heq => ?_, hmem⟩
    have hne : idOf d ≠ "" := fun hempty => h.round.nobody.2 (hempty ▸ hmem)
    exact hi (h.distinct i k d _ hd hc heq hne)
  refine ⟨⟨⟨h.round.nobody.1, fun hmem => h.round.nobody.2 (Finset.mem_of_mem_erase hmem)⟩,
    (Finset.erase_subset _ _).trans h.round.used, h.round.generation, nofun,
    hprepared.round.shares⟩, fun i d hd => ?_, fun i j d d' hd hd' => ?_,
    fun i j d d' hd hd' => ?_⟩
  · obtain ⟨hi, hold⟩ := hclients i d hd
    have hok := hprepared.client i d hold
    refine ⟨hok.protocol, hok.generation, hok.known, ?_, fun _ _ _ => nofun,
      fun tp htp => hstays i d hi hold (hok.inGroup tp htp), nofun, nofun⟩
    have hfits := hok.mail
    obtain ⟨m', mail⟩ := d
    cases mail with
    | joinHeld sub => exact ⟨hfits.1, hstays i _ hi hold hfits.2⟩
    | _ => exact hfits
  · exact h.distinct i j d d' (hclients i d hd).2 (hclients j d' hd').2
  · exact hprepared.apart i j d d' (hclients i d hd).2 (hclients j d' hd').2

theorem calm_requestRejoin {m : GroupMember} (h : m.protocol = .cooperative) :
    Calm m m.requestRejoin := by
  unfold GroupMember.requestRejoin
  split
  · exact calm_revokeAndRejoin h
  · exact .refl m

theorem calm_setTopics {m : GroupMember} (h : m.protocol = .cooperative) (topics : List String) :
    Calm m (m.setTopics topics) := by
  unfold GroupMember.setTopics
  split
  · have hback : Calm { m with topics } { m with topics }.revokeAndRejoin := calm_revokeAndRejoin h
    exact ⟨hback.memberId, hback.generation, hback.protocol, hback.assignment, .inl rfl⟩
  · exact .refl m

/-- One step keeps the invariant. -/
theorem Inv.next (h : Inv s) {e : Event} (he : s.Enabled e) : Inv (s.next e) := by
  cases e with
  | arrive k groupId topics =>
      exact h.nameless rfl (by have := h.round.generation; show (-1 : ℤ) ≤ _; omega) rfl rfl nofun
  | send k partitionsPerTopic =>
      obtain ⟨m, hc⟩ := he
      rw [Group.next, hc]
      exact h.sent hc partitionsPerTopic
  | serve k newId =>
      rw [Group.next]
      split
      · next c hc => exact h.served hc he
      · exact h
  | refuse k error =>
      rw [Group.next]
      split
      · next c hc =>
          obtain ⟨hnone, hrequired, hfences⟩ := he
          have hok := h.client k c hc
          obtain ⟨m, mail⟩ := c
          have hjoin : s.Fits m (.joinAnswer error (-1) "" "" []) :=
            ⟨hfences, fun heq => absurd heq hrequired, fun heq => absurd heq hnone⟩
          have hown : idOf ⟨m, .joinAnswer error (-1) "" "" []⟩ = m.memberId := if_neg hrequired
          cases mail with
          | join sub => exact h.calm hc (.refl m) hjoin hown nofun
          | joinHeld sub => exact h.calm hc (.refl m) hjoin hown nofun
          | sync generation assignment => exact h.calm hc (.refl m) hfences rfl nofun
          | syncHeld => exact h.calm hc (.refl m) hfences rfl nofun
          | heartbeat generation => exact h.calm hc (.refl m) hfences rfl nofun
          | _ => exact h.calm hc (.refl m) hok.mail rfl fun tp htp => .inr (.inl htp)
      · exact h
  | complete leader subs => exact h.completed he
  | prepare => exact h.preparing
  | hear k =>
      rw [Group.next]
      split
      · next c hc => exact h.heard hc
      · exact h
  | lose k =>
      rw [Group.next]
      split
      · next c hc =>
          have hok := h.client k c hc
          by_cases hoffer : idOf c = c.machine.memberId
          · exact h.settle hc hoffer.symm hok.protocol hok.generation (fun tp htp => .inl htp) hok.leads
          · -- an offer is lost, and its client has no id as before
            obtain ⟨m, mail⟩ := c
            have hnothing : m.memberId = "" ∧ m.assignment = [] := by
              by_contra hnot
              refine hoffer (idOf_eq fun generation memberId leaderId members heq => hnot ?_)
              have hfits := hok.mail
              rw [heq] at hfits
              exact hfits.2.1 rfl
            exact h.nameless hok.protocol hok.generation hnothing.1 hnothing.2 hok.leads
      · exact h
  | requestRejoin k =>
      obtain ⟨m, hc⟩ := he
      rw [Group.next, hc]
      exact h.calm hc (calm_requestRejoin (h.client k _ hc).protocol) trivial
        (calm_requestRejoin (h.client k _ hc).protocol).memberId nofun
  | setTopics k topics =>
      obtain ⟨m, hc⟩ := he
      rw [Group.next, hc]
      exact h.calm hc (calm_setTopics (h.client k _ hc).protocol topics) trivial
        (calm_setTopics (h.client k _ hc).protocol topics).memberId nofun
  | leave k =>
      obtain ⟨m, hc⟩ := he
      rw [Group.next, hc]
      exact h.left hc

theorem inv_of_reachable (h : Reachable s) : Inv s := by
  induction h with
  | start => exact inv_start
  | next _ he ih => exact ih.next he

theorem reachable_run {events : List Event}
    (h : ∀ pre e, pre ++ [e] <+: events → (run next start pre).Enabled e) :
    Reachable (run next start events) :=
  run_induction_of_prefix (I := fun _ s => Reachable s) .start events
    fun pre e hpre ih => ih.next (h pre e hpre)

/-- The subscription of the only member. -/
def alone : Subscription := ⟨"a", ["t"], [], -1⟩

/-- A member joins, is given everything, and another one comes. -/
def founding : List Event :=
  [.arrive 0 "g" ["t"], .send 0 ∅, .serve 0 "a", .hear 0, .send 0 ∅, .serve 0 "x",
    .complete "a" [alone], .hear 0, .send 0 newcomerTopics, .serve 0 "x", .hear 0, .arrive 1 "g" ["t"]]

theorem reachable_founding : Reachable (run next start founding) := by
  refine reachable_run (forall_position ?_)
  intro i hi
  have hlen : i < 12 := hi
  interval_cases i
  · exact rfl
  · exact ⟨_, rfl⟩
  · show "a" ∉ _
    decide
  · exact trivial
  · exact ⟨_, rfl⟩
  · show "x" ∉ _
    decide
  · have honly : ∀ k c, (run next start (founding.take 6)).clients k = some c →
        k = 0 ∧ c.mail = .joinHeld alone := by
      intro k c hc
      rcases k with _ | k
      · exact ⟨rfl, by rw [← Option.some.inj hc]; rfl⟩
      · have hnone : (run next start (founding.take 6)).clients (k + 1) = none := rfl
        rw [hnone] at hc
        cases hc
    refine ⟨rfl, fun k c hc _ => ⟨alone, List.mem_singleton_self _, (honly k c hc).2⟩, ?_, by decide,
      by decide⟩
    intro sub hsub
    rw [List.mem_singleton.mp hsub]
    exact ⟨0, _, rfl, rfl⟩
  · exact trivial
  · exact ⟨_, rfl⟩
  · show "x" ∉ _
    decide
  · exact trivial
  · exact rfl

end Group

end Barnabas.Core
