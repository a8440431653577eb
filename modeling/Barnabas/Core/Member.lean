import Barnabas.Core.Group
import Barnabas.Lib.Run
import Mathlib.Tactic.IntervalCases

/-!
Group membership (`barnabas-core/src/member.rs`): the classic protocol's state
machine, with no IO.

A handler takes what the coordinator answered and returns the next step together
with the machine. The machine is driven from outside, so the results are about
every run in which an answer is only handed in where one can be outstanding.
-/

namespace Barnabas.Core

open Barnabas.Lib

/-! ### The machine -/

/-! The coordinator's error codes the machine reacts to. -/

namespace Codes

def none : ℤ := 0
def coordinatorLoadInProgress : ℤ := 14
def coordinatorNotAvailable : ℤ := 15
def notCoordinator : ℤ := 16
def illegalGeneration : ℤ := 22
def unknownMemberId : ℤ := 25
def rebalanceInProgress : ℤ := 27
def memberIdRequired : ℤ := 79
def fencedInstanceId : ℤ := 82

/-- The two codes that say our identity is gone. -/
def Fences (error : ℤ) : Prop := error = unknownMemberId ∨ error = fencedInstanceId

instance (error : ℤ) : Decidable (Fences error) :=
  inferInstanceAs (Decidable (error = unknownMemberId ∨ error = fencedInstanceId))

end Codes

/-- No generation yet. -/
def noGeneration : ℤ := -1

/-- How partitions change hands during a rebalance. -/
inductive RebalanceProtocol
  | eager
  | cooperative
  deriving DecidableEq, Repr

inductive MemberState
  | unjoined
  | joining
  | syncing
  | stable
  deriving DecidableEq, Repr

/-- What the IO layer should do next. -/
inductive Step
  | join (memberId : String)
  | assignAndSync (members : List Subscription)
  | sync
  | heartbeat
  | findCoordinator
  deriving DecidableEq, Repr

/-- One member of one group. `lost` is what the last sync or rejoin took away, and
`pendingMembers` the membership handed to us as leader. -/
structure GroupMember where
  groupId : String
  memberId : String
  generation : ℤ
  state : MemberState
  topics : List String
  assignment : List TopicPartition
  leader : Bool
  protocol : RebalanceProtocol
  lost : List TopicPartition
  pendingMembers : List Subscription
  deriving DecidableEq, Repr

namespace GroupMember

/-- `GroupMember::new(..).with_protocol(..)`. -/
def new (groupId : String) (topics : List String) (protocol : RebalanceProtocol) : GroupMember where
  groupId := groupId
  memberId := ""
  generation := noGeneration
  state := .unjoined
  topics := topics
  assignment := []
  leader := false
  protocol := protocol
  lost := []
  pendingMembers := []

/-- Whether offsets may be committed right now. -/
def canCommit (m : GroupMember) : Bool := m.state = .stable ∧ m.generation ≠ noGeneration

/-- What to do next, given where we are. -/
def step (m : GroupMember) : Step :=
  match m.state with
  | .unjoined | .joining => .join m.memberId
  | .syncing => if m.leader then .assignAndSync m.pendingMembers else .sync
  | .stable => .heartbeat

/-- The subscription this member sends in `JoinGroup`. -/
def subscription (m : GroupMember) : Subscription :=
  ⟨m.memberId, m.topics, m.assignment, m.generation⟩

/-- Go back to the start. An eager member drops everything it owned; a cooperative
one goes on reading while the group rebalances. The generation is kept. -/
def revokeAndRejoin (m : GroupMember) : GroupMember :=
  let m := if m.protocol = .eager then { m with lost := m.assignment, assignment := [] }
    else { m with lost := [] }
  { m with pendingMembers := [], leader := false, state := .unjoined }

/-- Change what this member wants to read. -/
def setTopics (m : GroupMember) (topics : List String) : GroupMember :=
  if topics ≠ m.topics then { m with topics }.revokeAndRejoin else m

/-- Rejoin at the next step, keeping the subscription as it is. -/
def requestRejoin (m : GroupMember) : GroupMember :=
  if m.state ≠ .unjoined then m.revokeAndRejoin else m

/-- `JoinGroup` answered; `members` is not empty only for the leader. -/
def onJoin (m : GroupMember) (error generation : ℤ) (memberId leaderId : String)
    (members : List Subscription) : Step × GroupMember :=
  if error = Codes.none then
    let m := { m with memberId, generation, leader := leaderId = memberId, state := .syncing }
    if m.leader then (.assignAndSync members, { m with pendingMembers := members })
    else (.sync, { m with pendingMembers := [] })
  else if error = Codes.memberIdRequired then
    -- normal for a first join: take the id offered and go again
    (.join memberId, { m with memberId, state := .unjoined })
  else if Codes.Fences error then
    (.join "", { m with memberId := "" }.revokeAndRejoin)
  else if error = Codes.coordinatorNotAvailable ∨ error = Codes.notCoordinator ∨
      error = Codes.coordinatorLoadInProgress then
    (.findCoordinator, { m with state := .unjoined })
  else (.join m.memberId, m.revokeAndRejoin)

/-- The arms that `on_sync` and `on_heartbeat` have in common. -/
def onRefused (m : GroupMember) (error : ℤ) : Step × GroupMember :=
  if error = Codes.rebalanceInProgress ∨ error = Codes.illegalGeneration then
    (.join m.memberId, m.revokeAndRejoin)
  else if Codes.Fences error then
    (.join "", { m with memberId := "" }.revokeAndRejoin)
  else if error = Codes.coordinatorNotAvailable ∨ error = Codes.notCoordinator then
    (.findCoordinator, m.revokeAndRejoin)
  else (.join m.memberId, m.revokeAndRejoin)

/-- What a sync takes from this member: for a cooperative one, what it holds and
the assignment does not name. -/
def lostBy (m : GroupMember) (assigned : List TopicPartition) : List TopicPartition :=
  if m.protocol = .cooperative then m.assignment.filter (· ∉ assigned) else []

/-- `SyncGroup` answered, carrying this member's assignment. -/
def onSync (m : GroupMember) (error : ℤ) (assigned : List TopicPartition) : Step × GroupMember :=
  if error = Codes.none then
    let m := { m with
      lost := m.lostBy assigned
      assignment := StickyAssignor.sortPartitions assigned
      state := .stable }
    -- rejoin at once: what this member released is nobody's until it does
    if m.lost ≠ [] then
      (.join m.memberId, { m with state := .unjoined, leader := false, pendingMembers := [] })
    else (.heartbeat, m)
  else m.onRefused error

/-- A `Heartbeat` answered. -/
def onHeartbeat (m : GroupMember) (error : ℤ) : Step × GroupMember :=
  if error = Codes.none then (.heartbeat, m) else m.onRefused error

/-- Leaving deliberately. -/
def onLeave (m : GroupMember) : GroupMember := { m with memberId := "" }.revokeAndRejoin

/-! ### What going back to the start does -/

@[simp] theorem state_revokeAndRejoin (m : GroupMember) : m.revokeAndRejoin.state = .unjoined := rfl

@[simp] theorem memberId_revokeAndRejoin (m : GroupMember) :
    m.revokeAndRejoin.memberId = m.memberId := by
  unfold revokeAndRejoin
  split <;> rfl

@[simp] theorem protocol_revokeAndRejoin (m : GroupMember) :
    m.revokeAndRejoin.protocol = m.protocol := by
  unfold revokeAndRejoin
  split <;> rfl

theorem assignment_revokeAndRejoin (m : GroupMember) :
    m.revokeAndRejoin.assignment = if m.protocol = .eager then [] else m.assignment := by
  unfold revokeAndRejoin
  split <;> rfl

theorem lost_revokeAndRejoin (m : GroupMember) :
    m.revokeAndRejoin.lost = if m.protocol = .eager then m.assignment else [] := by
  unfold revokeAndRejoin
  split <;> rfl

theorem step_revokeAndRejoin (m : GroupMember) : m.revokeAndRejoin.step = .join m.memberId := by
  rw [step, state_revokeAndRejoin, memberId_revokeAndRejoin]

/-- A refused request sends the member back to the start, without its id if the
code says that the id is gone. -/
theorem onRefused_snd (m : GroupMember) (error : ℤ) : (m.onRefused error).2 =
    if Codes.Fences error then { m with memberId := "" }.revokeAndRejoin else m.revokeAndRejoin := by
  unfold onRefused
  split_ifs with hmoved hfenced <;> try rfl
  rcases hmoved with rfl | rfl <;> exact absurd hfenced (by decide)

/-! ### Runs -/

/-- An answer to a successful `JoinGroup`. -/
structure JoinAnswer where
  generation : ℤ
  memberId : String
  leaderId : String
  members : List Subscription
  deriving DecidableEq, Repr

/-- What can happen to a member. -/
inductive Event
  | join (error generation : ℤ) (memberId leaderId : String) (members : List Subscription)
  | sync (error : ℤ) (assigned : List TopicPartition)
  | heartbeat (error : ℤ)
  | setTopics (topics : List String)
  | requestRejoin
  | leave
  deriving DecidableEq, Repr

/-- What a handler returns, if it does, and the machine after it. -/
def handle (m : GroupMember) : Event → Option Step × GroupMember
  | .join error generation memberId leaderId members =>
      let (step, m) := m.onJoin error generation memberId leaderId members
      (some step, m)
  | .sync error assigned =>
      let (step, m) := m.onSync error assigned
      (some step, m)
  | .heartbeat error =>
      let (step, m) := m.onHeartbeat error
      (some step, m)
  | .setTopics topics => (none, m.setTopics topics)
  | .requestRejoin => (none, m.requestRejoin)
  | .leave => (none, m.onLeave)

def after (m : GroupMember) (e : Event) : GroupMember := (m.handle e).2

/-- How `ClassicProtocol::advance` drives the machine: an answer comes in only
where its request was the step to take. -/
def Expects (m : GroupMember) : Event → Prop
  | .join .. => ∃ memberId, m.step = .join memberId
  | .sync .. => m.state = .syncing
  | .heartbeat _ => m.state = .stable
  | _ => True

/-- The member a run of events leads to. -/
def reached (start : GroupMember) (events : List Event) : GroupMember := run after start events

/-- Every event of the run was expected where it came in. -/
def Driven (start : GroupMember) (events : List Event) : Prop :=
  ∀ pre e, pre ++ [e] <+: events → (reached start pre).Expects e

/-- How partitions change hands is fixed when the member is made. -/
theorem protocol_after (m : GroupMember) (e : Event) : (m.after e).protocol = m.protocol := by
  have hrefused : ∀ error, (m.onRefused error).2.protocol = m.protocol := by
    intro error
    rw [onRefused_snd]
    split <;> rw [protocol_revokeAndRejoin]
  cases e with
  | join error generation memberId leaderId members =>
      show (m.onJoin ..).2.protocol = _
      unfold onJoin
      split_ifs
      · dsimp only
        split <;> rfl
      · rfl
      · exact protocol_revokeAndRejoin _
      · rfl
      · exact protocol_revokeAndRejoin _
  | sync error assigned =>
      show (m.onSync ..).2.protocol = _
      unfold onSync
      split
      · dsimp only
        split <;> rfl
      · exact hrefused error
  | heartbeat error =>
      show (m.onHeartbeat _).2.protocol = _
      unfold onHeartbeat
      split
      · rfl
      · exact hrefused error
  | setTopics topics =>
      show (m.setTopics topics).protocol = _
      unfold setTopics
      split
      · exact protocol_revokeAndRejoin _
      · rfl
  | requestRejoin =>
      show m.requestRejoin.protocol = _
      unfold requestRejoin
      split
      · exact protocol_revokeAndRejoin _
      · rfl
  | leave => exact protocol_revokeAndRejoin _

/-! ### Being thrown out -/

/-- The answers that throw a member out, and leaving. -/
def Event.Expels : Event → Prop
  | .join error .. => Codes.Fences error
  | .sync error _ => Codes.Fences error
  | .heartbeat error => Codes.Fences error
  | .leave => True
  | _ => False

/-- The member has forgotten who it was and what it owned, and says what that
was. -/
structure Forgotten (m m' : GroupMember) : Prop where
  memberId : m'.memberId = ""
  assignment : m'.assignment = []
  lost : ∀ tp ∈ m.assignment, tp ∈ m'.lost
  owned : m'.subscription.owned = []

theorem fences_ne_none {error : ℤ} (h : Codes.Fences error) : error ≠ Codes.none := by
  rcases h with rfl | rfl <;> decide

theorem after_of_expels (m : GroupMember) {e : Event} (he : e.Expels) :
    m.after e = { m with memberId := "" }.revokeAndRejoin := by
  cases e with
  | join error generation memberId leaderId members =>
      have hfences : Codes.Fences error := he
      have hne : error ≠ Codes.memberIdRequired := by
        rcases hfences with rfl | rfl <;> decide
      show (m.onJoin ..).2 = _
      rw [onJoin, if_neg (fences_ne_none he), if_neg hne, if_pos hfences]
  | sync error assigned =>
      have hfences : Codes.Fences error := he
      show (m.onSync ..).2 = _
      rw [onSync, if_neg (fences_ne_none he), onRefused_snd, if_pos hfences]
  | heartbeat error =>
      have hfences : Codes.Fences error := he
      show (m.onHeartbeat _).2 = _
      rw [onHeartbeat, if_neg (fences_ne_none he), onRefused_snd, if_pos hfences]
  | setTopics topics => cases he
  | requestRejoin => cases he
  | leave => rfl

/-- **Being thrown out means forgetting what was owned exactly for an eager
member, or one that owned nothing.** A cooperative member keeps its partitions,
and claims them again. -/
theorem expelled_forgets_iff (groupId : String) (topics : List String)
    (protocol : RebalanceProtocol) (events : List Event) {e : Event} (he : e.Expels) :
    let m := reached (new groupId topics protocol) events
    Forgotten m (m.after e) ↔ m.protocol = .eager ∨ m.assignment = [] := by
  intro m
  rw [after_of_expels m he]
  constructor
  · intro h
    by_cases heager : m.protocol = .eager
    · exact .inl heager
    · have hkept := h.assignment
      rw [assignment_revokeAndRejoin, if_neg heager] at hkept
      exact .inr hkept
  · intro h
    have hempty : ({ m with memberId := "" }.revokeAndRejoin).assignment = [] := by
      rw [assignment_revokeAndRejoin]
      split
      · rfl
      · next hne => exact h.resolve_left hne
    refine ⟨memberId_revokeAndRejoin _, hempty, fun tp htp => ?_, hempty⟩
    rcases h with heager | hnone
    · rw [lost_revokeAndRejoin, if_pos heager]
      exact htp
    · rw [hnone] at htp
      cases htp

/-- A cooperative member that is told it is unknown. -/
def thrownOut : List Event :=
  [.join 0 1 "a" "a" [], .sync 0 [⟨"t", 0⟩], .heartbeat Codes.unknownMemberId]

theorem expelled_member_claims :
    Driven (new "g" ["t"] .cooperative) thrownOut ∧
      (reached (new "g" ["t"] .cooperative) thrownOut).memberId = "" ∧
      (reached (new "g" ["t"] .cooperative) thrownOut).subscription.owned = [⟨"t", 0⟩] ∧
      ¬Forgotten (reached (new "g" ["t"] .cooperative) (thrownOut.take 2))
        (reached (new "g" ["t"] .cooperative) thrownOut) := by
  refine ⟨forall_position ?_, by decide, by decide, fun h => absurd h.assignment (by decide)⟩
  intro i hi
  have hlen : i < 3 := hi
  interval_cases i
  · exact ⟨"", rfl⟩
  · exact rfl
  · exact rfl

theorem expelled_forgets_iff_eager :
    Forgotten (reached (new "g" ["t"] .eager) (thrownOut.take 2))
      ((reached (new "g" ["t"] .eager) (thrownOut.take 2)).after (.heartbeat Codes.unknownMemberId)) :=
  (expelled_forgets_iff "g" ["t"] .eager (thrownOut.take 2)
    (e := .heartbeat Codes.unknownMemberId) (Or.inl rfl)).mpr (.inl rfl)

/-! ### The machine over whole runs -/

/-- The machine after a successful join. -/
def joined (m : GroupMember) (answer : JoinAnswer) : GroupMember :=
  { m with
    memberId := answer.memberId
    generation := answer.generation
    leader := answer.leaderId = answer.memberId
    state := .syncing
    pendingMembers := if answer.leaderId = answer.memberId then answer.members else [] }

theorem onJoin_none (m : GroupMember) (answer : JoinAnswer) :
    (m.onJoin 0 answer.generation answer.memberId answer.leaderId answer.members).2 =
      m.joined answer := by
  rw [onJoin, if_pos (by rfl)]
  by_cases hleader : answer.leaderId = answer.memberId <;> simp [joined, hleader]

def JoinAnswer.event (answer : JoinAnswer) : Event :=
  .join 0 answer.generation answer.memberId answer.leaderId answer.members

/-- What may happen to a member that stays what the last join made it. -/
def Event.Stays : Event → Prop
  | .sync error _ => error = 0
  | .heartbeat error => error = 0
  | .setTopics _ => True
  | _ => False

/-- Everything a step can do: take a new generation, settle, change nothing, or go
back to the start. -/
theorem after_cases {m : GroupMember} {e : Event} (h : m.Expects e) :
    (∃ answer : JoinAnswer, e = answer.event ∧ m.state ≠ .stable ∧ m.after e = m.joined answer) ∨
    (∃ assigned, e = .sync 0 assigned ∧ m.state = .syncing ∧ m.after e = { m with
      lost := [], assignment := StickyAssignor.sortPartitions assigned, state := .stable }) ∨
    ((e.Stays ∨ m.state = .unjoined) ∧ m.after e = m) ∨
    ((m.after e).state = .unjoined ∧ (m.after e).protocol = m.protocol ∧
      (m.protocol = .eager → (m.after e).assignment = [] ∨
        m.state ≠ .stable ∧ (m.after e).assignment = m.assignment)) := by
  have hback : ∀ m' : GroupMember, m'.protocol = m.protocol → m.after e = m'.revokeAndRejoin →
      (m.after e).state = .unjoined ∧ (m.after e).protocol = m.protocol ∧
        (m.protocol = .eager → (m.after e).assignment = [] ∨
          m.state ≠ .stable ∧ (m.after e).assignment = m.assignment) := by
    intro m' hprotocol heq
    rw [heq]
    refine ⟨rfl, by rw [protocol_revokeAndRejoin, hprotocol], fun heager => .inl ?_⟩
    rw [assignment_revokeAndRejoin, if_pos (hprotocol.trans heager)]
  have hrefused : ∀ error, m.after e = (m.onRefused error).2 →
      (m.after e).state = .unjoined ∧ (m.after e).protocol = m.protocol ∧
        (m.protocol = .eager → (m.after e).assignment = [] ∨
          m.state ≠ .stable ∧ (m.after e).assignment = m.assignment) := by
    intro error heq
    rw [onRefused_snd] at heq
    split at heq
    · exact hback { m with memberId := "" } rfl heq
    · exact hback m rfl heq
  cases e with
  | join error generation memberId leaderId members =>
      obtain ⟨id, hid⟩ := h
      have hstate : m.state ≠ .stable := fun hstable => by simp [step, hstable] at hid
      by_cases hnone : error = Codes.none
      · subst hnone
        exact .inl ⟨⟨generation, memberId, leaderId, members⟩, rfl, hstate,
          onJoin_none m ⟨generation, memberId, leaderId, members⟩⟩
      · refine .inr (.inr (.inr ?_))
        have heq : m.after (.join error generation memberId leaderId members) =
            (m.onJoin error generation memberId leaderId members).2 := rfl
        rw [onJoin, if_neg hnone] at heq
        split_ifs at heq with hrequired hfences hlost
        · exact ⟨by rw [heq], by rw [heq], fun _ => .inr ⟨hstate, by rw [heq]⟩⟩
        · exact hback { m with memberId := "" } rfl heq
        · exact ⟨by rw [heq], by rw [heq], fun _ => .inr ⟨hstate, by rw [heq]⟩⟩
        · exact hback m rfl heq
  | sync error assigned =>
      by_cases hnone : error = Codes.none
      · have heq : m.after (.sync error assigned) = (m.onSync error assigned).2 := rfl
        rw [onSync, if_pos hnone] at heq
        by_cases hlost : m.lostBy assigned = []
        · refine .inr (.inl ⟨assigned, by rw [hnone]; rfl, h, ?_⟩)
          rw [heq]
          simp [hlost]
        · refine .inr (.inr (.inr ?_))
          rw [heq]
          simp only [ne_eq, hlost, not_false_eq_true, if_true, true_and]
          intro heager
          simp [lostBy, heager] at hlost
      · refine .inr (.inr (.inr (hrefused error ?_)))
        show (m.onSync ..).2 = _
        rw [onSync, if_neg hnone]
  | heartbeat error =>
      by_cases hnone : error = Codes.none
      · refine .inr (.inr (.inl ⟨.inl hnone, ?_⟩))
        show (m.onHeartbeat _).2 = _
        rw [onHeartbeat, if_pos hnone]
      · refine .inr (.inr (.inr (hrefused error ?_)))
        show (m.onHeartbeat _).2 = _
        rw [onHeartbeat, if_neg hnone]
  | setTopics topics =>
      by_cases htopics : topics ≠ m.topics
      · exact .inr (.inr (.inr (hback { m with topics } rfl (if_pos htopics))))
      · exact .inr (.inr (.inl ⟨.inl trivial, if_neg htopics⟩))
  | requestRejoin =>
      by_cases hstate : m.state ≠ .unjoined
      · exact .inr (.inr (.inr (hback m rfl (if_pos hstate))))
      · exact .inr (.inr (.inl ⟨.inr (not_not.mp hstate), if_neg hstate⟩))
  | leave => exact .inr (.inr (.inr (hback { m with memberId := "" } rfl rfl)))

/-- The last successful join of a run is this one, and since then the member has
neither left nor been thrown out nor gone back to join again. -/
def Since (start : GroupMember) (events : List Event) (answer : JoinAnswer) : Prop :=
  ∃ before since, events = before ++ answer.event :: since ∧ (∀ e ∈ since, e.Stays) ∧
    ∀ pre, pre <+: since → (reached start (before ++ answer.event :: pre)).state ≠ .unjoined

/-- What is true of a member after a run. -/
structure Sound (start : GroupMember) (events : List Event) (m : GroupMember) : Prop where
  empty : m.protocol = .eager → m.state ≠ .stable → m.assignment = []
  since : m.state ≠ .unjoined → ∃ answer, Since start events answer ∧
    m.memberId = answer.memberId ∧ m.generation = answer.generation ∧
    (m.state ≠ .stable → m = m.joined answer)

theorem Since.stay {start : GroupMember} {events : List Event} {answer : JoinAnswer} {e : Event}
    (h : Since start events answer) (he : e.Stays)
    (hstate : (reached start (events ++ [e])).state ≠ .unjoined) :
    Since start (events ++ [e]) answer := by
  obtain ⟨before, since, rfl, hstays, hstates⟩ := h
  refine ⟨before, since ++ [e], by simp, ?_, ?_⟩
  · intro e' he'
    rcases List.mem_append.mp he' with he' | he'
    · exact hstays e' he'
    · rw [List.mem_singleton.mp he']
      exact he
  · intro pre hpre
    rcases List.prefix_concat_iff.mp hpre with rfl | hpre
    · simpa using hstate
    · exact hstates pre hpre

theorem sound_new (groupId : String) (topics : List String) (protocol : RebalanceProtocol) :
    Sound (new groupId topics protocol) [] (new groupId topics protocol) :=
  ⟨fun _ _ => rfl, fun h => absurd rfl h⟩

/-- One step keeps it. -/
theorem Sound.after {start : GroupMember} {events : List Event} {e : Event}
    (h : Sound start events (reached start events)) (he : (reached start events).Expects e) :
    Sound start (events ++ [e]) ((reached start events).after e) := by
  have hreached : reached start (events ++ [e]) = (reached start events).after e :=
    run_concat ..
  generalize hm : reached start events = m at h he hreached
  rcases after_cases he with ⟨answer, rfl, hstate, heq⟩ | ⟨assigned, rfl, hstate, heq⟩ |
    ⟨hstays, heq⟩ | ⟨hstate, hprotocol, heager⟩
  · refine ⟨fun hprotocol _ => ?_, fun _ => ⟨answer, ⟨events, [], rfl, by simp, ?_⟩, ?_⟩⟩
    · rw [heq] at hprotocol ⊢
      exact h.empty hprotocol hstate
    · intro pre hpre
      rw [List.prefix_nil.mp hpre, hreached, heq]
      simp [joined]
    · rw [heq]
      exact ⟨rfl, rfl, fun _ => rfl⟩
  · refine ⟨fun _ hunstable => ?_, fun _ => ?_⟩
    · rw [heq] at hunstable
      exact absurd rfl hunstable
    · obtain ⟨answer, hsince, hid, hgeneration, -⟩ := h.since (by rw [hstate]; decide)
      rw [heq] at hreached ⊢
      exact ⟨answer, hsince.stay rfl (by rw [hreached]; exact nofun), hid, hgeneration,
        fun hunstable => absurd rfl hunstable⟩
  · rw [heq] at hreached ⊢
    refine ⟨h.empty, fun hstate => ?_⟩
    obtain ⟨answer, hsince, hrest⟩ := h.since hstate
    exact ⟨answer, hsince.stay (hstays.resolve_right hstate) (by rw [hreached]; exact hstate), hrest⟩
  · refine ⟨fun hmode _ => ?_, fun hjoined => absurd hstate hjoined⟩
    rw [hprotocol] at hmode
    rcases heager hmode with hnone | ⟨hunstable, hsame⟩
    · exact hnone
    · rw [hsame]
      exact h.empty hmode hunstable

theorem sound_of_driven (groupId : String) (topics : List String) (protocol : RebalanceProtocol)
    {events : List Event} (h : Driven (new groupId topics protocol) events) :
    Sound (new groupId topics protocol) events (reached (new groupId topics protocol) events) :=
  run_induction_of_prefix (sound_new groupId topics protocol) events
    fun pre e hpre hsound => hsound.after (h pre e hpre)

/-- What an expected answer returns is what the machine says afterwards, or to
look for the coordinator. -/
theorem returned_step {m : GroupMember} {e : Event} (h : m.Expects e) {s : Step}
    (hs : (m.handle e).1 = some s) : s = (m.after e).step ∨ s = .findCoordinator := by
  have hrefused : ∀ error, (m.onRefused error).1 = (m.onRefused error).2.step ∨
      (m.onRefused error).1 = .findCoordinator := by
    intro error
    unfold onRefused
    split_ifs
    · exact .inl (step_revokeAndRejoin m).symm
    · exact .inl (step_revokeAndRejoin { m with memberId := "" }).symm
    · exact .inr rfl
    · exact .inl (step_revokeAndRejoin m).symm
  cases e with
  | join error generation memberId leaderId members =>
      obtain rfl : (m.onJoin error generation memberId leaderId members).1 = s :=
        Option.some.inj hs
      show _ = (m.onJoin error generation memberId leaderId members).2.step ∨ _
      by_cases hnone : error = Codes.none
      · rw [onJoin, if_pos hnone]
        by_cases hleader : leaderId = memberId <;> simp [hleader, step]
      · rw [onJoin, if_neg hnone]
        split_ifs
        · exact .inl rfl
        · exact .inl (step_revokeAndRejoin { m with memberId := "" }).symm
        · exact .inr rfl
        · exact .inl (step_revokeAndRejoin m).symm
  | sync error assigned =>
      obtain rfl : (m.onSync error assigned).1 = s := Option.some.inj hs
      show _ = (m.onSync error assigned).2.step ∨ _
      by_cases hnone : error = Codes.none
      · rw [onSync, if_pos hnone]
        by_cases hlost : m.lostBy assigned = []
        · simp [hlost, step]
        · simp [hlost, step]
      · rw [onSync, if_neg hnone]
        exact hrefused error
  | heartbeat error =>
      obtain rfl : (m.onHeartbeat error).1 = s := Option.some.inj hs
      show _ = (m.onHeartbeat error).2.step ∨ _
      by_cases hnone : error = Codes.none
      · have hstable : m.state = .stable := h
        rw [onHeartbeat, if_pos hnone, step, hstable]
        exact .inl rfl
      · rw [onHeartbeat, if_neg hnone]
        exact hrefused error
  | setTopics topics => cases hs
  | requestRejoin => cases hs
  | leave => cases hs

/-- **The invariant of the machine.** After every run in which answers come only
where they are expected: an eager member owns nothing while it is not stable;
where offsets may be committed, the id and the generation are those of the last
successful join, and nothing has ended that membership; while syncing, the next
step is the one that join calls for; and a handler returns what the machine says
next, unless it asks to find the coordinator again. -/
theorem driven_member (groupId : String) (topics : List String) (protocol : RebalanceProtocol)
    (events : List Event) (h : Driven (new groupId topics protocol) events) :
    let start := new groupId topics protocol
    let m := reached start events
    (m.protocol = .eager → m.state ≠ .stable → m.assignment = []) ∧
    (m.canCommit → ∃ answer, Since start events answer ∧
      (m.memberId, m.generation) = (answer.memberId, answer.generation)) ∧
    (m.state = .syncing → ∃ answer, Since start events answer ∧
      m.step = if answer.leaderId = answer.memberId then .assignAndSync answer.members else .sync) ∧
    ∀ e, m.Expects e → ∀ s, (m.handle e).1 = some s →
      s = (m.after e).step ∨ s = .findCoordinator := by
  intro start m
  have hsound : Sound start events m := sound_of_driven groupId topics protocol h
  refine ⟨hsound.empty, fun hcommit => ?_, fun hsyncing => ?_, fun e he s hs => returned_step he hs⟩
  · have hstable : m.state = .stable := by
      simp only [canCommit, decide_eq_true_eq] at hcommit
      exact hcommit.1
    obtain ⟨answer, hsince, hid, hgeneration, -⟩ := hsound.since (by rw [hstable]; decide)
    exact ⟨answer, hsince, by rw [hid, hgeneration]⟩
  · obtain ⟨answer, hsince, -, -, heq⟩ := hsound.since (by rw [hsyncing]; decide)
    refine ⟨answer, hsince, ?_⟩
    rw [heq (by rw [hsyncing]; decide)]
    by_cases hleader : answer.leaderId = answer.memberId <;> simp [step, joined, hleader]

/-- A first join, a heartbeat that tells of a rebalance, and the join after it. -/
def twoRounds : List Event :=
  [.join 79 (-1) "a" "" [], .join 0 1 "a" "a" [⟨"a", ["t"], [], -1⟩], .sync 0 [⟨"t", 0⟩],
    .heartbeat Codes.rebalanceInProgress, .join 0 2 "a" "b" [], .sync 0 [⟨"t", 0⟩]]

theorem driven_member_twoRounds :
    (reached (new "g" ["t"] .eager) twoRounds).canCommit ∧
      ∃ answer, Since (new "g" ["t"] .eager) twoRounds answer ∧
        ((reached (new "g" ["t"] .eager) twoRounds).memberId,
          (reached (new "g" ["t"] .eager) twoRounds).generation) =
            (answer.memberId, answer.generation) := by
  have hcommit : (reached (new "g" ["t"] .eager) twoRounds).canCommit := by decide
  refine ⟨hcommit, (driven_member "g" ["t"] .eager twoRounds (forall_position ?_)).2.1 hcommit⟩
  intro i hi
  have hlen : i < 6 := hi
  interval_cases i
  · exact ⟨"", rfl⟩
  · exact ⟨"a", rfl⟩
  · exact rfl
  · exact rfl
  · exact ⟨"a", rfl⟩
  · exact rfl

end GroupMember

end Barnabas.Core
