import Barnabas.Client.Classic
import Barnabas.Client.Requests
import Barnabas.Client.Tape

/-!
What a member of a group is told it has lost.

`ClassicProtocol::advance` hands out `Membership::Revoked` when a member leaves the
stable state, and marks the announcement as made until the member is stable again.
That is in time when the partitions go in the step that leaves the stable state:
an eager member whose heartbeat is refused. It is not when they go before it
(`request_rejoin` of an eager member, whose next step sends the `JoinGroup`) or
after it (a sync that takes partitions from a cooperative member).
-/

namespace Barnabas.Client

open Barnabas.Lib Barnabas.Core

namespace ClassicProtocol

variable {ω : Type} (T : Transport ω)

/-! ### Runs -/

/-- What the owner of a group does with it. -/
inductive Drive
  | advance
  | requestRejoin
  deriving DecidableEq, Repr

/-- What one drive returns, where it returns something, and leaves behind. -/
def Drive.exec (g : Grouped ω) : Drive → Option (Except Error Membership) × Grouped ω
  | .advance => (some (ClassicProtocol.advance T g).1, (ClassicProtocol.advance T g).2)
  | .requestRejoin => (none, { g with group := g.group.requestRejoin })

/-- The group before step `i` of a run. -/
def stateAt (start : Grouped ω) (drives : ℕ → Drive) : ℕ → Grouped ω
  | 0 => start
  | i + 1 => ((drives i).exec T (stateAt start drives i)).2

/-- A group as `ClassicProtocol::new` makes it, with the timeouts set on it. -/
structure Fresh (g : Grouped ω) : Prop where
  made : ∃ groupId topics assignor sessionTimeoutMs rebalanceTimeoutMs,
    g.group = { new groupId topics assignor with sessionTimeoutMs, rebalanceTimeoutMs }

section Run

variable (start : Grouped ω) (drives : ℕ → Drive)

/-- The member's assignment before step `i`. -/
def heldAt (i : ℕ) : List TopicPartition := (stateAt T start drives i).group.member.assignment

/-- Step `i` returns a `Membership::Revoked` that names the partition. -/
def RevokedAt (tp : TopicPartition) (i : ℕ) : Prop :=
  ∃ partitions, ((drives i).exec T (stateAt T start drives i)).1 =
    some (.ok (.revoked partitions)) ∧ tp ∈ partitions

/-- Step `i` hands a `JoinGroup` request to the transport. -/
def JoinsAt (i : ℕ) : Prop :=
  ∃ frame ∈ (stateAt T start drives (i + 1)).cluster.sent.drop
    (stateAt T start drives i).cluster.sent.length, frame.request.apiKey = .joinGroup

/-- The partition is in the assignment before step `i` and not after it. -/
def LeavesAt (tp : TopicPartition) (i : ℕ) : Prop :=
  tp ∈ heldAt T start drives i ∧ tp ∉ heldAt T start drives (i + 1)

/-- The partition that left in step `i` is announced in step `j` and, until the
member has it again, in no other; no `JoinGroup` is sent in between. -/
structure AnnouncedIn (tp : TopicPartition) (i j : ℕ) : Prop where
  later : i ≤ j
  revoked : RevokedAt T start drives tp j
  inTime : ∀ k, i < k → k ≤ j → ¬JoinsAt T start drives k
  once : ∀ k, i ≤ k → RevokedAt T start drives tp k →
    (∀ l, i < l → l ≤ k → tp ∉ heldAt T start drives l) → k = j

end Run

/-! ### One exchange -/

/-- The exchange `advance` makes in each state of the machine. -/
def exchange (m : GroupMember) : Act (Grouped ω) Error GroupMember.Event :=
  match m.state with
  | .unjoined | .joining => joinAnswer T
  | .syncing => if m.leader then assignAndSyncAnswer T m.pendingMembers else syncAnswer T []
  | .stable => heartbeatAnswer T

theorem perform_step (m : GroupMember) :
    perform T m.step = (exchange T m >>= hear : Act (Grouped ω) Error Step) := by
  rw [GroupMember.step, exchange]
  cases m.state with
  | unjoined => rfl
  | joining => rfl
  | syncing =>
      dsimp only
      split <;> rfl
  | stable => rfl

/-- Only the coordinator's address changed. -/
def Rerouted (g g' : Grouped ω) : Prop :=
  g'.group = { g.group with coordinator := g'.group.coordinator }

instance : IsPreorder (Grouped ω) Rerouted where
  refl _ := rfl
  trans _ _ _ h h' := by
    rw [Rerouted] at h h' ⊢
    rw [h', h]

variable {α ε : Type}

theorem rerouted_onCluster (m : Act (Cluster ω) ε α) :
    Act.Moves Rerouted (onCluster m : Act (Grouped ω) ε α) :=
  fun _ => rfl

theorem rerouted_setCoordinator (coordinator : Option String) :
    Act.Moves Rerouted (setCoordinator coordinator : Act (Grouped ω) ε Unit) :=
  fun _ => rfl

theorem rerouted_coordinatorAddr : Act.Moves Rerouted (coordinatorAddr T) := by
  refine Act.Moves.bind_get fun g => ?_
  cases g.group.coordinator with
  | some addr => exact refl_of Rerouted g
  | none =>
      refine Act.Moves.attempts (R := Rerouted) (fun _ _ => ?_) (fun _ => .throw _) _ _ _ g
      refine .bind (rerouted_onCluster _) fun resp => .ite ?_ (.ite ?_ ?_)
      · exact .bind (rerouted_setCoordinator _) fun _ => .pure _
      · exact .bind (rerouted_onCluster _) fun _ => .pure _
      · exact .bind (.ofExcept _) fun _ => .pure _

theorem rerouted_callCoordinator (as : Body → Option α) (version : ℤ) (timeout : ℕ)
    (request : ClassicProtocol → Except Error Request) :
    Act.Moves Rerouted (callCoordinator T as version timeout request) := by
  refine .bind (rerouted_coordinatorAddr T) fun addr => .bind .get fun g => ?_
  exact .bind (.ofExcept _) fun req => rerouted_onCluster _

theorem rerouted_syncAnswer (assignments : List (String × Bytes)) :
    Act.Moves Rerouted (syncAnswer T assignments) :=
  .bind (rerouted_callCoordinator T _ _ _ _) fun _ => .bind (.ofExcept _) fun _ => .pure _

theorem rerouted_countPartitions (topics : List String) (counts : PartitionCounts) :
    Act.Moves Rerouted (countPartitions T topics counts) := by
  induction topics generalizing counts with
  | nil => exact .pure _
  | cons topic rest ih => exact .ite (ih counts) (.bind (rerouted_onCluster _) fun _ => ih _)

theorem rerouted_exchange (m : GroupMember) : Act.Moves Rerouted (exchange T m) := by
  rw [exchange]
  have hjoin : Act.Moves Rerouted (joinAnswer T) := .bind .get fun _ =>
    .bind (rerouted_callCoordinator T _ _ _ _) fun _ => .bind (.ofExcept _) fun _ => .pure _
  cases m.state with
  | unjoined => exact hjoin
  | joining => exact hjoin
  | syncing =>
      refine .ite ?_ (rerouted_syncAnswer T _)
      refine .bind (rerouted_countPartitions T _ _) fun _ => .bind .get fun _ => ?_
      exact .bind (.ofExcept _) fun _ => rerouted_syncAnswer T _
  | stable => exact .bind (rerouted_callCoordinator T _ _ _ _) fun _ => .pure _

/-- A sync is answered by a sync. -/
theorem syncAnswer_eq_ok {assignments : List (String × Bytes)} {g g' : Grouped ω}
    {e : GroupMember.Event} (h : syncAnswer T assignments g = (.ok e, g')) :
    ∃ error assigned, e = .sync error assigned := by
  obtain ⟨resp, g₁, -, h⟩ := Act.bind_eq_ok h
  obtain ⟨assigned, g₂, -, h⟩ := Act.bind_eq_ok h
  cases h
  exact ⟨_, _, rfl⟩

/-- What comes in is an answer to the request the machine asked for. -/
theorem expects_of_exchange {m : GroupMember} {g g' : Grouped ω} {e : GroupMember.Event}
    (h : exchange T m g = (.ok e, g')) :
    (m.state ≠ .syncing ∧ m.state ≠ .stable ∧
        ∃ error generation memberId leaderId members,
          e = .join error generation memberId leaderId members) ∨
      (m.state = .syncing ∧ ∃ error assigned, e = .sync error assigned) ∨
      (m.state = .stable ∧ ∃ error, e = .heartbeat error) := by
  have hjoin : joinAnswer T g = (.ok e, g') → ∃ error generation memberId leaderId members,
      e = .join error generation memberId leaderId members := by
    intro h
    obtain ⟨_, _, -, h⟩ := Act.bind_eq_ok h
    obtain ⟨resp, _, -, h⟩ := Act.bind_eq_ok h
    obtain ⟨members, _, -, h⟩ := Act.bind_eq_ok h
    cases h
    exact ⟨_, _, _, _, _, rfl⟩
  rw [exchange] at h
  cases hstate : m.state with
  | unjoined =>
      rw [hstate] at h
      exact .inl ⟨nofun, nofun, hjoin h⟩
  | joining =>
      rw [hstate] at h
      exact .inl ⟨nofun, nofun, hjoin h⟩
  | syncing =>
      rw [hstate] at h
      refine .inr (.inl ⟨rfl, ?_⟩)
      dsimp only at h
      split at h
      · obtain ⟨_, _, -, h⟩ := Act.bind_eq_ok h
        obtain ⟨_, _, -, h⟩ := Act.bind_eq_ok h
        obtain ⟨_, _, -, h⟩ := Act.bind_eq_ok h
        exact syncAnswer_eq_ok T h
      · exact syncAnswer_eq_ok T h
  | stable =>
      rw [hstate] at h
      obtain ⟨code, _, -, h⟩ := Act.bind_eq_ok h
      cases h
      exact .inr (.inr ⟨rfl, _, rfl⟩)

theorem announce_coordinator (g : ClassicProtocol) (coordinator : Option String) :
    announce { g with coordinator } =
      ((announce g).1, { (announce g).2 with coordinator }) := by
  unfold announce
  split_ifs <;> rfl

/-- How `advance` ends: the address is forgotten if the machine asks for that, and
what the step has come to is announced. -/
def conclude (outcome : Step) : Act (Grouped ω) Error Membership := do
  if outcome = .findCoordinator then setCoordinator none else pure ()
  modifyGet fun g => ((announce g.group).1, { g with group := (announce g.group).2 })

theorem conclude_apply (outcome : Step) (g : Grouped ω) : ∃ g', Rerouted g g' ∧
    conclude outcome g =
      (.ok (announce g'.group).1, { g' with group := (announce g'.group).2 }) := by
  unfold conclude
  split
  · exact ⟨{ g with group := { g.group with coordinator := none } }, rfl, rfl⟩
  · exact ⟨g, refl_of Rerouted g, rfl⟩

/-- A step of the group: the exchange fails and nothing is heard, or the machine
hears the answer and what that comes to is announced. -/
theorem advance_cases (g : Grouped ω) :
    ((∃ e, (advance T g).1 = .error e) ∧ Rerouted g (advance T g).2) ∨
      ∃ event g₁, exchange T g.group.member g = (.ok event, g₁) ∧
        let heard := { g.group with member := g.group.member.after event }
        (advance T g).1 = .ok (announce heard).1 ∧
          (advance T g).2.group =
            { (announce heard).2 with coordinator := (advance T g).2.group.coordinator } := by
  have hadvance : advance T g =
      ((exchange T g.group.member >>= hear) >>= conclude : Act (Grouped ω) Error _) g := by
    rw [← perform_step]
    rfl
  have hkept := rerouted_exchange T g.group.member g
  rw [hadvance]
  rcases hex : exchange T g.group.member g with ⟨e | event, g₁⟩
  · rw [hex] at hkept
    rw [Act.bind_of_error (Act.bind_of_error hex)]
    exact .inl ⟨⟨e, rfl⟩, hkept⟩
  · rw [hex] at hkept
    have hkept : g₁.group = { g.group with coordinator := g₁.group.coordinator } := hkept
    obtain ⟨step, g₂, hhear, hheard⟩ : ∃ step g₂, hear event g₁ = (.ok step, g₂) ∧
        g₂.group = { g.group with
          member := g.group.member.after event, coordinator := g₂.group.coordinator } := by
      refine ⟨_, _, rfl, ?_⟩
      dsimp only [hear]
      rw [hkept]
      rfl
    obtain ⟨g₃, hrerouted, hconclude⟩ := conclude_apply step g₂
    have hstill : g₃.group = { g.group with
        member := g.group.member.after event, coordinator := g₃.group.coordinator } := by
      rw [Rerouted, hheard] at hrerouted
      exact hrerouted
    have hhears : (exchange T g.group.member >>= hear) g = (.ok step, g₂) := by
      rw [Act.bind_of_ok hex, hhear]
    rw [Act.bind_of_ok hhears, hconclude]
    have hannounced := announce_coordinator
      { g.group with member := g.group.member.after event } g₃.group.coordinator
    rw [← hstill] at hannounced
    refine .inr ⟨event, g₁, rfl, ?_, ?_⟩
    · exact congrArg (fun r => Except.ok r.1) hannounced
    · dsimp only
      rw [hannounced]

/-! ### What the machine lets go of -/

/-- Going back to the start announces what it lets go of. -/
structure WentBack (m m' : GroupMember) : Prop where
  protocol : m'.protocol = m.protocol
  state : m'.state ≠ .stable
  assignment : m'.assignment = if m.protocol = .eager then [] else m.assignment
  lost : m'.lost = if m.protocol = .eager then m.assignment else []

theorem wentBack_revokeAndRejoin (m : GroupMember) (memberId : String) :
    WentBack m { m with memberId }.revokeAndRejoin where
  protocol := GroupMember.protocol_revokeAndRejoin _
  state := nofun
  assignment := GroupMember.assignment_revokeAndRejoin _
  lost := GroupMember.lost_revokeAndRejoin _

theorem wentBack_onRefused (m : GroupMember) (error : ℤ) : WentBack m (m.onRefused error).2 := by
  rw [GroupMember.onRefused_snd]
  split
  · exact wentBack_revokeAndRejoin m ""
  · exact wentBack_revokeAndRejoin m m.memberId

/-- The machine joins, or its join is put off: what it holds stays. -/
structure StillOut (m m' : GroupMember) : Prop where
  protocol : m'.protocol = m.protocol
  state : m'.state ≠ .stable
  assignment : m'.assignment = m.assignment
  lost : m'.lost = m.lost

theorem after_join (m : GroupMember) (error generation : ℤ) (memberId leaderId : String)
    (members : List Subscription) :
    StillOut m (m.after (.join error generation memberId leaderId members)) ∨
      WentBack m (m.after (.join error generation memberId leaderId members)) := by
  have heq : m.after (.join error generation memberId leaderId members) =
      (m.onJoin error generation memberId leaderId members).2 := rfl
  rw [heq, GroupMember.onJoin]
  split_ifs
  · dsimp only
    split <;> exact .inl ⟨rfl, by simp, rfl, rfl⟩
  · exact .inl ⟨rfl, by simp, rfl, rfl⟩
  · exact .inr (wentBack_revokeAndRejoin m "")
  · exact .inl ⟨rfl, by simp, rfl, rfl⟩
  · exact .inr (wentBack_revokeAndRejoin m m.memberId)

/-- The machine is stable, and still has what it had. -/
structure Settled (m m' : GroupMember) : Prop where
  protocol : m'.protocol = m.protocol
  state : m'.state = .stable
  assignment : ∀ tp ∈ m.assignment, tp ∈ m'.assignment
  lost : m'.lost = []

theorem after_sync {m : GroupMember} {error : ℤ} {assigned : List TopicPartition}
    (hheld : error = Codes.none → ∀ tp ∈ m.assignment, tp ∈ assigned) :
    Settled m (m.after (.sync error assigned)) ∨ WentBack m (m.after (.sync error assigned)) := by
  have heq : m.after (.sync error assigned) = (m.onSync error assigned).2 := rfl
  by_cases hnone : error = Codes.none
  · have hlost : m.lostBy assigned = [] := by
      rw [GroupMember.lostBy]
      split
      · simpa using hheld hnone
      · rfl
    rw [heq, GroupMember.onSync, if_pos hnone]
    dsimp only
    rw [hlost, if_neg (by simp)]
    refine .inl ⟨rfl, rfl, fun tp htp => ?_, rfl⟩
    rw [StickyAssignor.sortPartitions, List.mem_insertionSort]
    exact hheld hnone tp htp
  · rw [heq, GroupMember.onSync, if_neg hnone]
    exact .inr (wentBack_onRefused m error)

theorem after_heartbeat {m : GroupMember} (error : ℤ) (hstable : m.state = .stable)
    (hlost : m.lost = []) :
    Settled m (m.after (.heartbeat error)) ∨ WentBack m (m.after (.heartbeat error)) := by
  have heq : m.after (.heartbeat error) = (m.onHeartbeat error).2 := rfl
  rw [heq, GroupMember.onHeartbeat]
  split
  · exact .inl ⟨rfl, hstable, fun _ htp => htp, hlost⟩
  · exact .inr (wentBack_onRefused m error)

/-! ### What is announced -/

/-- The condition under which no partition goes without its announcement: an eager
member is asked to rejoin only while it holds nothing, and a cooperative one is
synced only to assignments that name everything it holds. -/
def Clean (g : Grouped ω) : Drive → Prop
  | .advance => g.group.member.protocol = .cooperative →
      ∀ assigned g', exchange T g.group.member g = (.ok (.sync Codes.none assigned), g') →
        ∀ tp ∈ g.group.member.assignment, tp ∈ assigned
  | .requestRejoin => g.group.member.protocol = .eager → g.group.member.assignment = []

/-- What the flags say about the machine between two drives. -/
structure Watch (g : ClassicProtocol) : Prop where
  stable : g.member.state = .stable → g.everAssigned = true ∧ g.announcedRevoked = false
  never : g.everAssigned = false → g.member.assignment = []
  eager : g.member.protocol = .eager → g.member.state ≠ .stable → g.member.assignment = []
  lost : g.announcedRevoked = false → g.member.lost = []

theorem Watch.congr {g g' : ClassicProtocol} (h : Watch g)
    (heq : g' = { g with coordinator := g'.coordinator }) : Watch g' := by
  rw [heq]
  exact ⟨h.stable, h.never, h.eager, h.lost⟩

/-- What the announcement names. -/
def Names (membership : Membership) (tp : TopicPartition) : Prop :=
  ∃ partitions, membership = .revoked partitions ∧ tp ∈ partitions

theorem announce_of_settled {g : ClassicProtocol} {m' : GroupMember}
    (h : Settled g.member m') :
    Watch (announce { g with member := m' }).2 ∧
      ∀ tp, Names (announce { g with member := m' }).1 tp ↔
        tp ∈ g.member.assignment ∧ tp ∉ m'.assignment := by
  rw [announce, if_pos h.state]
  refine ⟨⟨fun _ => ⟨rfl, rfl⟩, nofun, fun _ hout => absurd h.state hout, fun _ => h.lost⟩,
    fun tp => ⟨?_, ?_⟩⟩
  · rintro ⟨partitions, heq, -⟩
    cases heq
  · rintro ⟨hheld, hgone⟩
    exact absurd (h.assignment tp hheld) hgone

/-- A machine out of the stable state announces what it has lost, unless that was
done before or there was never anything to lose. -/
theorem announce_of_out {g : ClassicProtocol} (hW : Watch g) {m' : GroupMember}
    (hstate : m'.state ≠ .stable)
    (hempty : g.member.assignment = [] → m'.assignment = [])
    (heager : m'.protocol = .eager → m'.assignment = [])
    (hlost : g.announcedRevoked = false → ∀ tp,
      tp ∈ m'.lost ↔ tp ∈ g.member.assignment ∧ tp ∉ m'.assignment)
    (hstays : g.everAssigned = false ∨ g.announcedRevoked = true →
      ∀ tp ∈ g.member.assignment, tp ∈ m'.assignment) :
    Watch (announce { g with member := m' }).2 ∧
      ∀ tp, Names (announce { g with member := m' }).1 tp ↔
        tp ∈ g.member.assignment ∧ tp ∉ m'.assignment := by
  rw [announce, if_neg hstate]
  by_cases hfires : g.everAssigned = true ∧ (!g.announcedRevoked) = true
  · obtain ⟨hever, hopen⟩ := hfires
    rw [Bool.not_eq_true'] at hopen
    rw [if_pos ⟨hever, by rw [hopen]; rfl⟩]
    refine ⟨⟨fun h => absurd h hstate, fun h => ?_, fun h _ => heager h, nofun⟩, fun tp => ?_⟩
    · rw [hever] at h
      cases h
    · rw [← hlost hopen tp]
      constructor
      · rintro ⟨partitions, heq, htp⟩
        cases heq
        exact htp
      · intro htp
        exact ⟨_, rfl, htp⟩
  · have hquiet : g.everAssigned = false ∨ g.announcedRevoked = true := by
      by_contra h
      rw [not_or, Bool.not_eq_false, Bool.not_eq_true] at h
      exact hfires ⟨h.1, by rw [h.2]; rfl⟩
    rw [if_neg hfires]
    refine ⟨⟨fun h => absurd h hstate, fun h => hempty (hW.never h), fun h _ => heager h,
      fun hopen => ?_⟩, fun tp => ⟨?_, ?_⟩⟩
    · have hnone := hW.never (hquiet.resolve_right (by rw [hopen]; exact Bool.false_ne_true))
      refine List.eq_nil_iff_forall_not_mem.mpr fun tp htp => ?_
      have hheld := ((hlost hopen tp).mp htp).1
      rw [hnone] at hheld
      cases hheld
    · rintro ⟨partitions, heq, -⟩
      cases heq
    · rintro ⟨hheld, hgone⟩
      exact absurd (hstays hquiet tp hheld) hgone

theorem announce_of_stillOut {g : ClassicProtocol} (hW : Watch g) {m' : GroupMember}
    (hout : g.member.state ≠ .stable) (h : StillOut g.member m') :
    Watch (announce { g with member := m' }).2 ∧
      ∀ tp, Names (announce { g with member := m' }).1 tp ↔
        tp ∈ g.member.assignment ∧ tp ∉ m'.assignment := by
  refine announce_of_out hW h.state (fun hnone => by rw [h.assignment, hnone]) (fun heager => ?_)
    (fun hopen tp => ?_) (fun _ tp htp => by rw [h.assignment]; exact htp)
  · rw [h.assignment]
    exact hW.eager (h.protocol ▸ heager) hout
  · rw [h.lost, hW.lost hopen, h.assignment]
    simp

theorem announce_of_wentBack {g : ClassicProtocol} (hW : Watch g) {m' : GroupMember}
    (h : WentBack g.member m') :
    Watch (announce { g with member := m' }).2 ∧
      ∀ tp, Names (announce { g with member := m' }).1 tp ↔
        tp ∈ g.member.assignment ∧ tp ∉ m'.assignment := by
  have hassignment := h.assignment
  have hlost := h.lost
  by_cases heager : g.member.protocol = .eager
  · rw [if_pos heager] at hassignment hlost
    refine announce_of_out hW h.state (fun _ => hassignment) (fun _ => hassignment)
      (fun _ tp => by simp [hlost, hassignment]) (fun hquiet tp htp => ?_)
    -- an eager member that holds something is stable, and then there is an announcement to make
    have hstable : g.member.state = .stable := by
      by_contra hout
      rw [hW.eager heager hout] at htp
      cases htp
    obtain ⟨hever, hopen⟩ := hW.stable hstable
    rcases hquiet with hnever | hdone
    · rw [hever] at hnever
      cases hnever
    · rw [hopen] at hdone
      cases hdone
  · rw [if_neg heager] at hassignment hlost
    refine announce_of_out hW h.state (fun hnone => by rw [hassignment, hnone])
      (fun h' => absurd (h.protocol ▸ h') heager) (fun _ tp => by simp [hlost, hassignment])
      (fun _ tp htp => by rw [hassignment]; exact htp)

/-- An eager member that holds nothing, and any cooperative one, is asked to rejoin
and keeps what it has. -/
theorem requestRejoin_keeps {m : GroupMember} (h : m.protocol = .eager → m.assignment = []) :
    m.requestRejoin.state = .unjoined ∧ m.requestRejoin.protocol = m.protocol ∧
      m.requestRejoin.assignment = m.assignment ∧
      (m.lost = [] → m.requestRejoin.lost = []) := by
  unfold GroupMember.requestRejoin
  split
  · have hback := wentBack_revokeAndRejoin m m.memberId
    refine ⟨rfl, hback.protocol, ?_, fun _ => ?_⟩
    · refine hback.assignment.trans ?_
      split
      · next heager => rw [h heager]
      · rfl
    · refine hback.lost.trans ?_
      split
      · next heager => exact h heager
      · rfl
  · next hunjoined => exact ⟨not_not.mp hunjoined, rfl, rfl, id⟩

/-- What the machine hears in a clean step is announced as it should be. -/
theorem Watch.hear {g : Grouped ω} (hW : Watch g.group) (hclean : Clean T g .advance)
    {event : GroupMember.Event} {g₁ : Grouped ω}
    (hex : exchange T g.group.member g = (.ok event, g₁)) :
    Watch (announce { g.group with member := g.group.member.after event }).2 ∧
      ∀ tp, Names (announce { g.group with member := g.group.member.after event }).1 tp ↔
        tp ∈ g.group.member.assignment ∧ tp ∉ (g.group.member.after event).assignment := by
  rcases expects_of_exchange T hex with ⟨-, hout, error, generation, memberId, leaderId, members,
    rfl⟩ | ⟨hsyncing, error, assigned, rfl⟩ | ⟨hstable, error, rfl⟩
  · rcases after_join g.group.member error generation memberId leaderId members with h | h
    · exact announce_of_stillOut hW hout h
    · exact announce_of_wentBack hW h
  · have hheld : error = Codes.none → ∀ tp ∈ g.group.member.assignment, tp ∈ assigned := by
      intro hnone tp htp
      rw [hnone] at hex
      by_cases hcooperative : g.group.member.protocol = .cooperative
      · exact hclean hcooperative assigned g₁ hex tp htp
      · have heager : g.group.member.protocol = .eager := by
          cases hprotocol : g.group.member.protocol with
          | eager => rfl
          | cooperative => exact absurd hprotocol hcooperative
        rw [hW.eager heager (by rw [hsyncing]; exact nofun)] at htp
        cases htp
    rcases after_sync hheld with h | h
    · exact announce_of_settled h
    · exact announce_of_wentBack hW h
  · rcases after_heartbeat error hstable (hW.lost (hW.stable hstable).2) with h | h
    · exact announce_of_settled h
    · exact announce_of_wentBack hW h

/-- One clean drive keeps the flags true, and names exactly what leaves. -/
theorem Watch.exec {g : Grouped ω} (hW : Watch g.group) {drive : Drive}
    (hclean : Clean T g drive) :
    Watch (drive.exec T g).2.group ∧
      ∀ tp, (∃ partitions, (drive.exec T g).1 = some (.ok (.revoked partitions)) ∧
          tp ∈ partitions) ↔
        tp ∈ g.group.member.assignment ∧ tp ∉ (drive.exec T g).2.group.member.assignment := by
  cases drive with
  | requestRejoin =>
      obtain ⟨hstate, hprotocol, hassignment, hlost⟩ := requestRejoin_keeps hclean
      refine ⟨⟨fun h => ?_, fun h => hassignment.trans (hW.never h), fun h _ => ?_,
        fun h => hlost (hW.lost h)⟩, fun tp => ⟨?_, ?_⟩⟩
      · have h : g.group.member.requestRejoin.state = .stable := h
        rw [hstate] at h
        cases h
      · exact hassignment.trans (hclean (hprotocol.symm.trans h))
      · rintro ⟨partitions, heq, -⟩
        cases heq
      · rintro ⟨hheld, hgone⟩
        rw [← hassignment] at hheld
        exact absurd hheld hgone
  | advance =>
      rcases advance_cases T g with ⟨⟨e, hresult⟩, hsame⟩ | ⟨event, g₁, hex, hresult, hgroup⟩
      · have hassignment : (advance T g).2.group.member.assignment = g.group.member.assignment :=
          congrArg (·.member.assignment) hsame
        refine ⟨hW.congr hsame, fun tp => ⟨?_, ?_⟩⟩
        · rintro ⟨partitions, heq, -⟩
          rw [Drive.exec, hresult] at heq
          cases heq
        · rintro ⟨hheld, hgone⟩
          rw [← hassignment] at hheld
          exact absurd hheld hgone
      · obtain ⟨hwatch, hnames⟩ := hW.hear T hclean hex
        have hmember : (advance T g).2.group.member = g.group.member.after event := by
          rw [hgroup]
          dsimp only
          unfold announce
          split_ifs <;> rfl
        refine ⟨hwatch.congr hgroup, fun tp => ?_⟩
        show (∃ partitions, some (advance T g).1 = _ ∧ _) ↔
          _ ∧ tp ∉ (advance T g).2.group.member.assignment
        rw [hresult, hmember, ← hnames tp]
        constructor
        · rintro ⟨partitions, heq, htp⟩
          exact ⟨partitions, Except.ok.inj (Option.some.inj heq), htp⟩
        · rintro ⟨partitions, heq, htp⟩
          exact ⟨partitions, by rw [heq], htp⟩

theorem Fresh.watch {g : Grouped ω} (h : Fresh g) : Watch g.group := by
  obtain ⟨groupId, topics, assignor, sessionTimeoutMs, rebalanceTimeoutMs, heq⟩ := h.made
  rw [heq]
  exact ⟨nofun, fun _ => rfl, fun _ _ => rfl, fun _ => rfl⟩

theorem Watch.stateAt {start : Grouped ω} (hstart : Fresh start) {drives : ℕ → Drive}
    (hclean : ∀ i, Clean T (stateAt T start drives i) (drives i)) (i : ℕ) :
    Watch (stateAt T start drives i).group := by
  induction i with
  | zero => exact hstart.watch
  | succ i ih => exact (ih.exec T (hclean i)).1

/-- **In a run of clean drives every revocation is announced in time**: once, and in
the step in which the partition leaves, so before any later `JoinGroup`. -/
theorem revocation_announced {start : Grouped ω} (hstart : Fresh start) {drives : ℕ → Drive}
    (hclean : ∀ i, Clean T (stateAt T start drives i) (drives i)) {tp : TopicPartition} {i : ℕ}
    (hleaves : LeavesAt T start drives tp i) : ∃ j, AnnouncedIn T start drives tp i j := by
  have hnames : ∀ k, RevokedAt T start drives tp k ↔ LeavesAt T start drives tp k := fun k =>
    ((Watch.stateAt T hstart hclean k).exec T (hclean k)).2 tp
  refine ⟨i, ⟨le_refl i, (hnames i).mpr hleaves, fun k hik hki => ?_, fun k hik hrevoked hfree => ?_⟩⟩
  · omega
  · have hheld : tp ∈ heldAt T start drives k := ((hnames k).mp hrevoked).1
    by_contra hne
    exact hfree k (by omega) (le_refl k) hheld

theorem protocol_exec (g : Grouped ω) (drive : Drive) :
    (drive.exec T g).2.group.member.protocol = g.group.member.protocol := by
  cases drive with
  | requestRejoin => exact GroupMember.protocol_after g.group.member .requestRejoin
  | advance =>
      rcases advance_cases T g with ⟨-, hsame⟩ | ⟨event, g₁, -, -, hgroup⟩
      · exact congrArg (·.member.protocol) hsame
      · refine (congrArg (·.member.protocol) hgroup).trans ?_
        dsimp only
        unfold announce
        split_ifs <;> exact GroupMember.protocol_after g.group.member event

/-- Advancing an eager member is clean. -/
theorem clean_of_eager {start : Grouped ω} (hstart : start.group.member.protocol = .eager) (i : ℕ) :
    Clean T (stateAt T start (fun _ => .advance) i) .advance := by
  have hprotocol : (stateAt T start (fun _ => .advance) i).group.member.protocol = .eager := by
    induction i with
    | zero => exact hstart
    | succ i ih => exact (protocol_exec T _ _).trans ih
  intro hcooperative
  rw [hprotocol] at hcooperative
  cases hcooperative

/-- A member whose coordinator is found, and answers so. -/
def joining (assignor : Assignor) (answers : List Body) : Grouped Tape where
  group := .new "g" ["t"] assignor
  cluster := .new (.of (.apiVersions ⟨0, []⟩ :: .findCoordinator ⟨0, "c", 1⟩ ::
    .apiVersions ⟨0, []⟩ :: answers)) ["b:1"] "client"

theorem fresh_joining (assignor : Assignor) (answers : List Body) :
    Fresh (joining assignor answers) :=
  ⟨"g", ["t"], assignor, _, _, rfl⟩

/-- An eager member loses both its partitions when its heartbeat is refused. -/
def refusedMember : Grouped Tape :=
  joining rangeAssignor [.joinGroup ⟨0, 1, "l", "m", []⟩, .syncGroup ⟨0, [0, 2, 0, 1]⟩,
    .heartbeat 27]

theorem revocation_announced_eager : ∃ j, AnnouncedIn Tape.transport refusedMember
    (fun _ => .advance) ⟨"t", 1⟩ 2 j :=
  revocation_announced Tape.transport (fresh_joining _ _) (clean_of_eager Tape.transport rfl)
    ⟨by decide, by decide⟩

/-- A cooperative member is stable with two partitions, has to rejoin, and is synced to
one of them. -/
def reducedMember : Grouped Tape :=
  joining cooperativeStickyAssignor [.joinGroup ⟨0, 1, "l", "m", []⟩,
    .syncGroup ⟨0, [0, 2, 0, 1]⟩, .heartbeat 27, .joinGroup ⟨0, 2, "l", "m", []⟩,
    .syncGroup ⟨0, [0, 2, 0]⟩, .joinGroup ⟨0, 3, "l", "m", []⟩]

/-- The sync that takes the partition away returns no `Membership::Revoked`, and the
next step sends a `JoinGroup`. -/
theorem reduced_unannounced :
    Fresh reducedMember ∧
      LeavesAt Tape.transport reducedMember (fun _ => .advance) ⟨"t", 1⟩ 4 ∧
      ¬∃ j, AnnouncedIn Tape.transport reducedMember (fun _ => .advance) ⟨"t", 1⟩ 4 j := by
  refine ⟨fresh_joining _ _, ⟨by decide, by decide⟩, ?_⟩
  rintro ⟨j, h⟩
  have hsilent : (Drive.advance.exec Tape.transport
      (stateAt Tape.transport reducedMember (fun _ => .advance) 4)).1.map
        (fun result => result.toOption) = some (some .inProgress) := by
    decide
  have hjoins : JoinsAt Tape.transport reducedMember (fun _ => .advance) 5 := by
    have hkeys : ((stateAt Tape.transport reducedMember (fun _ => .advance) 6).cluster.sent.drop
        (stateAt Tape.transport reducedMember (fun _ => .advance) 5).cluster.sent.length).map
          (·.request.apiKey) = [.joinGroup] := by
      decide
    obtain ⟨frame, hframe, hkey⟩ := List.map_eq_singleton_iff.mp hkeys
    exact ⟨frame, by rw [hframe]; exact List.mem_singleton_self _, hkey⟩
  rcases Nat.eq_or_lt_of_le h.later with rfl | hlater
  · obtain ⟨partitions, heq, -⟩ := h.revoked
    rw [heq] at hsilent
    cases hsilent
  · exact h.inTime 5 (by omega) hlater hjoins

end ClassicProtocol

end Barnabas.Client
