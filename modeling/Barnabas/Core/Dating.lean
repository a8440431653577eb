import Barnabas.Core.Member

/-!
How a cooperative member dates its claims.

A join rewrites the generation and a sync rewrites what is owned. Between the two the
member still holds what an earlier generation gave it, and if the sync is refused it
claims that under the later one. The same goes for the member id: a cooperative member
that loses its id, or is offered another, goes on claiming what it held under the
first.
-/

namespace Barnabas.Core.GroupMember

open Barnabas.Lib

/-- What is owned, since which generation and under which id. -/
structure Claim where
  generation : ℤ
  memberId : String
  partitions : List TopicPartition
  deriving DecidableEq, Repr

/-- What the subscription says of what is owned. -/
def claim (m : GroupMember) : Claim :=
  ⟨m.subscription.generation, m.subscription.memberId, m.subscription.owned⟩

/-- A member, and the last assignment that a successful `SyncGroup` delivered to it. -/
structure Dated where
  member : GroupMember
  delivered : Option Claim
  deriving DecidableEq, Repr

namespace Dated

/-- What the last delivery is after an event. -/
def deliver (s : Dated) : Event → Option Claim
  | .sync error assigned =>
      if error = Codes.none then
        some ⟨s.member.generation, s.member.memberId, StickyAssignor.sortPartitions assigned⟩
      else s.delivered
  | _ => s.delivered

def step (s : Dated) (e : Event) : Dated := ⟨s.member.after e, s.deliver e⟩

/-- A member after a run, with the last delivery of the run. -/
def ofRun (start : GroupMember) (events : List Event) : Dated := run step ⟨start, none⟩ events

theorem ofRun_member (start : GroupMember) (events : List Event) :
    (ofRun start events).member = reached start events := by
  induction events using List.reverseRecOn with
  | nil => rfl
  | append_singleton events e ih =>
      rw [ofRun, run_concat, reached, run_concat]
      exact congrArg (·.after e) ih

/-- The subscription that is sent next, if one is, claims nothing or what was delivered
last, under the generation and the id it was delivered in. -/
def Truthful (s : Dated) : Prop :=
  (∃ id, s.member.step = .join id) → s.member.subscription.owned ≠ [] →
    s.delivered = some s.member.claim

/-- The event leaves the claim of a member that owns something as it was delivered:
nothing but the sync ends a round that has a new generation, and the member keeps its
id. -/
def Keeps (s : Dated) (e : Event) : Prop :=
  ∀ d, s.delivered = some d → s.member.assignment ≠ [] →
    match e with
    | .join error _ memberId _ _ =>
        (error = Codes.memberIdRequired → memberId = d.memberId) ∧
          (Codes.Fences error → d.memberId = "")
    | .sync error _ => error ≠ Codes.none → s.member.generation = d.generation ∧
        (if Codes.Fences error then "" else s.member.memberId) = d.memberId
    | .heartbeat error => Codes.Fences error → d.memberId = ""
    | .setTopics topics => topics ≠ s.member.topics → s.member.state = .syncing →
        s.member.generation = d.generation ∧ s.member.memberId = d.memberId
    | .requestRejoin => s.member.state = .syncing →
        s.member.generation = d.generation ∧ s.member.memberId = d.memberId
    | .leave => (s.member.state = .syncing → s.member.generation = d.generation) ∧ d.memberId = ""

/-! ### One event -/

/-- What is owned was delivered; outside of a round, under this generation and id. -/
structure Sound (s : Dated) : Prop where
  cooperative : s.member.protocol = .cooperative
  held : s.member.assignment ≠ [] →
    ∃ d, s.delivered = some d ∧ d.partitions = s.member.assignment
  dated : s.member.state ≠ .syncing → s.member.assignment ≠ [] →
    s.delivered = some s.member.claim

variable {s : Dated} {e : Event}

theorem not_syncing_of_step {m : GroupMember} {id : String} (h : m.step = .join id) :
    m.state ≠ .syncing := by
  intro hsyncing
  rw [GroupMember.step, hsyncing] at h
  dsimp only at h
  split at h <;> cases h

theorem Sound.truthful (h : s.Sound) : s.Truthful := by
  rintro ⟨id, hid⟩ howned
  exact h.dated (not_syncing_of_step hid) howned

/-- The event sends the member back to the start, with what it owned and under the
given id. -/
structure Back (m : GroupMember) (e : Event) (id : String) : Prop where
  state : (m.after e).state = .unjoined
  assignment : (m.after e).assignment = m.assignment
  generation : (m.after e).generation = m.generation
  memberId : (m.after e).memberId = id

/-- Then the claim is truthful exactly if the date and the id are those of the
delivery. -/
theorem Sound.back (h : s.Sound) {id : String} (hback : Back s.member e id)
    (hdeliver : s.deliver e = s.delivered) {P : Claim → Prop}
    (hP : ∀ d, s.delivered = some d → s.member.assignment ≠ [] →
      (P d ↔ s.member.generation = d.generation ∧ id = d.memberId)) :
    ((s.step e).Truthful ↔ ∀ d, s.delivered = some d → s.member.assignment ≠ [] → P d) ∧
      ((s.step e).Truthful → (s.step e).Sound) := by
  have hclaim : (s.member.after e).claim =
      ⟨s.member.generation, id, s.member.assignment⟩ := by
    exact congr (congr (congrArg _ hback.generation) hback.memberId) hback.assignment
  have hjoins : ∃ id, (s.member.after e).step = .join id :=
    ⟨(s.member.after e).memberId, by rw [GroupMember.step, hback.state]⟩
  have howned : (s.member.after e).assignment ≠ [] ↔ s.member.assignment ≠ [] := by
    rw [hback.assignment]
  refine ⟨⟨fun htrue d hd hne => ?_, fun hkeeps _ hne => ?_⟩, fun htrue => ?_⟩
  · have heq : s.deliver e = some (s.member.after e).claim := htrue hjoins (howned.mpr hne)
    rw [hdeliver, hd, hclaim] at heq
    obtain rfl := Option.some.inj heq
    exact (hP _ hd hne).mpr ⟨rfl, rfl⟩
  · have hne := howned.mp hne
    obtain ⟨d, hd, hpartitions⟩ := h.held hne
    obtain ⟨hg, hid⟩ := (hP d hd hne).mp (hkeeps d hd hne)
    show s.deliver e = some (s.member.after e).claim
    rw [hdeliver, hd, hclaim, hg, hid, ← hpartitions]
  · exact ⟨(protocol_after _ _).trans h.cooperative, fun hne => ⟨_, htrue hjoins hne, rfl⟩,
      fun _ hne => htrue hjoins hne⟩

theorem back_revokeAndRejoin {m m' : GroupMember} (hafter : m.after e = m'.revokeAndRejoin)
    (hprotocol : m'.protocol = .cooperative) (hassignment : m'.assignment = m.assignment)
    (hgeneration : m'.generation = m.generation) : Back m e m'.memberId := by
  have hkept : m'.revokeAndRejoin.assignment = m'.assignment ∧
      m'.revokeAndRejoin.generation = m'.generation := by
    rw [revokeAndRejoin, hprotocol]
    exact ⟨rfl, rfl⟩
  refine ⟨?_, ?_, ?_, ?_⟩
  · rw [hafter, state_revokeAndRejoin]
  · rw [hafter, hkept.1, hassignment]
  · rw [hafter, hkept.2, hgeneration]
  · rw [hafter, memberId_revokeAndRejoin]

theorem back_refused {m : GroupMember} (hprotocol : m.protocol = .cooperative) {error : ℤ}
    (hafter : m.after e = (m.onRefused error).2) :
    Back m e (if Codes.Fences error then "" else m.memberId) := by
  rw [onRefused_snd] at hafter
  split at hafter
  · next hfences =>
      rw [if_pos hfences]
      exact back_revokeAndRejoin hafter hprotocol rfl rfl
  · next hfences =>
      rw [if_neg hfences]
      exact back_revokeAndRejoin hafter hprotocol rfl rfl

theorem back_join {m : GroupMember} (hprotocol : m.protocol = .cooperative) {error generation : ℤ}
    {memberId leaderId : String} {members : List Subscription} (hnone : error ≠ Codes.none) :
    Back m (.join error generation memberId leaderId members)
      (if error = Codes.memberIdRequired then memberId
        else if Codes.Fences error then "" else m.memberId) := by
  have hafter : m.after (.join error generation memberId leaderId members) =
      (m.onJoin error generation memberId leaderId members).2 := rfl
  rw [onJoin, if_neg hnone] at hafter
  split_ifs at hafter ⊢
  · exact ⟨by rw [hafter], by rw [hafter], by rw [hafter], by rw [hafter]⟩
  · exact back_revokeAndRejoin hafter hprotocol rfl rfl
  · exact ⟨by rw [hafter], by rw [hafter], by rw [hafter], by rw [hafter]⟩
  · exact back_revokeAndRejoin hafter hprotocol rfl rfl

/-- An event that changes neither what is owned nor how it is dated. -/
theorem Sound.stay (h : s.Sound) (hafter : s.member.after e = s.member)
    (hdeliver : s.deliver e = s.delivered) : (s.step e).Sound := by
  rw [step, hafter, hdeliver]
  exact h

/-- Outside of a round, the date is that of the delivery. -/
theorem Sound.date (h : s.Sound) (hstate : s.member.state ≠ .syncing) {d : Claim}
    (hd : s.delivered = some d) (howned : s.member.assignment ≠ []) :
    s.member.generation = d.generation ∧ s.member.memberId = d.memberId := by
  have hclaim := h.dated hstate howned
  rw [hd] at hclaim
  obtain rfl := Option.some.inj hclaim
  exact ⟨rfl, rfl⟩

theorem Sound.round (h : s.Sound) {d : Claim} (hd : s.delivered = some d)
    (howned : s.member.assignment ≠ [])
    (hround : s.member.state = .syncing →
      s.member.generation = d.generation ∧ s.member.memberId = d.memberId) :
    s.member.generation = d.generation ∧ s.member.memberId = d.memberId := by
  by_cases hsyncing : s.member.state = .syncing
  · exact hround hsyncing
  · exact h.date hsyncing hd howned

/-- A successful join begins a round: the claim is not sent again before it is over. -/
theorem Sound.joined (h : s.Sound) (answer : JoinAnswer) : (s.step answer.event).Sound := by
  have hafter : s.member.after answer.event = s.member.joined answer := onJoin_none s.member answer
  have hstep : s.step answer.event = ⟨s.member.joined answer, s.delivered⟩ := by
    rw [step, hafter]
    rfl
  rw [hstep]
  exact ⟨h.cooperative, h.held, fun hsyncing => absurd rfl hsyncing⟩

/-- A successful sync delivers what is owned from then on. -/
theorem Sound.synced (h : s.Sound) (assigned : List TopicPartition) :
    (s.step (.sync Codes.none assigned)).Sound := by
  have hclaim : (s.member.after (.sync Codes.none assigned)).claim =
      ⟨s.member.generation, s.member.memberId, StickyAssignor.sortPartitions assigned⟩ := by
    show (s.member.onSync Codes.none assigned).2.claim = _
    rw [onSync, if_pos rfl]
    dsimp only
    split <;> rfl
  have hdelivered : (s.step (.sync Codes.none assigned)).delivered =
      some (s.step (.sync Codes.none assigned)).member.claim := by
    show s.deliver (.sync Codes.none assigned) = some (s.member.after (.sync Codes.none assigned)).claim
    rw [hclaim, deliver, if_pos rfl]
  exact ⟨(protocol_after _ _).trans h.cooperative, fun _ => ⟨_, hdelivered, rfl⟩,
    fun _ _ => hdelivered⟩

/-- **One event.** It leaves a truthful claim exactly if it keeps the date. -/
theorem Sound.step (h : s.Sound) (he : s.member.Expects e) :
    ((s.step e).Truthful ↔ s.Keeps e) ∧ ((s.step e).Truthful → (s.step e).Sound) := by
  have hsound : (s.step e).Sound → s.Keeps e →
      ((s.step e).Truthful ↔ s.Keeps e) ∧ ((s.step e).Truthful → (s.step e).Sound) :=
    fun hsound hkeeps => ⟨⟨fun _ => hkeeps, fun _ => hsound.truthful⟩, fun _ => hsound⟩
  cases e with
  | join error generation memberId leaderId members =>
      obtain ⟨id, hid⟩ := he
      by_cases hnone : error = Codes.none
      · subst hnone
        refine hsound (h.joined ⟨generation, memberId, leaderId, members⟩) fun d _ _ => ?_
        exact ⟨fun hrequired => absurd hrequired (by decide),
          fun hfences => absurd hfences (by decide)⟩
      · refine h.back (back_join h.cooperative hnone) rfl fun d hd howned => ?_
        obtain ⟨hg, hid⟩ := h.date (not_syncing_of_step hid) hd howned
        by_cases hrequired : error = Codes.memberIdRequired
        · have hfences : ¬Codes.Fences error := by rw [hrequired]; decide
          rw [if_pos hrequired]
          exact ⟨fun hkeeps => ⟨hg, hkeeps.1 hrequired⟩,
            fun hdate => ⟨fun _ => hdate.2, fun hf => absurd hf hfences⟩⟩
        rw [if_neg hrequired]
        by_cases hfences : Codes.Fences error
        · rw [if_pos hfences]
          exact ⟨fun hkeeps => ⟨hg, (hkeeps.2 hfences).symm⟩,
            fun hdate => ⟨fun hr => absurd hr hrequired, fun _ => hdate.2.symm⟩⟩
        · rw [if_neg hfences]
          exact ⟨fun _ => ⟨hg, hid⟩,
            fun _ => ⟨fun hr => absurd hr hrequired, fun hf => absurd hf hfences⟩⟩
  | sync error assigned =>
      by_cases hnone : error = Codes.none
      · subst hnone
        exact hsound (h.synced assigned) fun d _ _ hne => absurd rfl hne
      · have hafter : s.member.after (.sync error assigned) = (s.member.onRefused error).2 := by
          show (s.member.onSync error assigned).2 = _
          rw [onSync, if_neg hnone]
        refine h.back (back_refused h.cooperative hafter) (if_neg hnone) fun d hd howned => ?_
        simp [hnone]
  | heartbeat error =>
      have hstable : s.member.state = .stable := he
      by_cases hnone : error = Codes.none
      · subst hnone
        refine hsound (h.stay (by simp [GroupMember.after, handle, onHeartbeat]) rfl) fun d _ _ hfences => ?_
        exact absurd hfences (by decide)
      · have hafter : s.member.after (.heartbeat error) = (s.member.onRefused error).2 := by
          show (s.member.onHeartbeat error).2 = _
          rw [onHeartbeat, if_neg hnone]
        refine h.back (back_refused h.cooperative hafter) rfl fun d hd howned => ?_
        obtain ⟨hg, hid⟩ := h.date (by rw [hstable]; decide) hd howned
        by_cases hfences : Codes.Fences error
        · rw [if_pos hfences]
          exact ⟨fun hkeeps => ⟨hg, (hkeeps hfences).symm⟩, fun hdate _ => hdate.2.symm⟩
        · rw [if_neg hfences]
          exact ⟨fun _ => ⟨hg, hid⟩, fun _ hf => absurd hf hfences⟩
  | setTopics topics =>
      by_cases htopics : topics ≠ s.member.topics
      · have hafter : s.member.after (.setTopics topics) =
            { s.member with topics }.revokeAndRejoin := if_pos htopics
        refine h.back (back_revokeAndRejoin hafter h.cooperative rfl rfl) rfl fun d hd howned => ?_
        exact ⟨fun hkeeps => h.round hd howned (hkeeps htopics), fun hdate _ _ => hdate⟩
      · exact hsound (h.stay (if_neg htopics) rfl) fun d _ _ hne => absurd hne htopics
  | requestRejoin =>
      by_cases hstate : s.member.state ≠ .unjoined
      · have hafter : s.member.after .requestRejoin = s.member.revokeAndRejoin := if_pos hstate
        refine h.back (back_revokeAndRejoin hafter h.cooperative rfl rfl) rfl fun d hd howned => ?_
        exact ⟨h.round hd howned, fun hdate _ => hdate⟩
      · refine hsound (h.stay (if_neg hstate) rfl) fun d _ _ hsyncing => ?_
        exact absurd (not_not.mp hstate) (by rw [hsyncing]; decide)
  | leave =>
      have hafter : s.member.after .leave = { s.member with memberId := "" }.revokeAndRejoin := rfl
      refine h.back (back_revokeAndRejoin hafter h.cooperative rfl rfl) rfl fun d hd howned => ?_
      constructor
      · rintro ⟨hround, hid⟩
        refine ⟨?_, hid.symm⟩
        by_cases hsyncing : s.member.state = .syncing
        · exact hround hsyncing
        · exact (h.date hsyncing hd howned).1
      · exact fun hdate => ⟨fun _ => hdate.1, hdate.2.symm⟩

/-! ### Whole runs -/

theorem sound_new (groupId : String) (topics : List String) :
    Sound ⟨new groupId topics .cooperative, none⟩ :=
  ⟨rfl, fun howned => absurd rfl howned, fun _ howned => absurd rfl howned⟩

/-- **A cooperative member dates its claims truthfully as long as every event keeps the
date, and no longer.** -/
theorem truthful_iff (groupId : String) (topics : List String) (events : List Event)
    (h : Driven (new groupId topics .cooperative) events) :
    let start := new groupId topics .cooperative
    (∀ pre, pre <+: events → (ofRun start pre).Truthful) ↔
      ∀ pre e, pre ++ [e] <+: events → (ofRun start pre).Keeps e := by
  intro start
  have hstep : ∀ pre e, pre ++ [e] <+: events → (ofRun start pre).Sound →
      ((ofRun start (pre ++ [e])).Truthful ↔ (ofRun start pre).Keeps e) ∧
        ((ofRun start (pre ++ [e])).Truthful → (ofRun start (pre ++ [e])).Sound) := by
    intro pre e hpre hsound
    rw [ofRun, run_concat]
    refine hsound.step ?_
    rw [ofRun_member]
    exact h pre e hpre
  have hall : (∀ pre e, pre ++ [e] <+: events → (ofRun start pre).Sound →
      (ofRun start (pre ++ [e])).Sound) → ∀ pre, pre <+: events → (ofRun start pre).Sound := by
    intro hnext pre
    induction pre using List.reverseRecOn with
    | nil => exact fun _ => sound_new groupId topics
    | append_singleton pre e ih =>
        exact fun hpre => hnext pre e hpre (ih ((List.prefix_append pre [e]).trans hpre))
  constructor
  · intro htrue
    have hsound := hall fun pre e hpre hsound => (hstep pre e hpre hsound).2 (htrue _ hpre)
    intro pre e hpre
    exact (hstep pre e hpre (hsound pre ((List.prefix_append pre [e]).trans hpre))).1.mp
      (htrue _ hpre)
  · intro hkeeps
    have hsound := hall fun pre e hpre hsound =>
      (hstep pre e hpre hsound).2 ((hstep pre e hpre hsound).1.mpr (hkeeps pre e hpre))
    exact fun pre hpre => (hsound pre hpre).truthful

/-- A member that holds a partition since the first generation, joins the second, and
whose sync is refused because the group has moved on. -/
def refusedSync : List Event :=
  [.join 0 1 "a" "b" [], .sync 0 [⟨"t", 0⟩], .heartbeat Codes.rebalanceInProgress,
    .join 0 2 "a" "b" [], .sync Codes.rebalanceInProgress []]

theorem driven_refusedSync : Driven (new "g" ["t"] .cooperative) refusedSync := by
  refine forall_position fun i hi => ?_
  have hlen : i < 5 := hi
  interval_cases i
  · exact ⟨"", rfl⟩
  · exact rfl
  · exact rfl
  · exact ⟨"a", rfl⟩
  · exact rfl

/-- It claims under the second generation what the first one gave it. -/
theorem claim_postdated :
    Driven (new "g" ["t"] .cooperative) refusedSync ∧
      (reached (new "g" ["t"] .cooperative) refusedSync).step = .join "a" ∧
      (reached (new "g" ["t"] .cooperative) refusedSync).subscription =
        ⟨"a", ["t"], [⟨"t", 0⟩], 2⟩ ∧
      (ofRun (new "g" ["t"] .cooperative) refusedSync).delivered = some ⟨1, "a", [⟨"t", 0⟩]⟩ ∧
      ¬(ofRun (new "g" ["t"] .cooperative) refusedSync).Truthful := by
  refine ⟨driven_refusedSync, by decide, by decide, by decide, fun h => ?_⟩
  exact absurd (h ⟨"a", rfl⟩ (by decide)) (by decide)

/-- If the second sync succeeds, every claim of the run is dated rightly. -/
theorem truthful_iff_twoRounds :
    let events := refusedSync.take 4 ++ [.sync 0 [⟨"t", 0⟩], .heartbeat Codes.rebalanceInProgress]
    (ofRun (new "g" ["t"] .cooperative) events).Truthful ∧
      (ofRun (new "g" ["t"] .cooperative) events).member.subscription.owned = [⟨"t", 0⟩] := by
  intro events
  have hdriven : Driven (new "g" ["t"] .cooperative) events := by
    refine forall_position fun i hi => ?_
    have hlen : i < 6 := hi
    interval_cases i
    · exact ⟨"", rfl⟩
    · exact rfl
    · exact rfl
    · exact ⟨"a", rfl⟩
    · exact rfl
    · exact rfl
  refine ⟨(truthful_iff "g" ["t"] events hdriven).mpr (forall_position fun i hi => ?_) events
    (List.prefix_refl events), by decide⟩
  have hlen : i < 6 := hi
  interval_cases i
  · exact nofun
  · exact nofun
  · exact fun d _ _ hfences => absurd hfences (by decide)
  · exact fun d _ _ => ⟨fun hrequired => absurd hrequired (by decide),
      fun hfences => absurd hfences (by decide)⟩
  · exact fun d _ _ hne => absurd rfl hne
  · exact fun d _ _ hfences => absurd hfences (by decide)

end Dated

end Barnabas.Core.GroupMember
