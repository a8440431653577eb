import Barnabas.Client.ConsumerRules

/-!
Whether a consumer stays in its group.

`advance_group` takes the group out of the consumer for every round and puts it
back at the end of it. One exit in between does not: when the committed offsets of
a new assignment cannot be read, the error leaves with the group still out, and the
consumer goes on as one that was never subscribed.
-/

namespace Barnabas.Client

open Barnabas.Lib Barnabas.Core Barnabas.Lib.Act

namespace Consumer

variable {ω : Type} (T : Transport ω)

/-- A consumer in a group stays in it. -/
def Stays (c c' : Consumer ω) : Prop := c.group.isSome → c'.group.isSome

instance : IsPreorder (Consumer ω) Stays where
  refl _ := id
  trans _ _ _ h h' := h' ∘ h

theorem permits_stays : Permits T Cluster.Anyhow (fun _ => True) Stays where
  calls := (Cluster.coordinates_anyhow T).toPermits
  coordinates := Cluster.coordinates_anyhow T
  recv _ _ := trivial
  membership _ _ := trivial
  listOffsets _ _ _ := trivial
  cluster _ _ _ := id
  discardOutstanding := moves_discardOutstanding T (fun _ _ _ => id) fun _ _ => id
  fetch _ _ _ := id
  group _ _ _ _ _ _ _ := rfl
  books _ _ _ := id

/-! ### One round -/

/-- The next round brings an assignment the consumer does not hold yet, and its
committed offsets cannot be read. -/
def Unread (c : Consumer ω) : Prop :=
  ∃ group partitions g e, c.group = some group ∧
    ClassicProtocol.advance T ⟨group, c.cluster⟩ = (.ok (.assigned partitions), g) ∧
    c.holds partitions = false ∧ (ClassicProtocol.committed T partitions g).1 = .error e

theorem unread_iff {c : Consumer ω} {group : ClassicProtocol} {partitions : List TopicPartition}
    {g : Grouped ω} (hgroup : c.group = some group)
    (hadvance : ClassicProtocol.advance T ⟨group, c.cluster⟩ = (.ok (.assigned partitions), g)) :
    Unread T c ↔ c.holds partitions = false ∧
      ∃ e, (ClassicProtocol.committed T partitions g).1 = .error e := by
  constructor
  · rintro ⟨group', partitions', g', e, hgroup', hadvance', hholds, hcommitted⟩
    obtain rfl : group = group' := Option.some.inj (hgroup.symm.trans hgroup')
    cases hadvance.symm.trans hadvance'
    exact ⟨hholds, e, hcommitted⟩
  · rintro ⟨hholds, e, hcommitted⟩
    exact ⟨group, partitions, g, e, hgroup, hadvance, hholds, hcommitted⟩

theorem not_unread {c : Consumer ω} {group : ClassicProtocol} {outcome : Except Error Membership}
    {g : Grouped ω} (hgroup : c.group = some group)
    (hadvance : ClassicProtocol.advance T ⟨group, c.cluster⟩ = (outcome, g))
    (hother : ∀ partitions, outcome ≠ .ok (.assigned partitions)) : ¬Unread T c := by
  rintro ⟨group', partitions, g', e, hgroup', hadvance', -⟩
  obtain rfl : group = group' := Option.some.inj (hgroup.symm.trans hgroup')
  cases hadvance.symm.trans hadvance'
  exact hother partitions rfl

/-- The group is lost in a round if and only if the offsets of a new assignment cannot
be read. What a round does to the consumer depends neither on its number nor on what
has changed before. -/
theorem round_cases {c : Consumer ω} (hgroup : c.group.isSome) :
    ∃ c', (Unread T c ∧ ∃ e, c'.group = none ∧
        ∀ i changed, advanceOnce T i changed c = (.error e, c')) ∨
      ¬Unread T c ∧ c'.group.isSome ∧
        ((∃ e, ∀ i changed, advanceOnce T i changed c = (.error e, c')) ∨
          (∀ i changed, ∃ b, advanceOnce T i changed c = (.ok (.inr (.settled b)), c')) ∨
          ∀ i changed, ∃ b, advanceOnce T i changed c = (.ok (.inl b), c')) := by
  obtain ⟨group, hgroup⟩ := Option.isSome_iff_exists.mp hgroup
  rcases hadvance : ClassicProtocol.advance T ⟨group, c.cluster⟩ with ⟨outcome, g⟩
  have hround := advanceOnce_eq T hgroup hadvance
  let c₁ : Consumer ω := { c with group := none, cluster := g.cluster }
  rcases outcome with e | _ | partitions | lost
  · have hkept := not_unread T hgroup hadvance fun _ h => by cases h
    exact ⟨{ c₁ with group := some g.group }, .inr ⟨hkept, rfl, .inl ⟨e, hround⟩⟩⟩
  · have hkept := not_unread T hgroup hadvance fun _ h => by cases h
    refine ⟨{ c₁ with group := some g.group }, .inr ⟨hkept, rfl, .inr (.inr ?_)⟩⟩
    exact fun i changed => ⟨changed, hround i changed⟩
  · cases hholds : c.holds partitions with
    | true =>
        have hkept : ¬Unread T c := fun h => by
          rw [((unread_iff T hgroup hadvance).mp h).1] at hholds
          cases hholds
        refine ⟨{ c₁ with group := some g.group }, .inr ⟨hkept, rfl, .inr (.inl ?_)⟩⟩
        exact fun i changed => ⟨changed, (hround i changed).trans (follow_held T (c := c₁) hholds _ _)⟩
    | false =>
        rcases hcommitted : ClassicProtocol.committed T partitions g with ⟨e | found, g'⟩
        · have hunread := (unread_iff T hgroup hadvance).mpr ⟨hholds, e, by rw [hcommitted]⟩
          refine ⟨{ c₁ with cluster := g'.cluster }, .inl ⟨hunread, e, rfl, fun i changed => ?_⟩⟩
          exact (hround i changed).trans (follow_unread T (c := c₁) hholds hcommitted changed)
        · have hkept : ¬Unread T c := fun h => by
            obtain ⟨-, e, he⟩ := (unread_iff T hgroup hadvance).mp h
            rw [hcommitted] at he
            cases he
          refine ⟨{ takeAssignment partitions found c₁ with
            group := some g'.group, cluster := g'.cluster }, .inr ⟨hkept, rfl, .inr (.inl ?_)⟩⟩
          intro i changed
          exact ⟨true, (hround i changed).trans (follow_assigned T (c := c₁) hholds hcommitted changed)⟩
  · have hkept := not_unread T hgroup hadvance fun _ h => by cases h
    refine ⟨{ giveUp lost c₁ with group := some g.group }, .inr ⟨hkept, rfl, .inr (.inr ?_)⟩⟩
    exact fun i changed => ⟨_, hround i changed⟩

/-! ### The loop -/

/-- One of the next so many rounds finds a new assignment whose offsets cannot be read,
after rounds that left the member unsettled. -/
def Loses : ℕ → Consumer ω → Prop
  | 0, _ => False
  | left + 1, c => Unread T c ∨
      ∃ b c', advanceOnce T 0 false c = (.ok (.inl b), c') ∧ Loses left c'

/-- The loop of `advanceGroup`, from some round on. -/
theorem attempts_loses (left i : ℕ) (changed : Bool) {c : Consumer ω} (hgroup : c.group.isSome) :
    let outcome := Act.attempts (advanceOnce T) (fun changed => pure (.settled changed)) left i
      changed c
    (Loses T left c ∧ outcome.2.group = none ∧ ∃ e, outcome.1 = .error e) ∨
      (¬Loses T left c ∧ outcome.2.group.isSome ∧
        ∀ result, outcome.1 = .ok result → ∃ b, result = .settled b) := by
  induction left generalizing i changed c with
  | zero =>
      refine .inr ⟨id, hgroup, fun result hresult => ⟨changed, ?_⟩⟩
      cases hresult
      rfl
  | succ left ih =>
      obtain ⟨c', ⟨hunread, e, hnone, hround⟩ | ⟨hkept, hsome, hround⟩⟩ := round_cases T hgroup
      · have hends : Act.attempts (advanceOnce T) (fun changed => pure (.settled changed))
            (left + 1) i changed c = (.error e, c') := bind_of_error (hround i changed)
        rw [hends]
        exact .inl ⟨.inl hunread, hnone, e, rfl⟩
      · rcases hround with ⟨e, hround⟩ | hround | hround
        · have hends : Act.attempts (advanceOnce T) (fun changed => pure (.settled changed))
              (left + 1) i changed c = (.error e, c') := bind_of_error (hround i changed)
          rw [hends]
          refine .inr ⟨?_, hsome, fun result hresult => by cases hresult⟩
          rintro (hunread | ⟨b, c'', hgoesOn, -⟩)
          · exact hkept hunread
          · cases (hround 0 false).symm.trans hgoesOn
        · obtain ⟨b, hsettles⟩ := hround i changed
          have hends : Act.attempts (advanceOnce T) (fun changed => pure (.settled changed))
              (left + 1) i changed c = (.ok (.settled b), c') := bind_of_ok hsettles
          rw [hends]
          refine .inr ⟨?_, hsome, fun result hresult => ⟨b, by cases hresult; rfl⟩⟩
          rintro (hunread | ⟨b', c'', hgoesOn, -⟩)
          · exact hkept hunread
          · obtain ⟨b'', hsettles'⟩ := hround 0 false
            cases hsettles'.symm.trans hgoesOn
        · obtain ⟨b, hgoesOn⟩ := hround i changed
          obtain ⟨b', hgoesOn'⟩ := hround 0 false
          have hrest : Act.attempts (advanceOnce T) (fun changed => pure (.settled changed))
              (left + 1) i changed c =
                Act.attempts (advanceOnce T) (fun changed => pure (.settled changed)) left (i + 1)
                  b c' := bind_of_ok hgoesOn
          have hloses : Loses T (left + 1) c ↔ Loses T left c' := by
            constructor
            · rintro (hunread | ⟨b'', c'', hgoesOn'', hlater⟩)
              · exact absurd hunread hkept
              · cases hgoesOn'.symm.trans hgoesOn''
                exact hlater
            · exact fun hlater => .inr ⟨b', c', hgoesOn', hlater⟩
          rw [hrest, hloses]
          exact ih (i + 1) b hsome

theorem advanceSteps_loses {c : Consumer ω} (hgroup : c.group.isSome) :
    (Loses T maxSteps c ∧ (advanceSteps T c).2.group = none ∧ ∃ e, (advanceSteps T c).1 = .error e) ∨
      (¬Loses T maxSteps c ∧ (advanceSteps T c).2.group.isSome ∧
        ∀ result, (advanceSteps T c).1 = .ok result → ∃ b, result = .settled b) :=
  attempts_loses T maxSteps 0 false hgroup

theorem stays_resolve (unresolved : List (TopicPartition × ℤ)) :
    Moves Stays (resolve T unresolved) := by
  induction unresolved with
  | nil => exact Moves.pure _
  | cons first rest ih =>
      refine Moves.bind ((permits_stays T).listOffset _ _) fun resolved => ?_
      exact Moves.bind (Moves.modify fun _ => id) fun _ => ih

/-- Driving the membership loses the group if and only if a new assignment's offsets
cannot be read, and then fails. -/
theorem advanceGroup_loses {c : Consumer ω} (hgroup : c.group.isSome) :
    (Loses T maxSteps c ∧ (advanceGroup T c).2.group = none ∧ ∃ e, (advanceGroup T c).1 = .error e) ∨
      (¬Loses T maxSteps c ∧ (advanceGroup T c).2.group.isSome) := by
  have hsteps := advanceSteps_loses T hgroup
  rcases hadvance : advanceSteps T c with ⟨e | result, c'⟩
  · rw [hadvance] at hsteps
    rw [advanceGroup, bind_of_error hadvance]
    rcases hsteps with ⟨hloses, hnone, -⟩ | ⟨hkept, hsome, -⟩
    · exact .inl ⟨hloses, hnone, e, rfl⟩
    · exact .inr ⟨hkept, hsome⟩
  · rw [hadvance] at hsteps
    rcases hsteps with ⟨-, -, e, he⟩ | ⟨hkept, hsome, hsettled⟩
    · cases he
    · refine .inr ⟨hkept, ?_⟩
      obtain ⟨b, rfl⟩ := hsettled result rfl
      rw [advanceGroup, bind_of_ok hadvance]
      cases b with
      | false => exact hsome
      | true =>
          have hrest : Moves Stays (do
              modify onFetchSetChanged
              let c ← get
              resolve T c.unresolved
              pure true : Act (Consumer ω) Error Bool) := by
            refine Moves.bind (Moves.modify fun _ => id) fun _ => Moves.bind Moves.get fun c => ?_
            exact Moves.bind (stays_resolve T _) fun _ => Moves.pure _
          exact hrest c' hsome

/-! ### The calls that drive the membership -/

theorem stays_commit : Moves Stays (commit T) := by
  refine Moves.bind (permits_stays T).discardOutstanding fun _ => Moves.bind Moves.get fun c => ?_
  exact (permits_stays T).onGroup _ (ClassicProtocol.via_commit (Cluster.coordinates_anyhow T)
    fun _ _ _ _ _ => trivial)

variable (D : Decoders)

/-- What `poll` does once the membership is settled. -/
theorem stays_fetching : Moves Stays (do
    let c ← get
    if c.fetchable = [] then pure []
    else do
      let answers ← collect T
      let out ← absorb D answers []
      startPrefetch T
      handOver out : Act (Consumer ω) Error (List ConsumerRecords)) := by
  have hsend : ∀ c byBroker, Stays c (sendFetches T (c.planned byBroker) [] c).2 := fun c byBroker =>
    (permits_stays T).sendFetches (fun _ _ _ => trivial) [] c
  refine Moves.bind Moves.get fun c => Moves.ite (Moves.pure _) ?_
  refine Moves.bind ((permits_stays T).collect hsend) fun answers => ?_
  refine Moves.bind (moves_absorb D (fun _ _ _ => id) (fun _ _ => id) answers []) fun out => ?_
  refine Moves.bind ((permits_stays T).startPrefetch hsend) fun _ => ?_
  exact Moves.bind (Moves.modify fun _ => id) fun _ => Moves.pure _

/-- What a poll does before it advances the membership. -/
def beforeAdvance : Act (Consumer ω) Error Unit := do
  checkForExpansion T
  maybeAutoCommit T

theorem stays_beforeAdvance : Moves Stays (beforeAdvance T) :=
  Moves.bind (permits_stays T).checkForExpansion fun _ =>
    (permits_stays T).maybeAutoCommit (stays_commit T)

/-- A poll fails before it advances the membership, and the consumer is in its group;
or it advances from the state that leaves, and loses the group there or not at all. -/
theorem poll_loses {c : Consumer ω} (hgroup : c.group.isSome) :
    ((∃ e, (beforeAdvance T c).1 = .error e) ∧ (poll T D c).2.group.isSome) ∨
      ∃ c₁, beforeAdvance T c = (.ok (), c₁) ∧
        ((Loses T maxSteps c₁ ∧ (poll T D c).2.group = none ∧ ∃ e, (poll T D c).1 = .error e) ∨
          (¬Loses T maxSteps c₁ ∧ (poll T D c).2.group.isSome)) := by
  have hbefore := stays_beforeAdvance T c hgroup
  have hchecked := (permits_stays T).checkForExpansion c hgroup
  rcases hcheck : checkForExpansion T c with ⟨e | _, c₁⟩
  · have hfails : beforeAdvance T c = (.error e, c₁) := bind_of_error hcheck
    have hpoll : poll T D c = (.error e, c₁) := bind_of_error (bind_of_error hcheck)
    rw [hfails] at hbefore ⊢
    rw [hpoll]
    exact .inl ⟨⟨e, rfl⟩, hbefore⟩
  · rw [hcheck] at hchecked
    have hmembership : ∀ {c'}, keepMembership T c = c' → (do
        maybeAutoCommit T
        let changed ← advanceGroup T
        if changed then discardOutstanding T else pure () : Act (Consumer ω) Error Unit) c₁ = c' := by
      rintro c' rfl
      rw [keepMembership, bind_of_ok hcheck, bind_of_ok (get_apply c₁), if_pos hchecked]
    rcases hcommit : maybeAutoCommit T c₁ with ⟨e | _, c₂⟩
    · have hfails : beforeAdvance T c = (.error e, c₂) := (bind_of_ok hcheck).trans hcommit
      have hpoll : poll T D c = (.error e, c₂) :=
        bind_of_error ((hmembership rfl).symm.trans (bind_of_error hcommit))
      rw [hfails] at hbefore ⊢
      rw [hpoll]
      exact .inl ⟨⟨e, rfl⟩, hbefore⟩
    · have hpasses : beforeAdvance T c = (.ok (), c₂) := (bind_of_ok hcheck).trans hcommit
      rw [hpasses] at hbefore
      refine .inr ⟨c₂, hpasses, ?_⟩
      have hadvanced := advanceGroup_loses T hbefore
      rcases hadvance : advanceGroup T c₂ with ⟨e | changed, c₃⟩
      · have hpoll : poll T D c = (.error e, c₃) := bind_of_error ((hmembership rfl).symm.trans
          ((bind_of_ok hcommit).trans (bind_of_error hadvance)))
        rw [hadvance] at hadvanced
        rw [hpoll]
        rcases hadvanced with ⟨hloses, hnone, -⟩ | ⟨hkept, hsome⟩
        · exact .inl ⟨hloses, hnone, e, rfl⟩
        · exact .inr ⟨hkept, hsome⟩
      · rw [hadvance] at hadvanced
        rcases hadvanced with ⟨-, -, e, he⟩ | ⟨hkept, hsome⟩
        · cases he
        · refine .inr ⟨hkept, ?_⟩
          have hkeep : (keepMembership T c).2.group.isSome := by
            rw [← hmembership rfl, bind_of_ok hcommit, bind_of_ok hadvance]
            exact Moves.ite (permits_stays T).discardOutstanding (Moves.pure _) c₃ hsome
          rcases hmember : keepMembership T c with ⟨e | _, c₄⟩
          · rw [hmember] at hkeep
            rw [poll, bind_of_error hmember]
            exact hkeep
          · rw [hmember] at hkeep
            rw [poll, bind_of_ok hmember]
            exact stays_fetching T D c₄ hkeep

/-- A heartbeat or a poll of a subscribed consumer that fails leaves it in its group,
if and only if no `OffsetFetch` for a new assignment fails in it. -/
theorem group_kept {c : Consumer ω} (hgroup : c.group.isSome) :
    ((∀ e, (heartbeat T c).1 = .error e → (heartbeat T c).2.group.isSome) ↔
        ¬Loses T maxSteps c) ∧
      ((∀ e, (poll T D c).1 = .error e → (poll T D c).2.group.isSome) ↔
        ∀ c₁, beforeAdvance T c = (.ok (), c₁) → ¬Loses T maxSteps c₁) := by
  refine ⟨?_, ?_⟩
  · have hheartbeat : heartbeat T c = advanceGroup T c := by
      rw [heartbeat, bind_of_ok (get_apply c), if_neg]
      rw [Option.isNone_iff_eq_none, ← Option.not_isSome_iff_eq_none]
      exact fun h => h hgroup
    rw [hheartbeat]
    rcases advanceGroup_loses T hgroup with ⟨hloses, hnone, e, he⟩ | ⟨hkept, hsome⟩
    · refine iff_of_false (fun h => ?_) (fun h => h hloses)
      have hsome := h e he
      rw [hnone] at hsome
      cases hsome
    · exact iff_of_true (fun _ _ => hsome) hkept
  · rcases poll_loses T D hgroup with ⟨⟨e, he⟩, hsome⟩ | ⟨c₁, hbefore, hcases⟩
    · refine iff_of_true (fun _ _ => hsome) fun c₁ hbefore => ?_
      rw [hbefore] at he
      cases he
    · rcases hcases with ⟨hloses, hnone, e, he⟩ | ⟨hkept, hsome⟩
      · refine iff_of_false (fun h => ?_) (fun h => h c₁ hbefore hloses)
        have hsome := h e he
        rw [hnone] at hsome
        cases hsome
      · refine iff_of_true (fun _ _ => hsome) fun c₂ hbefore' => ?_
        cases hbefore.symm.trans hbefore'
        exact hkept

/-- A consumer that has just subscribed; the coordinator lets it join, hands it one
partition, and answers so to what comes then. -/
def subscribed (answers : List Body) : Consumer Tape :=
  (subscribe Tape.transport "g" ["t"] rangeAssignor earliest (fromCluster (.new
    (.of ([.apiVersions ⟨0, []⟩, .metadata ⟨[], 0, []⟩, .findCoordinator ⟨0, "c", 1⟩,
      .apiVersions ⟨0, []⟩, .joinGroup ⟨0, 1, "l", "m", []⟩, .syncGroup ⟨0, [0, 2, 0]⟩] ++ answers))
    ["b:1"] "client") .readCommitted)).2

theorem group_kept_subscribed :
    (subscribed []).group.isSome ∧
      ((∀ e, (heartbeat Tape.transport (subscribed [])).1 = .error e →
          (heartbeat Tape.transport (subscribed [])).2.group.isSome) ↔
        ¬Loses Tape.transport maxSteps (subscribed [])) :=
  ⟨rfl, (group_kept Tape.transport plainDecoders rfl).1⟩

/-- The coordinator is still loading when the offsets of the new assignment are asked
for. The poll fails, and the consumer is in no group. -/
theorem group_dropped :
    (subscribed [.offsetFetch ⟨14, []⟩]).group.isSome ∧
      (poll Tape.transport plainDecoders (subscribed [.offsetFetch ⟨14, []⟩])).1 =
        .error (.broker "OffsetFetch" 14 .retry) ∧
      (poll Tape.transport plainDecoders (subscribed [.offsetFetch ⟨14, []⟩])).2.group.isNone := by
  decide +kernel

end Consumer

end Barnabas.Client
