import Barnabas.Client.Enrolment

/-!
What a new assignment does to the partitions a consumer has.

`advance_group` works through the rounds of the group's protocol. A revocation takes
partitions away one by one, with the pauses on them. A new assignment replaces the
whole map: it drops the partitions that it does not name, and leaves the pauses on
them; and it starts the ones it does name over again, also those that the consumer was
reading all along.
-/

namespace Barnabas.Client

open Barnabas.Lib Barnabas.Core Barnabas.Lib.Act

namespace Consumer

variable {ω : Type}

/-! ### Giving up -/

theorem getElem?_foldl_erase (lost : List TopicPartition) (positions : PartitionMap ℤ)
    (tp : TopicPartition) :
    (lost.foldl (fun positions tp => positions.erase tp) positions)[tp]? =
      if tp ∈ lost then none else positions[tp]? := by
  induction lost generalizing positions with
  | nil => simp
  | cons first rest ih =>
      rw [List.foldl_cons, ih, Std.TreeMap.getElem?_erase]
      by_cases hrest : tp ∈ rest
      · simp [hrest]
      · by_cases hfirst : tp = first
        · simp [hfirst]
        · have hne : compare first tp ≠ .eq := fun h =>
            hfirst (Std.LawfulEqCmp.eq_of_compare h).symm
          simp [hrest, hfirst, hne]

theorem mem_foldl_erase (lost : List TopicPartition) (paused : Std.TreeSet TopicPartition)
    (tp : TopicPartition) :
    tp ∈ lost.foldl (fun paused tp => paused.erase tp) paused ↔ tp ∈ paused ∧ tp ∉ lost := by
  induction lost generalizing paused with
  | nil => simp
  | cons first rest ih =>
      rw [List.foldl_cons, ih, Std.TreeSet.mem_erase, ne_eq, Std.LawfulEqCmp.compare_eq_iff_eq,
        List.mem_cons, not_or]
      constructor
      · rintro ⟨⟨hne, hmem⟩, hrest⟩
        exact ⟨hmem, fun h => hne h.symm, hrest⟩
      · rintro ⟨hmem, hne, hrest⟩
        exact ⟨⟨fun h => hne h.symm, hmem⟩, hrest⟩

/-- Partitions were given up, and the pauses on them. -/
structure Trimmed (c c' : Consumer ω) : Prop where
  positions : ∀ (tp : TopicPartition) offset, c'.positions[tp]? = some offset →
    c.positions[tp]? = some offset
  paused : ∀ tp, tp ∈ c'.paused → tp ∈ c.paused
  ended : ∀ tp, tp ∈ c.positions → tp ∉ c'.positions → tp ∉ c'.paused
  reset : c'.reset = c.reset

theorem Trimmed.mem {c c' : Consumer ω} (h : Trimmed c c') {tp : TopicPartition}
    (htp : tp ∈ c'.positions) : tp ∈ c.positions := by
  rw [Std.TreeMap.mem_iff_isSome_getElem?, Option.isSome_iff_exists] at htp ⊢
  obtain ⟨offset, hoffset⟩ := htp
  exact ⟨offset, h.positions tp offset hoffset⟩

instance : IsPreorder (Consumer ω) Trimmed where
  refl _ := ⟨fun _ _ h => h, fun _ h => h, fun _ h h' => absurd h h', rfl⟩
  trans c c' c'' h h' := by
    refine ⟨fun tp offset ho => h.positions tp offset (h'.positions tp offset ho),
      fun tp htp => h.paused tp (h'.paused tp htp), fun tp htp hgone => ?_, h'.reset.trans h.reset⟩
    by_cases hmid : tp ∈ c'.positions
    · exact h'.ended tp hmid hgone
    · exact fun hpaused => h.ended tp htp hmid (h'.paused tp hpaused)

theorem trimmed_giveUp (lost : List TopicPartition) (c : Consumer ω) : Trimmed c (giveUp lost c) where
  positions tp offset h := by
    rw [giveUp, getElem?_foldl_erase] at h
    split at h
    · cases h
    · exact h
  paused tp h := ((mem_foldl_erase lost c.paused tp).mp h).1
  ended tp h hgone hpaused := by
    obtain ⟨-, hkept⟩ := (mem_foldl_erase lost c.paused tp).mp hpaused
    refine hgone ?_
    rw [Std.TreeMap.mem_iff_isSome_getElem?, giveUp, getElem?_foldl_erase, if_neg hkept]
    exact Std.TreeMap.mem_iff_isSome_getElem?.mp h
  reset := rfl

/-! ### A new assignment -/

/-- A new assignment that a round takes: the consumer before the round, the partitions
and their committed offsets, and the consumer after it. -/
structure Handover (ω : Type) where
  before : Consumer ω
  partitions : List TopicPartition
  committed : PartitionMap ℤ
  after : Consumer ω

variable (T : Transport ω)

/-- The new assignment that one of the next so many rounds takes, if one does. -/
def handover : ℕ → Consumer ω → Option (Handover ω)
  | 0, _ => none
  | left + 1, c =>
      match c.group with
      | none => none
      | some group =>
          match ClassicProtocol.advance T ⟨group, c.cluster⟩ with
          | (.error _, _) => none
          | (.ok .inProgress, g) =>
              handover left { c with group := some g.group, cluster := g.cluster }
          | (.ok (.revoked lost), g) =>
              handover left { giveUp lost c with group := some g.group, cluster := g.cluster }
          | (.ok (.assigned partitions), g) =>
              if c.holds partitions then none
              else
                match ClassicProtocol.committed T partitions g with
                | (.error _, _) => none
                | (.ok found, g') =>
                    some ⟨c, partitions, found, { takeAssignment partitions found c with
                      group := some g'.group, cluster := g'.cluster }⟩

/-- What the rounds come to: a new assignment, or nothing but revocations. -/
theorem attempts_handover (left i : ℕ) (changed : Bool) (c : Consumer ω) :
    let outcome := Act.attempts (advanceOnce T) (fun changed => pure (.settled changed)) left i
      changed c
    match handover T left c with
    | none => Trimmed c outcome.2
    | some h => outcome = (.ok (.settled true), h.after) ∧ Trimmed c h.before ∧
        ∃ group cluster, h.after =
          { takeAssignment h.partitions h.committed h.before with group, cluster } := by
  induction left generalizing i changed c with
  | zero => exact refl_of Trimmed c
  | succ left ih =>
      rcases hgroup : c.group with _ | group
      · -- no group, so that the loop ends at once
        have hround : advanceOnce T i changed c = (.ok (.inr (.groupless changed)), c) := by
          rw [advanceOnce, bind_of_ok (get_apply c), hgroup]
          rfl
        have hends : Act.attempts (advanceOnce T) (fun changed => pure (.settled changed))
            (left + 1) i changed c = (.ok (.groupless changed), c) := bind_of_ok hround
        simp only [handover, hgroup, hends]
        exact refl_of Trimmed c
      rcases hadvance : ClassicProtocol.advance T ⟨group, c.cluster⟩ with ⟨outcome, g⟩
      have hround := advanceOnce_eq T hgroup hadvance i changed
      let c₁ : Consumer ω := { c with group := none, cluster := g.cluster }
      have htrimmed : ∀ c' : Consumer ω, c'.positions = c.positions → c'.paused = c.paused →
          c'.reset = c.reset → Trimmed c c' := fun c' hpositions hpaused hreset => by
        refine ⟨fun _ _ h => ?_, fun _ h => ?_, fun _ h h' => ?_, hreset⟩
        · rwa [hpositions] at h
        · rwa [hpaused] at h
        · rw [hpositions] at h'
          exact absurd h h'
      have hfails : ∀ e c', follow T changed g.group outcome c₁ = (.error e, c') →
          Act.attempts (advanceOnce T) (fun changed => pure (.settled changed)) (left + 1) i changed
            c = (.error e, c') := fun e c' heq => bind_of_error (hround.trans heq)
      have hsettles : ∀ b c', follow T changed g.group outcome c₁ = (.ok (.inr (.settled b)), c') →
          Act.attempts (advanceOnce T) (fun changed => pure (.settled changed)) (left + 1) i changed
            c = (.ok (.settled b), c') := fun b c' heq => bind_of_ok (hround.trans heq)
      have hgoesOn : ∀ b c', follow T changed g.group outcome c₁ = (.ok (.inl b), c') →
          Act.attempts (advanceOnce T) (fun changed => pure (.settled changed)) (left + 1) i changed
            c = Act.attempts (advanceOnce T) (fun changed => pure (.settled changed)) left (i + 1)
              b c' := fun b c' heq => bind_of_ok (hround.trans heq)
      rcases outcome with e | _ | partitions | lost
      · simp only [handover, hgroup, hadvance, hfails e { c₁ with group := some g.group } rfl]
        exact htrimmed _ rfl rfl rfl
      · let c₂ : Consumer ω := { c with group := some g.group, cluster := g.cluster }
        have hrest := ih (i + 1) changed c₂
        simp only [handover, hgroup, hadvance, hgoesOn changed c₂ rfl]
        rcases hlater : handover T left c₂ with _ | h
        · rw [hlater] at hrest
          exact trans_of Trimmed (htrimmed c₂ rfl rfl rfl) hrest
        · rw [hlater] at hrest
          exact ⟨hrest.1, trans_of Trimmed (htrimmed c₂ rfl rfl rfl) hrest.2.1, hrest.2.2⟩
      · cases hholds : c.holds partitions with
        | true =>
            have hsame := follow_held T (c := c₁) hholds changed g.group
            simp only [handover, hgroup, hadvance, hholds, hsettles changed _ hsame, if_true]
            exact htrimmed _ rfl rfl rfl
        | false =>
            rcases hcommitted : ClassicProtocol.committed T partitions g with ⟨e | found, g'⟩
            · have hunread := follow_unread T (c := c₁) hholds hcommitted changed
              simp only [handover, hgroup, hadvance, hholds, hcommitted, hfails e _ hunread]
              exact htrimmed _ rfl rfl rfl
            · have htaken := follow_assigned T (c := c₁) hholds hcommitted changed
              simp only [handover, hgroup, hadvance, hholds, hcommitted, hsettles true _ htaken]
              exact ⟨rfl, refl_of Trimmed c, _, _, rfl⟩
      · let c₂ : Consumer ω := { giveUp lost c with group := some g.group, cluster := g.cluster }
        have hrest := ih (i + 1) (changed || !lost.isEmpty) c₂
        have hgiven : Trimmed c c₂ := by
          obtain ⟨hpositions, hpaused, hended, hreset⟩ := trimmed_giveUp lost c
          exact ⟨hpositions, hpaused, hended, hreset⟩
        simp only [handover, hgroup, hadvance, hgoesOn _ c₂ rfl]
        rcases hlater : handover T left c₂ with _ | h
        · rw [hlater] at hrest
          exact trans_of Trimmed hgiven hrest
        · rw [hlater] at hrest
          exact ⟨hrest.1, trans_of Trimmed hgiven hrest.2.1, hrest.2.2⟩

/-- Where a new assignment starts a partition: where the group last committed, or else
where the policy says. -/
def Handover.start (h : Handover ω) (tp : TopicPartition) : ℤ :=
  h.committed.getD tp h.before.reset

theorem getElem?_takeAssignment (partitions : List TopicPartition) (committed : PartitionMap ℤ)
    (c : Consumer ω) (tp : TopicPartition) :
    (takeAssignment partitions committed c).positions[tp]? =
      if tp ∈ partitions then some (committed.getD tp c.reset) else none := by
  have hfold : ∀ (partitions : List TopicPartition) (positions : PartitionMap ℤ),
      (partitions.foldl (fun positions tp =>
        positions.insert tp (committed.getD tp c.reset)) positions)[tp]? =
          if tp ∈ partitions then some (committed.getD tp c.reset) else positions[tp]? := by
    intro partitions
    induction partitions with
    | nil => simp
    | cons first rest ih =>
        intro positions
        rw [List.foldl_cons, ih, Std.TreeMap.getElem?_insert]
        by_cases hrest : tp ∈ rest
        · simp [hrest]
        · by_cases hfirst : first = tp
          · simp [hfirst]
          · have hne : compare first tp ≠ .eq := fun h => hfirst (Std.LawfulEqCmp.eq_of_compare h)
            have hne' : ¬tp = first := fun h => hfirst h.symm
            simp [hrest, hne, hne']
  rw [takeAssignment, hfold]
  simp

/-! ### What leaves partitions and pauses alone -/

/-- The same partitions, with the same pauses. -/
structure Same (c c' : Consumer ω) : Prop where
  positions : ∀ tp, tp ∈ c'.positions ↔ tp ∈ c.positions
  paused : c'.paused = c.paused

instance : IsPreorder (Consumer ω) Same where
  refl _ := ⟨fun _ => Iff.rfl, rfl⟩
  trans _ _ _ h h' := ⟨fun tp => (h'.positions tp).trans (h.positions tp),
    h'.paused.trans h.paused⟩

/-- No partition is given up. -/
def Grown (c c' : Consumer ω) : Prop := ∀ tp ∈ c.positions, tp ∈ c'.positions

instance : IsPreorder (Consumer ω) Grown where
  refl _ _ h := h
  trans _ _ _ h h' tp htp := h' tp (h tp htp)

theorem same_aside {c c' : Consumer ω} (hpositions : c'.positions = c.positions)
    (hpaused : c'.paused = c.paused) : Same c c' :=
  ⟨fun tp => by rw [hpositions], hpaused⟩

theorem permits_same : Permits T Cluster.Anyhow (fun _ => True) (@Same ω) :=
  permits_aside T fun _ _ hpositions hpaused _ _ _ => same_aside hpositions hpaused

theorem permits_grown : Permits T Cluster.Anyhow (fun _ => True) (@Grown ω) :=
  permits_aside T fun c c' hpositions _ _ _ _ tp htp => hpositions ▸ htp

theorem same_setPosition {c : Consumer ω} {tp : TopicPartition} (htp : tp ∈ c.positions)
    (offset : ℤ) : Same c (setPosition tp offset c) := by
  refine ⟨fun tp' => ?_, rfl⟩
  rw [setPosition, Std.TreeMap.mem_insert, Std.LawfulEqCmp.compare_eq_iff_eq]
  constructor
  · rintro (rfl | h)
    · exact htp
    · exact h
  · exact .inr

theorem same_resolve (unresolved : List (TopicPartition × ℤ)) {c : Consumer ω}
    (h : ∀ entry ∈ unresolved, entry.1 ∈ c.positions) : Same c (resolve T unresolved c).2 := by
  induction unresolved generalizing c with
  | nil => exact refl_of Same c
  | cons first rest ih =>
      obtain ⟨hfirst, hrest⟩ := List.forall_mem_cons.mp h
      have hlookup := (permits_same T).listOffset first.1 first.2 c
      rcases hlisted : listOffset T first.1 first.2 c with ⟨e | offset, c₁⟩
      · rw [resolve, bind_of_error hlisted]
        rw [hlisted] at hlookup
        exact hlookup
      · rw [hlisted] at hlookup
        have hset := same_setPosition ((hlookup.positions _).mpr hfirst) offset
        rw [resolve, bind_of_ok hlisted, bind_of_ok (modify_apply _ _)]
        refine trans_of Same (trans_of Same hlookup hset) (ih fun entry hentry => ?_)
        exact (hset.positions _).mpr ((hlookup.positions _).mpr (hrest entry hentry))

theorem mem_of_unresolved {c : Consumer ω} : ∀ entry ∈ c.unresolved, entry.1 ∈ c.positions := by
  intro entry hentry
  have hmem := (List.mem_filter.mp hentry).1
  rw [Std.TreeMap.mem_toList_iff_getElem?_eq_some] at hmem
  rw [Std.TreeMap.mem_iff_isSome_getElem?, hmem]
  rfl

/-- What follows a change of the assignment keeps the partitions. -/
theorem same_afterChange (c : Consumer ω) :
    Same c ((do
      modify onFetchSetChanged
      let c ← get
      resolve T c.unresolved
      pure true : Act (Consumer ω) Error Bool) c).2 := by
  have hresolve := same_resolve T c.onFetchSetChanged.unresolved mem_of_unresolved
  have hchanged : Same c c.onFetchSetChanged := same_aside rfl rfl
  rw [bind_of_ok (modify_apply _ _), bind_of_ok (get_apply _)]
  rcases hlookups : resolve T c.onFetchSetChanged.unresolved c.onFetchSetChanged with ⟨e | _, c'⟩
  · rw [bind_of_error hlookups]
    rw [hlookups] at hresolve
    exact trans_of Same hchanged hresolve
  · rw [bind_of_ok hlookups]
    rw [hlookups] at hresolve
    exact trans_of Same hchanged hresolve

/-- What driving the membership comes to. -/
theorem advanceGroup_handover (c : Consumer ω) :
    match handover T maxSteps c with
    | none => ∃ c₁, Trimmed c c₁ ∧ Same c₁ (advanceGroup T c).2
    | some h => Trimmed c h.before ∧ Same h.after (advanceGroup T c).2 ∧
        ∃ group cluster, h.after =
          { takeAssignment h.partitions h.committed h.before with group, cluster } := by
  have hsteps := attempts_handover T maxSteps 0 false c
  rcases hhandover : handover T maxSteps c with _ | h
  · rw [hhandover] at hsteps
    change Trimmed c (advanceSteps T c).2 at hsteps
    refine ⟨(advanceSteps T c).2, hsteps, ?_⟩
    rcases hadvance : advanceSteps T c with ⟨e | result, c₁⟩
    · rw [advanceGroup, bind_of_error hadvance]
      exact refl_of Same c₁
    · rw [advanceGroup, bind_of_ok hadvance]
      rcases result with b | b
      · cases b with
        | false => exact refl_of Same c₁
        | true => exact same_afterChange T c₁
      · exact refl_of Same c₁
  · rw [hhandover] at hsteps
    obtain ⟨hends, htrimmed, hafter⟩ := hsteps
    have hadvance : advanceSteps T c = (.ok (.settled true), h.after) := hends
    refine ⟨htrimmed, ?_, hafter⟩
    rw [advanceGroup, bind_of_ok hadvance]
    exact same_afterChange T h.after

/-! ### Pauses -/

/-- No partition that was given up is still paused. -/
def PauseEnds (c c' : Consumer ω) : Prop :=
  ∀ tp, tp ∈ c.positions → tp ∉ c'.positions → tp ∉ c'.paused

theorem PauseEnds.of_grown {c c' : Consumer ω} (h : Grown c c') : PauseEnds c c' :=
  fun tp htp hgone => absurd (h tp htp) hgone

theorem pauseEnds_same {c c₀ c₁ c' : Consumer ω} (h : Same c c₀) (h' : Same c₁ c') :
    PauseEnds c c' ↔ PauseEnds c₀ c₁ := by
  simp only [PauseEnds, h.positions, h'.positions, h'.paused]

/-- The new assignment names every partition that is paused. -/
def Handover.Covers (h : Handover ω) : Prop :=
  ∀ tp, tp ∈ h.before.positions → tp ∈ h.before.paused → tp ∈ h.partitions

/-- Driving the membership leaves no pause behind exactly if a new assignment covers
the pauses. -/
theorem pauseEnds_advanceGroup (c : Consumer ω) :
    PauseEnds c (advanceGroup T c).2 ↔ ∀ h, handover T maxSteps c = some h → h.Covers := by
  have hadvanced := advanceGroup_handover T c
  rcases hhandover : handover T maxSteps c with _ | h
  · rw [hhandover] at hadvanced
    obtain ⟨c₁, htrimmed, hsame⟩ := hadvanced
    refine iff_of_true ?_ fun h hsome => absurd hsome (Option.some_ne_none h).symm
    rw [pauseEnds_same (refl_of Same c) hsame]
    exact htrimmed.ended
  · rw [hhandover] at hadvanced
    obtain ⟨htrimmed, hsame, group, cluster, hafter⟩ := hadvanced
    have hpaused : h.after.paused = h.before.paused := by rw [hafter]; rfl
    have hpositions : ∀ tp, tp ∈ h.after.positions ↔ tp ∈ h.partitions := by
      intro tp
      rw [hafter, Std.TreeMap.mem_iff_isSome_getElem?]
      change ((takeAssignment h.partitions h.committed h.before).positions[tp]?).isSome = true ↔ _
      rw [getElem?_takeAssignment]
      split <;> simp_all
    rw [pauseEnds_same (refl_of Same c) hsame]
    constructor
    · intro hends h' hsome tp htp hpause
      obtain rfl := Option.some.inj hsome
      by_contra hdropped
      rw [← hpositions] at hdropped
      exact hends tp (htrimmed.mem htp) hdropped (by rw [hpaused]; exact hpause)
    · intro hcovers tp htp hdropped hpause
      rw [hpositions] at hdropped
      rw [hpaused] at hpause
      by_cases hheld : tp ∈ h.before.positions
      · exact hdropped (hcovers h rfl tp hheld hpause)
      · exact htrimmed.ended tp htp hheld hpause

/-- The call leaves no pause behind: nothing that is held is paused when everything is
given up at once, and a new assignment covers the pauses. -/
def Call.Releases (c : Consumer ω) : Call → Prop
  | .unsubscribe => ∀ tp, tp ∈ c.positions → tp ∉ c.paused
  | .heartbeat => ∀ h, handover T maxSteps c = some h → h.Covers
  | .poll => ∀ c₁, beforeAdvance T c = (.ok (), c₁) →
      ∀ h, handover T maxSteps c₁ = some h → h.Covers
  | _ => True

theorem handover_groupless {c : Consumer ω} (hgroup : c.group = none) (left : ℕ) :
    handover T left c = none := by
  cases left with
  | zero => rfl
  | succ left => rw [handover, hgroup]

/-- A consumer without a group stays without one. -/
def StaysOut (c c' : Consumer ω) : Prop := c.group = none → c'.group = none

instance : IsPreorder (Consumer ω) StaysOut where
  refl _ := id
  trans _ _ _ h h' := h' ∘ h

theorem permits_staysOut : Permits T Cluster.Anyhow (fun _ => True) (@StaysOut ω) where
  calls := (Cluster.coordinates_anyhow T).toPermits
  coordinates := Cluster.coordinates_anyhow T
  recv _ _ := trivial
  membership _ _ := trivial
  listOffsets _ _ _ := trivial
  cluster _ _ _ := id
  discardOutstanding := moves_discardOutstanding T (fun _ _ _ => id) fun _ _ => id
  fetch _ _ _ := id
  group c _ _ _ hsome _ hnone := by rw [hsome] at hnone; cases hnone
  books _ _ _ := id

theorem permits_commit {R : Consumer ω → Consumer ω → Prop} [IsPreorder (Consumer ω) R]
    (h : Permits T Cluster.Anyhow (fun _ => True) R) : Moves R (commit T) := by
  refine Moves.bind h.discardOutstanding fun _ => Moves.bind Moves.get fun c => ?_
  exact h.onGroup _ (ClassicProtocol.via_commit (Cluster.coordinates_anyhow T)
    fun _ _ _ _ _ => trivial)

theorem permits_beforeAdvance {R : Consumer ω → Consumer ω → Prop} [IsPreorder (Consumer ω) R]
    (h : Permits T Cluster.Anyhow (fun _ => True) R) : Moves R (beforeAdvance T) :=
  Moves.bind h.checkForExpansion fun _ => h.maybeAutoCommit (permits_commit T h)

variable (D : Decoders)

/-- What a poll does once the membership is settled. -/
theorem same_fetching : Moves Same (fetching T D) := by
  have hsend : ∀ c byBroker, Same c (sendFetches T (c.planned byBroker) [] c).2 := fun c byBroker =>
    (permits_same T).sendFetches (fun _ _ _ => trivial) [] c
  refine Moves.bind ((permits_same T).collect hsend) fun answers => ?_
  refine Moves.bind (moves_absorb D (fun c reading hposition => ?_) (fun _ _ => same_aside rfl rfl)
    answers []) fun out => ?_
  · have htp : reading.tp ∈ c.positions := by
      rw [Std.TreeMap.mem_iff_isSome_getElem?, hposition]
      rfl
    obtain ⟨hpositions, hpaused⟩ := same_setPosition htp reading.nextOffset
    exact ⟨hpositions, hpaused⟩
  · refine Moves.bind ((permits_same T).startPrefetch hsend) fun _ => ?_
    exact Moves.bind (Moves.modify fun _ => same_aside rfl rfl) fun _ => Moves.pure _

/-- A poll is what its membership part does, but for what leaves the partitions alone. -/
theorem same_poll (c : Consumer ω) : Same (keepMembership T c).2 (poll T D c).2 := by
  rcases hkeep : keepMembership T c with ⟨e | _, c₁⟩
  · rw [poll, bind_of_error hkeep]
    exact refl_of Same c₁
  · rw [poll, bind_of_ok hkeep]
    refine (Moves.bind Moves.get fun c => ?_ : Moves Same _) c₁
    exact Moves.ite (Moves.pure _) (same_fetching T D)

theorem pauseEnds_of_same {c c' : Consumer ω} (h : Same c c') : PauseEnds c c' :=
  PauseEnds.of_grown fun tp htp => (h.positions tp).mpr htp

theorem pauseEnds_poll (c : Consumer ω) :
    PauseEnds c (poll T D c).2 ↔ Call.Releases T c .poll := by
  have hbefore := permits_beforeAdvance T (permits_same T) c
  rw [pauseEnds_same (refl_of Same c) (same_poll T D c)]
  rcases hcheck : checkForExpansion T c with ⟨e | _, c₁⟩
  · have hfails : beforeAdvance T c = (.error e, c₁) := bind_of_error hcheck
    have hkeep : keepMembership T c = (.error e, c₁) := bind_of_error hcheck
    rw [hfails] at hbefore
    rw [hkeep]
    exact iff_of_true (pauseEnds_of_same hbefore) fun c' hok => by rw [hfails] at hok; cases hok
  have hpasses : beforeAdvance T c = maybeAutoCommit T c₁ := bind_of_ok hcheck
  by_cases hgroup : c₁.group.isSome
  · have hmember : keepMembership T c = (do
        maybeAutoCommit T
        let changed ← advanceGroup T
        if changed then discardOutstanding T else pure () : Act (Consumer ω) Error Unit) c₁ := by
      rw [keepMembership, bind_of_ok hcheck, bind_of_ok (get_apply c₁), if_pos hgroup]
    rw [hpasses] at hbefore
    rcases hcommit : maybeAutoCommit T c₁ with ⟨e | _, c₂⟩
    · rw [hcommit] at hbefore hpasses
      rw [hmember, bind_of_error hcommit]
      exact iff_of_true (pauseEnds_of_same hbefore) fun c' hok => by rw [hpasses] at hok; cases hok
    · rw [hcommit] at hbefore hpasses
      have hlast : Same (advanceGroup T c₂).2 (keepMembership T c).2 := by
        rw [hmember, bind_of_ok hcommit]
        rcases hadvance : advanceGroup T c₂ with ⟨e | changed, c₃⟩
        · rw [bind_of_error hadvance]
          exact refl_of Same c₃
        · rw [bind_of_ok hadvance]
          exact Moves.ite (permits_same T).discardOutstanding (Moves.pure _) c₃
      rw [pauseEnds_same hbefore hlast, pauseEnds_advanceGroup]
      constructor
      · intro hcovers c' hok
        rw [hpasses] at hok
        cases hok
        exact hcovers
      · exact fun hreleases => hreleases c₂ hpasses
  · have hkeep : keepMembership T c = (.ok (), c₁) := by
      rw [keepMembership, bind_of_ok hcheck, bind_of_ok (get_apply c₁), if_neg hgroup]
      rfl
    have hsame : Same c c₁ := by
      have hchecked := (permits_same T).checkForExpansion c
      rw [hcheck] at hchecked
      exact hchecked
    have hout : c₁.group = none := Option.not_isSome_iff_eq_none.mp hgroup
    rw [hkeep]
    refine iff_of_true (pauseEnds_of_same hsame) fun c' hok h hsome => ?_
    have hstays := (permits_staysOut T).maybeAutoCommit (permits_commit T (permits_staysOut T)) c₁ hout
    rw [← hpasses, hok] at hstays
    rw [handover_groupless T hstays] at hsome
    cases hsome

theorem pauseEnds_heartbeat (c : Consumer ω) :
    PauseEnds c (heartbeat T c).2 ↔ Call.Releases T c .heartbeat := by
  rw [heartbeat, bind_of_ok (get_apply c)]
  rcases hgroup : c.group with _ | group
  · refine iff_of_true (pauseEnds_of_same (refl_of Same c)) fun h hsome => ?_
    rw [handover_groupless T hgroup] at hsome
    cases hsome
  · exact pauseEnds_advanceGroup T c

theorem pauseEnds_remove (tp : TopicPartition) (c : Consumer ω) : PauseEnds c (remove tp c) := by
  intro tp' hheld hgone hpaused
  change tp' ∈ c.paused.erase tp at hpaused
  change tp' ∉ c.positions.erase tp at hgone
  rw [Std.TreeSet.mem_erase] at hpaused
  rw [Std.TreeMap.mem_erase] at hgone
  exact hgone ⟨hpaused.1, hheld⟩

theorem pauseEnds_subscribe (groupId : String) (topics : List String) (assignor : Assignor)
    (reset : ℤ) (c : Consumer ω) :
    PauseEnds c (subscribe T groupId topics assignor reset c).2 := by
  rw [subscribe, bind_of_ok (discardOutstanding_ok T c), modify_apply]
  exact fun tp _ _ => Std.TreeSet.not_mem_emptyc

/-- Leaving the group gives up everything and keeps every pause. -/
theorem pauseEnds_unsubscribe (c : Consumer ω) :
    PauseEnds c (unsubscribe T c).2 ↔ Call.Releases T c .unsubscribe := by
  let c₁ := (discardOutstanding T c).2
  let c₂ : Consumer ω := { c₁ with positions := ∅, generation := c₁.generation + 1 }
  have hdrained : Same c c₁ := (permits_same T).discardOutstanding c
  have hleft : Same c₂ (unsubscribe T c).2 := by
    rw [unsubscribe, bind_of_ok (discardOutstanding_ok T c), bind_of_ok (modify_apply _ _),
      bind_of_ok (get_apply _)]
    rcases hgroup : c₁.group with _ | group
    · exact same_aside rfl rfl
    · exact same_aside rfl rfl
  rw [pauseEnds_same hdrained hleft]
  constructor
  · intro hends tp htp hpaused
    refine hends tp ((hdrained.positions tp).mpr htp) Std.TreeMap.not_mem_emptyc ?_
    rw [← hdrained.paused] at hpaused
    exact hpaused
  · intro hreleases tp htp _ hpaused
    refine hreleases tp ((hdrained.positions tp).mp htp) ?_
    rw [← hdrained.paused]
    exact hpaused

theorem grown_setPosition (tp : TopicPartition) (offset : ℤ) (c : Consumer ω) :
    Grown c (setPosition tp offset c) := by
  intro tp' htp'
  rw [setPosition, Std.TreeMap.mem_insert]
  exact .inr htp'

theorem grown_assign (tp : TopicPartition) (offset : ℤ) : Moves Grown (assign T tp offset) := by
  have hset : ∀ offset, Moves Grown (modify (setPosition tp offset) :
      Act (Consumer ω) Error PUnit) := fun offset =>
    Moves.modify (grown_setPosition tp offset)
  have hlast : Moves Grown (MonadStateOf.modifyGet fun c => ((), onFetchSetChanged c) :
      Act (Consumer ω) Error PUnit) := Moves.modify fun c tp htp => htp
  refine Moves.bind (permits_grown T).discardOutstanding fun _ => ?_
  refine Moves.bind ((permits_grown T).onCluster ((permits_grown T).calls.refreshMetadata _))
    fun _ => Moves.bind (hset offset) fun _ => Moves.ite ?_ hlast
  exact Moves.bind ((permits_grown T).listOffset _ _) fun _ =>
    Moves.bind (hset _) fun _ => hlast

/-- **A pause does not outlive its partition exactly if the call releases the
pauses.** -/
theorem pauseEnds_iff (c : Consumer ω) (call : Call) :
    PauseEnds c (call.step T D c) ↔ call.Releases T c := by
  have hgrown : ∀ call : Call, Moves Grown (call.exec T D) → PauseEnds c (call.step T D c) :=
    fun call h => .of_grown (h c)
  have hset : ∀ f : Consumer ω → Consumer ω, (∀ c, (f c).positions = c.positions) →
      Moves Grown (modify f : Act (Consumer ω) Error PUnit) := fun f hf =>
    Moves.modify fun c tp htp => by rw [hf]; exact htp
  cases call with
  | unsubscribe => exact pauseEnds_unsubscribe T c
  | subscribe groupId topics assignor reset =>
      exact iff_of_true (pauseEnds_subscribe T groupId topics assignor reset c) trivial
  | heartbeat =>
      rw [Call.step, Call.exec, bind_pure_snd]
      exact pauseEnds_heartbeat T c
  | poll =>
      rw [Call.step, Call.exec, bind_pure_snd]
      exact pauseEnds_poll T D c
  | remove tp => exact iff_of_true (pauseEnds_remove tp c) trivial
  | assign tp offset => exact iff_of_true (hgrown _ (grown_assign T tp offset)) trivial
  | seekTo tp offset => exact iff_of_true (hgrown _ (Moves.modify (grown_setPosition tp offset))) trivial
  | commit => exact iff_of_true (hgrown _ (permits_commit T (permits_grown T))) trivial
  | partitionCount topic =>
      exact iff_of_true (hgrown _ (Moves.bind ((permits_grown T).partitionCount topic) fun _ =>
        Moves.pure _)) trivial
  | listOffset tp timestamp =>
      exact iff_of_true (hgrown _ (Moves.bind ((permits_grown T).listOffset tp timestamp) fun _ =>
        Moves.pure _)) trivial
  | endOffsets partitions =>
      exact iff_of_true (hgrown _ (Moves.bind ((permits_grown T).endOffsets partitions) fun _ =>
        Moves.pure _)) trivial
  | beginningOffsets partitions =>
      exact iff_of_true (hgrown _ (Moves.bind ((permits_grown T).beginningOffsets partitions) fun _ =>
        Moves.pure _)) trivial
  | offsetsForTimes want =>
      exact iff_of_true (hgrown _ (Moves.bind ((permits_grown T).listOffsetsMany want) fun _ =>
        Moves.pure _)) trivial
  | lag =>
      exact iff_of_true (hgrown _ (Moves.bind (permits_grown T).lag fun _ => Moves.pure _)) trivial
  | committed partitions =>
      exact iff_of_true (hgrown _ (Moves.bind ((permits_grown T).committed partitions) fun _ =>
        Moves.pure _)) trivial
  | _ => exact iff_of_true (hgrown _ (hset _ fun _ => rfl)) trivial

/-- A consumer that holds a partition and has paused it. -/
def holding (answers : List Body) : Consumer Tape :=
  pause [⟨"t", 0⟩] (seekTo ⟨"t", 0⟩ 5 (fromCluster (.new (.of answers) ["b:1"] "client") .readCommitted))

/-- It leaves; the partition is gone, and still paused. -/
theorem pause_outlives :
    ¬PauseEnds (holding []) (Call.unsubscribe.step Tape.transport plainDecoders (holding [])) := by
  intro hends
  have hheld : (⟨"t", 0⟩ : TopicPartition) ∈ (holding []).positions := by decide
  exact hends ⟨"t", 0⟩ hheld (by decide) (by decide)

/-! ### Positions -/

theorem permits_positions :
    Permits T Cluster.Anyhow (fun _ => True) (Keeps (@Consumer.positions ω)) :=
  permits_aside T fun _ _ hpositions _ _ _ _ => hpositions

/-- The offset that the lookups find for a partition, if they get that far. -/
def lookedUp : List (TopicPartition × ℤ) → Consumer ω → TopicPartition → Option ℤ
  | [], _, _ => none
  | (first, timestamp) :: rest, c, tp =>
      match listOffset T first timestamp c with
      | (.error _, _) => none
      | (.ok offset, c₁) =>
          (lookedUp rest (setPosition first offset c₁) tp).or (if tp = first then some offset else none)

theorem getElem?_setPosition (first tp : TopicPartition) (offset : ℤ) (c : Consumer ω) :
    (setPosition first offset c).positions[tp]? =
      (if tp = first then some offset else none).or c.positions[tp]? := by
  rw [setPosition, Std.TreeMap.getElem?_insert]
  by_cases hfirst : tp = first
  · simp [hfirst]
  · have hne : compare first tp ≠ .eq := fun h => hfirst (Std.LawfulEqCmp.eq_of_compare h).symm
    simp [hfirst, hne]

/-- Looking offsets up writes the positions found, and no others. -/
theorem resolve_positions (unresolved : List (TopicPartition × ℤ)) (c : Consumer ω)
    (tp : TopicPartition) :
    (resolve T unresolved c).2.positions[tp]? =
      (lookedUp T unresolved c tp).or c.positions[tp]? := by
  induction unresolved generalizing c with
  | nil => rfl
  | cons entry rest ih =>
      have hkept : (listOffset T entry.1 entry.2 c).2.positions = c.positions :=
        (permits_positions T).listOffset entry.1 entry.2 c
      rcases hlisted : listOffset T entry.1 entry.2 c with ⟨e | offset, c₁⟩
      · rw [hlisted] at hkept
        rw [resolve, bind_of_error hlisted, lookedUp, hlisted]
        change c₁.positions[tp]? = none.or c.positions[tp]?
        rw [hkept, Option.none_or]
      · rw [hlisted] at hkept
        rw [resolve, bind_of_ok hlisted, bind_of_ok (modify_apply _ _), ih, lookedUp, hlisted,
          getElem?_setPosition, hkept, Option.or_assoc]

/-- Where a new assignment has a partition read on: where the lookups say, if its start
is one that has to be looked up and that is possible. -/
def Handover.restart (h : Handover ω) (tp : TopicPartition) : ℤ :=
  (lookedUp T h.after.onFetchSetChanged.unresolved h.after.onFetchSetChanged tp).getD (h.start tp)

/-- After a new assignment its partitions are where it has them read on. -/
theorem advanceGroup_positions {c : Consumer ω} {h : Handover ω}
    (hhandover : handover T maxSteps c = some h) {tp : TopicPartition} (htp : tp ∈ h.partitions) :
    (advanceGroup T c).2.positions[tp]? = some (h.restart T tp) := by
  have hsteps := attempts_handover T maxSteps 0 false c
  rw [hhandover] at hsteps
  obtain ⟨hends, -, group, cluster, hafter⟩ := hsteps
  have hadvance : advanceSteps T c = (.ok (.settled true), h.after) := hends
  have hstart : h.after.positions[tp]? = some (h.start tp) := by
    rw [hafter]
    change (takeAssignment h.partitions h.committed h.before).positions[tp]? = _
    rw [getElem?_takeAssignment, if_pos htp]
    rfl
  have hresolved := resolve_positions T h.after.onFetchSetChanged.unresolved
    h.after.onFetchSetChanged tp
  have hend : (advanceGroup T c).2 =
      (resolve T h.after.onFetchSetChanged.unresolved h.after.onFetchSetChanged).2 := by
    rw [advanceGroup, bind_of_ok hadvance]
    exact bind_pure_snd _ true h.after.onFetchSetChanged
  rw [hend, hresolved, show h.after.onFetchSetChanged.positions = h.after.positions from rfl, hstart,
    Handover.restart]
  cases lookedUp T h.after.onFetchSetChanged.unresolved h.after.onFetchSetChanged tp with
  | none => rfl
  | some offset => rfl

/-- What a new assignment leaves to the consumer, of all that was not revoked before, is
still where it was. -/
def Retains (c : Consumer ω) : Prop :=
  ∀ h, handover T maxSteps c = some h → ∀ tp ∈ h.before.positions, tp ∈ h.partitions →
    (advanceGroup T c).2.positions[tp]? = c.positions[tp]?

/-- **A partition that stays is read on from where it was exactly if that is where the
group would have it start.** -/
theorem retains_iff (c : Consumer ω) :
    Retains T c ↔ ∀ h, handover T maxSteps c = some h → ∀ tp ∈ h.before.positions,
      tp ∈ h.partitions → c.positions[tp]? = some (h.restart T tp) := by
  constructor
  · intro hretains h hhandover tp hheld htp
    rw [← hretains h hhandover tp hheld htp]
    exact advanceGroup_positions T hhandover htp
  · intro hwhere h hhandover tp hheld htp
    rw [hwhere h hhandover tp hheld htp]
    exact advanceGroup_positions T hhandover htp

/-- A consumer that reads one partition of its cooperative group, two records past what
it last committed; then the group rebalances, and hands it a second one. -/
def cooperating : Consumer Tape :=
  let joining := (subscribe Tape.transport "g" ["t"] cooperativeStickyAssignor earliest (fromCluster
    (.new (.of [.apiVersions ⟨0, []⟩, .findCoordinator ⟨0, "c", 1⟩, .apiVersions ⟨0, []⟩,
      .joinGroup ⟨0, 1, "l", "m", []⟩, .syncGroup ⟨0, [0, 2, 0]⟩,
      .offsetFetch ⟨0, [("t", [⟨0, 3, 0⟩])]⟩, .heartbeat Codes.rebalanceInProgress,
      .joinGroup ⟨0, 2, "l", "m", []⟩, .syncGroup ⟨0, [0, 2, 0, 1]⟩,
      .offsetFetch ⟨0, [("t", [⟨0, 3, 0⟩, ⟨1, 4, 0⟩])]⟩]) ["b:1"] "client") .readCommitted)).2
  seekTo ⟨"t", 0⟩ 5 (heartbeat Tape.transport joining).2

/-- It goes back to what it committed. -/
theorem retained_rewound : ¬Retains Tape.transport cooperating := by
  intro hretains
  have hkept : (handover Tape.transport maxSteps cooperating).any (fun h =>
      h.before.positions.contains ⟨"t", 0⟩ && h.partitions.contains ⟨"t", 0⟩) = true := by
    decide +kernel
  obtain ⟨h, hhandover, hboth⟩ := (Option.any_eq_true _ _).mp hkept
  obtain ⟨hheld, hgiven⟩ := Bool.and_eq_true_iff.mp hboth
  have hsame := hretains h hhandover ⟨"t", 0⟩ (Std.TreeMap.mem_iff_contains.mpr hheld)
    (List.contains_iff_mem.mp hgiven)
  have hmoved : (advanceGroup Tape.transport cooperating).2.positions[(⟨"t", 0⟩ : TopicPartition)]? ≠
      cooperating.positions[(⟨"t", 0⟩ : TopicPartition)]? := by
    decide +kernel
  exact hmoved hsame

end Consumer

end Barnabas.Client
