import Barnabas.Client.Counts
import Barnabas.Client.ConsumerRules

/-!
Topics that grow under a consumer.

The known count of a topic is overwritten by every refresh of its metadata, whoever
asked for it: a lookup of a leader, an assignment, a lookup of an offset, a question
for the count. Growth is looked for in one place only, by the check that compares the
count before its own refresh with the count after it, and what it finds for a manually
assigned consumer waits in a map until it is taken. So growth can be lost in two ways:
another path sees it first, or the next growth overwrites a report that was not taken.
-/

namespace Barnabas.Client

open Barnabas.Lib Barnabas.Core Barnabas.Lib.Act

namespace Cluster

variable {ω : Type} {T : Transport ω} {topic : String} {c : Cluster ω}

/-- A refresh that fails has merged nothing in. -/
theorem refreshMetadata_error {e : Error} {c' : Cluster ω}
    (h : refreshMetadata T topic c = (.error e, c')) : c'.metadata = c.metadata := by
  rw [refreshMetadata, bind_of_ok (get_apply c)] at h
  have hmoves : Moves (Keeps Cluster.metadata) (callAny T Body.asMetadata 12
      (.metadata (some [topic]) c.allowAutoTopicCreation)) :=
    (carries_metadata.talks T).callAny_plumbing rfl Body.asMetadata
  have hcall := hmoves c
  rcases hasked : callAny T Body.asMetadata 12
    (.metadata (some [topic]) c.allowAutoTopicCreation) c with ⟨e' | resp, c₁⟩
  · rw [bind_of_error hasked] at h
    rw [hasked] at hcall
    rw [← (Prod.mk.inj h).2]
    exact hcall
  · rw [hasked] at hcall
    rw [bind_of_ok hasked] at h
    cases hcheck : checkTopics resp.topics with
    | error e' =>
        rw [hcheck] at h
        rw [← (Prod.mk.inj h).2]
        exact hcall
    | ok _ =>
        rw [hcheck] at h
        cases h

/-- A check that finds a known count grown says so. -/
theorem refreshIfStale_of_grew {outcome : Except Error (Option (ℤ × ℤ))} {c' : Cluster ω}
    (h : refreshIfStale T topic c = (outcome, c'))
    (hknown : 0 < c.metadata.partitionCount topic)
    (hgrew : c.metadata.partitionCount topic < c'.metadata.partitionCount topic) :
    outcome = .ok (some (c.metadata.partitionCount topic, c'.metadata.partitionCount topic)) := by
  rw [refreshIfStale] at h
  rcases hstale : isMetadataStale T topic c with ⟨e | stale, c₁⟩
  · rw [bind_of_error hstale] at h
    rw [← (Prod.mk.inj h).2, isMetadataStale_metadata hstale] at hgrew
    exact absurd hgrew (lt_irrefl _)
  · have hsame := isMetadataStale_metadata hstale
    rw [bind_of_ok hstale] at h
    cases stale with
    | false =>
        rw [← (Prod.mk.inj h).2, hsame] at hgrew
        exact absurd hgrew (lt_irrefl _)
    | true =>
        rw [if_pos rfl, bind_of_ok (get_apply c₁)] at h
        rcases hrefresh : refreshMetadata T topic c₁ with ⟨e | _, c₂⟩
        · rw [bind_of_error hrefresh] at h
          rw [← (Prod.mk.inj h).2, refreshMetadata_error hrefresh, hsame] at hgrew
          exact absurd hgrew (lt_irrefl _)
        · rw [bind_of_ok hrefresh, bind_of_ok (get_apply c₂), hsame] at h
          obtain ⟨houtcome, rfl⟩ := Prod.mk.inj h
          rw [← houtcome, if_pos ⟨hknown, hgrew⟩]

end Cluster

namespace Consumer

variable {ω : Type} (T : Transport ω)

/-- The count of a topic as far as the consumer knows. -/
def known (c : Consumer ω) (topic : String) : ℤ := c.cluster.metadata.partitionCount topic

/-- One topic's turn in a check. -/
def turn (topic : String) (c : Consumer ω) : Consumer ω :=
  match Cluster.refreshIfStale T topic c.cluster with
  | (.ok (some growth), cluster) =>
      if c.group.isSome then { c with cluster }
      else { c with cluster, expansions := c.expansions.insert topic growth }
  | (_, cluster) => { c with cluster }

/-- Whether a turn asks a subscribed consumer to rejoin. -/
def grewInTurn (topic : String) (c : Consumer ω) : Bool :=
  match (Cluster.refreshIfStale T topic c.cluster).1 with
  | .ok (some _) => c.group.isSome
  | _ => false

/-- The consumer before and after something that may have merged an answer in, and the
topic whose turn it was if it was a turn in a check. -/
structure Stage (ω : Type) where
  turn : Option String
  before : Consumer ω
  after : Consumer ω

/-- The turns of a check. -/
def turns : List String → Consumer ω → List (Stage ω)
  | [], _ => []
  | topic :: rest, c => ⟨some topic, c, c.turn T topic⟩ :: turns rest (c.turn T topic)

/-- A path by which the metadata of a topic is refreshed, or reports are taken. -/
inductive Refresh
  | check
  | leaderAddr (tp : TopicPartition)
  | assign (tp : TopicPartition) (offset : ℤ)
  | listOffset (tp : TopicPartition) (timestamp : ℤ)
  | partitionCount (topic : String)
  | takeExpansions

namespace Refresh

def exec : Refresh → Act (Consumer ω) Error Unit
  | check => checkForExpansion T
  | leaderAddr tp => do
      let _ ← onCluster (Cluster.leaderAddr T tp)
  | assign tp offset => Consumer.assign T tp offset
  | listOffset tp timestamp => do
      let _ ← Consumer.listOffset T tp timestamp
  | partitionCount topic => do
      let _ ← Consumer.partitionCount T topic
  | takeExpansions => modify fun c => c.takeExpansions.2

/-- What is returned to the caller as grown. -/
def reports (c : Consumer ω) : Refresh → List (String × ℤ × ℤ)
  | takeExpansions => c.takeExpansions.1
  | _ => []

/-- The stages of a refresh. A check has one for each stale topic, the other paths are
one stage as a whole. -/
def stages (c : Consumer ω) : Refresh → List (Stage ω)
  | check =>
      match staleTopics T c.watched c with
      | (.ok topics, c') => turns T topics (discardOutstanding T c').2
      | (.error _, _) => []
  | r => [⟨none, c, (r.exec T c).2⟩]

/-- The count of the topic does not fall. -/
def Rising (topic : String) (c : Consumer ω) (r : Refresh) : Prop :=
  ∀ stage ∈ r.stages T c, stage.before.known topic ≤ stage.after.known topic

/-- A known count is raised by the topic's own turn in a check only, and for a manually
assigned consumer not while a report of the topic waits to be taken. -/
def Noticed (topic : String) (c : Consumer ω) (r : Refresh) : Prop :=
  ∀ stage ∈ r.stages T c, 0 < stage.before.known topic →
    stage.before.known topic < stage.after.known topic →
    stage.turn = some topic ∧ (stage.before.group = none → topic ∉ stage.before.expansions)

instance (topic : String) (c : Consumer ω) (r : Refresh) : Decidable (r.Rising T topic c) :=
  inferInstanceAs (Decidable (∀ stage ∈ r.stages T c, _))

instance (topic : String) (c : Consumer ω) (r : Refresh) : Decidable (r.Noticed T topic c) :=
  inferInstanceAs (Decidable (∀ stage ∈ r.stages T c, _))

end Refresh

/-- A consumer that is watched for one topic: the count of the topic when it was first
known, and what the caller has been told. -/
structure Watch (ω : Type) where
  consumer : Consumer ω
  learned : ℤ
  reported : List (String × ℤ × ℤ)

def Watch.start (topic : String) (c : Consumer ω) : Watch ω := ⟨c, c.known topic, []⟩

def Watch.step (topic : String) (w : Watch ω) (r : Refresh) : Watch ω :=
  let c := (r.exec T w.consumer).2
  ⟨c, if 0 < w.learned then w.learned else c.known topic, w.reported ++ r.reports w.consumer⟩

/-- The partition is in an interval that was reported or waits to be. -/
def Told (topic : String) (reported : List (String × ℤ × ℤ)) (c : Consumer ω) (i : ℤ) : Prop :=
  ∃ before after, (topic, before, after) ∈ reported ++ c.takeExpansions.1 ∧ before ≤ i ∧ i < after

/-- Every partition added since the count was first known is told of. -/
def Watch.Covered (topic : String) (w : Watch ω) : Prop :=
  ∀ i, w.learned ≤ i → i < w.consumer.known topic → Told topic w.reported w.consumer i

/-! ### What a check does -/

variable {T} {topic : String}

theorem refreshStale_cons (topic : String) (rest : List String) (grew : Bool) (c : Consumer ω) :
    refreshStale T (topic :: rest) grew c =
      refreshStale T rest (grew || c.grewInTurn T topic) (c.turn T topic) := by
  rcases hrefresh : Cluster.refreshIfStale T topic c.cluster with ⟨outcome, cluster⟩
  have hasked : (attempt (onCluster (Cluster.refreshIfStale T topic)) : Act (Consumer ω) Error _) c =
      (.ok outcome, { c with cluster }) := by
    rw [attempt_apply, onCluster, zoom_apply, hrefresh]
  rw [refreshStale, bind_of_ok hasked, turn, grewInTurn, hrefresh]
  rcases outcome with e | (_ | growth)
  · rw [Bool.or_false]
  · rw [Bool.or_false]
  · dsimp only
    rw [bind_of_ok (get_apply _)]
    cases hgroup : c.group with
    | none =>
        simp only [Option.isSome_none, Bool.false_eq_true, if_false, Bool.or_false]
        rfl
    | some group => simp only [Option.isSome_some, if_true, Bool.or_true]

theorem refreshStale_eq (topics : List String) (grew : Bool) (c : Consumer ω) :
    ∃ found, refreshStale T topics grew c = (.ok (grew || found), topics.foldl (fun c t => c.turn T t) c) ∧
      (found = true ↔ ∃ stage ∈ turns T topics c, ∃ t, stage.turn = some t ∧
        stage.before.grewInTurn T t = true) := by
  induction topics generalizing grew c with
  | nil => exact ⟨false, by rw [Bool.or_false]; rfl, by simp [turns]⟩
  | cons t rest ih =>
      obtain ⟨found, heq, hfound⟩ := ih (grew || c.grewInTurn T t) (c.turn T t)
      refine ⟨c.grewInTurn T t || found, ?_, ?_⟩
      · rw [refreshStale_cons, heq, Bool.or_assoc]
        rfl
      · simp [turns, hfound]

/-- What a check compares, and what it leaves for others to act on. -/
def noted (c : Consumer ω) : Metadata × Option ClassicProtocol × Std.TreeMap String (ℤ × ℤ) :=
  (c.cluster.metadata, c.group, c.expansions)

theorem noted_onCluster {ε α : Type} {m : Act (Cluster ω) ε α}
    (hm : Moves (Keeps Cluster.metadata) m) : Moves (Keeps noted) (onCluster m) :=
  Moves.zoom hm fun c cluster h => by
    show noted { c with cluster } = noted c
    rw [noted, noted, show cluster.metadata = c.cluster.metadata from h]

theorem noted_staleTopics (topics : List String) : Moves (Keeps noted) (staleTopics T topics) := by
  induction topics with
  | nil => exact Moves.pure _
  | cons t rest ih =>
      have hstale := (Cluster.carries_metadata.talks T).isMetadataStale t
      exact Moves.bind (noted_onCluster hstale) fun _ => Moves.bind ih fun _ => Moves.pure _

theorem staleTopics_ok (topics : List String) (c : Consumer ω) :
    ∃ stale c', staleTopics T topics c = (.ok stale, c') := by
  induction topics generalizing c with
  | nil => exact ⟨[], c, rfl⟩
  | cons t rest ih =>
      obtain ⟨stale, c₁, hstale⟩ : ∃ stale c', onCluster (Cluster.isMetadataStale T t) c =
          (.ok stale, c') := by
        rw [onCluster, zoom_apply, Cluster.isMetadataStale, bind_of_ok (get_apply _)]
        cases c.cluster.refreshedAt[t]? with
        | none => exact ⟨_, _, rfl⟩
        | some at' => exact ⟨_, _, rfl⟩
      obtain ⟨more, c₂, hmore⟩ := ih c₁
      exact ⟨_, c₂, by rw [staleTopics, bind_of_ok hstale, bind_of_ok hmore]; rfl⟩

theorem noted_discardOutstanding : Moves (Keeps noted) (discardOutstanding T) :=
  moves_discardOutstanding T (fun _ _ _ => rfl) fun addrs =>
    noted_onCluster (Cluster.carries_metadata.recvMany T .fetch Body.asFetch addrs)

/-- What a check comes to: it takes its turns from a consumer that knows what it knew, and
if one of them found a subscribed topic grown, it has the member rejoin. -/
structure Checked (c : Consumer ω) (topics : List String) (c' : Consumer ω) : Prop where
  noted : c'.noted = c.noted
  stages : Refresh.check.stages T c = turns T topics c'
  metadata : (Refresh.check.exec T c).2.cluster.metadata =
    (topics.foldl (fun c t => c.turn T t) c').cluster.metadata
  expansions : (Refresh.check.exec T c).2.expansions =
    (topics.foldl (fun c t => c.turn T t) c').expansions
  group : ∃ found, (found = true ↔ ∃ stage ∈ turns T topics c', ∃ t, stage.turn = some t ∧
      stage.before.grewInTurn T t = true) ∧
    (Refresh.check.exec T c).2.group =
      if found then (topics.foldl (fun c t => c.turn T t) c').group.map
        ClassicProtocol.requestRejoin
      else (topics.foldl (fun c t => c.turn T t) c').group

variable (T) in
theorem exists_checked (c : Consumer ω) : ∃ topics c', Checked (T := T) c topics c' := by
  obtain ⟨topics, c₁, hstale⟩ := staleTopics_ok (T := T) c.watched c
  have hnoted₁ := noted_staleTopics (T := T) c.watched c
  rw [hstale] at hnoted₁
  have hnoted₂ := noted_discardOutstanding (T := T) c₁
  obtain ⟨found, heq, hfound⟩ := refreshStale_eq (T := T) topics false (discardOutstanding T c₁).2
  have hexec : (Refresh.check.exec T c).2.noted =
      ((topics.foldl (fun c t => c.turn T t) (discardOutstanding T c₁).2).cluster.metadata,
        if found then (topics.foldl (fun c t => c.turn T t) (discardOutstanding T c₁).2).group.map
          ClassicProtocol.requestRejoin
        else (topics.foldl (fun c t => c.turn T t) (discardOutstanding T c₁).2).group,
        (topics.foldl (fun c t => c.turn T t) (discardOutstanding T c₁).2).expansions) := by
    rw [Refresh.exec, checkForExpansion, bind_of_ok (get_apply c), bind_of_ok hstale]
    by_cases hnone : topics = []
    · subst hnone
      have hnot : found = false := by simpa [turns] using hfound
      rw [if_pos rfl, hnot]
      exact hnoted₂.symm
    · rw [if_neg hnone, bind_of_ok (discardOutstanding_ok T c₁), bind_of_ok heq, Bool.false_or]
      cases found with
      | false => rfl
      | true => rfl
  refine ⟨topics, (discardOutstanding T c₁).2, hnoted₂.trans hnoted₁, ?_, ?_, ?_, found, hfound, ?_⟩
  · rw [Refresh.stages, hstale]
  · exact congrArg (·.1) hexec
  · exact congrArg (·.2.2) hexec
  · exact congrArg (·.2.1) hexec

theorem Checked.known {c c' : Consumer ω} {topics : List String}
    (h : Checked (T := T) c topics c') (topic : String) :
    (Refresh.check.exec T c).2.known topic =
      (topics.foldl (fun c t => c.turn T t) c').known topic := by
  rw [Consumer.known, h.metadata, Consumer.known]

/-! ### Turns -/

@[simp] theorem turn_group (c : Consumer ω) (t : String) : (c.turn T t).group = c.group := by
  unfold turn
  split
  · split <;> rfl
  · rfl

theorem foldl_turn_group (topics : List String) (c : Consumer ω) :
    (topics.foldl (fun c t => c.turn T t) c).group = c.group := by
  induction topics generalizing c with
  | nil => rfl
  | cons t rest ih => rw [List.foldl_cons, ih, turn_group]

theorem turn_cluster (c : Consumer ω) (t : String) :
    (c.turn T t).cluster = (Cluster.refreshIfStale T t c.cluster).2 := by
  rw [turn]
  rcases Cluster.refreshIfStale T t c.cluster with ⟨e | (_ | growth), cluster⟩
  · rfl
  · rfl
  · dsimp only
    split <;> rfl

theorem mem_takeExpansions {c : Consumer ω} {before after : ℤ} :
    (topic, before, after) ∈ c.takeExpansions.1 ↔ c.expansions[topic]? = some (before, after) := by
  rw [takeExpansions, Std.TreeMap.mem_toList_iff_getElem?_eq_some]

/-- A turn that raises a known count reports both counts. -/
theorem refreshIfStale_raised {c : Consumer ω} (hknown : 0 < c.known topic)
    (hraised : c.known topic < (c.turn T topic).known topic) :
    (Cluster.refreshIfStale T topic c.cluster).1 =
      .ok (some (c.known topic, (c.turn T topic).known topic)) := by
  rw [known, known, turn_cluster] at hraised ⊢
  exact Cluster.refreshIfStale_of_grew rfl hknown hraised

/-- What a turn of a manually assigned consumer leaves to be taken. -/
theorem turn_expansions {c : Consumer ω} (hgroup : c.group = none) (t : String) :
    (c.turn T t).expansions =
      match (Cluster.refreshIfStale T t c.cluster).1 with
      | .ok (some growth) => c.expansions.insert t growth
      | _ => c.expansions := by
  rw [turn, hgroup]
  rcases Cluster.refreshIfStale T t c.cluster with ⟨e | (_ | growth), cluster⟩
  · rfl
  · rfl
  · rfl

/-- A report stays until it is taken, or until the topic has grown once more. -/
theorem turn_pending {c : Consumer ω} (hgroup : c.group = none) {t : String}
    (hsteady : (c.turn T t).known topic ≤ c.known topic) :
    (c.turn T t).expansions[topic]? = c.expansions[topic]? := by
  rw [turn_expansions hgroup]
  rcases hrefresh : Cluster.refreshIfStale T t c.cluster with ⟨e | (_ | ⟨before, after⟩), cluster⟩
  · rfl
  · rfl
  · dsimp only
    rw [Std.TreeMap.getElem?_insert]
    apply if_neg
    intro heq
    obtain rfl : t = topic := compare_eq_iff_eq.mp heq
    obtain ⟨hbefore, hafter, -, hgrew⟩ := refreshIfStale_grew hrefresh
    rw [known, known, turn_cluster, hrefresh, ← hafter, ← hbefore] at hsteady
    omega

theorem Told.of_pending {reported : List (String × ℤ × ℤ)} {c c' : Consumer ω} {i : ℤ}
    (h : Told topic reported c i) (heq : c'.expansions[topic]? = c.expansions[topic]?) :
    Told topic reported c' i := by
  obtain ⟨before, after, hmem, hin⟩ := h
  refine ⟨before, after, ?_, hin⟩
  rw [List.mem_append, mem_takeExpansions] at hmem ⊢
  rwa [heq]

theorem turn_told {reported : List (String × ℤ × ℤ)} {learned : ℤ} {c : Consumer ω}
    (hgroup : c.group = none) {t : String} (hknown : 0 < c.known topic)
    (hnoticed : c.known topic < (c.turn T t).known topic →
      some t = some topic ∧ topic ∉ c.expansions)
    (htold : ∀ i, learned ≤ i → i < c.known topic → Told topic reported c i) :
    ∀ i, learned ≤ i → i < (c.turn T t).known topic → Told topic reported (c.turn T t) i := by
  intro i hlearned hi
  by_cases hraised : c.known topic < (c.turn T t).known topic
  · obtain ⟨heq, hnone⟩ := hnoticed hraised
    obtain rfl := Option.some.inj heq
    have hnew : (t, c.known t, (c.turn T t).known t) ∈ (c.turn T t).takeExpansions.1 := by
      rw [mem_takeExpansions, turn_expansions hgroup, refreshIfStale_raised hknown hraised]
      exact Std.TreeMap.getElem?_insert_self
    by_cases hold : i < c.known t
    · -- Nothing was pending, so what covered `i` was reported before.
      obtain ⟨before, after, hmem, hin⟩ := htold i hlearned hold
      rw [List.mem_append, mem_takeExpansions, Std.TreeMap.getElem?_eq_none hnone] at hmem
      have hreported := hmem.resolve_right (by simp)
      exact ⟨before, after, List.mem_append_left _ hreported, hin⟩
    · exact ⟨_, _, List.mem_append_right _ hnew, not_lt.mp hold, hi⟩
  · have hsteady := not_lt.mp hraised
    exact (htold i hlearned (lt_of_lt_of_le hi hsteady)).of_pending (turn_pending hgroup hsteady)

/-- What holds of the stages of a refresh that neither falls nor goes unnoticed. -/
structure Orderly (topic : String) (stage : Stage ω) : Prop where
  rising : stage.before.known topic ≤ stage.after.known topic
  noticed : 0 < stage.before.known topic → stage.before.known topic < stage.after.known topic →
    stage.turn = some topic ∧ (stage.before.group = none → topic ∉ stage.before.expansions)

theorem turns_told {reported : List (String × ℤ × ℤ)} {learned : ℤ} {topics : List String}
    {c : Consumer ω} (hgroup : c.group = none) (hknown : 0 < c.known topic)
    (horderly : ∀ stage ∈ turns T topics c, Orderly topic stage)
    (htold : ∀ i, learned ≤ i → i < c.known topic → Told topic reported c i) :
    ∀ i, learned ≤ i → i < (topics.foldl (fun c t => c.turn T t) c).known topic →
      Told topic reported (topics.foldl (fun c t => c.turn T t) c) i := by
  induction topics generalizing c with
  | nil => exact htold
  | cons t rest ih =>
      obtain ⟨hfirst, hrest⟩ := List.forall_mem_cons.mp horderly
      refine ih ?_ (lt_of_lt_of_le hknown hfirst.rising) hrest ?_
      · rw [turn_group, hgroup]
      · apply turn_told hgroup hknown _ htold
        intro hraised
        obtain ⟨hturn, hpending⟩ := hfirst.noticed hknown hraised
        exact ⟨hturn, hpending hgroup⟩

theorem known_le_turns {topics : List String} {c : Consumer ω}
    (horderly : ∀ stage ∈ turns T topics c, Orderly topic stage) :
    c.known topic ≤ (topics.foldl (fun c t => c.turn T t) c).known topic := by
  induction topics generalizing c with
  | nil => exact le_rfl
  | cons t rest ih =>
      obtain ⟨hfirst, hrest⟩ := List.forall_mem_cons.mp horderly
      exact hfirst.rising.trans (ih hrest)

/-- If a check of a subscribed consumer raises the count, one of its turns saw that. -/
theorem turns_raised {topics : List String} {c : Consumer ω} (hgroup : c.group.isSome)
    (hknown : 0 < c.known topic) (horderly : ∀ stage ∈ turns T topics c, Orderly topic stage)
    (hraised : c.known topic < (topics.foldl (fun c t => c.turn T t) c).known topic) :
    ∃ stage ∈ turns T topics c, ∃ t, stage.turn = some t ∧ stage.before.grewInTurn T t = true := by
  induction topics generalizing c with
  | nil => exact absurd hraised (lt_irrefl _)
  | cons t rest ih =>
      obtain ⟨hfirst, hrest⟩ := List.forall_mem_cons.mp horderly
      rcases hfirst.rising.lt_or_eq with hlt | heq
      · obtain ⟨hturn, -⟩ := hfirst.noticed hknown hlt
        obtain rfl : t = topic := Option.some.inj hturn
        refine ⟨_, List.mem_cons_self, t, rfl, ?_⟩
        show c.grewInTurn T t = true
        rw [grewInTurn, refreshIfStale_raised hknown hlt]
        exact hgroup
      · have hsame : c.known topic = (c.turn T t).known topic := heq
        obtain ⟨stage, hstage, hfound⟩ := ih (by rwa [turn_group]) (hsame ▸ hknown) hrest
          (by rwa [← hsame])
        exact ⟨stage, List.mem_cons_of_mem _ hstage, hfound⟩

/-! ### The other paths -/

variable (T) in
/-- The other paths leave the group and the reports alone. -/
theorem asks_books : Asks T Cluster.Anyhow (fun _ => True)
    (Keeps fun c : Consumer ω => (c.group, c.expansions)) where
  calls := (Cluster.coordinates_anyhow T).toPermits
  recv _ _ := trivial
  listOffsets _ _ _ := trivial
  cluster _ _ _ := rfl
  discardOutstanding := moves_discardOutstanding T (fun _ _ _ => rfl) fun _ _ => rfl
  fetch _ _ _ := rfl

theorem books_assign (tp : TopicPartition) (offset : ℤ) :
    Moves (Keeps fun c : Consumer ω => (c.group, c.expansions)) (assign T tp offset) := by
  refine Moves.bind (asks_books T).discardOutstanding fun _ => ?_
  refine Moves.bind ((asks_books T).onCluster ((asks_books T).calls.refreshMetadata _)) fun _ => ?_
  refine Moves.bind (Moves.modify fun _ => rfl) fun _ => ?_
  have hlast : Moves (Keeps fun c : Consumer ω => (c.group, c.expansions))
      (modify onFetchSetChanged : Act (Consumer ω) Error PUnit) := Moves.modify fun _ => rfl
  refine Moves.ite ?_ hlast
  exact Moves.bind ((asks_books T).listOffset _ _) fun _ =>
    Moves.bind (Moves.modify fun _ => rfl) fun _ => hlast

theorem books_exec {r : Refresh} (hcheck : r ≠ .check) (htake : r ≠ .takeExpansions)
    (c : Consumer ω) :
    (r.exec T c).2.group = c.group ∧ (r.exec T c).2.expansions = c.expansions := by
  have hkeeps : Moves (Keeps fun c : Consumer ω => (c.group, c.expansions)) (r.exec T) := by
    cases r with
    | check => exact absurd rfl hcheck
    | takeExpansions => exact absurd rfl htake
    | leaderAddr tp =>
        exact Moves.bind ((asks_books T).onCluster ((asks_books T).calls.leaderAddr tp)) fun _ =>
          Moves.pure _
    | assign tp offset => exact books_assign tp offset
    | listOffset tp timestamp =>
        exact Moves.bind ((asks_books T).listOffset tp timestamp) fun _ => Moves.pure _
    | partitionCount t => exact Moves.bind ((asks_books T).partitionCount t) fun _ => Moves.pure _
  exact Prod.mk.inj (hkeeps c)

/-! ### Runs -/

theorem orderly_of {c : Consumer ω} {r : Refresh} (hrising : r.Rising T topic c)
    (hnoticed : r.Noticed T topic c) : ∀ stage ∈ r.stages T c, Orderly topic stage :=
  fun stage hstage => ⟨hrising stage hstage, hnoticed stage hstage⟩

theorem known_of_noted {c c' : Consumer ω} (h : c'.noted = c.noted) :
    c'.known topic = c.known topic := by
  rw [known, known, show c'.cluster.metadata = c.cluster.metadata from congrArg Prod.fst h]

theorem known_other {c : Consumer ω} {r : Refresh} (hcheck : r ≠ .check)
    (hknown : 0 < c.known topic) (horderly : ∀ stage ∈ r.stages T c, Orderly topic stage) :
    (r.exec T c).2.known topic = c.known topic := by
  have hone : Orderly topic ⟨none, c, (r.exec T c).2⟩ := by
    apply horderly
    cases r with
    | check => exact absurd rfl hcheck
    | _ => exact List.mem_singleton_self _
  apply le_antisymm _ hone.rising
  apply not_lt.mp
  intro hraised
  cases (hone.noticed hknown hraised).1

theorem known_le_exec {c : Consumer ω} {r : Refresh} (hknown : 0 < c.known topic)
    (horderly : ∀ stage ∈ r.stages T c, Orderly topic stage) :
    c.known topic ≤ (r.exec T c).2.known topic := by
  by_cases hcheck : r = .check
  · subst hcheck
    obtain ⟨topics, c', hcheck⟩ := exists_checked T c
    rw [hcheck.known, ← known_of_noted hcheck.noted]
    exact known_le_turns (hcheck.stages ▸ horderly)
  · exact (known_other hcheck hknown horderly).ge

theorem group_exec_none (r : Refresh) {c : Consumer ω} (hgroup : c.group = none) :
    (r.exec T c).2.group = none := by
  by_cases hcheck : r = .check
  · subst hcheck
    obtain ⟨topics, c', hcheck⟩ := exists_checked T c
    obtain ⟨found, -, hafter⟩ := hcheck.group
    rw [hafter, foldl_turn_group, show c'.group = c.group from congrArg (·.2.1) hcheck.noted, hgroup,
      Option.map_none, ite_self]
  · by_cases htake : r = .takeExpansions
    · subst htake
      exact hgroup
    · rw [(books_exec hcheck htake c).1, hgroup]

/-- A member that was asked to rejoin joins at its next step. -/
theorem state_requestRejoin (group : ClassicProtocol) :
    group.requestRejoin.member.state = .unjoined := by
  show group.member.requestRejoin.state = .unjoined
  rw [GroupMember.requestRejoin]
  split
  · rw [GroupMember.revokeAndRejoin]
  · exact not_not.mp ‹_›

theorem rejoin_exec {r : Refresh} {c : Consumer ω} {group : ClassicProtocol}
    (hgroup : c.group = some group) (hknown : 0 < c.known topic)
    (horderly : ∀ stage ∈ r.stages T c, Orderly topic stage)
    (hraised : c.known topic < (r.exec T c).2.known topic) :
    (r.exec T c).2.group = some group.requestRejoin := by
  by_cases hcheck : r = .check
  · subst hcheck
    obtain ⟨topics, c', hcheck⟩ := exists_checked T c
    obtain ⟨found, hfound, hafter⟩ := hcheck.group
    have hgroup' : c'.group = some group := (congrArg (·.2.1) hcheck.noted).trans hgroup
    have hsame : c'.known topic = c.known topic := known_of_noted hcheck.noted
    have hseen : found = true := by
      apply hfound.mpr
      apply turns_raised (by rw [hgroup']; rfl) (hsame ▸ hknown) (hcheck.stages ▸ horderly)
      rwa [hsame, ← hcheck.known]
    rw [hafter, hseen, if_pos rfl, foldl_turn_group, hgroup', Option.map_some]
  · exact absurd hraised (known_other hcheck hknown horderly).not_gt

/-- What every refresh keeps of a manually assigned consumer. -/
structure Watch.Manual (topic : String) (w : Watch ω) : Prop where
  group : w.consumer.group = none
  learned : 0 < w.learned → w.learned ≤ w.consumer.known topic
  covered : w.Covered topic

theorem told_check {reported : List (String × ℤ × ℤ)} {learned : ℤ} {c : Consumer ω}
    (hgroup : c.group = none) (hknown : 0 < c.known topic)
    (horderly : ∀ stage ∈ Refresh.check.stages T c, Orderly topic stage)
    (htold : ∀ i, learned ≤ i → i < c.known topic → Told topic reported c i) :
    ∀ i, learned ≤ i → i < (Refresh.check.exec T c).2.known topic →
      Told topic reported (Refresh.check.exec T c).2 i := by
  obtain ⟨topics, c', hcheck⟩ := exists_checked T c
  have hsame : c'.known topic = c.known topic := known_of_noted hcheck.noted
  have hpending : c'.expansions = c.expansions := congrArg (·.2.2) hcheck.noted
  have htold' : ∀ i, learned ≤ i → i < c'.known topic → Told topic reported c' i := by
    rw [hsame]
    exact fun i hlearned hi => (htold i hlearned hi).of_pending (by rw [hpending])
  have hgroup' : c'.group = none := (congrArg (·.2.1) hcheck.noted).trans hgroup
  intro i hlearned hi
  rw [hcheck.known] at hi
  apply (turns_told hgroup' (hsame ▸ hknown) (hcheck.stages ▸ horderly) htold' i hlearned hi).of_pending
  rw [hcheck.expansions]

theorem told_other {reported : List (String × ℤ × ℤ)} {learned : ℤ} {c : Consumer ω}
    {r : Refresh} (hcheck : r ≠ .check) (htake : r ≠ .takeExpansions) (hknown : 0 < c.known topic)
    (horderly : ∀ stage ∈ r.stages T c, Orderly topic stage)
    (htold : ∀ i, learned ≤ i → i < c.known topic → Told topic reported c i) :
    ∀ i, learned ≤ i → i < (r.exec T c).2.known topic → Told topic reported (r.exec T c).2 i := by
  intro i hlearned hi
  rw [known_other hcheck hknown horderly] at hi
  apply (htold i hlearned hi).of_pending
  rw [(books_exec hcheck htake c).2]

theorem manual_step {w : Watch ω} (h : w.Manual topic) {r : Refresh}
    (horderly : ∀ stage ∈ r.stages T w.consumer, Orderly topic stage) :
    (w.step T topic r).Manual topic := by
  refine ⟨group_exec_none r h.group, ?_, ?_⟩
  · show 0 < (if 0 < w.learned then w.learned else _) → (if 0 < w.learned then w.learned else _) ≤ _
    split
    next hlearned =>
      intro _
      have hle := h.learned hlearned
      exact hle.trans (known_le_exec (hlearned.trans_le hle) horderly)
    next => exact fun _ => le_rfl
  · show ∀ i, (if 0 < w.learned then w.learned else _) ≤ i → _ → Told _ _ _ i
    split
    next hlearned =>
      have hknown := hlearned.trans_le (h.learned hlearned)
      cases r with
      | check => simpa [Watch.step, Refresh.reports] using told_check h.group hknown horderly h.covered
      | takeExpansions =>
          intro i hi hlt
          obtain ⟨before, after, hmem, hin⟩ := h.covered i hi hlt
          exact ⟨before, after, List.mem_append_left _ hmem, hin⟩
      | leaderAddr _ | assign _ _ | listOffset _ _ | partitionCount _ =>
          have htold := told_other (by simp) (by simp) hknown horderly h.covered
          simpa [Watch.step, Refresh.reports] using htold
    next => exact fun i hi hlt => absurd hlt hi.not_gt

variable (T) in
/-- Where a known count is raised only by the topic's own turn in a check, and never
while a report waits, growth is not lost: a manually assigned consumer is told of every
partition added since the count was first known, and a subscribed one is made to rejoin
by every growth. -/
theorem growth_not_lost (topic : String) (c : Consumer ω) (refreshes : List Refresh)
    (hrising : ∀ pre r, pre ++ [r] <+: refreshes →
      r.Rising T topic (run (Watch.step T topic) (.start topic c) pre).consumer)
    (hnoticed : ∀ pre r, pre ++ [r] <+: refreshes →
      r.Noticed T topic (run (Watch.step T topic) (.start topic c) pre).consumer) :
    (c.group = none → (run (Watch.step T topic) (.start topic c) refreshes).Covered topic) ∧
      ∀ pre r, pre ++ [r] <+: refreshes → ∀ before after : Consumer ω,
        before = (run (Watch.step T topic) (.start topic c) pre).consumer →
        after = (run (Watch.step T topic) (.start topic c) (pre ++ [r])).consumer →
        0 < before.known topic → before.known topic < after.known topic →
        ∀ group, before.group = some group →
          after.group = some group.requestRejoin ∧
            group.requestRejoin.member.state = .unjoined := by
  constructor
  · intro hgroup
    have hstart : (Watch.start topic c).Manual topic :=
      ⟨hgroup, fun _ => le_rfl, fun i hi hlt => absurd hlt hi.not_gt⟩
    have hmanual : (run (Watch.step T topic) (.start topic c) refreshes).Manual topic := by
      refine run_induction_of_prefix (I := fun _ w => Watch.Manual topic w) hstart refreshes ?_
      intro pre r hpre h
      exact manual_step h (orderly_of (hrising pre r hpre) (hnoticed pre r hpre))
    exact hmanual.covered
  · intro pre r hpre before after hbefore hafter hknown hraised group hgroup
    rw [run_concat] at hafter
    subst hbefore hafter
    have horderly := orderly_of (hrising pre r hpre) (hnoticed pre r hpre)
    exact ⟨rejoin_exec hgroup hknown horderly hraised, state_requestRejoin group⟩

/-- The metadata of a topic with so many partitions, all led by one broker. -/
def partitionsOfT (n : ℕ) : Body :=
  .metadata ⟨[⟨1, "b", 1⟩], 1, [⟨0, some "t", (List.range n).map fun p => ⟨0, p, 1⟩⟩]⟩

/-- A connected consumer that takes its metadata for stale at once, before a broker that
lists so many partitions of `t` from one answer to the next. -/
def growing (counts : List ℕ) : Consumer Tape :=
  setMetadataMaxAge 0 (connected (counts.map partitionsOfT))

/-- Each growth is found by a check, and taken before the next one. -/
theorem growth_not_lost_taken :
    (run (Watch.step Tape.transport "t") (.start "t" (growing [2, 4, 6]))
      [.assign ⟨"t", 0⟩ 0, .check, .takeExpansions, .check]).Covered "t" := by
  refine (growth_not_lost Tape.transport "t" (growing [2, 4, 6]) _ (forall_along ?_)
    (forall_along ?_)).1 rfl
  · exact ⟨by decide, by decide, by decide +kernel, by decide +kernel, trivial⟩
  · exact ⟨by decide, by decide, by decide +kernel, by decide +kernel, trivial⟩

/-- A caller that asks for the count between two checks. -/
def countAsked : List Refresh := [.assign ⟨"t", 0⟩ 0, .partitionCount "t", .check, .takeExpansions]

/-- A topic grows from two partitions to four. The caller asks for the count, which reads
the metadata again; the check that follows has nothing to compare with, and partitions 2
and 3 are never reported. -/
theorem growth_lost :
    let w := run (Watch.step Tape.transport "t") (.start "t" (growing [2, 4, 4])) countAsked
    (∀ pre r, pre ++ [r] <+: countAsked → r.Rising Tape.transport "t"
        (run (Watch.step Tape.transport "t") (.start "t" (growing [2, 4, 4])) pre).consumer) ∧
      (growing [2, 4, 4]).group = none ∧ w.learned = 2 ∧ w.consumer.known "t" = 4 ∧
      w.reported ++ w.consumer.takeExpansions.1 = [] ∧ ¬w.Covered "t" := by
  intro w
  have hnone : w.reported ++ w.consumer.takeExpansions.1 = [] := by decide
  refine ⟨forall_along ?_, rfl, by decide, by decide, hnone, ?_⟩
  · exact ⟨by decide, by decide, by decide +kernel, by decide +kernel, trivial⟩
  · intro h
    obtain ⟨before, after, hmem, -⟩ := h 2 (by decide) (by decide)
    rw [hnone] at hmem
    cases hmem

end Consumer

end Barnabas.Client
