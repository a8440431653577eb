import Barnabas.Client.Sentinels

/-!
What a built consumer reads (`ConsumerReady::build` of `barnabas-client/src/builder.rs`).

The builder collects wishes and carries them out one by one when it builds: the settings
first, then every partition of the topics that are wanted whole, then the partitions that
were named. The wishes are carried out in order and each sets the position of one partition,
so that the last wish for a partition is the one that counts.
-/

namespace Barnabas.Client

open Barnabas.Lib Barnabas.Core Barnabas.Lib.Act

namespace Consumer

variable {ω : Type} {T : Transport ω}

/-- Nothing differs that the builder sets. -/
structure Unaltered (c c' : Consumer ω) : Prop where
  positions : c'.positions = c.positions
  isolation : c'.isolation = c.isolation
  maxWait : c'.maxWait = c.maxWait
  prefetch : c'.prefetch = c.prefetch
  incremental : c'.incremental = c.incremental

instance : IsPreorder (Consumer ω) Unaltered where
  refl _ := ⟨rfl, rfl, rfl, rfl, rfl⟩
  trans _ _ _ h h' := ⟨h'.positions.trans h.positions, h'.isolation.trans h.isolation,
    h'.maxWait.trans h.maxWait, h'.prefetch.trans h.prefetch, h'.incremental.trans h.incremental⟩

theorem consults_unaltered (T : Transport ω) :
    Consults T Cluster.Anyhow (fun _ => True) Unaltered where
  calls := (Cluster.coordinates_anyhow T).toPermits
  listOffsets _ _ _ := trivial
  cluster _ _ _ := ⟨rfl, rfl, rfl, rfl, rfl⟩
  discardOutstanding := moves_discardOutstanding T (fun _ _ _ => ⟨rfl, rfl, rfl, rfl, rfl⟩)
    fun _ _ => ⟨rfl, rfl, rfl, rfl, rfl⟩

/-- One partition starts at `start`, and nothing else that the builder sets differs. -/
structure Starts (tp : TopicPartition) (start : ℤ) (c c' : Consumer ω) : Prop where
  own : c'.positions[tp]? = some start
  others : ∀ q, q ≠ tp → c'.positions[q]? = c.positions[q]?
  isolation : c'.isolation = c.isolation
  maxWait : c'.maxWait = c.maxWait
  prefetch : c'.prefetch = c.prefetch
  incremental : c'.incremental = c.incremental

theorem starts_setPosition {c c₁ : Consumer ω} (h : Unaltered c c₁) (tp : TopicPartition)
    (start : ℤ) :
    Starts tp start c (setPosition tp start c₁) where
  own := Std.TreeMap.getElem?_insert_self
  others q hq := by
    rw [setPosition, Std.TreeMap.getElem?_insert, if_neg, h.positions]
    rw [Std.LawfulEqCmp.compare_eq_iff_eq]
    exact Ne.symm hq
  isolation := h.isolation
  maxWait := h.maxWait
  prefetch := h.prefetch
  incremental := h.incremental

theorem Starts.restart {tp : TopicPartition} {start start' : ℤ} {c c₁ c₂ : Consumer ω}
    (h : Starts tp start c c₁) (h' : Starts tp start' c₁ c₂) : Starts tp start' c c₂ where
  own := h'.own
  others q hq := (h'.others q hq).trans (h.others q hq)
  isolation := h'.isolation.trans h.isolation
  maxWait := h'.maxWait.trans h.maxWait
  prefetch := h'.prefetch.trans h.prefetch
  incremental := h'.incremental.trans h.incremental

theorem Starts.unaltered {tp : TopicPartition} {start : ℤ} {c c₁ c₂ : Consumer ω}
    (h : Starts tp start c c₁) (h' : Unaltered c₁ c₂) : Starts tp start c c₂ where
  own := by rw [h'.positions, h.own]
  others q hq := by rw [h'.positions, h.others q hq]
  isolation := h'.isolation.trans h.isolation
  maxWait := h'.maxWait.trans h.maxWait
  prefetch := h'.prefetch.trans h.prefetch
  incremental := h'.incremental.trans h.incremental

/-- An assignment that succeeds starts its partition: where it was asked to, if that is no
sentinel. -/
theorem starts_assign {tp : TopicPartition} {offset : ℤ} {c c' : Consumer ω}
    (h : assign T tp offset c = (.ok (), c')) :
    ∃ start, Starts tp start c c' ∧ (offset ≠ earliest → offset ≠ latest → start = offset) := by
  rw [assign] at h
  obtain ⟨⟨⟩, c₁, hdiscard, h⟩ := bind_eq_ok h
  obtain ⟨⟨⟩, c₂, hrefresh, h⟩ := bind_eq_ok h
  rw [bind_of_ok (modify_apply _ _)] at h
  have hprepared : Unaltered c c₂ := by
    have hrules := consults_unaltered T
    have hfirst := hrules.discardOutstanding c
    have hsecond := hrules.onCluster (hrules.calls.refreshMetadata tp.topic) c₁
    rw [hdiscard] at hfirst
    rw [hrefresh] at hsecond
    exact trans_of Unaltered hfirst hsecond
  have hset := starts_setPosition hprepared tp offset
  by_cases hsentinel : offset = earliest ∨ offset = latest
  · rw [if_pos hsentinel] at h
    obtain ⟨resolved, c₃, hlookup, h⟩ := bind_eq_ok h
    rw [bind_of_ok (modify_apply _ _)] at h
    cases h
    have hlooked := (consults_unaltered T).listOffset tp offset (setPosition tp offset c₂)
    rw [hlookup] at hlooked
    have hagain := starts_setPosition (refl_of Unaltered c₃) tp resolved
    have hstarted := (hset.unaltered hlooked).restart hagain
    refine ⟨resolved, hstarted.unaltered ⟨rfl, rfl, rfl, rfl, rfl⟩, ?_⟩
    intro hearliest hlatest
    exact absurd hsentinel (not_or.mpr ⟨hearliest, hlatest⟩)
  · rw [if_neg hsentinel] at h
    cases h
    exact ⟨offset, hset.unaltered ⟨rfl, rfl, rfl, rfl, rfl⟩, fun _ _ => rfl⟩

end Consumer

namespace ConsumerReady

open Consumer

variable {ω : Type} {T : Transport ω}

/-- Wishes with the offsets at which their partitions were started. -/
abbrev Granted := List ((TopicPartition × StartOffset) × ℤ)

/-- An offset that was asked for is the one that was started at; a sentinel is looked up. -/
def Granted.Honest (granted : Granted) : Prop :=
  ∀ x ∈ granted, x.1.2.asI64 ≠ earliest → x.1.2.asI64 ≠ latest → x.2 = x.1.2.asI64

theorem Granted.honest_nil : Granted.Honest [] := by
  intro x hx
  cases hx

/-- The last wish for a partition. -/
def Granted.start (granted : Granted) (tp : TopicPartition) : Option ℤ :=
  (granted.reverse.find? fun x => x.1.1 = tp).map (·.2)

/-- The wishes were granted one after the other, and the settings were left alone. -/
structure Grants (granted : Granted) (c c' : Consumer ω) : Prop where
  positions : ∀ tp, c'.positions[tp]? = (granted.start tp).or c.positions[tp]?
  isolation : c'.isolation = c.isolation
  maxWait : c'.maxWait = c.maxWait
  prefetch : c'.prefetch = c.prefetch
  incremental : c'.incremental = c.incremental

theorem Grants.of_unaltered {c c' : Consumer ω} (h : Unaltered c c') : Grants [] c c' where
  positions tp := by rw [h.positions]; rfl
  isolation := h.isolation
  maxWait := h.maxWait
  prefetch := h.prefetch
  incremental := h.incremental

theorem Granted.start_append (granted granted' : Granted) (tp : TopicPartition) :
    (granted ++ granted').start tp = (granted'.start tp).or (granted.start tp) := by
  rw [start, start, start, List.reverse_append, List.find?_append]
  cases granted'.reverse.find? fun x => x.1.1 = tp with
  | none => rfl
  | some x => rfl

theorem Grants.append {granted granted' : Granted} {c c₁ c' : Consumer ω}
    (h : Grants granted c c₁) (h' : Grants granted' c₁ c') : Grants (granted ++ granted') c c' where
  positions tp := by
    rw [h'.positions, h.positions, Granted.start_append, Option.or_assoc]
  isolation := h'.isolation.trans h.isolation
  maxWait := h'.maxWait.trans h.maxWait
  prefetch := h'.prefetch.trans h.prefetch
  incremental := h'.incremental.trans h.incremental

theorem Grants.of_starts {tp : TopicPartition} {start : ℤ} {c c' : Consumer ω}
    (h : Starts tp start c c') (wish : StartOffset) : Grants [((tp, wish), start)] c c' where
  positions q := by
    by_cases hq : tp = q
    · subst hq
      rw [h.own]
      simp [Granted.start]
    · rw [h.others q (Ne.symm hq)]
      simp [Granted.start, hq]
  isolation := h.isolation
  maxWait := h.maxWait
  prefetch := h.prefetch
  incremental := h.incremental

theorem grants_assignEach : ∀ {wishes : List (TopicPartition × StartOffset)} {c c' : Consumer ω},
    assignEach T wishes c = (.ok (), c') →
    ∃ granted : Granted, granted.map Prod.fst = wishes ∧ granted.Honest ∧ Grants granted c c'
  | [], c, c', h => by
      cases h
      exact ⟨[], rfl, Granted.honest_nil, Grants.of_unaltered (refl_of Unaltered c)⟩
  | (tp, wish) :: wishes, c, c', h => by
      rw [assignEach] at h
      obtain ⟨⟨⟩, c₁, hassign, h⟩ := bind_eq_ok h
      obtain ⟨start, hstarts, hasked⟩ := starts_assign hassign
      obtain ⟨granted, hwishes, hhonest, hgrants⟩ := grants_assignEach h
      refine ⟨((tp, wish), start) :: granted, by rw [List.map_cons, hwishes], ?_,
        (Grants.of_starts hstarts wish).append hgrants⟩
      intro x hx
      rcases List.mem_cons.mp hx with rfl | hx
      · exact hasked
      · exact hhonest x hx

/-- Every partition of the topics that are wanted whole, given how many each has. -/
def wholeTopics (topics : List (String × StartOffset)) (counts : List ℤ) :
    List (TopicPartition × StartOffset) :=
  (topics.zip counts).flatMap fun x =>
    (List.range x.2.toNat).map fun partition => (⟨x.1.1, partition⟩, x.1.2)

theorem grants_assignEvery : ∀ {topics : List (String × StartOffset)} {c c' : Consumer ω},
    assignEvery T topics c = (.ok (), c') →
    ∃ (counts : List ℤ) (granted : Granted), counts.length = topics.length ∧
      granted.map Prod.fst = wholeTopics topics counts ∧ granted.Honest ∧ Grants granted c c'
  | [], c, c', h => by
      cases h
      exact ⟨[], [], rfl, rfl, Granted.honest_nil, Grants.of_unaltered (refl_of Unaltered c)⟩
  | (topic, wish) :: topics, c, c', h => by
      rw [assignEvery] at h
      obtain ⟨count, c₁, hcount, h⟩ := bind_eq_ok h
      obtain ⟨⟨⟩, c₂, hassign, h⟩ := bind_eq_ok h
      have hsame := (consults_unaltered T).partitionCount topic c
      rw [hcount] at hsame
      obtain ⟨granted, hwishes, hhonest, hgrants⟩ := grants_assignEach hassign
      obtain ⟨counts, later, hlength, hlater, hhonest', hgrants'⟩ := grants_assignEvery h
      refine ⟨count :: counts, granted ++ later, by rw [List.length_cons, hlength, List.length_cons],
        ?_, ?_, ((Grants.of_unaltered hsame).append hgrants).append hgrants'⟩
      · rw [List.map_append, hwishes, hlater]
        rfl
      · intro x hx
        rcases List.mem_append.mp hx with hx | hx
        · exact hhonest x hx
        · exact hhonest' x hx

/-- What the settings make of a new consumer. -/
theorem settings_fromCluster (ready : ConsumerReady) (cluster : Cluster ω) :
    (ready.settings (fromCluster cluster ready.isolation)).positions = ∅ ∧
      (ready.settings (fromCluster cluster ready.isolation)).isolation = ready.isolation ∧
      (ready.settings (fromCluster cluster ready.isolation)).maxWait = ready.maxWait.getD 500 ∧
      (ready.settings (fromCluster cluster ready.isolation)).prefetch = ready.prefetch.getD true ∧
      (ready.settings (fromCluster cluster ready.isolation)).incremental =
        ready.incremental.getD true := by
  rw [settings]
  cases ready.maxWait <;> cases ready.prefetch <;> cases ready.incremental <;>
    exact ⟨rfl, rfl, rfl, rfl, rfl⟩

/-- A topic wanted whole from its end, and one of its partitions from its start. -/
def wishing : ConsumerReady :=
  ⟨["b:1"], "c", .readCommitted, none, some 100, none, some false, [(⟨"t", 0⟩, .at 3)],
    [("t", .latest)]⟩

/-- What the broker answers to it: the topic has one partition, which ends at 7. -/
def granting : Tape :=
  .of [.apiVersions ⟨0, []⟩, onePartition, onePartition, .listOffsets [("t", [⟨0, 0, -1, 7⟩])],
    onePartition]

end ConsumerReady

end Barnabas.Client
