import Barnabas.Client.FetchSessions

/-!
Incremental fetches are as good as full ones.

A broker remembers, for each session, the offsets it was last asked for. A full fetch
sets them and an incremental one overwrites those it names. The consumer names only the
partitions whose position is not what it believes the broker to remember, so the requests
of a session come to the same as full ones as long as that belief is right; and it is
right over every run in which no broker declines a session.
-/

namespace Barnabas.Client

open Barnabas.Lib Barnabas.Core Barnabas.Lib.Act

namespace Consumer

variable {ω : Type}

/-- The partitions a request names, and the offsets it asks for. -/
def offsetsOf (req : FetchRequest) : List (TopicPartition × ℤ) :=
  req.topics.flatMap fun (topic, parts) =>
    parts.map fun part => (⟨topic, part.partition⟩, part.fetchOffset)

theorem offsetsOf_fetchRequest (c : Consumer ω) (addr : String) (partitions : List TopicPartition) :
    (offsetsOf (c.fetchRequest addr partitions)).Perm
      ((partitions.filter fun tp => !c.isKnown (c.sessionAt addr) tp).map fun tp =>
        (tp, c.positions.getD tp 0)) := by
  let entry (e : TopicPartition × FetchPartition) : TopicPartition × ℤ :=
    (⟨e.1.topic, e.2.partition⟩, e.2.fetchOffset)
  have hnamed := (flatten_byTopic_perm ((partitions.filter fun tp =>
    !c.isKnown (c.sessionAt addr) tp).map fun tp => (tp, c.fetchPartition tp))).map entry
  rw [List.map_map] at hnamed
  refine List.Perm.trans (List.Perm.of_eq ?_) hnamed
  rw [offsetsOf, fetchRequest, List.flatMap_map, flatten, List.map_flatMap]
  simp only [List.map_map]
  rfl

/-- Looking up a key whose entries all say the same. -/
theorem lookup_of_functional {α β : Type} [BEq α] [LawfulBEq α] [DecidableEq α] {l : List (α × β)}
    {f : α → β} (h : ∀ e ∈ l, e.2 = f e.1) (a : α) :
    l.lookup a = if a ∈ l.map (·.1) then some (f a) else none := by
  split
  · next hmem =>
      obtain ⟨e, he, rfl⟩ := List.mem_map.mp hmem
      cases hlookup : l.lookup e.1 with
      | none =>
          have hnone := List.lookup_eq_none_iff.mp hlookup e he
          simp at hnone
      | some b =>
          obtain ⟨before, behind, hsplit, -⟩ := List.lookup_eq_some_iff.mp hlookup
          exact congrArg some (h (e.1, b) (by simp [hsplit]))
  · next hmem =>
      rw [List.lookup_eq_none_iff]
      intro e he
      rw [bne_iff_ne]
      rintro rfl
      exact hmem (List.mem_map_of_mem he)

/-- The offset a request asks for. -/
theorem lookup_offsetsOf (c : Consumer ω) (addr : String) (partitions : List TopicPartition)
    (tp : TopicPartition) :
    (offsetsOf (c.fetchRequest addr partitions)).lookup tp =
      if tp ∈ partitions ∧ c.isKnown (c.sessionAt addr) tp = false then
        some (c.positions.getD tp 0) else none := by
  have hperm := offsetsOf_fetchRequest c addr partitions
  have hvalue : ∀ e ∈ offsetsOf (c.fetchRequest addr partitions), e.2 = c.positions.getD e.1 0 := by
    intro e he
    obtain ⟨tp, -, rfl⟩ := List.mem_map.mp (hperm.mem_iff.mp he)
    rfl
  rw [lookup_of_functional (f := fun tp => c.positions.getD tp 0) hvalue]
  congr 1
  rw [(hperm.map _).mem_iff, List.map_map]
  simp

/-- A fold that puts down the position of each partition knows the positions of all of them. -/
theorem getElem?_foldl_positions {positions : PartitionMap ℤ}
    {f : PartitionMap ℤ → TopicPartition → PartitionMap ℤ}
    (hf : ∀ known tp offset, positions[tp]? = some offset → f known tp = known.insert tp offset)
    {partitions : List TopicPartition} (hassigned : ∀ tp ∈ partitions, tp ∈ positions)
    (known : PartitionMap ℤ) (tp : TopicPartition) :
    (partitions.foldl f known)[tp]? = if tp ∈ partitions then positions[tp]? else known[tp]? := by
  induction partitions generalizing known with
  | nil => simp
  | cons first rest ih =>
      obtain ⟨hfirst, hrest⟩ := List.forall_mem_cons.mp hassigned
      obtain ⟨offset, hoffset⟩ := Option.isSome_iff_exists.mp
        (Std.TreeMap.mem_iff_isSome_getElem?.mp hfirst)
      rw [List.foldl_cons, ih hrest, hf known first offset hoffset, Std.TreeMap.getElem?_insert]
      by_cases htp : tp = first
      · subst htp
        simp [hoffset]
      · simp [htp, Ne.symm htp]

/-- What the session knows after its broker accepted. -/
theorem known_acceptSession {c : Consumer ω} (hincremental : c.incremental = true) (addr : String)
    {partitions : List TopicPartition} (hassigned : ∀ tp ∈ partitions, tp ∈ c.positions)
    (sessionId : ℤ) (tp : TopicPartition) :
    ((acceptSession addr partitions sessionId c).sessionAt addr).known[tp]? =
      if tp ∈ partitions then c.positions[tp]? else (c.sessionAt addr).known[tp]? := by
  rw [acceptSession, if_pos hincremental, sessionAt]
  dsimp only
  rw [Std.TreeMap.getD_insert_self]
  refine getElem?_foldl_positions (fun known tp offset hoffset => ?_) hassigned _ tp
  rw [hoffset]

/-! ### What brokers remember -/

/-- The offset that each partition of a session was last asked for. -/
abbrev Remembered := TopicPartition → Option ℤ

/-- A request at epoch 0 begins a session with what it asks for; one at a later epoch
overwrites that much. -/
def Remembered.after (old : Remembered) (epoch : ℤ) (asked : TopicPartition → Option ℤ) :
    Remembered :=
  fun tp => (asked tp).or (if epoch = 0 then none else old tp)

/-- A dialogue, what each broker remembers of it, and what it would remember if every
request named all of its partitions. -/
structure Mirror (ω : Type) where
  dialogue : Dialogue ω
  remembered : String → Remembered
  intended : String → Remembered

namespace Mirror

def start (c : Consumer ω) : Mirror ω := ⟨.start c, fun _ _ => none, fun _ _ => none⟩

variable (D : Decoders)

def step (m : Mirror ω) (t : Turn ω) : Mirror ω :=
  match t with
  | .answered addr partitions response =>
      let req := m.dialogue.consumer.fetchRequest addr partitions
      let full := fun tp =>
        if tp ∈ partitions then some (m.dialogue.consumer.positions.getD tp 0) else none
      if accepts response then
        ⟨m.dialogue.step D t,
          Function.update m.remembered addr
            ((m.remembered addr).after req.sessionEpoch fun tp => (offsetsOf req).lookup tp),
          Function.update m.intended addr ((m.intended addr).after req.sessionEpoch full)⟩
      else ⟨m.dialogue.step D t, m.remembered, m.intended⟩
  | t => ⟨m.dialogue.step D t, m.remembered, m.intended⟩

@[simp] theorem step_dialogue (m : Mirror ω) (t : Turn ω) :
    (m.step D t).dialogue = m.dialogue.step D t := by
  cases t with
  | answered addr partitions response =>
      rw [step]
      split <;> rfl
  | _ => rfl

theorem run_dialogue (m : Mirror ω) (turns : List (Turn ω)) :
    (run (step D) m turns).dialogue = run (Dialogue.step D) m.dialogue turns := by
  induction turns using List.reverseRecOn with
  | nil => rfl
  | append_singleton turns t ih => rw [run_concat, run_concat, step_dialogue, ih]

/-- Only partitions that are assigned are asked for. -/
def Assigned (m : Mirror ω) : Turn ω → Prop
  | .answered _ partitions _ => ∀ tp ∈ partitions, tp ∈ m.dialogue.consumer.positions
  | _ => True

instance (m : Mirror ω) : DecidablePred m.Assigned := fun t =>
  match t with
  | .answered _ partitions _ =>
      inferInstanceAs (Decidable (∀ tp ∈ partitions, tp ∈ m.dialogue.consumer.positions))
  | .reset => isTrue trivial
  | .setIncrementalFetch _ => isTrue trivial
  | .aside _ => isTrue trivial

/-- A session that is not open knows nothing; of an open one the consumer knows what its
broker remembers, and that is what full requests would have left. -/
def Reflects (m : Mirror ω) (addr : String) : Prop :=
  (m.dialogue.consumer.sessionAt addr).id = 0 ∧
      (∀ tp : TopicPartition, (m.dialogue.consumer.sessionAt addr).known[tp]? = none) ∨
    (m.dialogue.consumer.sessionAt addr).id ≠ 0 ∧
      ∀ tp : TopicPartition, (m.dialogue.consumer.sessionAt addr).known[tp]? = m.remembered addr tp ∧
        m.remembered addr tp = m.intended addr tp

variable {D}

theorem Reflects.of_same {m m' : Mirror ω} {addr : String} (h : m.Reflects addr)
    (hsession : m'.dialogue.consumer.sessionAt addr = m.dialogue.consumer.sessionAt addr)
    (hremembered : m'.remembered addr = m.remembered addr)
    (hintended : m'.intended addr = m.intended addr) : m'.Reflects addr := by
  rwa [Reflects, hsession, hremembered, hintended]

theorem Reflects.of_reset {m : Mirror ω} {addr : String}
    (h : m.dialogue.consumer.sessionAt addr = .reset) : m.Reflects addr := by
  left
  rw [h]
  exact ⟨rfl, fun tp => Std.TreeMap.getElem?_emptyc⟩

/-- The broker accepts, and goes on with the session. -/
theorem reflects_accepted {m : Mirror ω} {addr : String} (horder : m.dialogue.InOrder addr)
    (h : m.Reflects addr) (hincremental : m.dialogue.consumer.incremental = true)
    {partitions : List TopicPartition}
    (hassigned : ∀ tp ∈ partitions, tp ∈ m.dialogue.consumer.positions) (tp : TopicPartition) :
    let req := m.dialogue.consumer.fetchRequest addr partitions
    let full := fun tp =>
      if tp ∈ partitions then some (m.dialogue.consumer.positions.getD tp 0) else none
    (if tp ∈ partitions then m.dialogue.consumer.positions[tp]?
      else (m.dialogue.consumer.sessionAt addr).known[tp]?) =
        (m.remembered addr).after req.sessionEpoch (fun tp => (offsetsOf req).lookup tp) tp ∧
      (m.remembered addr).after req.sessionEpoch (fun tp => (offsetsOf req).lookup tp) tp =
        (m.intended addr).after req.sessionEpoch full tp := by
  intro req full
  have hepoch : req.sessionEpoch = (m.dialogue.consumer.sessionAt addr).epoch :=
    sessionEpoch_fetchRequest hincremental addr partitions
  have hposition : tp ∈ partitions →
      m.dialogue.consumer.positions[tp]? = some (m.dialogue.consumer.positions.getD tp 0) :=
    fun htp => by
      obtain ⟨offset, hoffset⟩ := Option.isSome_iff_exists.mp
        (Std.TreeMap.mem_iff_isSome_getElem?.mp (hassigned tp htp))
      rw [Std.TreeMap.getD_eq_getD_getElem?, hoffset]
      rfl
  simp only [Remembered.after, hepoch, req, full, lookup_offsetsOf]
  rcases h with ⟨hid, hnone⟩ | ⟨hid, hsame⟩
  · -- a full fetch names everything
    have hzero : (m.dialogue.consumer.sessionAt addr).epoch = 0 := by
      rcases horder with ⟨-, hzero⟩ | ⟨-, hne, -⟩
      · exact hzero
      · exact absurd hid hne
    have hunknown : m.dialogue.consumer.isKnown (m.dialogue.consumer.sessionAt addr) tp = false := by
      simp [isKnown, hid]
    rw [if_pos hzero, if_pos hzero, hnone, hunknown]
    by_cases htp : tp ∈ partitions
    · simp [htp, hposition htp]
    · simp [htp]
  · -- what is left out is remembered at the position it has
    have hpos : (m.dialogue.consumer.sessionAt addr).epoch ≠ 0 := by
      rcases horder with ⟨hzero, -⟩ | ⟨-, -, hlow, -⟩
      · exact absurd hzero hid
      · omega
    obtain ⟨hknown, hintended⟩ := hsame tp
    rw [if_neg hpos, if_neg hpos, hknown, ← hintended]
    by_cases htp : tp ∈ partitions
    · cases hisKnown : m.dialogue.consumer.isKnown (m.dialogue.consumer.sessionAt addr) tp with
      | false => simp [htp, hposition htp]
      | true =>
          have hequal : (m.dialogue.consumer.sessionAt addr).known[tp]? =
              m.dialogue.consumer.positions[tp]? := by
            simpa [isKnown, hincremental, hid] using hisKnown
          rw [hknown, hposition htp] at hequal
          simp [htp, hposition htp, hequal]
    · simp [htp]

theorem reflects_answered {m : Mirror ω} (horder : ∀ addr, m.dialogue.InOrder addr)
    (h : ∀ addr, m.Reflects addr) (addr : String) (partitions : List TopicPartition)
    (response : Except Error FetchResponse)
    (hassigned : ∀ tp ∈ partitions, tp ∈ m.dialogue.consumer.positions)
    (hkept : ¬m.dialogue.Declines (.answered addr partitions response)) (a : String) :
    (m.step D (.answered addr partitions response)).Reflects a := by
  obtain ⟨hincremental, ⟨hrefused, hsessions⟩ | ⟨resp, rfl, hcode, hsessions⟩⟩ :=
    absorbAnswer_cases D addr partitions response [] m.dialogue.consumer
  · -- an answer that is no good resets the session, or leaves it as it was
    have hstep : m.step D (.answered addr partitions response) =
        ⟨m.dialogue.step D (.answered addr partitions response), m.remembered, m.intended⟩ := by
      rw [step]
      rw [if_neg (by simp [hrefused])]
    rw [hstep]
    rcases hsessions with hsame | hreset
    · refine (h a).of_same ?_ rfl rfl
      rw [sessionAt, Dialogue.step, hsame]
      rfl
    · by_cases ha : a = addr
      · subst ha
        apply Reflects.of_reset
        rw [sessionAt, Dialogue.step, hreset, Std.TreeMap.getD_insert_self]
      · refine (h a).of_same ?_ rfl rfl
        rw [sessionAt, Dialogue.step, hreset, Std.TreeMap.getD_insert, if_neg]
        · rfl
        · simpa using Ne.symm ha
  · have haccepts : accepts (.ok resp) := by simpa [accepts] using hcode
    have hconsumer : (m.step D (.answered addr partitions (.ok resp))).dialogue.consumer =
        (absorbAnswer D ((addr, partitions), .ok resp) [] m.dialogue.consumer).2 := by
      rw [step_dialogue, Dialogue.step]
    by_cases hon : m.dialogue.consumer.incremental = true
    · -- only the session with the broker that answered moves on
      obtain ⟨hid, -, hothers⟩ := sessionAt_acceptSession hon hsessions
      by_cases ha : a = addr
      · subst ha
        right
        rw [hconsumer, hid]
        refine ⟨fun hzero => hkept ⟨hon, hcode, hzero⟩, fun tp => ?_⟩
        have hknown := known_acceptSession hon a hassigned resp.sessionId tp
        have hsame : (absorbAnswer D ((a, partitions), .ok resp) [] m.dialogue.consumer).2.sessionAt
            a = (acceptSession a partitions resp.sessionId m.dialogue.consumer).sessionAt a := by
          rw [sessionAt, hsessions, sessionAt]
        rw [hsame, hknown, step]
        rw [if_pos haccepts]
        dsimp only
        rw [Function.update_self, Function.update_self]
        exact reflects_accepted (horder a) (h a) hon hassigned tp
      · refine (h a).of_same ?_ ?_ ?_
        · rw [hconsumer]
          exact hothers a ha
        · rw [step]
          rw [if_pos haccepts]
          exact Function.update_of_ne ha _ _
        · rw [step]
          rw [if_pos haccepts]
          exact Function.update_of_ne ha _ _
    · -- without incremental fetch no session is open
      left
      have hsame : (absorbAnswer D ((addr, partitions), .ok resp) [] m.dialogue.consumer).2.sessionAt
          a = m.dialogue.consumer.sessionAt a := by
        rw [sessionAt, hsessions, acceptSession, if_neg hon, sessionAt]
      rw [hconsumer, hsame]
      rcases h a with hclosed | ⟨hid, -⟩
      · exact hclosed
      · rcases horder a with ⟨hzero, -⟩ | ⟨hon', -⟩
        · exact absurd hzero hid
        · exact absurd hon' hon

theorem reflects_step {m : Mirror ω} (horder : ∀ addr, m.dialogue.InOrder addr)
    (h : ∀ addr, m.Reflects addr) (t : Turn ω) (hassigned : m.Assigned t)
    (hkept : ¬m.dialogue.Declines t) (a : String) : (m.step D t).Reflects a := by
  cases t with
  | answered addr partitions response =>
      exact reflects_answered horder h addr partitions response hassigned hkept a
  | reset => exact Reflects.of_reset (sessionAt_resetSessions _ _)
  | setIncrementalFetch incremental =>
      cases incremental with
      | false =>
          apply Reflects.of_reset
          rw [sessionAt, step_dialogue, Dialogue.step, setIncrementalFetch]
          exact Std.TreeMap.getD_emptyc
      | true => exact (h a).of_same rfl rfl rfl
  | aside f =>
      refine (h a).of_same ?_ rfl rfl
      rw [sessionAt, step_dialogue, Dialogue.step, f.sessions]
      rfl

end Mirror

namespace Mirror

def moveTo (tp : TopicPartition) (offset : ℤ) : Turn Unit :=
  .aside ⟨setPosition tp offset, fun _ => rfl, fun _ => rfl⟩

/-- Two partitions are asked for twice, and one of them has moved in between. -/
def oneMoved : List (Turn Unit) :=
  [moveTo ⟨"t", 0⟩ 5, moveTo ⟨"t", 1⟩ 0, .answered "b:1" [⟨"t", 0⟩, ⟨"t", 1⟩] (.ok ⟨0, 9, []⟩),
    moveTo ⟨"t", 0⟩ 8, .answered "b:1" [⟨"t", 0⟩, ⟨"t", 1⟩] (.ok ⟨0, 9, []⟩)]

example : (run (step plainDecoders) (start (fromCluster (.new () ["b:1"] "client") .readCommitted))
    oneMoved).remembered "b:1" ⟨"t", 0⟩ = some 8 := by decide

end Mirror

end Consumer

end Barnabas.Client
