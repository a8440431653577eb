import Barnabas.Client.Ordering
import Barnabas.Client.ProducerRules
import Barnabas.Lib.Turns

/-!
Where the records without a key go.

They are meant to take turns among the partitions, and the round-robin counter says whose
turn it is. `send_keyed` hands the counter of the producer to the partitioner, which
advances it. `produce` hands over a copy and drops it: the record is placed, and the turn
is not over. So the next record without a key goes to the same partition again.
-/

namespace Barnabas.Client

open Barnabas.Lib Barnabas.Core Barnabas.Lib.Act

variable {ω : Type}

/-- The records without a key. -/
def keyless (records : List ProducerRecord) : List ProducerRecord := records.filter (·.key.isNone)

/-- Those among the placed ones, in the order they were placed. -/
def keylessPlaced (placed : List (TopicPartition × ProducerRecord)) :
    List (TopicPartition × ProducerRecord) :=
  placed.filter (·.2.key.isNone)

/-- How many records without a key a partition was given. -/
def share (placed : List (TopicPartition × ProducerRecord)) (partition : ℕ) : ℕ :=
  (keylessPlaced placed).countP fun entry => entry.1.partition = (partition : ℤ)

/-- The records without a key took turns among `n` partitions, from counter `c` on, and
were shared out evenly. -/
structure TookTurns (n c : ℕ) (placed : List (TopicPartition × ProducerRecord)) : Prop where
  turn : ∀ (k : ℕ) entry, (keylessPlaced placed)[k]? = some entry →
    entry.1.partition = ((c + k) % n : ℕ)
  even : ∀ i j, i < n → j < n → share placed i ≤ share placed j + 1

namespace Call

/-- The call is one that places records by key, and the topic has `n` partitions. -/
def PlacesAmong (T : Transport ω) (n : ℕ) (p : Producer ω) : Call → Prop
  | produce topic _ | sendKeyed topic _ =>
      (Producer.partitionCountWaiting T topic p).1 = .ok (n : ℤ)
  | _ => False

instance (T : Transport ω) (n : ℕ) (p : Producer ω) : DecidablePred (PlacesAmong T n p) :=
  fun call => by
    cases call with
    | produce topic _ => exact inferInstanceAs (Decidable (_ = _))
    | sendKeyed topic _ => exact inferInstanceAs (Decidable (_ = _))
    | _ => exact inferInstanceAs (Decidable False)

/-- The call places a record without a key by a copy of the counter. -/
def Stalls : Call → Prop
  | produce _ record => record.key = none
  | _ => False

instance : DecidablePred Stalls := fun call => by
  cases call with
  | produce _ record => exact inferInstanceAs (Decidable (record.key = none))
  | _ => exact inferInstanceAs (Decidable False)

/-- How far the call advances the counter. -/
def advance : Call → ℕ
  | sendKeyed _ records => (keyless records).length
  | _ => 0

end Call

/-- A record without a key comes after one that `produce` has placed. -/
def Repeats : List Call → Prop
  | [] => False
  | call :: rest => call.Stalls ∧ (∃ later ∈ rest, keyless later.records ≠ []) ∨ Repeats rest

instance : DecidablePred Repeats := fun calls => by
  induction calls with
  | nil => exact inferInstanceAs (Decidable False)
  | cons call rest ih => exact inferInstanceAs (Decidable (_ ∨ _))

/-- The turns in which the records without a key are placed. -/
def slots (n : ℕ) : ℕ → List Call → List ℕ
  | _, [] => []
  | c, call :: rest =>
      turns n c (keyless call.records).length ++ slots n (c + call.advance) rest

/-! ### Whose turn it is -/

theorem Call.PlacesAmong.advance_cases {T : Transport ω} {n : ℕ} {p : Producer ω} {call : Call}
    (h : call.PlacesAmong T n p) :
    call.Stalls ∧ call.advance = 0 ∧ (keyless call.records).length = 1 ∨
      ¬call.Stalls ∧ call.advance = (keyless call.records).length := by
  cases call with
  | produce topic record =>
      cases hkey : record.key with
      | none => exact .inl ⟨hkey, rfl, by simp [keyless, Call.records, hkey]⟩
      | some key =>
          right
          refine ⟨by simp [Call.Stalls, hkey], ?_⟩
          simp [keyless, Call.records, Call.advance, hkey]
  | sendKeyed topic records => exact .inr ⟨id, rfl⟩
  | _ => exact h.elim

/-- As long as there are records without a key, the next one takes the turn the counter is
at, if every call before it that has none leaves the counter alone. -/
theorem slots_head {n c : ℕ} {calls : List Call} (h : ∃ call ∈ calls, keyless call.records ≠ []) :
    ∃ rest, slots n c calls = c % n :: rest := by
  induction calls generalizing c with
  | nil => exact absurd h (by simp)
  | cons call calls ih =>
      rw [slots]
      cases hnumber : (keyless call.records).length with
      | zero =>
          have hnone : keyless call.records = [] := List.length_eq_zero_iff.mp hnumber
          have hstill : call.advance = 0 := by
            cases call with
            | sendKeyed topic records => exact hnumber
            | _ => rfl
          have hrest : ∃ call ∈ calls, keyless call.records ≠ [] := by
            obtain ⟨other, hmem, hne⟩ := h
            rcases List.mem_cons.mp hmem with rfl | hmem
            · exact absurd hnone hne
            · exact ⟨other, hmem, hne⟩
          rw [hstill]
          exact ih hrest
      | succ m =>
          refine ⟨turns n (c + 1) m ++ slots n (c + call.advance) calls, ?_⟩
          rw [Nat.add_comm m 1, turns_append, turns_one]
          rfl

theorem slots_eq_nil {n c : ℕ} {calls : List Call}
    (h : ¬∃ call ∈ calls, keyless call.records ≠ []) : slots n c calls = [] := by
  induction calls generalizing c with
  | nil => rfl
  | cons call calls ih =>
      have hnone : keyless call.records = [] := by
        by_contra hne
        exact h ⟨call, List.mem_cons_self, hne⟩
      rw [slots, hnone, ih fun ⟨other, hmem, hne⟩ => h ⟨other, List.mem_cons_of_mem _ hmem, hne⟩]
      rfl

theorem Repeats.exists {calls : List Call} (h : Repeats calls) :
    ∃ call ∈ calls, keyless call.records ≠ [] := by
  induction calls with
  | nil => exact h.elim
  | cons call calls ih =>
      rcases h with ⟨-, later, hmem, hne⟩ | h
      · exact ⟨later, List.mem_cons_of_mem _ hmem, hne⟩
      · obtain ⟨later, hmem, hne⟩ := ih h
        exact ⟨later, List.mem_cons_of_mem _ hmem, hne⟩

theorem slots_lt {n c slot : ℕ} (hn : 0 < n) {calls : List Call} (h : slot ∈ slots n c calls) :
    slot < n := by
  induction calls generalizing c with
  | nil => cases h
  | cons call calls ih =>
      rcases List.mem_append.mp h with h | h
      · obtain ⟨k, -, rfl⟩ := List.mem_map.mp h
        exact Nat.mod_lt _ hn
      · exact ih h

/-- Of several slots, they are taken in turn exactly if nothing is placed in a turn that
was taken before. -/
theorem slots_eq_turns_iff_of_lt {n c : ℕ} (hn : 1 < n) {calls : List Call}
    (hcalls : ∀ call ∈ calls, call.Stalls ∧ call.advance = 0 ∧ (keyless call.records).length = 1 ∨
      ¬call.Stalls ∧ call.advance = (keyless call.records).length) :
    slots n c calls = turns n c (slots n c calls).length ↔ ¬Repeats calls := by
  induction calls generalizing c with
  | nil => simp [slots, turns, Repeats]
  | cons call calls ih =>
      have hrest := fun c => ih (c := c) fun other hmem => hcalls other (List.mem_cons_of_mem _ hmem)
      rw [slots, List.length_append, length_turns, turns_append, List.append_cancel_left_eq]
      rcases hcalls call List.mem_cons_self with ⟨hstalls, hstill, hone⟩ | ⟨hmoves, hadvance⟩
      · rw [hstill, hone, Nat.add_zero]
        by_cases hlater : ∃ later ∈ calls, keyless later.records ≠ []
        · have hrepeats : Repeats (call :: calls) := .inl ⟨hstalls, hlater⟩
          obtain ⟨rest, hslots⟩ := slots_head (n := n) (c := c) hlater
          refine iff_of_false ?_ (not_not.mpr hrepeats)
          rw [hslots, List.length_cons, Nat.add_comm rest.length 1, turns_append, turns_one,
            List.singleton_append, List.cons.injEq]
          rintro ⟨hhead, -⟩
          -- the turn after this one would be this one
          have hmod : c + 0 ≡ c + 1 [MOD n] := hhead
          have hdvd : n ∣ 1 := (Nat.modEq_zero_iff_dvd).mp (Nat.ModEq.add_left_cancel' c hmod).symm
          exact absurd (Nat.dvd_one.mp hdvd) hn.ne'
        · have hnot : ¬Repeats (call :: calls) := by
            rintro (⟨-, h⟩ | h)
            · exact hlater h
            · exact hlater h.exists
          rw [slots_eq_nil hlater]
          exact iff_of_true rfl hnot
      · rw [hadvance, hrest]
        simp [Repeats, hmoves]

theorem slots_eq_turns_iff {n c : ℕ} (hn : 0 < n) {calls : List Call}
    (hcalls : ∀ call ∈ calls, call.Stalls ∧ call.advance = 0 ∧ (keyless call.records).length = 1 ∨
      ¬call.Stalls ∧ call.advance = (keyless call.records).length) :
    slots n c calls = turns n c (slots n c calls).length ↔ n = 1 ∨ ¬Repeats calls := by
  by_cases hone : n = 1
  · refine iff_of_true (eq_turns_iff.mpr fun k slot hslot => ?_) (.inl hone)
    have hlt := slots_lt hn (List.mem_of_getElem? hslot)
    have hmod := Nat.mod_lt (c + k) hn
    omega
  · rw [slots_eq_turns_iff_of_lt (by omega) hcalls, or_iff_right hone]

/-! ### Where the calls place them -/

namespace Producer

/-- A record with a key leaves the counter alone. One without takes the turn of the
counter, and advances it. -/
theorem partitionFor_eq (partitioner : Partitioner) {n : ℕ} (hn : 0 < n) (key : Option Bytes)
    (next : ℕ) : ∃ partition, (key = none → partition = ((next % n : ℕ) : ℤ)) ∧
      partitioner.partitionFor key n next =
        (some partition, if key.isNone then (next + 1) % 2 ^ 32 else next) := by
  have hpos : ¬(n : ℤ) ≤ 0 := by omega
  cases key with
  | none =>
      refine ⟨_, fun _ => rfl, ?_⟩
      rw [Partitioner.partitionFor, if_neg hpos, Int.toNat_natCast]
      rfl
  | some key =>
      obtain ⟨partition, hplace⟩ : ∃ partition,
          partitioner.partitionFor (some key) n next = (some partition, next) :=
        ⟨_, by rw [Partitioner.partitionFor, if_neg hpos]⟩
      exact ⟨partition, nofun, hplace⟩

/-- Grouping advances the counter by the records without a key. -/
theorem groupByPartition_counter {topic : String} {n : ℕ} (hn : 0 < n)
    {records : List ProducerRecord} (groups : Std.TreeMap ℤ (List ProducerRecord)) {p : Producer ω}
    (hfew : p.roundRobin + (keyless records).length < 2 ^ 32) :
    ∃ groups', (groupByPartition topic n records groups : Act (Producer ω) Error _) p =
      (.ok groups', { p with roundRobin := p.roundRobin + (keyless records).length }) := by
  induction records generalizing groups p with
  | nil => exact ⟨groups, rfl⟩
  | cons record rest ih =>
      obtain ⟨partition, -, hplace⟩ := partitionFor_eq p.partitioner hn record.key p.roundRobin
      rw [groupByPartition, bind_of_ok (get_apply p), hplace]
      dsimp only
      rw [bind_of_ok (set_apply p _)]
      cases hkey : record.key with
      | some key =>
          have hsame : keyless (record :: rest) = keyless rest := by simp [keyless, hkey]
          rw [hsame] at hfew ⊢
          exact ih _ hfew
      | none =>
          have hmore : keyless (record :: rest) = record :: keyless rest := by simp [keyless, hkey]
          rw [hmore, List.length_cons] at hfew ⊢
          have hnext : (p.roundRobin + 1) % 2 ^ 32 = p.roundRobin + 1 := Nat.mod_eq_of_lt (by omega)
          simp only [Option.isNone_none, if_true]
          rw [hnext, Nat.add_comm (keyless rest).length 1, ← Nat.add_assoc]
          exact ih _ (show p.roundRobin + 1 + (keyless rest).length < 2 ^ 32 by omega)

/-- The records without a key take turns, from the counter on. -/
theorem keyless_placements (partitioner : Partitioner) {n : ℕ} (hn : 0 < n) (topic : String)
    {next : ℕ} {records : List ProducerRecord}
    (hfew : next + (keyless records).length < 2 ^ 32) :
    (keylessPlaced (placements partitioner n topic next records)).map (·.1.partition) =
      (turns n next (keyless records).length).map (fun slot : ℕ => (slot : ℤ)) := by
  induction records generalizing next with
  | nil => rfl
  | cons record rest ih =>
      obtain ⟨partition, hturn, hplace⟩ := partitionFor_eq partitioner hn record.key next
      rw [placements, hplace]
      dsimp only
      cases hkey : record.key with
      | some key =>
          have hsame : keyless (record :: rest) = keyless rest := by simp [keyless, hkey]
          rw [hsame] at hfew ⊢
          have hskip : ∀ placed, keylessPlaced ((⟨topic, partition⟩, record) :: placed) =
              keylessPlaced placed := by
            intro placed
            simp [keylessPlaced, hkey]
          rw [hskip]
          exact ih hfew
      | none =>
          have hmore : keyless (record :: rest) = record :: keyless rest := by simp [keyless, hkey]
          rw [hmore, List.length_cons] at hfew ⊢
          have hnext : (next + 1) % 2 ^ 32 = next + 1 := Nat.mod_eq_of_lt (by omega)
          have hhead : ∀ placed, keylessPlaced ((⟨topic, partition⟩, record) :: placed) =
              (⟨topic, partition⟩, record) :: keylessPlaced placed := by
            intro placed
            simp [keylessPlaced, hkey]
          simp only [Option.isNone_none, if_true]
          rw [hhead, hnext, List.map_cons, ih (by omega),
            Nat.add_comm (keyless rest).length 1, turns_append, turns_one,
            List.map_append, hturn hkey]
          rfl

/-! ### What leaves the counter alone -/

section Counter

variable (T : Transport ω)

theorem bears_counter : Bears T (Appends Cluster.sent fun _ => True) (Act.Keeps (·.roundRobin))
    (fun _ => True) where
  permits := Cluster.permits_appends T fun _ _ => trivial
  cluster _ _ _ := rfl
  coordinator _ _ := rfl
  state _ _ _ _ := rfl
  offsets _ _ := rfl

theorem counter_enqueue (tp : TopicPartition) (records : List ProducerRecord) :
    Moves (Act.Keeps (·.roundRobin)) (enqueue T tp records) :=
  (bears_counter T).enqueue (fun _ _ _ => trivial) (fun _ _ => rfl) (fun _ _ _ => rfl) tp records

theorem counter_enqueueTaken (tp : TopicPartition) (records : List ProducerRecord) :
    Moves (Act.Keeps (·.roundRobin)) (enqueueTaken T tp records) := by
  refine Moves.bind (Moves.attempt (counter_enqueue T tp records)) fun outcome => ?_
  cases outcome with
  | ok _ => exact Moves.pure _
  | error e => exact Moves.bind (Moves.modify fun _ => rfl) fun _ => Moves.throw _

theorem counter_enqueueStaged (tps : List TopicPartition) :
    Moves (Act.Keeps (·.roundRobin)) (enqueueStaged T tps) := by
  induction tps with
  | nil => exact Moves.pure _
  | cons tp rest ih =>
      refine Moves.bind_get fun p => ?_
      cases p.staged[tp]? with
      | none => exact ih p
      | some staged =>
          have htaken : Act.Keeps (·.roundRobin) p { p with staged := p.staged.erase tp } := rfl
          refine moves_bind_at htaken fun _ p' _ => ?_
          exact Moves.bind (counter_enqueueTaken T tp _) (fun _ => ih) p'

theorem counter_flush : Moves (Act.Keeps (·.roundRobin)) (flush T) := by
  refine Moves.bind (Moves.bind Moves.get fun p => counter_enqueueStaged T _) fun _ => ?_
  exact (bears_counter T).attempts (fun _ => trivial) (fun _ _ _ => rfl)
    (Moves.modify fun _ => rfl) []

theorem counter_produceTo (tp : TopicPartition) (record : ProducerRecord) :
    Moves (Act.Keeps (·.roundRobin)) (produceTo T tp record) := by
  refine Moves.bind ((bears_counter T).stageFor tp) fun staged => ?_
  refine Moves.bind (Moves.modify fun _ => rfl) fun _ => ?_
  refine Moves.bind (fun _ => rfl) fun now => Moves.bind Moves.get fun p => ?_
  refine Moves.ite (Moves.pure _) (Moves.bind (counter_enqueueStaged T _) fun _ => ?_)
  exact Moves.bind (counter_flush T) fun _ => Moves.pure _

theorem counter_enqueueGroups (topic : String) (groups : List (ℤ × List ProducerRecord)) :
    Moves (Act.Keeps (·.roundRobin)) (enqueueGroups T topic groups) := by
  induction groups with
  | nil => exact Moves.pure _
  | cons group rest ih => exact Moves.bind (counter_enqueue T _ _) fun _ => ih

end Counter

end Producer

/-! ### One call -/

namespace Call

open Producer

variable {T : Transport ω} {n : ℕ}

/-- The partition count is looked up, and nothing else of the producer changes. -/
theorem partitionCountWaiting_eq {topic : String} {p : Producer ω}
    (h : (partitionCountWaiting T topic p).1 = .ok (n : ℤ)) :
    ∃ c, partitionCountWaiting T topic p = (.ok (n : ℤ), { p with cluster := c }) := by
  obtain ⟨c, hc⟩ := aside_partitionCountWaiting T topic p
  exact ⟨c, Prod.ext h hc⟩

/-- Where a call puts the records without a key. -/
theorem keyless_passed (hn : 0 < n) {p : Producer ω} {call : Call} (h : call.PlacesAmong T n p)
    (hfew : p.roundRobin + (keyless call.records).length < 2 ^ 32) :
    (keylessPlaced (call.passed T p)).map (·.1.partition) =
      (turns n p.roundRobin (keyless call.records).length).map (fun slot : ℕ => (slot : ℤ)) := by
  cases call with
  | produce topic record =>
      obtain ⟨c, hcount⟩ := partitionCountWaiting_eq h
      obtain ⟨partition, hturn, hplace⟩ :=
        partitionFor_eq p.partitioner hn record.key p.roundRobin
      have hchosen : (Producer.partitionFor T topic record.key p).1 = .ok partition := by
        rw [Producer.partitionFor, bind_of_ok hcount, bind_of_ok (get_apply _), hplace]
        rfl
      rw [passed, hchosen]
      dsimp only
      cases hkey : record.key with
      | some key => simp [keylessPlaced, keyless, Call.records, hkey, turns]
      | none => simp [keylessPlaced, keyless, Call.records, hkey, turns, hturn hkey]
  | sendKeyed topic records =>
      obtain ⟨c, hcount⟩ := partitionCountWaiting_eq h
      rw [passed, hcount]
      exact keyless_placements p.partitioner hn topic hfew
  | _ => exact h.elim

/-- How far a call moves the counter. -/
theorem roundRobin_step (hn : 0 < n) {p : Producer ω} {call : Call} (h : call.PlacesAmong T n p)
    (hfew : p.roundRobin + (keyless call.records).length < 2 ^ 32) :
    (call.step T p).roundRobin = p.roundRobin + call.advance := by
  cases call with
  | produce topic record =>
      exact Moves.bind ((bears_counter T).partitionFor topic record.key)
        (fun _ => counter_produceTo T _ record) p
  | sendKeyed topic records =>
      obtain ⟨c, hcount⟩ := partitionCountWaiting_eq h
      rw [Call.step, Call.exec, bind_pure_snd]
      unfold Producer.sendKeyed
      split
      next hempty =>
        rw [List.isEmpty_iff.mp hempty]
        rfl
      next =>
        obtain ⟨groups, hgroups⟩ : ∃ groups, groupByPartition topic n records ∅
            { p with cluster := c } = (.ok groups,
              { p with cluster := c, roundRobin := p.roundRobin + (keyless records).length }) :=
          groupByPartition_counter hn ∅ hfew
        rw [bind_of_ok hcount, bind_of_ok hgroups]
        refine Moves.bind ((bears_counter T).enrollAll (fun _ _ _ => trivial) _ _) (fun _ => ?_) _
        refine Moves.bind (counter_enqueueGroups T topic _) fun _ => ?_
        exact Moves.bind (counter_flush T) fun _ => Moves.pure _
  | _ => exact h.elim

end Call

/-! ### Runs -/

namespace Handed

variable {T : Transport ω} {n : ℕ}

/-- How far a run moves the counter. -/
def advanced (calls : List Call) : ℕ := (calls.map Call.advance).sum

theorem keylessPlaced_append (placed more : List (TopicPartition × ProducerRecord)) :
    keylessPlaced (placed ++ more) = keylessPlaced placed ++ keylessPlaced more :=
  List.filter_append ..

/-- The records without a key are placed in the slots, and the counter moves by those of
`send_keyed`. -/
theorem placed_run (hn : 0 < n) {calls : List Call} {h : Handed ω}
    (hcalls : ∀ pre call, pre ++ [call] <+: calls →
      call.PlacesAmong T n (run (step T) h pre).producer)
    (hfew : h.producer.roundRobin + (keyless (calls.flatMap Call.records)).length < 2 ^ 32) :
    (keylessPlaced (run (step T) h calls).passed).map (·.1.partition) =
        (keylessPlaced h.passed).map (·.1.partition) ++
          (slots n h.producer.roundRobin calls).map (fun slot : ℕ => (slot : ℤ)) ∧
      (run (step T) h calls).producer.roundRobin = h.producer.roundRobin + advanced calls := by
  induction calls generalizing h with
  | nil => simp [slots, advanced]
  | cons call calls ih =>
      have hfirst : call.PlacesAmong T n h.producer := hcalls [] call (by simp)
      have hsplit : keyless ((call :: calls).flatMap Call.records) =
          keyless call.records ++ keyless (calls.flatMap Call.records) := by
        rw [List.flatMap_cons, keyless, List.filter_append, keyless, keyless]
      rw [hsplit, List.length_append] at hfew
      have hadvance : call.advance ≤ (keyless call.records).length := by
        cases call with
        | sendKeyed topic records => exact le_rfl
        | _ => exact Nat.zero_le _
      have hcounter : (h.step T call).producer.roundRobin = h.producer.roundRobin + call.advance :=
        Call.roundRobin_step hn hfirst (by omega)
      obtain ⟨hplaced, hmoved⟩ := ih (h := h.step T call) (fun pre call' hpre => by
        have := hcalls (call :: pre) call' (by simpa using hpre)
        exact this) (by rw [hcounter]; omega)
      rw [hcounter] at hplaced hmoved
      constructor
      · rw [slots, List.map_append, ← Call.keyless_passed hn hfirst (by omega), ← List.append_assoc,
          ← List.map_append, ← keylessPlaced_append]
        exact hplaced
      · rw [advanced, List.map_cons, List.sum_cons, ← Nat.add_assoc]
        exact hmoved

/-- The shares are read off the slots. -/
theorem share_eq {placed : List (TopicPartition × ProducerRecord)} {filled : List ℕ}
    (h : (keylessPlaced placed).map (·.1.partition) = filled.map (fun slot : ℕ => (slot : ℤ)))
    (i : ℕ) : share placed i = filled.count i := by
  have hshare : share placed i =
      ((keylessPlaced placed).map (·.1.partition)).countP (fun partition => partition = (i : ℤ)) := by
    rw [List.countP_map]
    rfl
  rw [hshare, h, List.countP_map, List.count]
  apply List.countP_congr
  intro slot _
  simp

/-- Turns are taken if the slots are those of the counter. -/
theorem tookTurns_iff {c : ℕ} {placed : List (TopicPartition × ProducerRecord)} {filled : List ℕ}
    (h : (keylessPlaced placed).map (·.1.partition) = filled.map (fun slot : ℕ => (slot : ℤ))) :
    TookTurns n c placed ↔ filled = turns n c filled.length := by
  have hget : ∀ k : ℕ, ((keylessPlaced placed)[k]?).map (·.1.partition) =
      (filled[k]?).map (fun slot : ℕ => (slot : ℤ)) := by
    intro k
    rw [← List.getElem?_map, ← List.getElem?_map, h]
  constructor
  · intro hturns
    refine eq_turns_iff.mpr fun k slot hslot => ?_
    have hk := hget k
    rw [hslot, Option.map_some, Option.map_eq_some_iff] at hk
    obtain ⟨entry, hentry, hpartition⟩ := hk
    exact_mod_cast hpartition.symm.trans (hturns.turn k entry hentry)
  · intro hturns
    constructor
    · intro k entry hentry
      have hk := hget k
      rw [hentry, Option.map_some, eq_comm, Option.map_eq_some_iff] at hk
      obtain ⟨slot, hslot, hpartition⟩ := hk
      rw [← hpartition, eq_turns_iff.mp hturns k slot hslot]
    · intro i j hi hj
      rw [share_eq h, share_eq h, hturns]
      exact count_turns_le hi hj

/-- **The records without a key take turns exactly if there is one partition only, or none
of them comes after one that `produce` has placed.** In any case the counter moves by the
records without a key that `send_keyed` places, and by nothing else. -/
theorem keyless_take_turns_iff (T : Transport ω) {n : ℕ} (hn : 0 < n) (p : Producer ω)
    (calls : List Call)
    (hcalls : ∀ pre call, pre ++ [call] <+: calls →
      call.PlacesAmong T n (run (step T) (start p) pre).producer)
    (hfew : (keyless (calls.flatMap Call.records)).length < 2 ^ 32 - p.roundRobin) :
    (TookTurns n p.roundRobin (run (step T) (start p) calls).passed ↔ n = 1 ∨ ¬Repeats calls) ∧
      (run (step T) (start p) calls).producer.roundRobin = p.roundRobin + advanced calls := by
  have hfew' : (start p).producer.roundRobin + (keyless (calls.flatMap Call.records)).length <
      2 ^ 32 := by
    show p.roundRobin + _ < _
    omega
  obtain ⟨hplaced, hmoved⟩ := placed_run hn hcalls hfew'
  refine ⟨?_, hmoved⟩
  rw [tookTurns_iff hplaced]
  refine slots_eq_turns_iff hn fun call hmem => ?_
  obtain ⟨pre, rest, hsplit⟩ := List.append_of_mem hmem
  exact Call.PlacesAmong.advance_cases (hcalls pre call ⟨rest, by rw [hsplit]; simp⟩)

/-- A broker that leads two partitions of `t` and takes two rounds of batches for them. -/
def twoPartitions : Tape :=
  .of [.apiVersions ⟨0, []⟩, .initProducerId ⟨0, 7, 0⟩,
    .metadata ⟨[⟨1, "b", 1⟩], 1, [⟨0, some "t", [⟨0, 0, 1⟩, ⟨0, 1, 1⟩]⟩]⟩,
    .produce [("t", [⟨0, 0, 0⟩, ⟨1, 0, 0⟩])], .produce [("t", [⟨1, 0, 1⟩])]]

/-- A producer that waits for company. -/
def lingering : Producer Tape :=
  { (Producer.idempotent Tape.transport twoPartitions ["b:1"] "c").2 with linger := 1000 }

def keyedRecord : ProducerRecord := ⟨some [3], some [3], none, 3⟩

/-- Two records without a key are handed to `produce`, and go to the same one of two
partitions. -/
theorem keyless_stay_put :
    let calls : List Call := [.produce "t" firstRecord, .produce "t" secondRecord]
    let placed := (run (step Tape.transport) (start lingering) calls).passed
    lingering.roundRobin = 0 ∧
      (∀ pre call, pre ++ [call] <+: calls →
        call.PlacesAmong Tape.transport 2 (run (step Tape.transport) (start lingering) pre).producer) ∧
      placed.map (·.1.partition) = [0, 0] ∧ share placed 0 = 2 ∧ share placed 1 = 0 ∧
      ¬TookTurns 2 lingering.roundRobin placed := by
  intro calls placed
  have hzero : share placed 0 = 2 := by decide
  have hone : share placed 1 = 0 := by decide
  refine ⟨by decide, ?_, by decide, hzero, hone, fun h => ?_⟩
  · exact forall_along ⟨by decide, by decide, trivial⟩
  · have heven := h.even 0 1 (by decide) (by decide)
    rw [hzero, hone] at heven
    exact absurd heven (by decide)

/-- Handed to `send_keyed`, they do not. -/
theorem keyless_take_turns_iff_twoPartitions :
    let calls : List Call := [.produce "t" keyedRecord, .sendKeyed "t" [firstRecord, secondRecord]]
    TookTurns 2 0 (run (step Tape.transport) (start lingering) calls).passed ∧
      (run (step Tape.transport) (start lingering) calls).producer.roundRobin = 2 := by
  intro calls
  have hcalls : ∀ pre call, pre ++ [call] <+: calls →
      call.PlacesAmong Tape.transport 2 (run (step Tape.transport) (start lingering) pre).producer :=
    forall_along ⟨by decide, by decide, trivial⟩
  have hturns := keyless_take_turns_iff Tape.transport (by decide : 0 < 2) lingering calls hcalls
    (by decide)
  have hcounter : lingering.roundRobin = 0 := by decide
  rw [hcounter] at hturns
  exact ⟨hturns.1.mpr (.inr (by decide)), hturns.2⟩

end Handed

end Barnabas.Client
