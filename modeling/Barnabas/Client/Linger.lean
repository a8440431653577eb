import Barnabas.Client.Fencing
import Barnabas.Client.Ordering
import Barnabas.Client.ProducerRules

/-!
What leaves the stage, and when.

Whether a staged batch is due is decided partition by partition: it is full, or it has
waited for as long as the linger says. What is due is queued and then sent with `flush`.
But `flush` is also what a caller sends everything with, and begins by queueing the rest
of the stage. So as soon as one partition is due, all of them are sent.
-/

namespace Barnabas.Client

open Barnabas.Lib Barnabas.Core Barnabas.Lib.Act

variable {ω : Type}

namespace Producer

variable (T : Transport ω)

/-- What a call has to leave of the stage it finds: what is not due stays where it is, and
if the call succeeds then what is due, and nothing else, was numbered and acknowledged. -/
structure Honours (p : Producer ω) (result : Except Error Unit × Producer ω) : Prop where
  stays : ∀ tp, tp ∉ p.ready (p.clock T) → result.2.staged[tp]? = p.staged[tp]?
  sends : result.1 = .ok () → ∀ tp ∈ p.ready (p.clock T), result.2.staged[tp]? = none ∧
    result.2.sequenced tp = p.sequenced tp ++ p.stagedFor tp ∧ result.2.pending[tp]? = none
  nothingElse : result.1 = .ok () → ∀ tp, tp ∉ p.ready (p.clock T) →
    result.2.sequenced tp = p.sequenced tp

/-- The producer once the clock was read. -/
def ticked (p : Producer ω) : Producer ω :=
  { p with cluster := (Cluster.now (ε := Error) T p.cluster).2 }

/-- Nothing in the stage is due, or everything is, or what is due cannot be queued. -/
def AllOrNone (p : Producer ω) : Prop :=
  p.ready (p.clock T) = [] ∨ (∀ tp, tp ∈ p.staged → tp ∈ p.ready (p.clock T)) ∨
    ∃ e, (enqueueStaged T (p.ready (p.clock T)) (p.ticked T)).1 = .error e

/-- The producer in which `produce_to` looks for what is due: it has staged the record. -/
def onceStaged (tp : TopicPartition) (record : ProducerRecord) (p : Producer ω) : Producer ω :=
  ((do
    let staged ← stageFor T tp
    modify fun p => { p with
      staged := p.staged.insert tp
        ⟨staged.records ++ [record], staged.bytes + recordBytes record, staged.since⟩ } :
    Act (Producer ω) Error Unit) p).2

theorem produceTo_eq (tp : TopicPartition) (record : ProducerRecord) (p : Producer ω) :
    produceTo T tp record p = sendReady T (p.onceStaged T tp record) := by
  obtain ⟨staged, c, -, hstage, -⟩ := stageFor_cases T tp p
  rw [produceTo, bind_of_ok hstage, onceStaged, bind_of_ok hstage]
  rfl

/-! ### What queueing takes out of the stage -/

theorem bears_staged : Bears T (Appends Cluster.sent fun _ => True) (Act.Keeps (·.staged))
    (fun _ => True) where
  permits := Cluster.permits_appends T fun _ _ => trivial
  cluster _ _ _ := rfl
  coordinator _ _ := rfl
  state _ _ _ _ := rfl
  offsets _ _ := rfl

theorem staged_enqueueTaken (tp : TopicPartition) (records : List ProducerRecord) :
    Moves (Act.Keeps (·.staged)) (enqueueTaken T tp records) := by
  refine Moves.bind (Moves.attempt ((bears_staged T).enqueue (fun _ _ _ => trivial)
    (fun _ _ => rfl) (fun _ _ _ => rfl) tp records)) fun outcome => ?_
  cases outcome with
  | ok _ => exact Moves.pure _
  | error e => exact Moves.bind (Moves.modify fun _ => rfl) fun _ => Moves.throw _

/-- Of the stage, `p'` has what `p` has, less some of these partitions. -/
def Unstages (tps : List TopicPartition) (p p' : Producer ω) : Prop :=
  ∀ tp, p'.staged[tp]? = p.staged[tp]? ∨ p'.staged[tp]? = none ∧ tp ∈ tps

variable {T}

/-- The stage after some partitions were queued, or not all of them. -/
theorem unstages_enqueueStaged (tps : List TopicPartition) (p : Producer ω) :
    Unstages tps p (enqueueStaged T tps p).2 ∧
      ((enqueueStaged T tps p).1 = .ok () →
        ∀ tp ∈ tps, (enqueueStaged T tps p).2.staged[tp]? = none) ∧
      ∀ tp rest, tps = tp :: rest → (enqueueStaged T tps p).2.staged[tp]? = none := by
  induction tps generalizing p with
  | nil => exact ⟨fun tp => .inl rfl, fun _ => by simp, by simp⟩
  | cons tp rest ih =>
      rw [enqueueStaged, bind_of_ok (get_apply p)]
      -- what is not staged does not come back
      have hgone : ∀ {q : Producer ω}, q.staged[tp]? = none →
          (enqueueStaged T rest q).2.staged[tp]? = none := by
        intro q hq
        rcases (ih q).1 tp with heq | ⟨hnone, -⟩
        · exact heq.trans hq
        · exact hnone
      cases hget : p.staged[tp]? with
      | none =>
          refine ⟨fun tp' => ?_, fun hok tp' hmem => ?_, ?_⟩
          · exact ((ih p).1 tp').imp id fun h => ⟨h.1, List.mem_cons_of_mem _ h.2⟩
          · rcases List.mem_cons.mp hmem with rfl | hmem
            · exact hgone hget
            · exact (ih p).2.1 hok tp' hmem
          · rintro _ _ heq
            cases heq
            exact hgone hget
      | some staged =>
          dsimp only
          rw [bind_of_ok (set_apply p _)]
          have herased : ∀ q : Producer ω, q.staged = p.staged.erase tp →
              q.staged[tp]? = none ∧ ∀ tp', tp' ≠ tp → q.staged[tp']? = p.staged[tp']? := by
            intro q hq
            refine ⟨by simp [hq], fun tp' hne => ?_⟩
            have hne' : ¬tp = tp' := fun heq => hne heq.symm
            simp [hq, Std.TreeMap.getElem?_erase, hne']
          have htaken := staged_enqueueTaken T tp staged.records
            { p with staged := p.staged.erase tp }
          rcases hresult : enqueueTaken T tp staged.records
            { p with staged := p.staged.erase tp } with ⟨e | _, q⟩
          · rw [hresult] at htaken
            obtain ⟨hnone, hother⟩ := herased q htaken
            rw [bind_of_error hresult]
            refine ⟨fun tp' => ?_, by simp, ?_⟩
            · by_cases htp : tp' = tp
              · rw [htp]
                exact .inr ⟨hnone, List.mem_cons_self⟩
              · exact .inl (hother tp' htp)
            · rintro _ _ heq
              cases heq
              exact hnone
          · rw [hresult] at htaken
            obtain ⟨hnone, hother⟩ := herased q htaken
            rw [bind_of_ok hresult]
            refine ⟨fun tp' => ?_, fun hok tp' hmem => ?_, ?_⟩
            · by_cases htp : tp' = tp
              · rw [htp]
                exact .inr ⟨hgone hnone, List.mem_cons_self⟩
              · rcases (ih q).1 tp' with heq | ⟨hnone', hmem⟩
                · exact .inl (heq.trans (hother tp' htp))
                · exact .inr ⟨hnone', List.mem_cons_of_mem _ hmem⟩
            · rcases List.mem_cons.mp hmem with rfl | hmem
              · exact hgone hnone
              · exact (ih q).2.1 hok tp' hmem
            · rintro _ _ heq
              cases heq
              exact hgone hnone

/-- `flush` after the stage was drained leaves the stage alone. -/
theorem staged_attempts (p : Producer ω) :
    (Act.attempts (flushOnce T) (fun _ => do throw (← get).stillPending) maxRetries 0 []
      p).2.staged = p.staged :=
  (bears_staged T).attempts (fun _ => trivial) (fun _ _ _ => rfl) (Moves.modify fun _ => rfl) [] p

/-- Nothing comes back to the stage once it has been drained. -/
theorem flush_staged_of_drained {p : Producer ω} {tp : TopicPartition}
    (h : (enqueueStaged T p.staged.keys p).2.staged[tp]? = none) :
    (flush T p).2.staged[tp]? = none := by
  have hdrain : drainStaged T p = enqueueStaged T p.staged.keys p := rfl
  rw [flush]
  rcases hresult : enqueueStaged T p.staged.keys p with ⟨e | _, q⟩
  · rw [hresult] at h
    rw [bind_of_error (hdrain.trans hresult)]
    exact h
  · rw [hresult] at h
    rw [bind_of_ok (hdrain.trans hresult), staged_attempts]
    exact h

/-- Whatever comes of it, `flush` takes something out of a stage that is not empty. -/
theorem flush_unstages {p : Producer ω} {tp : TopicPartition} (h : tp ∈ p.staged) :
    ∃ tp', tp' ∈ p.staged ∧ (flush T p).2.staged[tp']? = none := by
  have hkeys : tp ∈ p.staged.keys := Std.TreeMap.mem_keys.mpr h
  cases hsplit : p.staged.keys with
  | nil =>
      rw [hsplit] at hkeys
      cases hkeys
  | cons first rest =>
      have hfirst : first ∈ p.staged := by
        rw [← Std.TreeMap.mem_keys, hsplit]
        exact List.mem_cons_self
      have hnone := (unstages_enqueueStaged (T := T) p.staged.keys p).2.2 first rest hsplit
      exact ⟨first, hfirst, flush_staged_of_drained hnone⟩

/-- No call puts anything into the stage that was not there. -/
theorem flush_staged_none {p : Producer ω} {tp : TopicPartition} (h : p.staged[tp]? = none) :
    (flush T p).2.staged[tp]? = none := by
  apply flush_staged_of_drained
  rcases (unstages_enqueueStaged (T := T) p.staged.keys p).1 tp with heq | ⟨hnone, -⟩
  · exact heq.trans h
  · exact hnone

/-! ### `flush` returns once nothing is pending -/

theorem settleWindow_finishes {attempt : ℕ} {written result : List (TopicPartition × ℤ)}
    {outcomes : List (List (TopicPartition × ErrorCode))} {p p' : Producer ω}
    (h : settleWindow T attempt written outcomes p = (.ok (.inr result), p')) :
    p'.pending.isEmpty := by
  obtain ⟨verdict, p₁, -, h⟩ := bind_eq_ok h
  obtain ⟨more, p₂, -, h⟩ := bind_eq_ok h
  obtain ⟨_, p₃, -, h⟩ := bind_eq_ok h
  rw [bind_of_ok (get_apply p₃)] at h
  split at h
  next hempty =>
    cases h
    exact hempty
  next =>
    obtain ⟨_, p₄, -, h⟩ := bind_eq_ok h
    obtain ⟨_, p₅, -, h⟩ := bind_eq_ok h
    cases h

theorem flushOnce_finishes {attempt : ℕ} {written result : List (TopicPartition × ℤ)}
    {p p' : Producer ω} (h : flushOnce T attempt written p = (.ok (.inr result), p')) :
    p'.pending.isEmpty := by
  obtain ⟨_, p₁, -, h⟩ := bind_eq_ok h
  rw [bind_of_ok (get_apply p₁)] at h
  split at h
  next hempty =>
    cases h
    exact hempty
  next =>
    obtain ⟨⟨byBroker, unroutable⟩, p₂, -, h⟩ := bind_eq_ok h
    dsimp only at h
    split at h
    · split at h
      · cases h
      · obtain ⟨_, p₃, -, h⟩ := bind_eq_ok h
        cases h
    · obtain ⟨rounds, p₃, -, h⟩ := bind_eq_ok h
      obtain ⟨⟨outcomes, failure⟩, p₄, -, h⟩ := bind_eq_ok h
      cases failure with
      | none => exact settleWindow_finishes h
      | some e =>
          obtain ⟨_, p₅, -, h⟩ := bind_eq_ok h
          cases e with
          | io e =>
              dsimp only at h
              split at h
              · obtain ⟨_, p₆, -, h⟩ := bind_eq_ok h
                cases h
              · cases h
          | _ => cases h

theorem flush_finishes {written : List (TopicPartition × ℤ)} {p p' : Producer ω}
    (h : flush T p = (.ok written, p')) : p'.pending.isEmpty := by
  obtain ⟨_, p₁, -, h⟩ := bind_eq_ok h
  obtain ⟨p₂, -, ⟨attempt, sofar, hlast⟩ | ⟨_, hlast⟩⟩ :=
    attempts_eq_ok (R := Act.Keeps fun _ => ()) (fun _ _ _ => rfl) h
  · exact flushOnce_finishes hlast
  · cases hlast

/-! ### What `send_ready` leaves -/

theorem sendReady_eq (p : Producer ω) : sendReady T p =
    (if p.ready (p.clock T) = [] then pure ()
    else do
      enqueueStaged T (p.ready (p.clock T))
      let _ ← flush T : Act (Producer ω) Error Unit) (p.ticked T) := rfl

theorem sendReady_of_nothing {p : Producer ω} (h : p.ready (p.clock T) = []) :
    sendReady T p = (.ok (), p.ticked T) := by
  rw [sendReady_eq, if_pos h]
  rfl

theorem sendReady_of_refused {p : Producer ω} {e : Error}
    (h : (enqueueStaged T (p.ready (p.clock T)) (p.ticked T)).1 = .error e) :
    sendReady T p = (.error e, (enqueueStaged T (p.ready (p.clock T)) (p.ticked T)).2) := by
  have hne : p.ready (p.clock T) ≠ [] := by
    intro hnil
    rw [hnil] at h
    cases h
  rw [sendReady_eq, if_neg hne]
  exact bind_of_error (Prod.fst_eq_iff.mp h)

theorem sendReady_of_queued {p : Producer ω} (hne : p.ready (p.clock T) ≠ [])
    (h : (enqueueStaged T (p.ready (p.clock T)) (p.ticked T)).1 = .ok ()) :
    sendReady T p = (do let _ ← flush T : Act (Producer ω) Error Unit)
      (enqueueStaged T (p.ready (p.clock T)) (p.ticked T)).2 := by
  rw [sendReady_eq, if_neg hne]
  exact bind_of_ok (Prod.fst_eq_iff.mp h)

/-- What is in the stage and not due is sent together with what is due, unless there is
none of the one or the other, or what is due cannot be queued. -/
theorem allOrNone_of_honours {p : Producer ω} (h : Honours T p (sendReady T p)) :
    AllOrNone T p := by
  by_contra hnot
  rw [AllOrNone, not_or, not_or] at hnot
  obtain ⟨hne, hrest, hrefused⟩ := hnot
  push Not at hrest hrefused
  obtain ⟨tp, hstaged, hnotdue⟩ := hrest
  have hok : (enqueueStaged T (p.ready (p.clock T)) (p.ticked T)).1 = .ok () := by
    rcases hresult : (enqueueStaged T (p.ready (p.clock T)) (p.ticked T)).1 with e | _
    · exact absurd hresult (hrefused e)
    · rfl
  obtain ⟨hunstages, hdone, -⟩ :=
    unstages_enqueueStaged (T := T) (p.ready (p.clock T)) (p.ticked T)
  rw [sendReady_of_queued hne hok] at h
  have hstays := h.stays
  rw [bind_pure_snd] at hstays
  -- what is not due is still there when `flush` begins, and it takes some of it
  have hkept : tp ∈ (enqueueStaged T (p.ready (p.clock T)) (p.ticked T)).2.staged := by
    rcases hunstages tp with heq | ⟨-, hdue⟩
    · rw [Std.TreeMap.mem_iff_isSome_getElem?, heq, ← Std.TreeMap.mem_iff_isSome_getElem?]
      exact hstaged
    · exact absurd hdue hnotdue
  obtain ⟨taken, hmem, hnone⟩ := flush_unstages (T := T) hkept
  have hundue : taken ∉ p.ready (p.clock T) := by
    intro hdue
    rw [Std.TreeMap.mem_iff_isSome_getElem?, hdone hok taken hdue] at hmem
    cases hmem
  rcases hunstages taken with heq | ⟨-, hdue⟩
  · rw [Std.TreeMap.mem_iff_isSome_getElem?, heq] at hmem
    have hsame := hstays taken hundue
    rw [hnone] at hsame
    have hback : p.staged[taken]?.isSome := hmem
    rw [← hsame] at hback
    cases hback
  · exact hundue hdue

theorem honours_of_allOrNone {p : Producer ω} (h : AllOrNone T p) :
    Honours T p (sendReady T p) := by
  rcases h with hnothing | hall | ⟨e, hrefused⟩
  · rw [sendReady_of_nothing hnothing]
    refine ⟨fun tp _ => rfl, fun _ tp hdue => ?_, fun _ tp _ => rfl⟩
    rw [hnothing] at hdue
    cases hdue
  · by_cases hne : p.ready (p.clock T) = []
    · rw [sendReady_of_nothing hne]
      refine ⟨fun tp _ => rfl, fun _ tp hdue => ?_, fun _ tp _ => rfl⟩
      rw [hne] at hdue
      cases hdue
    have hunstaged : ∀ tp : TopicPartition, tp ∉ p.ready (p.clock T) → p.staged[tp]? = none :=
      fun tp hnotdue => Std.TreeMap.getElem?_eq_none fun hmem => hnotdue (hall tp hmem)
    obtain ⟨hunstages, hdone, -⟩ :=
      unstages_enqueueStaged (T := T) (p.ready (p.clock T)) (p.ticked T)
    have hgone : ∀ tp : TopicPartition, p.staged[tp]? = none →
        (sendReady T p).2.staged[tp]? = none := by
      intro tp hnone
      have hafter : (enqueueStaged T (p.ready (p.clock T)) (p.ticked T)).2.staged[tp]? = none := by
        rcases hunstages tp with heq | ⟨hnone', -⟩
        · exact heq.trans hnone
        · exact hnone'
      rcases hresult : (enqueueStaged T (p.ready (p.clock T)) (p.ticked T)).1 with e | _
      · rw [sendReady_of_refused hresult]
        exact hafter
      · rw [sendReady_of_queued hne hresult, bind_pure_snd]
        exact flush_staged_none hafter
    have hsent : (sendReady T p).1 = .ok () → ∀ tp, (sendReady T p).2.staged[tp]? = none ∧
        (sendReady T p).2.sequenced tp = p.sequenced tp ++ p.stagedFor tp ∧
        (sendReady T p).2.pending[tp]? = none := by
      intro hok tp
      obtain ⟨hnone, hpending⟩ : (sendReady T p).2.staged[tp]? = none ∧
          (sendReady T p).2.pending.isEmpty := by
        rcases hresult : (enqueueStaged T (p.ready (p.clock T)) (p.ticked T)).1 with e | _
        · rw [sendReady_of_refused hresult] at hok
          cases hok
        · rw [sendReady_of_queued hne hresult] at hok ⊢
          obtain ⟨written, p', hflush, -⟩ := bind_eq_ok (Prod.fst_eq_iff.mp hok)
          rw [bind_pure_snd]
          refine ⟨?_, by rw [hflush]; exact flush_finishes hflush⟩
          by_cases hdue : tp ∈ p.ready (p.clock T)
          · exact flush_staged_none (hdone hresult tp hdue)
          · rcases hunstages tp with heq | ⟨hnone, -⟩
            · exact flush_staged_none (heq.trans (hunstaged tp hdue))
            · exact flush_staged_none hnone
      refine ⟨hnone, ?_, Std.TreeMap.getElem?_of_isEmpty hpending⟩
      have hrecords := (follows_sendReady (Prod.fst_eq_iff.mp hok)).records tp
      have hempty : (sendReady T p).2.stagedFor tp = [] := by rw [stagedFor, hnone]; rfl
      rw [hempty, List.append_nil] at hrecords
      simpa [recordsFor] using hrecords
    refine ⟨fun tp hnotdue => ?_, fun hok tp _ => hsent hok tp, fun hok tp hnotdue => ?_⟩
    · rw [hunstaged tp hnotdue]
      exact hgone tp (hunstaged tp hnotdue)
    · have hempty : p.stagedFor tp = [] := by rw [stagedFor, hunstaged tp hnotdue]; rfl
      rw [(hsent hok tp).2.1, hempty, List.append_nil]
  · rw [sendReady_of_refused hrefused]
    refine ⟨fun tp hnotdue => ?_, by simp, by simp⟩
    rcases (unstages_enqueueStaged (T := T) (p.ready (p.clock T)) (p.ticked T)).1 tp with
      heq | ⟨-, hdue⟩
    · exact heq
    · exact absurd hdue hnotdue

variable (T) in
/-- **The linger is honoured for every partition exactly if all of the stage is due or none
of it, or what is due cannot be queued**, at the moment a `tick` or a `produce_to`, which
has staged its record by then, looks at the clock. -/
theorem linger_honoured_iff :
    (∀ p : Producer ω, Honours T p (tick T p) ↔ AllOrNone T p) ∧
      ∀ (p : Producer ω) tp record, Honours T (p.onceStaged T tp record) (produceTo T tp record p) ↔
        AllOrNone T (p.onceStaged T tp record) := by
  refine ⟨fun p => ⟨allOrNone_of_honours, honours_of_allOrNone⟩, fun p tp record => ?_⟩
  rw [produceTo_eq]
  exact ⟨allOrNone_of_honours, honours_of_allOrNone⟩

/-- A broker that leads two partitions of `t` and takes a batch for each. -/
def twoStaged : Tape :=
  .of [.apiVersions ⟨0, []⟩, .initProducerId ⟨0, 7, 0⟩,
    .metadata ⟨[⟨1, "b", 1⟩], 1, [⟨0, some "t", [⟨0, 0, 1⟩, ⟨0, 1, 1⟩]⟩]⟩,
    .produce [("t", [⟨0, 0, 0⟩, ⟨1, 0, 0⟩])]]

/-- A producer with a linger and a batch size that has a small batch staged for `t-0`, and
then one that fills a batch staged for `t-1`. -/
def smallStaged : Producer Tape :=
  run (Call.step Tape.transport) (Producer.idempotent Tape.transport twoStaged ["b:1"] "c").2
    [.setLinger 1000, .setBatchSize ⟨20, by decide⟩, .produceTo ⟨"t", 0⟩ Handed.firstRecord]

def large : ProducerRecord := ⟨none, some [1, 2, 3, 4], none, 2⟩

/-- The batch of `t-1` is full, and that of `t-0`, which is neither full nor overdue, goes
with it. -/
theorem small_batch_sent_along :
    let p := smallStaged.onceStaged Tape.transport ⟨"t", 1⟩ large
    let result := produceTo Tape.transport ⟨"t", 1⟩ large smallStaged
    p.staged.keys = [⟨"t", 0⟩, ⟨"t", 1⟩] ∧ p.ready (p.clock Tape.transport) = [⟨"t", 1⟩] ∧
      result.1 = .ok () ∧ result.2.staged.keys = [] ∧
      result.2.sequenced ⟨"t", 0⟩ = [Handed.firstRecord] ∧ ¬Honours Tape.transport p result := by
  intro p result
  have hkeys : p.staged.keys = [⟨"t", 0⟩, ⟨"t", 1⟩] := by decide
  have hready : p.ready (p.clock Tape.transport) = [⟨"t", 1⟩] := by decide
  have hnone : (result.2.staged[(⟨"t", 0⟩ : TopicPartition)]?).isNone := by decide +kernel
  have hsome : (p.staged[(⟨"t", 0⟩ : TopicPartition)]?).isSome := by decide
  refine ⟨hkeys, hready, by decide +kernel, by decide +kernel, by decide +kernel, fun h => ?_⟩
  have hsame := h.stays ⟨"t", 0⟩ (by rw [hready]; decide)
  rw [← hsame] at hsome
  rw [Option.isNone_iff_eq_none.mp hnone] at hsome
  cases hsome

end Producer

end Barnabas.Client
