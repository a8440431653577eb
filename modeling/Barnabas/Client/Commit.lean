import Barnabas.Client.Ledger
import Barnabas.Client.Recovery

/-!
What a commit stands for.

`commit_transaction` sends `EndTxn` and nothing else: it neither drains the stage nor
flushes the queues. A commit is complete when there is nothing left to send; then
every record that was accepted since the transaction was opened has been
acknowledged by the time `EndTxn` is written.
-/

namespace Barnabas.Client

open Barnabas.Lib Barnabas.Core Barnabas.Lib.Act World Producer

variable {ω : Type}

/-! ### How a transaction comes to be open -/

theorem Producer.filled_of_same {p p' : Producer ω} (h : p'.staged = p.staged)
    (hp : p.StagedFilled) : p'.StagedFilled := by
  intro tp staged hget
  rw [h] at hget
  exact hp tp staged hget

/-- A call keeps the stages filled, and no call but `begin_transaction` brings the
producer into a transaction. -/
theorem Call.exec_filled (T : Transport ω) (call : Call) {p : Producer ω} (hp : p.StagedFilled) :
    (call.exec T p).2.StagedFilled ∧ (call ≠ .beginTransaction →
      (call.exec T p).2.state.txn = .inTransaction → p.state.txn = .inTransaction) := by
  have hend : ∀ committed, (endTransaction T committed p).2.StagedFilled ∧
      ((endTransaction T committed p).2.state.txn = .inTransaction →
        p.state.txn = .inTransaction) := by
    intro committed
    rcases endTransaction_cases T committed p with ⟨-, e, heq⟩ | ⟨htxn, hending, -⟩
    · rw [heq]
      exact ⟨hp, id⟩
    · exact ⟨filled_of_same hending.same.staged hp, fun _ => htxn⟩
  by_cases hbegin : call = .beginTransaction
  · subst hbegin
    exact ⟨hp, fun h => absurd rfl h⟩
  by_cases hcommit : call = .commitTransaction
  · subst hcommit
    exact ⟨(hend true).1, fun _ => (hend true).2⟩
  by_cases habort : call = .abortTransaction
  · subst habort
    exact ⟨(hend false).1, fun _ => (hend false).2⟩
  · have hfeeds := feeding_exec (N := fun _ => True) T hbegin hcommit habort (fun _ _ => trivial) p
      ⟨hp, fun _ _ => trivial⟩
    refine ⟨hfeeds.bounded.filled, fun _ hopen => ?_⟩
    rcases hfeeds.txn with htxn | htxn
    · rwa [← htxn]
    · rw [htxn] at hopen
      cases hopen

/-- A `begin_transaction` that fails leaves the state machine where it was. -/
theorem Producer.begin_refused {p : Producer ω} (h : ¬(beginTransaction p).1.isOk) :
    (beginTransaction p).2.state.txn = p.state.txn := by
  rcases ProducerState.beginTransaction_cases p.state with ⟨-, heq⟩ | ⟨-, e', heq⟩
  · rw [beginTransaction, onState, mapError_apply, zoom_apply, heq] at h
    exact absurd rfl h
  · rw [beginTransaction, onState, mapError_apply, zoom_apply, heq]

namespace Ledger

/-- While a transaction is open, what was accepted in it is acknowledged or held. -/
structure Current (l : Ledger World) : Prop where
  kept : l.Kept
  filled : l.producer.StagedFilled
  current : l.producer.state.txn = .inTransaction → ∀ r ∈ l.current,
    Acked l.producer.cluster.wire.env r ∨ ∃ tp, r ∈ l.producer.held tp

theorem Current.step {l : Ledger World} (h : l.Current) (codec : Codec) (call : Call)
    (hstows : l.producer.state.txn = .inTransaction →
      (call.numbered l.next).Stows (World.transport codec) l.producer) :
    (l.step (World.transport codec) call).Current := by
  obtain ⟨lost, hlost, hfollow⟩ := h.kept.follow codec call
  obtain ⟨hfilled, htxn⟩ := (call.numbered l.next).exec_filled (World.transport codec) h.filled
  refine ⟨h.kept.step codec call, hfilled, fun hopen r hr => ?_⟩
  have hcurrent : (l.step (World.transport codec) call).current =
      if (call.numbered l.next).opens ∧
        ((call.numbered l.next).exec (World.transport codec) l.producer).1.isOk then []
      else l.current ++ if ((call.numbered l.next).exec (World.transport codec) l.producer).1.isOk
        then (call.numbered l.next).records else [] := rfl
  rw [hcurrent] at hr
  by_cases hbegun : (call.numbered l.next).opens ∧
      ((call.numbered l.next).exec (World.transport codec) l.producer).1.isOk
  · rw [if_pos hbegun] at hr
    cases hr
  · rw [if_neg hbegun] at hr
    have hbefore : l.producer.state.txn = .inTransaction := by
      by_cases hbegin : call.numbered l.next = .beginTransaction
      · rw [hbegin] at hbegun
        have hrefused := begin_refused (p := l.producer) fun hisOk => hbegun ⟨rfl, hisOk⟩
        change ((call.numbered l.next).exec (World.transport codec) l.producer).2.state.txn = _
          at hopen
        rw [hbegin] at hopen
        exact hrefused.symm.trans hopen
      · exact htxn hbegin hopen
    have hundrops := undrops_exec codec (hstows hbefore) h.kept.resting
    have hnone : lost = [] := by
      have hsame : l.producer.dropped ++ lost = l.producer.dropped := hlost.symm.trans hundrops.2
      simpa using hsame
    have hwhere := hfollow r
    rw [hnone] at hwhere
    have hlast : ∀ {P Q : Prop}, P ∨ r ∈ ([] : List ProducerRecord) ∨ Q → P ∨ Q := by simp
    rcases List.mem_append.mp hr with hr | hr
    · exact hlast (hwhere (.inl (h.current hbefore r hr)))
    · exact hlast (hwhere (.inr hr))

theorem Current.start {codec : Codec} {p : Producer World} (hp : Booted codec p) :
    (start p).Current := by
  have hbounded : Bounded (fun _ => True) p := by
    obtain ⟨script, bootstrap, clientId, hmade⟩ := hp
    exact bounded_of_started _ ⟨World.start script, bootstrap, clientId, hmade⟩
  exact ⟨(Kept.start hp).1, hbounded.filled, fun _ r hr => by cases hr⟩

end Ledger

/-- A commit that succeeds has written its `EndTxn`. -/
theorem Producer.commit_adds {T : Transport ω} {p p' : Producer ω}
    (h : commitTransaction T p = (.ok (), p')) :
    ∃ txnId identity, Adds (.endTxn ⟨txnId, identity, true⟩) (sent p) (sent p') := by
  obtain ⟨_, p₁, hstate, hrest⟩ := bind_eq_ok h
  obtain ⟨_, _, hget, hrest⟩ := bind_eq_ok hrest
  cases hget
  obtain ⟨identity, p₂, hidentity, hrest⟩ := bind_eq_ok hrest
  obtain ⟨txnId, p₃, htxnId, hrest⟩ := bind_eq_ok hrest
  obtain ⟨code, p₄, hcode, hrest⟩ := bind_eq_ok hrest
  cases hrest
  have hadds := coordinatorCall_adds T hcode
  have hsent : sent p₃ = sent p := by
    have h₁ : p₁.cluster = p.cluster := congrArg (fun o => o.2.cluster) hstate.symm
    have h₂ : p₂ = p₁ := congrArg Prod.snd hidentity.symm
    have h₃ : p₃ = p₂ := congrArg Prod.snd htxnId.symm
    rw [h₃, h₂, sent, sent, h₁]
  rw [hsent] at hadds
  exact ⟨txnId, identity, hadds⟩

/-- In every run, a commit that succeeds is complete if nothing accepted in its
transaction is staged or pending when it is called, and the batches that were taken
out of the stage during the transaction could be queued: by the time `EndTxn` is
written, every record accepted since the transaction was opened is acknowledged, and
none is held afterwards. -/
theorem commit_complete (codec : Codec) {p : Producer World} (hp : Booted codec p)
    (calls : List Call)
    (hstows : ∀ pre call, pre ++ [call] <+: calls →
      (Ledger.after (World.transport codec) p pre).producer.state.txn = .inTransaction →
        (call.numbered (Ledger.after (World.transport codec) p pre).next).Stows
          (World.transport codec) (Ledger.after (World.transport codec) p pre).producer)
    (hsent : ∀ r ∈ (Ledger.after (World.transport codec) p calls).current,
      ∀ tp, r ∉ (Ledger.after (World.transport codec) p calls).producer.held tp)
    {p' : Producer World} (hok : commitTransaction (World.transport codec)
      (Ledger.after (World.transport codec) p calls).producer = (.ok (), p')) :
    (∀ r ∈ (Ledger.after (World.transport codec) p calls).current,
      Acked (Ledger.after (World.transport codec) p calls).producer.cluster.wire.env r ∧
        ∀ tp, r ∉ p'.held tp) ∧
      ∃ txnId identity, Adds (.endTxn ⟨txnId, identity, true⟩)
        (Ledger.after (World.transport codec) p calls).producer.sent p'.sent := by
  have hcurrent : (Ledger.after (World.transport codec) p calls).Current :=
    run_induction_of_prefix (I := fun _ l => Ledger.Current l) (Ledger.Current.start hp) calls
      fun pre call hpre h => h.step codec call (hstows pre call hpre)
  refine ⟨fun r hr => ?_, commit_adds hok⟩
  have hopen : (Ledger.after (World.transport codec) p calls).producer.state.txn =
      .inTransaction := by
    rcases endTransaction_cases (World.transport codec) true
        (Ledger.after (World.transport codec) p calls).producer with ⟨-, e, heq⟩ | ⟨htxn, -⟩
    · rw [commitTransaction, heq] at hok
      cases hok
    · exact htxn
  have hquiet := quiet_endTransaction codec true
    (Ledger.after (World.transport codec) p calls).producer
  rw [← commitTransaction, hok] at hquiet
  refine ⟨(hcurrent.current hopen r hr).resolve_right fun ⟨tp, hheld⟩ => hsent r hr tp hheld,
    fun tp => ?_⟩
  have hsame : p'.held tp = (Ledger.after (World.transport codec) p calls).producer.held tp := by
    rw [held, held, queue, queue, hquiet.same.staged, hquiet.same.pending]
  rw [hsame]
  exact hsent r hr tp

/-! ### A commit after a flush, and one without -/

def enrolledScript (rest : List Choice) : List Choice :=
  [.done, .serving 0 (.addPartitionsToTxn [("t", [(0, 0)])]), .done] ++ rest

/-- The brokers' metadata, the answer to the `Produce`, and the answer to `EndTxn`. -/
def flushedScript : List Choice :=
  enrolledScript [.done, .done, .serving 0 oneBroker, .done, .done, .serving 0 (.endTxn 0),
    .done, .serving 0 (.endTxn 0)]

def queuedCalls : List Call := [.beginTransaction, .enqueue ⟨"t", 0⟩ [sampleRecord]]

theorem commit_complete_flushed :
    let l := Ledger.after (World.transport Tape.codec) (coordinatedProducer flushedScript)
      (queuedCalls ++ [.flush])
    sampleRecord ∈ l.current ∧ (commitTransaction (World.transport Tape.codec) l.producer).1 =
      .ok () ∧ Acked l.producer.cluster.wire.env sampleRecord := by
  intro l
  have hok : (commitTransaction (World.transport Tape.codec) l.producer).1 = .ok () := by
    decide +kernel
  have hheld : ∀ tp, l.producer.held tp = [] :=
    held_of_isEmpty (by decide +kernel) (by decide +kernel)
  have hmem : sampleRecord ∈ l.current := by decide
  have hcomplete := @commit_complete Tape.codec (coordinatedProducer flushedScript)
    (booted_coordinated (by decide)) (queuedCalls ++ [.flush]) (forall_position ?_)
    (fun r _ tp => by rw [hheld tp]; exact List.not_mem_nil)
    (commitTransaction (World.transport Tape.codec) l.producer).2 (by rw [← hok])
  · exact ⟨hmem, hok, (hcomplete.1 sampleRecord hmem).1⟩
  · rintro (_ | _ | _ | i) hi
    · exact fun _ => trivial
    · exact fun _ => trivial
    · intro _
      change (drainStaged _ _).1 = _
      decide
    · exact absurd hi (by simp [queuedCalls])

/-- The coordinator takes the `EndTxn`, and the record is still in its queue. -/
theorem commit_leaves_pending :
    let p := coordinatedProducer (enrolledScript [.done, .serving 0 (.endTxn 0)])
    let l := Ledger.after (World.transport Tape.codec) p queuedCalls
    Booted Tape.codec p ∧ sampleRecord ∈ l.current ∧
      (commitTransaction (World.transport Tape.codec) l.producer).1 = .ok () ∧
      ¬Acked (commitTransaction (World.transport Tape.codec) l.producer).2.cluster.wire.env
        sampleRecord ∧
      sampleRecord ∈ (commitTransaction (World.transport Tape.codec) l.producer).2.held ⟨"t", 0⟩ := by
  refine ⟨booted_coordinated (by decide), by decide, by decide, ?_,
    by decide⟩
  exact not_acked (by decide) (fun _ => rfl) sampleRecord

end Barnabas.Client
