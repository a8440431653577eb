import Barnabas.Client.Fencing

/-!
Transaction boundaries.

`end_transaction` sends `EndTxn` and leaves the stage and the queues as they
are, so whether a record can cross the end of its transaction is decided by what
is still held when the transaction is ended. The results hold for every
transport and every run of public calls.
-/

namespace Barnabas.Client

open Barnabas.Lib Barnabas.Core Barnabas.Lib.Act

variable {ω : Type}

namespace Producer

variable (T : Transport ω)

/-- A step that writes no `Produce`, leaves the queues alone and does not bring
the producer into a transaction. -/
structure Ending (p p' : Producer ω) : Prop where
  same : SameQueues p p'
  sent : Appends sent (fun f => f.request.apiKey ≠ .produce) p p'
  out : p.state.txn ≠ .inTransaction → p'.state.txn ≠ .inTransaction

instance : IsPreorder (Producer ω) Ending where
  refl _ := ⟨refl _, .of_eq rfl, id⟩
  trans _ _ _ h h' :=
    ⟨IsTrans.trans _ _ _ h.same h'.same, h.sent.trans h'.sent, h'.out ∘ h.out⟩

theorem tolerates_ending :
    Tolerates T (Appends Cluster.sent fun f => f.request.apiKey ≠ .produce) Ending
      (fun f => f.request.apiKey ≠ .produce) where
  permits := tolerates_calm.permits
  cluster _ _ h := ⟨⟨rfl, rfl, rfl, rfl, rfl⟩, h, id⟩
  coordinator _ _ := ⟨⟨rfl, rfl, rfl, rfl, rfl⟩, .of_eq rfl, id⟩
  state p s h _ := by
    refine ⟨⟨rfl, rfl, rfl, rfl, rfl⟩, .of_eq rfl, fun hout => ?_⟩
    rcases h with h | h
    · rwa [h]
    · simp [h]
  offsets _ _ := ⟨⟨rfl, rfl, rfl, rfl, rfl⟩, .of_eq rfl, id⟩
  roundRobin _ _ := ⟨⟨rfl, rfl, rfl, rfl, rfl⟩, .of_eq rfl, id⟩

/-- Either the state machine refuses, or the producer is outside the transaction
afterwards with its queues as they were, whatever became of the request. -/
theorem endTransaction_cases (committed : Bool) (p : Producer ω) :
    (p.state.txn ≠ .inTransaction ∧ ∃ e, endTransaction T committed p = (.error e, p)) ∨
      (p.state.txn = .inTransaction ∧ Ending p (endTransaction T committed p).2 ∧
        (endTransaction T committed p).2.state.txn ≠ .inTransaction) := by
  rcases ProducerState.endTransaction_cases p.state with ⟨htxn, heq⟩ | ⟨htxn, e, heq⟩
  · right
    let p₁ : Producer ω := { p with state := { p.state with txn := .ending } }
    have hstate : (onState ProducerState.endTransaction : Act (Producer ω) Error Unit) p =
        (.ok (), p₁) := by
      rw [onState, mapError_apply, zoom_apply, heq]
      rfl
    have hrest : Ending p₁ (endTransaction T committed p).2 := by
      rw [endTransaction, bind_of_ok hstate]
      refine Moves.bind Moves.get (fun p => ?_) p₁
      refine Moves.bind (Moves.ofExcept _) fun identity => ?_
      refine Moves.bind (Moves.ofExcept _) fun txnId => ?_
      refine Moves.bind ((tolerates_ending T).coordinatorCall ?_ _ _ _) fun _ => ?_
      · intro f hf
        simp [hf, Request.apiKey]
      · refine Moves.modify fun p => ⟨⟨rfl, rfl, rfl, rfl, rfl⟩, .of_eq rfl, fun hout => ?_⟩
        unfold ProducerState.onEndTransaction
        split
        · simp
        · exact hout
    refine ⟨htxn, ⟨⟨?_, ?_, ?_, ?_, ?_⟩, hrest.sent, ?_⟩, hrest.out (by simp [p₁])⟩
    · exact hrest.same.staged
    · exact hrest.same.pending
    · exact hrest.same.dropped
    · exact hrest.same.maxInFlight
    · exact hrest.same.transactionalId
    · exact fun hout => absurd htxn hout
  · left
    refine ⟨htxn, .producer e, bind_of_error ?_⟩
    rw [onState, mapError_apply, zoom_apply, heq]
    rfl

end Producer

/-! ### The books of a session -/

open Producer

theorem mem_withTickets {next : ℕ} {records : List ProducerRecord} {r : ProducerRecord}
    (h : r ∈ withTickets next records) :
    next ≤ r.ticket ∧ r.ticket < next + records.length := by
  obtain ⟨⟨record, i⟩, hmem, rfl⟩ := List.mem_map.mp h
  have hi := List.snd_lt_of_mem_zipIdx hmem
  simp only at hi ⊢
  omega

theorem length_withTickets (next : ℕ) (records : List ProducerRecord) :
    (withTickets next records).length = records.length := by
  simp [withTickets]

/-- The records of a numbered call have fresh tickets. -/
theorem Call.mem_numbered {next : ℕ} {call : Call} {r : ProducerRecord}
    (h : r ∈ (call.numbered next).records) :
    next ≤ r.ticket ∧ r.ticket < next + (call.numbered next).records.length := by
  cases call with
  | produce topic record | produceTo tp record =>
      rw [numbered, records, List.mem_singleton] at h
      subst h
      simp [numbered, records]
  | enqueue tp records | send tp records | sendKeyed topic records =>
      have := mem_withTickets h
      simpa [numbered, Call.records, length_withTickets] using this
  | _ => simp [numbered, records] at h

namespace Session

/-- Every `Produce` written after the `EndTxn` of a transaction carries no record
that was handed in while that transaction was open. -/
def Separated (s : Session ω) : Prop :=
  s.log.Pairwise fun earlier later => earlier.2.request.apiKey = .endTxn →
    ∀ r, later.2.request.Carries r → ¬s.Belongs r earlier.1

/-- No call ends a transaction while one of its records is staged or pending. -/
def Clean (s : Session ω) (call : Call) : Prop :=
  call = .commitTransaction ∨ call = .abortTransaction →
    s.producer.state.txn = .inTransaction →
      ∀ r, s.producer.Holds r → ¬s.Belongs r s.opened

/-- What the books say at any time of a run of clean calls. -/
structure Books (s : Session ω) : Prop where
  filled : s.producer.StagedFilled
  held : ∀ r, s.producer.Holds r → r.ticket < s.next
  carried : ∀ e ∈ s.log, ∀ r, e.2.request.Carries r → r.ticket < s.next
  belongs : ∀ r k, s.Belongs r k → r.ticket < s.next
  ended : ∀ e ∈ s.log, e.2.request.apiKey = .endTxn →
    e.1 ≤ s.opened ∧ (s.producer.state.txn = .inTransaction → e.1 ≠ s.opened)
  settled : ∀ e ∈ s.log, e.2.request.apiKey = .endTxn →
    ∀ r, s.producer.Holds r → ¬s.Belongs r e.1
  separated : s.Separated

variable (T : Transport ω)

/-- A frame in the books was there before, or was just written. -/
theorem mem_step_log {s : Session ω} {call : Call} {W : Frame → Prop} {e : ℕ × Frame}
    (hsent : Appends Producer.sent W s.producer (s.step T call).producer)
    (he : e ∈ (s.step T call).log) : e ∈ s.log ∨ e.1 = s.opened ∧ W e.2 := by
  obtain ⟨entries, heq, hall⟩ := hsent
  change (s.step T call).producer.cluster.sent = s.producer.cluster.sent ++ entries at heq
  have hlog : (s.step T call).log = s.log ++
      ((s.step T call).producer.cluster.sent.drop s.producer.cluster.sent.length).map
        (s.opened, ·) := rfl
  rw [hlog, heq, List.drop_left] at he
  rcases List.mem_append.mp he with he | he
  · exact .inl he
  · obtain ⟨f, hf, rfl⟩ := List.mem_map.mp he
    exact .inr ⟨rfl, hall f hf⟩

/-- A record of a transaction was handed in before, or comes with this call into
the open transaction. -/
theorem belongs_step {s : Session ω} {call : Call} {r : ProducerRecord} {k : ℕ}
    (h : (s.step T call).Belongs r k) :
    s.Belongs r k ∨ s.producer.state.txn = .inTransaction ∧ k = s.opened ∧
      s.next ≤ r.ticket ∧ r.ticket < (s.step T call).next := by
  obtain ⟨receipt, hmem, hticket, htransaction⟩ := h
  have hreceipts : (s.step T call).receipts = s.receipts ++
      if s.producer.state.txn = .inTransaction
      then (call.numbered s.next).records.map fun r =>
        ⟨r.ticket, s.opened, ((call.numbered s.next).exec T s.producer).1.isOk⟩ else [] := rfl
  rw [hreceipts] at hmem
  rcases List.mem_append.mp hmem with hmem | hmem
  · exact .inl ⟨receipt, hmem, hticket, htransaction⟩
  · right
    split at hmem
    · rename_i hin
      obtain ⟨record, hrecord, rfl⟩ := List.mem_map.mp hmem
      have hrange := Call.mem_numbered hrecord
      simp only at hticket htransaction
      rw [hticket] at hrange
      exact ⟨hin, htransaction.symm, hrange⟩
    · cases hmem

/-- What is left to show of a step, once the frames it wrote are in `W`. -/
theorem separated_step {s : Session ω} {call : Call} {W : Frame → Prop} (h : s.Books)
    (hsent : Appends Producer.sent W s.producer (s.step T call).producer)
    (hold : ∀ e ∈ s.log, e.2.request.apiKey = .endTxn → ∀ f, W f → ∀ r, f.request.Carries r →
      ¬(s.step T call).Belongs r e.1)
    (hnew : ∀ f f', W f → W f' → f.request.apiKey = .endTxn → ∀ r, ¬f'.request.Carries r) :
    (s.step T call).Separated := by
  obtain ⟨entries, heq, hall⟩ := hsent
  change (s.step T call).producer.cluster.sent = s.producer.cluster.sent ++ entries at heq
  have hlog : (s.step T call).log = s.log ++ entries.map (s.opened, ·) := by
    change s.log ++ ((s.step T call).producer.cluster.sent.drop
      s.producer.cluster.sent.length).map (s.opened, ·) = _
    rw [heq, List.drop_left]
  rw [Separated, hlog, List.pairwise_append]
  refine ⟨?_, ?_, ?_⟩
  · refine List.Pairwise.imp_of_mem (fun {e l} he hl hsep hend r hr hbelongs => ?_) h.separated
    rcases belongs_step T hbelongs with hbefore | ⟨_, _, hticket, _⟩
    · exact hsep hend r hr hbefore
    · exact absurd (h.carried l hl r hr) (not_lt.mpr hticket)
  · rw [List.pairwise_map]
    refine List.pairwise_of_forall_mem_list fun f hf f' hf' hend r hr _ => ?_
    exact hnew f f' (hall f hf) (hall f' hf') hend r hr
  · intro e he l hl hend r hr
    obtain ⟨f, hf, rfl⟩ := List.mem_map.mp hl
    exact hold e he hend f (hall f hf) r hr

theorem next_le_step (s : Session ω) (call : Call) : s.next ≤ (s.step T call).next :=
  Nat.le_add_right _ _

theorem Books.belongs_step_lt {s : Session ω} (h : s.Books) {call : Call} {r : ProducerRecord}
    {k : ℕ} (hr : (s.step T call).Belongs r k) : r.ticket < (s.step T call).next := by
  rcases belongs_step T hr with hbefore | ⟨_, _, _, hlt⟩
  · exact (h.belongs r k hbefore).trans_le (next_le_step T s call)
  · exact hlt

theorem opened_step (s : Session ω) (call : Call) :
    (s.step T call).opened = if s.producer.state.txn ≠ .inTransaction ∧
      (s.step T call).producer.state.txn = .inTransaction then s.opened + 1 else s.opened := rfl

theorem opened_of_out {s : Session ω} {call : Call}
    (hout : (s.step T call).producer.state.txn = .inTransaction →
      s.producer.state.txn = .inTransaction) : (s.step T call).opened = s.opened := by
  rw [opened_step, if_neg]
  rintro ⟨hbefore, hafter⟩
  exact hbefore (hout hafter)

/-- Calls that neither open nor end a transaction. What they hold and send was
held before or comes with the call. -/
theorem Books.feed {s : Session ω} (h : s.Books) {call : Call}
    (hfeeds : Feeds (fun r => s.producer.Holds r ∨ r ∈ (call.numbered s.next).records)
      s.producer (s.step T call).producer) : (s.step T call).Books := by
  have hout : (s.step T call).producer.state.txn = .inTransaction →
      s.producer.state.txn = .inTransaction := by
    intro hin
    rcases hfeeds.txn with htxn | htxn
    · rwa [← htxn]
    · simp [htxn] at hin
  have hopened := opened_of_out T hout
  have hticket : ∀ r, s.producer.Holds r ∨ r ∈ (call.numbered s.next).records →
      r.ticket < (s.step T call).next := by
    rintro r (hr | hr)
    · exact (h.held r hr).trans_le (next_le_step T s call)
    · exact (Call.mem_numbered hr).2
  have hfresh : ∀ e ∈ s.log, e.2.request.apiKey = .endTxn →
      ∀ r, s.producer.Holds r ∨ r ∈ (call.numbered s.next).records →
        ¬(s.step T call).Belongs r e.1 := by
    intro e he hend r hr hbelongs
    rcases belongs_step T hbelongs with hbefore | ⟨hin, hk, hge, _⟩
    · rcases hr with hr | hr
      · exact h.settled e he hend r hr hbefore
      · exact absurd (h.belongs r _ hbefore) (not_lt.mpr (Call.mem_numbered hr).1)
    · exact (h.ended e he hend).2 hin hk
  have hended : ∀ e ∈ (s.step T call).log, e.2.request.apiKey = .endTxn → e ∈ s.log := by
    intro e he hend
    rcases mem_step_log T hfeeds.sent he with he | ⟨_, hfed, _⟩
    · exact he
    · exact absurd hend hfed
  refine ⟨hfeeds.bounded.filled, fun r hr => hticket r (hfeeds.bounded.held r hr), ?_,
    fun r k => h.belongs_step_lt T, ?_, ?_, ?_⟩
  · intro e he r hr
    rcases mem_step_log T hfeeds.sent he with he | ⟨_, _, hcarries⟩
    · exact (h.carried e he r hr).trans_le (next_le_step T s call)
    · exact hticket r (hcarries r hr)
  · intro e he hend
    obtain ⟨hle, hne⟩ := h.ended e (hended e he hend) hend
    rw [hopened]
    exact ⟨hle, fun hin => hne (hout hin)⟩
  · intro e he hend r hr
    exact hfresh e (hended e he hend) hend r (hfeeds.bounded.held r hr)
  · refine separated_step T h hfeeds.sent ?_ ?_
    · intro e he hend f hf r hr
      exact hfresh e he hend r (hf.2 r hr)
    · intro f _ hf _ hend
      exact absurd hend hf.1

theorem holds_of_sameQueues {p p' : Producer ω} (h : SameQueues p p') {r : ProducerRecord}
    (hr : p'.Holds r) : p.Holds r := by
  rw [Producer.Holds, Stages, Queues, h.staged, h.pending] at hr
  exact hr

/-- Calls that bring no record and touch no queue. A transaction they end has
no record left in the queues. -/
theorem Books.turn {s : Session ω} (h : s.Books) {call : Call}
    (hrecords : (call.numbered s.next).records = [])
    (hsame : SameQueues s.producer (s.step T call).producer)
    (hsent : Appends Producer.sent (fun f => f.request.apiKey ≠ .produce ∧
      (f.request.apiKey = .endTxn → s.producer.state.txn = .inTransaction ∧
        (s.step T call).producer.state.txn ≠ .inTransaction ∧
        ∀ r, s.producer.Holds r → ¬s.Belongs r s.opened)) s.producer (s.step T call).producer) :
    (s.step T call).Books := by
  have hnext : (s.step T call).next = s.next := by
    change s.next + (call.numbered s.next).records.length = s.next
    rw [hrecords]
    rfl
  have hbelongs : ∀ r k, (s.step T call).Belongs r k → s.Belongs r k := by
    intro r k hr
    rcases belongs_step T hr with hbefore | ⟨_, _, hge, hlt⟩
    · exact hbefore
    · omega
  have hempty : ∀ f : Frame, f.request.apiKey ≠ .produce → ∀ r, ¬f.request.Carries r := by
    rintro f hf r ⟨produce, heq, _⟩
    simp [heq, Request.apiKey] at hf
  refine ⟨?_, ?_, ?_, fun r k => h.belongs_step_lt T, ?_, ?_, ?_⟩
  · intro tp staged hget
    rw [hsame.staged] at hget
    exact h.filled tp staged hget
  · intro r hr
    rw [hnext]
    exact h.held r (holds_of_sameQueues hsame hr)
  · intro e he r hr
    rw [hnext]
    rcases mem_step_log T hsent he with he | ⟨_, hf, _⟩
    · exact h.carried e he r hr
    · exact absurd hr (hempty e.2 hf r)
  · intro e he hend
    rw [opened_step]
    rcases mem_step_log T hsent he with he | ⟨hk, _, hf⟩
    · obtain ⟨hle, hne⟩ := h.ended e he hend
      split
      · exact ⟨by omega, fun _ => by omega⟩
      · rename_i hstays
        exact ⟨hle, fun hin => hne (by_contra fun hout => hstays ⟨hout, hin⟩)⟩
    · obtain ⟨hin, hout, _⟩ := hf hend
      rw [if_neg fun hturn => hturn.1 hin]
      exact ⟨hk.le, fun hin' => absurd hin' hout⟩
  · intro e he hend r hr hbelongs'
    have hheld := holds_of_sameQueues hsame hr
    rcases mem_step_log T hsent he with he | ⟨hk, _, hf⟩
    · exact h.settled e he hend r hheld (hbelongs r _ hbelongs')
    · exact (hf hend).2.2 r hheld (hk ▸ hbelongs r _ hbelongs')
  · refine separated_step T h hsent ?_ ?_
    · intro e _ _ f hf r hr
      exact absurd hr (hempty f hf.1 r)
    · intro _ f _ hf _ r
      exact hempty f hf.1 r

theorem Books.endTransaction {s : Session ω} (h : s.Books) {call : Call} {committed : Bool}
    (hcall : ∀ next, call.numbered next = call) (hrecords : call.records = [])
    (hexec : call.exec T = Producer.endTransaction T committed)
    (hclean : s.producer.state.txn = .inTransaction →
      ∀ r, s.producer.Holds r → ¬s.Belongs r s.opened) : (s.step T call).Books := by
  have hstep : (s.step T call).producer = (Producer.endTransaction T committed s.producer).2 := by
    change ((call.numbered s.next).exec T s.producer).2 = _
    rw [hcall, hexec]
  refine h.turn T (by rw [hcall, hrecords]) ?_ ?_
  · rw [hstep]
    rcases endTransaction_cases T committed s.producer with ⟨_, e, heq⟩ | ⟨_, hending, _⟩
    · rw [heq]
      exact refl _
    · exact hending.same
  · rw [hstep]
    rcases endTransaction_cases T committed s.producer with ⟨_, e, heq⟩ | ⟨hin, hending, hout⟩
    · rw [heq]
      exact .of_eq rfl
    · obtain ⟨entries, heq, hall⟩ := hending.sent
      exact ⟨entries, heq, fun f hf => ⟨hall f hf, fun _ => ⟨hin, hout, hclean hin⟩⟩⟩

theorem Books.beginTransaction {s : Session ω} (h : s.Books) :
    (s.step T .beginTransaction).Books := by
  have hstep : (s.step T .beginTransaction).producer =
      (Producer.beginTransaction s.producer).2 := rfl
  refine h.turn T rfl ?_ ?_
  all_goals
    rw [hstep, Producer.beginTransaction, onState, mapError_apply, zoom_apply]
    rcases ProducerState.beginTransaction_cases s.producer.state with ⟨_, heq⟩ | ⟨_, e, heq⟩
  · rw [heq]
    exact ⟨rfl, rfl, rfl, rfl, rfl⟩
  · rw [heq]
    exact ⟨rfl, rfl, rfl, rfl, rfl⟩
  · rw [heq]
    exact .of_eq rfl
  · rw [heq]
    exact .of_eq rfl

theorem Books.step {s : Session ω} (h : s.Books) {call : Call} (hclean : s.Clean call) :
    (s.step T call).Books := by
  by_cases hbegin : call = .beginTransaction
  · exact hbegin ▸ h.beginTransaction T
  by_cases hcommit : call = .commitTransaction
  · subst hcommit
    exact h.endTransaction T (fun _ => rfl) rfl rfl (hclean (.inl rfl))
  by_cases habort : call = .abortTransaction
  · subst habort
    exact h.endTransaction T (fun _ => rfl) rfl rfl (hclean (.inr rfl))
  refine h.feed T (feeding_exec T ?_ ?_ ?_ (fun r hr => .inr hr) s.producer
    ⟨h.filled, fun r hr => .inl hr⟩)
  all_goals cases call <;> simp_all [Call.numbered]

theorem Books.start {p : Producer ω} (h : Started T p) : (start p).Books := by
  have hbounded := bounded_of_started (N := fun _ => False) T h
  refine ⟨hbounded.filled, fun r hr => (hbounded.held r hr).elim, ?_, ?_, ?_, ?_, ?_⟩
  · exact fun e he => (List.not_mem_nil he).elim
  · rintro r k ⟨receipt, hmem, _⟩
    exact (List.not_mem_nil hmem).elim
  · exact fun e he => (List.not_mem_nil he).elim
  · exact fun e he => (List.not_mem_nil he).elim
  · exact List.Pairwise.nil

end Session

/-- In every run in which no commit or abort finds a record of its own
transaction staged or pending, no record is sent after the end of the transaction
it was handed in. -/
theorem separated_of_clean (T : Transport ω) {p : Producer ω} (hp : Started T p)
    (calls : List Call)
    (hclean : ∀ pre call, pre ++ [call] <+: calls →
      (run (Session.step T) (.start p) pre).Clean call) :
    (run (Session.step T) (.start p) calls).Separated := by
  have hbooks : (run (Session.step T) (.start p) calls).Books :=
    run_induction_of_prefix (I := fun _ s => Session.Books s) (Session.Books.start T hp) calls
      fun pre call hpre h => h.step T (hclean pre call hpre)
  exact hbooks.separated

/-! ### A transaction that is flushed, and one that is not -/

/-- A coordinator and partition leader that accepts everything. -/
def friendlyTape (rest : List Body) : Tape :=
  .of ([.apiVersions ⟨0, []⟩, .findCoordinator ⟨0, "b", 1⟩, .initProducerId ⟨0, 7, 0⟩,
    .addPartitionsToTxn [("t", [(0, 0)])]] ++ rest)

def transactionalStart (tape : Tape) : Producer Tape :=
  (Producer.transactional Tape.transport tape ["b:1"] "c" "x").2

def flushedTape : Tape := friendlyTape [oneBroker, .produce [("t", [⟨0, 0, 12⟩])], .endTxn 0]

def unflushedTape : Tape := friendlyTape [.endTxn 0, oneBroker, .produce [("t", [⟨0, 0, 12⟩])]]

theorem started_flushed : Started Tape.transport (transactionalStart flushedTape) := by
  have hstart : (Producer.transactional Tape.transport flushedTape ["b:1"] "c" "x").1 = .ok () := by
    decide
  exact ⟨_, _, _, .inr ⟨_, Prod.fst_eq_iff.mp hstart⟩⟩

theorem started_unflushed : Started Tape.transport (transactionalStart unflushedTape) := by
  have hstart : (Producer.transactional Tape.transport unflushedTape ["b:1"] "c" "x").1 =
      .ok () := by
    decide
  exact ⟨_, _, _, .inr ⟨_, Prod.fst_eq_iff.mp hstart⟩⟩

theorem Producer.not_holds {p : Producer ω} (hstaged : p.staged.isEmpty)
    (hpending : p.pending.isEmpty) (r : ProducerRecord) : ¬p.Holds r := by
  rintro (⟨tp, staged, hget, _⟩ | ⟨tp, batch, hbatch, _⟩)
  · simp [Std.TreeMap.getElem?_of_isEmpty hstaged] at hget
  · simp [Std.TreeMap.getD_of_isEmpty hpending] at hbatch

def flushedCalls : List Call :=
  [.beginTransaction, .enqueue ⟨"t", 0⟩ [sampleRecord], .flush, .commitTransaction]

theorem separated_of_clean_flushed :
    (run (Session.step Tape.transport) (.start (transactionalStart flushedTape))
      flushedCalls).Separated := by
  refine separated_of_clean Tape.transport started_flushed flushedCalls (forall_position ?_)
  rintro (_ | _ | _ | _ | i) hi
  · simp [flushedCalls, Session.Clean]
  · simp [flushedCalls, Session.Clean]
  · simp [flushedCalls, Session.Clean]
  · intro _ _ r hr
    exact absurd hr (Producer.not_holds (by decide +kernel) (by decide +kernel) r)
  · exact absurd hi (by simp [flushedCalls])

def unflushedCalls : List Call :=
  [.beginTransaction, .enqueue ⟨"t", 0⟩ [sampleRecord], .abortTransaction, .beginTransaction,
    .flush]

/-- A record of an aborted transaction is sent while the next one is open. -/
theorem aborted_record_sent :
    Started Tape.transport (transactionalStart unflushedTape) ∧
      ¬(run (Session.step Tape.transport) (.start (transactionalStart unflushedTape))
        unflushedCalls).Separated := by
  refine ⟨started_unflushed, fun h => ?_⟩
  exact List.pairwise_iff_getElem.mp h 1 3 (by decide) (by decide +kernel) (by decide)
    (by decide) sampleRecord (by decide +kernel) (by decide)

end Barnabas.Client
