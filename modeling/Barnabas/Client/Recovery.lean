import Barnabas.Client.Answers
import Barnabas.Client.Boundary

/-!
What a failed call leaves of a transaction.

A call that fails may be followed by `abort_transaction`, if the state machine is
still in the transaction. It is not after a failed `EndTxn`, which leaves it in
`Ending`, nor after an answer with a code that the client classifies as fatal,
which fences it. Every other failure leaves the transaction open. The results hold
for every transport and every run of public calls.
-/

namespace Barnabas.Client

open Barnabas.Lib Barnabas.Core Barnabas.Lib.Act

variable {ω : Type}

/-- The error a broker's answer with such a code ends in. -/
def Error.IsFault (e : Error) : Prop :=
  ∃ op code disposition, e = .broker op code disposition ∧ (ErrorCode.mk code).Faults

/-- The dispositions a `Produce` answer is not retried for. -/
def Fences (disposition : Disposition) : Prop :=
  disposition = .fatal ∨ disposition = .findCoordinator

namespace Producer

/-! ### What stays as it was -/

/-- The producer's identity is as it was. -/
structure Named (p p' : Producer ω) : Prop where
  identity : p'.state.identity = p.state.identity
  transactionalId : p'.transactionalId = p.transactionalId

/-- And so is its place in the lifecycle. -/
structure Standing (p p' : Producer ω) : Prop extends Named p p' where
  txn : p'.state.txn = p.state.txn

theorem Named.trans {p p' p'' : Producer ω} (h : Named p p') (h' : Named p' p'') : Named p p'' :=
  ⟨h'.identity.trans h.identity, h'.transactionalId.trans h.transactionalId⟩

instance : IsPreorder (Producer ω) Standing where
  refl _ := ⟨⟨rfl, rfl⟩, rfl⟩
  trans _ _ _ h h' := ⟨h.toNamed.trans h'.toNamed, h'.txn.trans h.txn⟩

/-- What a failure leaves: everything, or an error in `B` and the identity. -/
def Struck (B : Error → Prop) (p₀ : Producer ω) (e : Error) (p : Producer ω) : Prop :=
  Standing p₀ p ∨ B e ∧ Named p₀ p

/-- Whatever `m` does, the producer stands as it stood, unless `m` fails with an error
in `B`. -/
def Keeps (B : Error → Prop) {α : Type} (m : Act (Producer ω) Error α) : Prop :=
  ∀ p₀, Triple (Standing p₀) m (fun _ => Standing p₀) (Struck B p₀)

section Keeps

variable {B : Error → Prop} {α β : Type}

theorem Keeps.of_moves {m : Act (Producer ω) Error α} (h : Moves Standing m) : Keeps B m := by
  intro p₀ p hp
  have hmoved := trans_of Standing hp (h p)
  rcases hm : m p with ⟨e | a, p'⟩
  · rw [hm] at hmoved
    exact .inl hmoved
  · rw [hm] at hmoved
    exact hmoved

theorem Keeps.bind {m : Act (Producer ω) Error α} {f : α → Act (Producer ω) Error β}
    (hm : Keeps B m) (hf : ∀ a, Keeps B (f a)) : Keeps B (m >>= f) :=
  fun p₀ => .bind (hm p₀) fun a => hf a p₀

theorem Keeps.bind_of {C : α → Prop} {m : Act (Producer ω) Error α}
    {f : α → Act (Producer ω) Error β} (hm : Keeps B m)
    (hC : ∀ p a p', m p = (.ok a, p') → C a) (hf : ∀ a, C a → Keeps B (f a)) :
    Keeps B (m >>= f) :=
  fun p₀ => .bind_of (hm p₀) hC fun a ha => hf a ha p₀

theorem Keeps.pure (a : α) : Keeps B (Pure.pure a : Act (Producer ω) Error α) :=
  .of_moves (.pure a)

theorem Keeps.throw (e : Error) : Keeps B (MonadExcept.throw e : Act (Producer ω) Error α) :=
  .of_moves (.throw e)

theorem Keeps.get : Keeps B (MonadState.get : Act (Producer ω) Error (Producer ω)) := .of_moves .get

theorem Keeps.ite {c : Prop} [Decidable c] {m n : Act (Producer ω) Error α} (hm : Keeps B m)
    (hn : Keeps B n) : Keeps B (if c then m else n) := by
  split
  · exact hm
  · exact hn

theorem Keeps.required {what : String} (value : Option α) :
    Keeps B (required what value : Act (Producer ω) Error α) := .of_moves (.ofExcept _)

theorem Keeps.attempts {body : ℕ → β → Act (Producer ω) Error (β ⊕ α)}
    {exhausted : β → Act (Producer ω) Error α} (hbody : ∀ i b, Keeps B (body i b))
    (hexhausted : ∀ b, Keeps B (exhausted b)) (left i : ℕ) (b : β) :
    Keeps B (Act.attempts body exhausted left i b) :=
  fun p₀ => .attempts (fun i b => hbody i b p₀) (fun b => hexhausted b p₀) left i b

/-- A failure that fences is one of those in `B`. -/
theorem Keeps.fenced {e : Error} (he : B e) :
    Keeps B (do fence; MonadExcept.throw e : Act (Producer ω) Error α) :=
  fun _ _ hp => .inr ⟨he, hp.identity, hp.transactionalId⟩

end Keeps

/-! ### The network code -/

theorem standing_onCluster {ε α : Type} (m : Act (Cluster ω) ε α) :
    Moves Standing (onCluster m : Act (Producer ω) ε α) :=
  fun _ => ⟨⟨rfl, rfl⟩, rfl⟩

theorem onCluster_eq_ok {ε α : Type} {m : Act (Cluster ω) ε α} {p p' : Producer ω} {a : α}
    (h : onCluster m p = (.ok a, p')) : m p.cluster = (.ok a, p'.cluster) :=
  Prod.ext (congrArg (·.1) h) (congrArg (·.2.cluster) h)

variable (T : Transport ω)

theorem standing_findCoordinator : Moves Standing (findCoordinator T) := by
  refine .bind .get fun p => ?_
  cases p.transactionalId with
  | none => exact .pure _
  | some txnId =>
      refine .attempts (fun attempt _ => ?_) (fun _ => .throw _) _ _ _
      refine .bind (standing_onCluster _) fun resp => .ite ?_ ?_
      · exact .bind (.modify fun _ => ⟨⟨rfl, rfl⟩, rfl⟩) fun _ => .pure _
      · split
        · exact .bind (standing_onCluster _) fun _ => .pure _
        · exact .bind (standing_onCluster _) fun _ => .pure _
        · exact .throw _

theorem standing_coordinatorAddr : Moves Standing (coordinatorAddr T) := by
  refine .bind .get fun p => ?_
  cases p.coordinator with
  | some addr => exact .pure _
  | none => exact standing_findCoordinator T

theorem callCoordinatorAt_gives {α : Type} {as : Body → Option α} {addr : String} {version : ℤ}
    {req : Request} {p p' : Producer ω} {resp : α}
    (h : callCoordinatorAt T as addr version req p = (.ok resp, p')) : T.Gives as resp := by
  unfold callCoordinatorAt at h
  split at h
  · exact Cluster.callAny_gives (onCluster_eq_ok h)
  · exact Cluster.callAt_gives (onCluster_eq_ok h)

/-- A coordinator request fails for a fatal code only if that is an error in `B`. -/
theorem keeps_coordinatorCall {B : Error → Prop} {α : Type} (op : String)
    (as : Body → Option α) (version : ℤ) (req : Request) (errorOf : α → ℤ)
    (hB : ∀ resp, T.Gives as resp → (ErrorCode.mk (errorOf resp)).disposition = .fatal →
      B (.broker op (errorOf resp) .fatal)) :
    Keeps B (coordinatorCall T op as version req errorOf) := by
  refine .attempts (fun attempt _ => ?_) (fun _ => .throw _) _ _ _
  refine .bind (.of_moves (standing_coordinatorAddr T)) fun addr => ?_
  refine .bind_of (C := T.Gives as) (.of_moves (.ite (standing_onCluster _) (standing_onCluster _)))
    (fun p resp p' h => callCoordinatorAt_gives T h) fun resp hresp => .ite (.pure _) ?_
  split
  · exact .bind (.of_moves (standing_onCluster _)) fun _ => .pure _
  · refine .bind (.of_moves (.modify fun _ => ⟨⟨rfl, rfl⟩, rfl⟩)) fun _ => ?_
    exact .bind (.of_moves (standing_onCluster _)) fun _ => .pure _
  · next hfatal => exact .fenced (hB resp hresp hfatal)
  · exact .throw _

theorem standing_locateGroup (groupId : String) (attempt : ℕ) (addr : Option String) :
    Moves Standing (locateGroup T groupId attempt addr) := by
  cases addr with
  | some addr => exact .pure _
  | none =>
      refine .bind (standing_onCluster _) fun resp => .ite (.pure _) ?_
      split
      · exact .bind (standing_onCluster _) fun _ => .pure _
      · exact .bind (standing_onCluster _) fun _ => .pure _
      · exact .throw _

/-- The answers whose code fences the producer end in an error in `B`. -/
structure Blames (T : Transport ω) (B : Error → Prop) : Prop where
  addPartitions : ∀ results, T.Gives Body.asAddPartitionsToTxn results →
    (ErrorCode.mk (firstFailure results)).disposition = .fatal →
      B (.broker "AddPartitionsToTxn" (firstFailure results) .fatal)
  addOffsets : ∀ code, T.Gives Body.asAddOffsetsToTxn code →
    (ErrorCode.mk code).disposition = .fatal → B (.broker "AddOffsetsToTxn" code .fatal)
  txnOffsetCommit : ∀ results, T.Gives Body.asTxnOffsetCommit results →
    (ErrorCode.mk (firstFailure results)).disposition = .fatal →
      B (.broker "TxnOffsetCommit" (firstFailure results) .fatal)
  produce : ∀ resp, T.Gives Body.asProduce resp → ∀ topic ∈ resp, ∀ part ∈ topic.2,
    Fences (ErrorCode.mk part.errorCode).disposition →
      B (.broker "Produce" part.errorCode (ErrorCode.mk part.errorCode).disposition)

theorem identity_onEnrolled (topic : String) (partitions : List ℤ) (state : ProducerState) :
    (partitions.foldl (fun state partition => state.onEnrolled ⟨topic, partition⟩) state).identity =
      state.identity := by
  induction partitions generalizing state with
  | nil => rfl
  | cons partition rest ih => exact (ih _).trans rfl

theorem standing_encodeFor (tp : TopicPartition) (records : List ProducerRecord) :
    Moves Standing (encodeFor T tp records) := by
  refine .ite (.throw _) (.bind ?_ fun range => ?_)
  · intro p
    rw [onState, mapError_apply, zoom_apply]
    rcases ProducerState.allocate_cases tp records.length p.state with ⟨-, heq⟩ | ⟨-, e, heq⟩
    · rw [heq]
      exact ⟨⟨rfl, rfl⟩, rfl⟩
    · rw [heq]
      exact ⟨⟨rfl, rfl⟩, rfl⟩
  · refine .bind .get fun p => .bind (.ofExcept _) fun identity => ?_
    refine .bind (standing_onCluster _) fun now => ?_
    dsimp only
    split
    · exact .throw _
    · exact .pure _

/-! ### The window -/

/-- A code that a window may have brought back: the stand-in for a lost answer, or
one of a `Produce` answer. -/
def Brings (code : ErrorCode) : Prop :=
  code = .requestTimedOut ∨ ∃ resp, T.Gives Body.asProduce resp ∧
    ∃ topic ∈ resp, ∃ part ∈ topic.2, code = ⟨part.errorCode⟩

theorem brings_of_answer {sent : List RoundTarget} {responses : List (Except Error ProduceResponse)}
    (hgives : ∀ resp, .ok resp ∈ responses → T.Gives Body.asProduce resp) {tp : TopicPartition}
    {code : ErrorCode} (h : (tp, code) ∈ (sent.zip responses).flatMap answerCodes) :
    Brings T code := by
  obtain ⟨⟨⟨addr, keys⟩, e | resp⟩, hmem, hcode⟩ := List.mem_flatMap.mp h
  · obtain ⟨tp', -, heq⟩ := List.mem_map.mp hcode
    cases heq
    exact .inl rfl
  · obtain ⟨⟨topic, parts⟩, htopic, hpart⟩ := List.mem_flatMap.mp hcode
    obtain ⟨part, hin, heq⟩ := List.mem_map.mp hpart
    cases heq
    exact .inr ⟨resp, hgives resp (List.of_mem_zip hmem).2, _, htopic, part, hin, rfl⟩

theorem collectWindow_brings {round : ℕ} {rounds : Window} {p p' : Producer ω}
    {outcomes : List (List (TopicPartition × ErrorCode))} {failure : Option Error}
    (h : collectWindow T round rounds p = (.ok (outcomes, failure), p')) :
    ∀ results ∈ outcomes, ∀ tp code, (tp, code) ∈ results → Brings T code := by
  induction rounds generalizing round p p' outcomes failure with
  | nil =>
      cases h
      exact fun _ hnil => nomatch hnil
  | cons sent rest ih =>
      obtain ⟨responses, p₁, hrecv, h⟩ := bind_eq_ok h
      obtain ⟨_, p₂, -, h⟩ := bind_eq_ok h
      obtain ⟨⟨codes, failure'⟩, p₃, hrest, h⟩ := bind_eq_ok h
      cases h
      intro results hresults tp code hcode
      rcases List.mem_cons.mp hresults with rfl | hlater
      · exact brings_of_answer T (Cluster.recvMany_gives (onCluster_eq_ok hrecv)) hcode
      · exact ih hrest results hlater tp code hcode

theorem mem_inOrder {outcomes : List (List (TopicPartition × ErrorCode))} {round : ℕ}
    {tp : TopicPartition} {code : ErrorCode} (h : (round, tp, code) ∈ inOrder outcomes) :
    ∃ results ∈ outcomes, (tp, code) ∈ results := by
  obtain ⟨⟨results, i⟩, hmem, hresult⟩ := List.mem_flatMap.mp h
  obtain ⟨result, hin, heq⟩ := List.mem_map.mp hresult
  cases heq
  exact ⟨results, List.fst_mem_of_mem_zipIdx hmem, hin⟩

theorem standing_collectWindow (round : ℕ) (rounds : Window) :
    Moves Standing (collectWindow T round rounds) := by
  induction rounds generalizing round with
  | nil => exact .pure _
  | cons sent rest ih =>
      refine .bind (standing_onCluster _) fun responses => ?_
      refine .bind (.modify fun _ => ⟨⟨rfl, rfl⟩, rfl⟩) fun _ => ?_
      exact .bind (ih (round + 1)) fun _ => .pure _

theorem standing_sendRound (round : ℕ) (targets sent : List RoundTarget) :
    Moves Standing (sendRound T round targets sent) := by
  induction targets generalizing sent with
  | nil => exact .pure _
  | cons target rest ih =>
      refine .bind .get fun p => .ite (ih sent) ?_
      refine .bind (.attempt (standing_onCluster _)) fun outcome => ?_
      cases outcome with
      | ok _ => exact ih _
      | error e => exact .pure _

theorem standing_sendWindow (byBroker : ByBroker) (left round : ℕ) (rounds : Window) :
    Moves Standing (sendWindow T byBroker left round rounds) := by
  induction left generalizing round rounds with
  | zero => exact .pure _
  | succ left ih =>
      refine .bind (standing_sendRound T round _ _) fun result => ?_
      obtain ⟨sent, _ | e⟩ := result
      · exact .ite (.pure _) (ih _ _)
      · exact .bind (standing_collectWindow T _ _) fun _ => .throw _

theorem standing_route (tps : List TopicPartition) (routes : ByBroker × Bool) :
    Moves Standing (route T tps routes) := by
  induction tps generalizing routes with
  | nil => exact .pure _
  | cons tp rest ih =>
      refine .bind (.attempt (standing_onCluster _)) fun outcome => ?_
      cases outcome with
      | ok addr => exact ih _
      | error e =>
          cases e with
          | noLeader _ _ => exact ih _
          | _ => exact .throw _

theorem standing_abandonWindow (attempt : ℕ) (written : List (TopicPartition × ℤ)) (e : Error) :
    Moves Standing (abandonWindow T attempt written e) := by
  refine .bind (.modify fun _ => ⟨⟨rfl, rfl⟩, rfl⟩) fun _ => ?_
  cases e with
  | io e => exact .ite (.bind (standing_onCluster _) fun _ => .pure _) (.throw _)
  | _ => exact .throw _

theorem standing_refreshTopics (topics : List String) : Moves Standing (refreshTopics T topics) := by
  induction topics with
  | nil => exact .pure _
  | cons topic rest ih => exact .bind (standing_onCluster _) fun _ => ih

section Blames

variable {T} {B : Error → Prop} (hB : Blames T B)

include hB

theorem keeps_groupCoordinatorCall (groupId : String) (req : TxnOffsetCommitRequest) :
    Keeps B (groupCoordinatorCall T groupId req) := by
  refine .attempts (fun attempt addr => ?_) (fun _ => .throw _) _ _ _
  refine .bind (.of_moves (standing_locateGroup T groupId attempt addr)) fun found => ?_
  cases found with
  | none => exact .pure _
  | some addr =>
      refine .bind_of (C := T.Gives Body.asTxnOffsetCommit) (.of_moves (standing_onCluster _))
        (fun p resp p' h => Cluster.callAt_gives (onCluster_eq_ok h)) fun results hresults =>
          .ite (.pure _) ?_
      split
      · exact .bind (.of_moves (standing_onCluster _)) fun _ => .pure _
      · exact .bind (.of_moves (standing_onCluster _)) fun _ => .pure _
      · next hfatal => exact .fenced (hB.txnOffsetCommit results hresults hfatal)
      · exact .throw _

theorem keeps_sendOffsetsToTransaction (offsets : PartitionMap ℤ) (metadata : GroupMetadata) :
    Keeps B (sendOffsetsToTransaction T offsets metadata) := by
  refine .bind .get fun p => .ite (.throw _) (.ite (.pure _) ?_)
  refine .bind (.required _) fun identity => .bind (.required _) fun txnId => ?_
  refine .bind (keeps_coordinatorCall T _ _ _ _ _ hB.addOffsets) fun _ => ?_
  exact keeps_groupCoordinatorCall hB _ _

theorem keeps_enrollAll (topic : String) (partitions : List ℤ) :
    Keeps B (enrollAll T topic partitions) := by
  refine .bind .get fun p => .ite (.pure _) ?_
  refine .bind (.required _) fun identity => .bind (.required _) fun txnId => ?_
  refine .bind (keeps_coordinatorCall T _ _ _ _ _ hB.addPartitions) fun _ => ?_
  refine .of_moves (.modify fun p => ⟨⟨?_, rfl⟩, ?_⟩)
  · exact identity_onEnrolled topic _ p.state
  · exact Bears.onEnrolled_txn topic _ p.state

theorem keeps_judge {answers : List (ℕ × TopicPartition × ErrorCode)}
    (hbrings : ∀ round tp code, (round, tp, code) ∈ answers → Brings T code) (verdict : Verdict) :
    Keeps B (judge answers verdict : Act (Producer ω) Error Verdict) := by
  induction answers generalizing verdict with
  | nil => exact .pure _
  | cons answer rest ih =>
      obtain ⟨round, tp, code⟩ := answer
      have hrest : ∀ verdict, Keeps B (judge rest verdict : Act (Producer ω) Error Verdict) :=
        ih fun round tp code h => hbrings round tp code (List.mem_cons_of_mem _ h)
      rw [judge]
      by_cases hok : code.isOk
      · rw [if_pos hok]
        exact hrest verdict
      · rw [if_neg hok]
        refine .ite (hrest verdict) ?_
        split
        · exact .bind (.of_moves (.modify fun _ => ⟨⟨rfl, rfl⟩, rfl⟩)) fun _ => hrest _
        · exact hrest _
        · next hrefresh hretry =>
            have hfences : Fences code.disposition := by
              have hne : code.disposition ≠ .ok := fun h =>
                hok (ErrorCode.isOk_iff.mpr (ErrorCode.disposition_eq_ok_iff.mp h))
              cases hd : code.disposition with
              | ok => exact absurd hd hne
              | refreshMetadata => exact absurd hd hrefresh
              | retry => exact absurd hd hretry
              | findCoordinator => exact .inr rfl
              | fatal => exact .inl rfl
            rcases hbrings round tp code List.mem_cons_self with
              rfl | ⟨resp, hresp, topic, htopic, part, hpart, rfl⟩
            · rcases hfences with h | h <;> cases h
            · exact .fenced (hB.produce resp hresp topic htopic part hpart hfences)

theorem keeps_settleWindow (attempt : ℕ) (written : List (TopicPartition × ℤ))
    {outcomes : List (List (TopicPartition × ErrorCode))}
    (hbrings : ∀ results ∈ outcomes, ∀ tp code, (tp, code) ∈ results → Brings T code) :
    Keeps B (settleWindow T attempt written outcomes) := by
  refine .bind (keeps_judge hB (fun round tp code h => ?_) _) fun verdict => ?_
  · obtain ⟨results, hresults, hcode⟩ := mem_inOrder h
    exact hbrings results hresults tp code hcode
  · refine .bind (.of_moves fun p => ⟨⟨rfl, rfl⟩, rfl⟩) fun more => ?_
    refine .bind (.of_moves (.modify fun _ => ⟨⟨rfl, rfl⟩, rfl⟩)) fun _ => ?_
    refine .bind .get fun p => .ite (.pure _) ?_
    refine .bind (.of_moves (standing_refreshTopics T _)) fun _ => ?_
    exact .bind (.of_moves (standing_onCluster _)) fun _ => .pure _

theorem keeps_flushOnce (attempt : ℕ) (written : List (TopicPartition × ℤ)) :
    Keeps B (flushOnce T attempt written) := by
  refine .bind (.of_moves (.modify fun _ => ⟨⟨rfl, rfl⟩, rfl⟩)) fun _ => ?_
  refine .bind .get fun p => .ite (.pure _) ?_
  refine .bind (.of_moves (standing_route T _ _)) fun routes => ?_
  refine .ite (.ite (.throw _) (.bind (.of_moves (standing_onCluster _)) fun _ => .pure _)) ?_
  refine .bind (.of_moves (standing_sendWindow T _ _ _ _)) fun rounds => ?_
  refine .bind_of (C := fun result => ∀ results ∈ result.1, ∀ tp code, (tp, code) ∈ results →
    Brings T code) (.of_moves (standing_collectWindow T _ _))
    (fun p result p' h => collectWindow_brings T h) fun result hbrings => ?_
  obtain ⟨outcomes, _ | e⟩ := result
  · exact keeps_settleWindow hB attempt written hbrings
  · exact .of_moves (standing_abandonWindow T attempt written e)

/-! ### The calls -/

theorem keeps_enqueue (tp : TopicPartition) (records : List ProducerRecord) :
    Keeps B (enqueue T tp records) := by
  refine .ite (.pure _) (.bind (keeps_enrollAll hB _ _) fun _ => ?_)
  refine .bind (.of_moves (standing_encodeFor T tp records)) fun batch => ?_
  exact .of_moves (.modify fun _ => ⟨⟨rfl, rfl⟩, rfl⟩)

theorem keeps_enqueueTaken (tp : TopicPartition) (records : List ProducerRecord) :
    Keeps B (enqueueTaken T tp records) := by
  intro p₀ p hp
  have hkept := keeps_enqueue hB tp records p₀ p hp
  rw [enqueueTaken, bind_of_ok (attempt_apply _ p)]
  rcases henqueue : enqueue T tp records p with ⟨e | u, p'⟩
  · rw [henqueue] at hkept
    rcases hkept with hstanding | ⟨he, hnamed⟩
    · exact .inl ⟨⟨hstanding.identity, hstanding.transactionalId⟩, hstanding.txn⟩
    · exact .inr ⟨he, hnamed.identity, hnamed.transactionalId⟩
  · rw [henqueue] at hkept
    exact hkept

theorem keeps_enqueueStaged (tps : List TopicPartition) : Keeps B (enqueueStaged T tps) := by
  induction tps with
  | nil => exact .pure _
  | cons tp rest ih =>
      intro p₀ p hp
      rw [enqueueStaged, bind_of_ok (get_apply p)]
      rcases p.staged[tp]? with _ | staged
      · exact ih p₀ p hp
      · dsimp only
        rw [bind_of_ok (set_apply p _)]
        exact (keeps_enqueueTaken hB tp staged.records).bind (fun _ => ih) p₀ _
          ⟨⟨hp.identity, hp.transactionalId⟩, hp.txn⟩

theorem keeps_flush : Keeps B (flush T) := by
  refine .bind (.bind .get fun p => keeps_enqueueStaged hB _) fun _ => ?_
  exact .attempts (keeps_flushOnce hB) (fun _ => .bind .get fun _ => .throw _) _ _ _

theorem keeps_send (tp : TopicPartition) (records : List ProducerRecord) :
    Keeps B (send T tp records) := by
  refine .ite (.pure _) (.bind (keeps_enqueue hB tp records) fun _ => ?_)
  exact .bind (keeps_flush hB) fun _ => .pure _

theorem keeps_sendReady : Keeps B (sendReady T) := by
  refine .bind (.of_moves (standing_onCluster _)) fun now => .bind .get fun p => ?_
  refine .ite (.pure _) (.bind (keeps_enqueueStaged hB _) fun _ => ?_)
  exact .bind (keeps_flush hB) fun _ => .pure _

theorem keeps_produceTo (tp : TopicPartition) (record : ProducerRecord) :
    Keeps B (produceTo T tp record) := by
  have hstage : Moves Standing (stageFor T tp) := by
    refine .bind .get fun p => ?_
    cases p.staged[tp]? with
    | some staged => exact .pure _
    | none => exact .bind (standing_onCluster _) fun _ => .pure _
  refine .bind (.of_moves hstage) fun staged => ?_
  refine .bind (.of_moves (.modify fun _ => ⟨⟨rfl, rfl⟩, rfl⟩)) fun _ => ?_
  exact keeps_sendReady hB

omit hB in
theorem standing_partitionCountWaiting (topic : String) :
    Moves Standing (partitionCountWaiting T topic) := by
  refine .attempts (fun attempt _ => ?_) (fun _ => .throw _) _ _ _
  refine .bind (.attempt (standing_onCluster _)) fun outcome => ?_
  have hwait : Moves Standing (do
      backoff T attempt
      Pure.pure (.inl ()) : Act (Producer ω) Error (Unit ⊕ ℤ)) :=
    .bind (standing_onCluster _) fun _ => .pure _
  cases outcome with
  | ok count => exact .ite (.pure _) (.ite hwait (.throw _))
  | error e =>
      cases e with
      | noLeader _ _ => exact .ite hwait (.throw _)
      | _ => exact .throw _

theorem keeps_produce (topic : String) (record : ProducerRecord) :
    Keeps B (produce T topic record) := by
  refine .bind (.bind (.of_moves (standing_partitionCountWaiting topic)) fun count => ?_)
    fun partition => keeps_produceTo hB _ record
  refine .bind .get fun p => ?_
  cases (p.partitioner.partitionFor record.key count p.roundRobin).1 with
  | some partition => exact .pure _
  | none => exact .throw _

omit hB in
theorem standing_groupByPartition (topic : String) (count : ℤ) (records : List ProducerRecord)
    (groups : Std.TreeMap ℤ (List ProducerRecord)) :
    Moves Standing (groupByPartition topic count records groups :
      Act (Producer ω) Error (Std.TreeMap ℤ (List ProducerRecord))) := by
  induction records generalizing groups with
  | nil => exact .pure _
  | cons record rest ih =>
      intro p
      rw [groupByPartition, bind_of_ok (get_apply p)]
      rcases p.partitioner.partitionFor record.key count p.roundRobin with ⟨_ | partition, next⟩
      · exact ⟨⟨rfl, rfl⟩, rfl⟩
      · exact trans_of Standing (⟨⟨rfl, rfl⟩, rfl⟩ : Standing p { p with roundRobin := next })
          (ih _ _)

theorem keeps_enqueueGroups (topic : String) (groups : List (ℤ × List ProducerRecord)) :
    Keeps B (enqueueGroups T topic groups) := by
  induction groups with
  | nil => exact .pure _
  | cons group rest ih => exact .bind (keeps_enqueue hB _ _) fun _ => ih

theorem keeps_sendKeyed (topic : String) (records : List ProducerRecord) :
    Keeps B (sendKeyed T topic records) := by
  refine .ite (.pure _) (.bind (.of_moves (standing_partitionCountWaiting topic)) fun count => ?_)
  refine .bind (.of_moves (standing_groupByPartition topic count records ∅)) fun groups => ?_
  refine .bind (keeps_enrollAll hB _ _) fun _ => .bind (keeps_enqueueGroups hB _ _) fun _ => ?_
  exact .bind (keeps_flush hB) fun _ => .pure _

/-- The calls that neither open nor end a transaction. -/
theorem keeps_exec {call : Call} (hbegin : call ≠ .beginTransaction)
    (hcommit : call ≠ .commitTransaction) (habort : call ≠ .abortTransaction) :
    Keeps B (call.exec T) := by
  cases call with
  | beginTransaction => exact absurd rfl hbegin
  | commitTransaction => exact absurd rfl hcommit
  | abortTransaction => exact absurd rfl habort
  | sendOffsetsToTransaction offsets metadata =>
      exact keeps_sendOffsetsToTransaction hB offsets metadata
  | produce topic record => exact keeps_produce hB topic record
  | produceTo tp record => exact keeps_produceTo hB tp record
  | enqueue tp records => exact keeps_enqueue hB tp records
  | send tp records => exact .bind (keeps_send hB tp records) fun _ => .pure _
  | sendKeyed topic records => exact .bind (keeps_sendKeyed hB topic records) fun _ => .pure _
  | tick => exact keeps_sendReady hB
  | flush => exact .bind (keeps_flush hB) fun _ => .pure _
  | _ => exact .of_moves (.modify fun _ => ⟨⟨rfl, rfl⟩, rfl⟩)

end Blames

/-! ### A producer keeps its name -/

instance : IsPreorder (Producer ω) Named where
  refl _ := ⟨rfl, rfl⟩
  trans _ _ _ := Named.trans

theorem Keeps.named {B : Error → Prop} {α : Type} {m : Act (Producer ω) Error α}
    (h : Keeps B m) : Moves Named m := by
  intro p
  have hkept := h p p (refl p)
  rcases hm : m p with ⟨e | a, p'⟩
  · rw [hm] at hkept
    rcases hkept with hstanding | ⟨-, hnamed⟩
    · exact hstanding.toNamed
    · exact hnamed
  · rw [hm] at hkept
    exact hkept.toNamed

theorem named_endTransaction (committed : Bool) : Moves Named (endTransaction T committed) := by
  refine .bind ?_ fun _ => .bind .get fun p => ?_
  · intro p
    rw [onState, mapError_apply, zoom_apply]
    rcases ProducerState.endTransaction_cases p.state with ⟨-, heq⟩ | ⟨-, e, heq⟩ <;>
      exact ⟨by rw [heq], rfl⟩
  · refine .bind (.ofExcept _) fun identity => .bind (.ofExcept _) fun txnId => ?_
    refine .bind (keeps_coordinatorCall T _ _ _ _ _ (B := fun _ => True)
      fun _ _ _ => trivial).named fun _ => .modify fun p => ⟨?_, rfl⟩
    dsimp only [ProducerState.onEndTransaction]
    split <;> rfl

theorem named_step (p : Producer ω) (call : Call) : Named p (call.step T p) := by
  have hB : Blames T fun _ => True :=
    ⟨fun _ _ _ => trivial, fun _ _ _ => trivial, fun _ _ _ => trivial,
      fun _ _ _ _ _ _ _ => trivial⟩
  by_cases hbegin : call = .beginTransaction
  · subst hbegin
    rw [Call.step, Call.exec, beginTransaction, onState, mapError_apply, zoom_apply]
    rcases ProducerState.beginTransaction_cases p.state with ⟨-, heq⟩ | ⟨-, e, heq⟩ <;>
      exact ⟨by rw [heq], rfl⟩
  by_cases hcommit : call = .commitTransaction
  · subst hcommit
    exact named_endTransaction T true p
  by_cases habort : call = .abortTransaction
  · subst habort
    exact named_endTransaction T false p
  exact (keeps_exec hB hbegin hcommit habort).named p

/-- A producer in use has been given its identity. -/
theorem identity_of_reachable {p : Producer ω} (h : Reachable T p) :
    ∃ identity, p.state.identity = some identity := by
  obtain ⟨start, calls, hstart, rfl⟩ := h
  refine run_induction (I := fun p : Producer ω => ∃ identity, p.state.identity = some identity) ?_
    (fun p call ⟨identity, hid⟩ => ⟨identity, (named_step T p call).identity.trans hid⟩) calls
  have hmade : ∀ {p₀ p₁ : Producer ω}, construct T p₀ = (.ok (), p₁) →
      ∃ identity, p₁.state.identity = some identity := by
    intro p₀ p₁ h
    obtain ⟨_, _, -, h⟩ := bind_eq_ok h
    obtain ⟨_, _, -, h⟩ := bind_eq_ok h
    obtain ⟨resp, _, -, h⟩ := bind_eq_ok h
    cases h
    exact ⟨_, rfl⟩
  obtain ⟨env, bootstrap, clientId, h | ⟨transactionalId, h⟩⟩ := hstart
  · exact hmade h
  · exact hmade h

/-! ### What `abort_transaction` finds -/

theorem tolerates_grows : Tolerates T (Appends Cluster.sent fun _ => True)
    (Appends Producer.sent fun _ => True) (fun _ => True) where
  permits := Cluster.permits_appends T fun _ _ => trivial
  cluster _ _ h := h
  coordinator _ _ := .of_eq rfl
  state _ _ _ _ := .of_eq rfl
  offsets _ _ := .of_eq rfl
  roundRobin _ _ := .of_eq rfl

/-- A coordinator request that has a result was written. -/
theorem coordinatorCall_adds {α : Type} {op : String} {as : Body → Option α} {version : ℤ}
    {req : Request} {errorOf : α → ℤ} {p p' : Producer ω} {resp : α}
    (h : coordinatorCall T op as version req errorOf p = (.ok resp, p')) :
    Adds req (sent p) (sent p') := by
  obtain ⟨p₁, hgrown, ⟨attempt, _, hlast⟩ | ⟨_, hlast⟩⟩ := attempts_eq_ok
    ((tolerates_grows T).coordinatorCallOnce (fun _ _ => trivial) op as errorOf) h
  · refine Adds.after hgrown ?_
    obtain ⟨addr, p₂, haddr, hlast⟩ := bind_eq_ok hlast
    have hfound := (tolerates_grows T).coordinatorAddr p₁
    rw [haddr] at hfound
    refine Adds.after hfound ?_
    obtain ⟨resp', p₃, hcall, hlast⟩ := bind_eq_ok hlast
    have hadds : Adds req (sent p₂) (sent p₃) := by
      unfold callCoordinatorAt at hcall
      split at hcall
      · exact Cluster.callAny_adds (onCluster_eq_ok hcall)
      · exact Cluster.callAt_adds (onCluster_eq_ok hcall)
    dsimp only at hlast
    split at hlast
    · cases hlast
      exact hadds
    · generalize (ErrorCode.mk (errorOf resp')).disposition = disposition at hlast
      cases disposition with
      | retry =>
          obtain ⟨_, _, -, hlast⟩ := bind_eq_ok hlast
          cases hlast
      | findCoordinator =>
          obtain ⟨_, _, -, hlast⟩ := bind_eq_ok hlast
          obtain ⟨_, _, -, hlast⟩ := bind_eq_ok hlast
          cases hlast
      | fatal =>
          obtain ⟨_, _, -, hlast⟩ := bind_eq_ok hlast
          cases hlast
      | ok => cases hlast
      | refreshMetadata => cases hlast
  · cases hlast

/-- The `EndTxn` of an abort, and what follows its answer. -/
def sendAbort (txnId : String) (identity : ProducerIdentity) : Act (Producer ω) Error Unit := do
  let _ ← coordinatorCall T "EndTxn" Body.asEndTxn 3 (.endTxn ⟨txnId, identity, false⟩) id
  modify fun p => { p with state := p.state.onEndTransaction }

/-- An abort is accepted: it gets past the state machine, goes on to send `EndTxn`,
and if it succeeds has written one. -/
structure Abortable (p : Producer ω) : Prop where
  accepted : (ProducerState.endTransaction p.state).1 = .ok ()
  sends : ∃ txnId identity, p.transactionalId = some txnId ∧ p.state.identity = some identity ∧
    abortTransaction T p =
        sendAbort T txnId identity { p with state := { p.state with txn := .ending } } ∧
    ((abortTransaction T p).1 = .ok () →
      Adds (.endTxn ⟨txnId, identity, false⟩) (sent p) (sent (abortTransaction T p).2))

/-- `begin`, `commit` and `abort` are all refused. -/
def Stuck (p : Producer ω) : Prop :=
  (∃ e, (ProducerState.beginTransaction p.state).1 = .error e) ∧
    ∃ e, (ProducerState.endTransaction p.state).1 = .error e

theorem abortable_of_open {p : Producer ω} {txnId : String} {identity : ProducerIdentity}
    (hopen : p.state.txn = .inTransaction) (htxnId : p.transactionalId = some txnId)
    (hidentity : p.state.identity = some identity) : Abortable T p := by
  obtain ⟨-, heq⟩ : p.state.txn = .inTransaction ∧
      ProducerState.endTransaction p.state = (.ok (), { p.state with txn := .ending }) := by
    rcases ProducerState.endTransaction_cases p.state with h | ⟨h, -⟩
    · exact h
    · exact absurd hopen h
  let p₁ : Producer ω := { p with state := { p.state with txn := .ending } }
  have hstate : (onState ProducerState.endTransaction : Act (Producer ω) Error Unit) p =
      (.ok (), p₁) := by
    rw [onState, mapError_apply, zoom_apply, heq]
    rfl
  have hnamed : (required "producer id" p₁.state.identity : Act (Producer ω) Error _) p₁ =
      (.ok identity, p₁) := by
    show (required _ p.state.identity : Act (Producer ω) Error _) p₁ = _
    rw [hidentity]
    rfl
  have hid : (required "transactional id" p₁.transactionalId : Act (Producer ω) Error _) p₁ =
      (.ok txnId, p₁) := by
    show (required _ p.transactionalId : Act (Producer ω) Error _) p₁ = _
    rw [htxnId]
    rfl
  have hsends : abortTransaction T p = sendAbort T txnId identity p₁ := by
    rw [abortTransaction, endTransaction, bind_of_ok hstate, bind_of_ok (get_apply p₁),
      bind_of_ok hnamed, bind_of_ok hid]
    rfl
  refine ⟨by rw [heq], txnId, identity, htxnId, hidentity, hsends, fun hok => ?_⟩
  have hcall : sendAbort T txnId identity p₁ = (.ok (), (abortTransaction T p).2) := by
    rw [hsends] at hok ⊢
    exact Prod.fst_eq_iff.mp hok
  obtain ⟨code, p₂, hcode, hrest⟩ := bind_eq_ok hcall
  have hadds := coordinatorCall_adds T hcode
  have hlast : sent (abortTransaction T p).2 = sent p₂ :=
    congrArg (fun r => sent r.2) hrest.symm
  rw [hlast]
  exact hadds

end Producer

/-! ### Runs -/

/-- A code of a transactional request that is fatal is one that faults the producer. -/
def Excused (code : ErrorCode) : Prop := code.disposition = .fatal → code.Faults

/-- An answer whose code fences the producer only where that is its meaning. -/
def Body.Mild : Body → Prop
  | .addPartitionsToTxn results => Excused ⟨firstFailure results⟩
  | .addOffsetsToTxn code => Excused ⟨code⟩
  | .txnOffsetCommit results => Excused ⟨firstFailure results⟩
  | .produce resp => ∀ topic ∈ resp, ∀ part ∈ topic.2,
      Fences (ErrorCode.mk part.errorCode).disposition → (ErrorCode.mk part.errorCode).Faults
  | _ => True

/-- Brokers answer so. -/
def Transport.Mild (T : Transport ω) : Prop := ∀ body, T.Answers body → body.Mild

open Producer

theorem blames_of_mild {T : Transport ω} (h : T.Mild) : Blames T Error.IsFault where
  addPartitions results := by
    rintro ⟨body, hanswers, has⟩ hfatal
    have hmild := h body hanswers
    cases body with
    | addPartitionsToTxn results' =>
        cases has
        exact ⟨_, _, _, rfl, hmild hfatal⟩
    | _ => cases has
  addOffsets code := by
    rintro ⟨body, hanswers, has⟩ hfatal
    have hmild := h body hanswers
    cases body with
    | addOffsetsToTxn code' =>
        cases has
        exact ⟨_, _, _, rfl, hmild hfatal⟩
    | _ => cases has
  txnOffsetCommit results := by
    rintro ⟨body, hanswers, has⟩ hfatal
    have hmild := h body hanswers
    cases body with
    | txnOffsetCommit results' =>
        cases has
        exact ⟨_, _, _, rfl, hmild hfatal⟩
    | _ => cases has
  produce resp := by
    rintro ⟨body, hanswers, has⟩ topic htopic part hpart hfences
    have hmild := h body hanswers
    cases body with
    | produce resp' =>
        cases has
        exact ⟨_, _, _, rfl, hmild topic htopic part hpart hfences⟩
    | _ => cases has

/-- **A failed call leaves the transaction to be aborted**, unless it is itself the
commit or abort, in a world whose brokers fence a producer only for its own faults. -/
theorem abortable_after_failure (T : Transport ω) (hmild : T.Mild) {p : Producer ω}
    (hp : Reachable T p) (htransactional : p.transactionalId.isSome)
    (hopen : p.state.txn = .inTransaction) {call : Call} (hcommit : call ≠ .commitTransaction)
    (habort : call ≠ .abortTransaction) {e : Error} (hfails : (call.exec T p).1 = .error e)
    (hcause : ¬e.IsFault) : Abortable T (call.step T p) ∧ ¬Stuck (call.step T p) := by
  have hbegin : call ≠ .beginTransaction ∨ Standing p (call.step T p) := by
    by_cases h : call = .beginTransaction
    · subst h
      refine .inr ?_
      rw [Call.step, Call.exec, beginTransaction, onState, mapError_apply, zoom_apply]
      rcases ProducerState.beginTransaction_cases p.state with ⟨hready, -⟩ | ⟨-, e, heq⟩
      · rw [hopen] at hready
        cases hready
      · exact ⟨⟨by rw [heq], rfl⟩, by rw [heq]⟩
    · exact .inl h
  have hstanding : Standing p (call.step T p) := by
    rcases hbegin with hbegin | hstanding
    · have hkept := keeps_exec (blames_of_mild hmild) hbegin hcommit habort p p (refl p)
      rw [show call.exec T p = (.error e, call.step T p) from Prod.fst_eq_iff.mp hfails] at hkept
      rcases hkept with hstanding | ⟨hfault, -⟩
      · exact hstanding
      · exact absurd hfault hcause
    · exact hstanding
  obtain ⟨identity, hidentity⟩ := identity_of_reachable T hp
  obtain ⟨txnId, htxnId⟩ := Option.isSome_iff_exists.mp htransactional
  have habortable : Abortable T (call.step T p) :=
    abortable_of_open T (hstanding.txn.trans hopen) (hstanding.transactionalId.trans htxnId)
      (hstanding.identity.trans hidentity)
  refine ⟨habortable, ?_⟩
  rintro ⟨-, e', hrefused⟩
  rw [habortable.accepted] at hrefused
  cases hrefused

/-! ### A failure that is got over, and two that are not -/

instance (code : ErrorCode) : Decidable code.Faults :=
  inferInstanceAs (Decidable (_ ∨ _ ∨ _ ∨ _))

instance (disposition : Disposition) : Decidable (Fences disposition) :=
  inferInstanceAs (Decidable (_ ∨ _))

instance (code : ErrorCode) : Decidable (Excused code) := inferInstanceAs (Decidable (_ → _))

instance : DecidablePred Body.Mild := fun body =>
  match body with
  | .addPartitionsToTxn results => inferInstanceAs (Decidable (Excused ⟨firstFailure results⟩))
  | .addOffsetsToTxn code => inferInstanceAs (Decidable (Excused ⟨code⟩))
  | .txnOffsetCommit results => inferInstanceAs (Decidable (Excused ⟨firstFailure results⟩))
  | .produce resp => inferInstanceAs (Decidable (∀ topic ∈ resp, ∀ part ∈ topic.2,
      Fences (ErrorCode.mk part.errorCode).disposition → (ErrorCode.mk part.errorCode).Faults))
  | .apiVersions _ | .saslHandshake _ | .saslAuthenticate _ | .metadata _ | .findCoordinator _
  | .initProducerId _ | .endTxn _ | .fetch _ | .listOffsets _ | .joinGroup _ | .syncGroup _
  | .heartbeat _ | .leaveGroup _ | .offsetCommit _ | .offsetFetch _ | .malformed _ => isTrue trivial

/-- Hang up instead of handing out a body that is not mild. -/
def Incoming.gentle : Incoming → Incoming
  | .frame header body => if body.Mild then .frame header body else .closed
  | incoming => incoming

theorem Incoming.mild_of_gentle {incoming : Incoming} {header : Except String ℤ} {body : Body}
    (h : incoming.gentle = .frame header body) : body.Mild := by
  cases incoming with
  | closed => cases h
  | tooLarge len => cases h
  | frame header' body' =>
      rw [gentle] at h
      split at h
      · next hmild =>
          cases h
          exact hmild
      · cases h

def Tape.gentle : Transport Tape :=
  { Tape.transport with
    readWithin := fun _ stream tape => (.ok (tape.next stream).1.gentle, (tape.next stream).2) }

theorem Tape.gentle_mild : Tape.gentle.Mild := by
  rintro body ⟨timeout, stream, tape, header, hread⟩
  exact Incoming.mild_of_gentle (Except.ok.inj hread)

/-- The connection is lost in the `flush` of a transaction. -/
def interruptedStart : Producer Tape :=
  (Producer.transactional Tape.gentle (friendlyTape []) ["b:1"] "c" "x").2

def interruptedProducer : Producer Tape :=
  run (Call.step Tape.gentle) interruptedStart
    [.beginTransaction, .enqueue ⟨"t", 0⟩ [sampleRecord]]

theorem interrupted_reachable : Reachable Tape.gentle interruptedProducer := by
  have hstart : (Producer.transactional Tape.gentle (friendlyTape []) ["b:1"] "c" "x").1 =
      .ok () := by
    decide
  exact ⟨interruptedStart, _, ⟨friendlyTape [], ["b:1"], "c",
    .inr ⟨"x", Prod.fst_eq_iff.mp hstart⟩⟩, rfl⟩

theorem abortable_after_failure_flush :
    ∃ e, (Call.flush.exec Tape.gentle interruptedProducer).1 = .error e ∧
      Abortable Tape.gentle (Call.flush.step Tape.gentle interruptedProducer) := by
  have hfails : (Call.flush.exec Tape.gentle interruptedProducer).1 =
      .error (.io ⟨.unexpectedEof, "broker closed the connection"⟩) := by
    decide +kernel
  refine ⟨_, hfails, (abortable_after_failure Tape.gentle Tape.gentle_mild interrupted_reachable
    (by decide) (by decide) (by simp) (by simp) hfails ?_).1⟩
  rintro ⟨op, code, disposition, heq, -⟩
  cases heq

def transactionTape (rest : List Body) : Tape :=
  .of ([.apiVersions ⟨0, []⟩, .findCoordinator ⟨0, "b", 1⟩, .initProducerId ⟨0, 7, 0⟩] ++ rest)

/-- A producer that has just opened a transaction, and the answers to come. -/
def openedProducer (rest : List Body) : Producer Tape :=
  run (Call.step Tape.transport) (transactionalStart (transactionTape rest)) [.beginTransaction]

/-- The group coordinator refuses the offsets: the member's generation is over. -/
def rejectedOffsets : List Body :=
  [.addOffsetsToTxn 0, .findCoordinator ⟨0, "b", 1⟩, .txnOffsetCommit [("t", [(0, 22)])]]

def offsetsCall : Call :=
  .sendOffsetsToTransaction ((∅ : PartitionMap ℤ).insert ⟨"t", 0⟩ 5) ⟨"g", 1, "m", none⟩

theorem openedProducer_reachable {rest : List Body}
    (h : (Producer.transactional Tape.transport (transactionTape rest) ["b:1"] "c" "x").1 = .ok ()) :
    Reachable Tape.transport (openedProducer rest) := by
  have hmade : Producer.transactional Tape.transport (transactionTape rest) ["b:1"] "c" "x" =
      (.ok (), transactionalStart (transactionTape rest)) := by
    rw [transactionalStart, ← h]
  exact ⟨transactionalStart (transactionTape rest), [.beginTransaction],
    ⟨transactionTape rest, ["b:1"], "c", .inr ⟨"x", hmade⟩⟩, by rw [openedProducer]⟩

theorem stuck_of_txn {p : Producer ω} (h : p.state.txn = .fatal ∨ p.state.txn = .ending) :
    Stuck p := by
  have hready : p.state.txn ≠ .ready := by
    rcases h with h | h <;> simp [h]
  have hopen : p.state.txn ≠ .inTransaction := by
    rcases h with h | h <;> simp [h]
  constructor
  · rcases ProducerState.beginTransaction_cases p.state with ⟨h', -⟩ | ⟨-, e, heq⟩
    · exact absurd h' hready
    · exact ⟨e, by rw [heq]⟩
  · rcases ProducerState.endTransaction_cases p.state with ⟨h', -⟩ | ⟨-, e, heq⟩
    · exact absurd h' hopen
    · exact ⟨e, by rw [heq]⟩

/-- A rejected offset commit fences the producer, and a commit that loses its
connection leaves it in `Ending`: both refuse everything afterwards. -/
theorem failure_leaves_stuck :
    (Reachable Tape.transport (openedProducer rejectedOffsets) ∧
      (openedProducer rejectedOffsets).state.txn = .inTransaction ∧
      (offsetsCall.exec Tape.transport (openedProducer rejectedOffsets)).1 =
        .error (.broker "TxnOffsetCommit" 22 .fatal) ∧
      Stuck (offsetsCall.step Tape.transport (openedProducer rejectedOffsets))) ∧
    Reachable Tape.transport (openedProducer []) ∧
      (openedProducer []).state.txn = .inTransaction ∧
      (Call.commitTransaction.exec Tape.transport (openedProducer [])).1 =
        .error (.io ⟨.unexpectedEof, "broker closed the connection"⟩) ∧
      Stuck (Call.commitTransaction.step Tape.transport (openedProducer [])) := by
  refine ⟨⟨openedProducer_reachable (by decide), by decide, by decide,
    stuck_of_txn (by decide)⟩, openedProducer_reachable (by decide),
    by decide, by decide, stuck_of_txn (by decide)⟩

end Barnabas.Client
