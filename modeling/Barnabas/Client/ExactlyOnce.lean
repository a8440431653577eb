import Barnabas.Client.Chronicle
import Barnabas.Client.Numbering
import Barnabas.Client.Receipts

/-!
Exactly-once delivery.

Between its calls a producer and the log of each partition are a channel of
`Lib.GoBack`: the batches that were numbered, of which the producer has retired some
and the log holds at least those. A batch is retired for an answer with code 0, and
such an answer is given for a batch in the log, so that what is retired is written; what
is written out of line is refused, so that the log is a prefix of what was numbered.
-/

namespace Barnabas.Client

open Barnabas.Lib Barnabas.Core Barnabas.Lib.Act World

/-! ### Answers that can be trusted -/

/-- Nothing is answered with success that the log did not take. -/
def Fault.Truthful : Fault → Prop
  | none => True
  | before code | after code => code ≠ 0

/-- What goes wrong in a script, goes wrong like this. -/
def World.Faults (P : Fault → Prop) (script : ℕ → Choice) : Prop :=
  ∀ n, ∀ served ∈ (script n).served, ∀ tp, P (served.2.fault tp)

/-- A batch that is acknowledged is in the log, at the offset of the answer. -/
theorem Log.mem_of_serve {batches : List Batch} {log : Log} (h : InLine batches)
    (hlog : log.batches <+: batches) {i : ℕ} (hi : i < batches.length) (gap : ℕ) {fault : Fault}
    (hfault : fault.Truthful) {offset : ℤ}
    (hoffset : (log.serve gap batches[i] fault).1 = (0, offset)) :
    ⟨batches[i], offset⟩ ∈ (log.serve gap batches[i] fault).2 := by
  cases fault with
  | none =>
      rw [serve_none_log]
      apply mem_of_accept h hlog hi gap
      rw [serve] at hoffset
      rcases haccept : log.accept gap batches[i] with ⟨_ | found, log'⟩
      · rw [haccept] at hoffset
        cases hoffset
      · rw [haccept] at hoffset
        cases hoffset
        rfl
  | before code => exact absurd (congrArg Prod.fst hoffset) hfault
  | after code => exact absurd (congrArg Prod.fst hoffset) hfault

/-- A request that names a partition once leaves in its log what became of that batch. -/
theorem Answer.after_eq (a : Answer) {req : ProduceRequest} (hreq : a.frame.request = .produce req)
    {tp : TopicPartition} {batch : Batch} (hbatch : (tp, batch) ∈ batchesOf req)
    (hone : ∀ batch', (tp, batch') ∈ batchesOf req → batch' = batch) :
    a.after tp = (a.outcome tp batch).2 := by
  rw [after, hreq]
  dsimp only
  rcases hlookup : (batchesOf req).lookup tp with _ | batch'
  · have hnone := List.lookup_eq_none_iff.mp hlookup (tp, batch) hbatch
    simp at hnone
  · obtain ⟨before, behind, hsplit, -⟩ := List.lookup_eq_some_iff.mp hlookup
    rw [hone batch' (by simp [hsplit])]

/-- A batch that is in a log is where it was numbered. -/
theorem Log.lt_length {batches : List Batch} {log : Log} (h : InLine batches)
    (hlog : log.batches <+: batches) {i : ℕ} (hi : i < batches.length)
    (hmem : batches[i] ∈ log.batches) : i < log.length := by
  obtain ⟨j, hj, hget⟩ := List.getElem_of_mem hmem
  rw [hlog.getElem hj] at hget
  obtain rfl := h.nodup.getElem_inj_iff.mp hget
  rwa [length_batches] at hj

namespace World.Tracks

variable {script : ℕ → Choice} {numbered : TopicPartition → List Batch}
  {acked : TopicPartition → ℕ} {depth : ℕ} {w : World} (h : Tracks script numbered acked depth w)
  {s : ℕ} {a : Answer} (ha : a ∈ w.answered s) {tp : TopicPartition} (htp : InLine (numbered tp))

include h ha htp

theorem logs_begin : (a.logs tp).batches <+: numbered tp :=
  (((a.prefix_after tp).trans (h.dated.past s a ha tp)).map _).trans (h.batches tp htp)

/-- A batch that an answer acknowledges is in the log that the answer leaves. -/
theorem mem_after (hscript : Faults Fault.Truthful script) {req : ProduceRequest}
    (hreq : a.frame.request = .produce req) {batch : Batch} (hbatch : (tp, batch) ∈ batchesOf req)
    {offset : ℤ} (houtcome : (a.outcome tp batch).1 = (0, offset)) : ⟨batch, offset⟩ ∈ a.after tp := by
  have hentered : a.frame ∈ w.entered s := List.mem_append_left _ (List.mem_map_of_mem ha)
  obtain ⟨hwindow, hone⟩ := h.entered s a.frame hentered req hreq
  obtain ⟨i, -, hget⟩ := hwindow tp batch hbatch
  obtain ⟨hi, rfl⟩ := List.getElem?_eq_some_iff.mp hget
  have htruthful : (a.reply.fault tp).Truthful := by
    obtain ⟨n, served, hserved, hreply⟩ := h.scripted s a ha
    rw [hreply]
    exact hscript n served hserved tp
  rw [a.after_eq hreq hbatch fun batch' hbatch' => hone tp batch' _ hbatch' hbatch]
  exact Log.mem_of_serve htp (h.logs_begin ha htp) hi (a.reply.gap tp) htruthful houtcome

omit ha in
/-- What the client has read an acknowledgement for is in the log. -/
theorem posted (hscript : Faults Fault.Truthful script) {batch : Batch} {offset : ℤ}
    (hposted : Producer.Posted w tp batch offset) : ⟨batch, offset⟩ ∈ w.logs tp := by
  obtain ⟨s, a, hread, req, hreq, hbatch, houtcome⟩ := hposted
  have ha : a ∈ w.answered s := List.mem_append_left _ hread
  exact (h.dated.past s a ha tp).subset (h.mem_after ha htp hscript hreq hbatch houtcome)

end World.Tracks

namespace Producer

variable {script : ℕ → Choice} {depth : ℕ}

/-! ### What holds between the calls -/

/-- How many batches of a partition are queued no more. -/
def retired {ω : Type} (p : Producer ω) (tp : TopicPartition) : ℕ :=
  (p.numberedFor tp).length - (p.queue tp).length

/-- Nothing is outstanding, what is queued are the last of the batches that were numbered,
and the logs are the receivers of all of them. -/
structure Upheld (script : ℕ → Choice) (depth : ℕ) (p : Producer World) : Prop where
  resting : Cluster.Resting p.cluster
  bound : p.maxInFlight ≤ depth
  queue : ∀ tp, p.queue tp <:+ p.numberedFor tp
  tracks : Tracks script p.numberedFor p.retired depth p.cluster.wire.env

/-- A queue begins where its partition is retired up to. -/
theorem queue_eq_drop {ω : Type} {p : Producer ω} {tp : TopicPartition}
    (h : p.queue tp <:+ p.numberedFor tp) : p.queue tp = (p.numberedFor tp).drop (p.retired tp) :=
  List.suffix_iff_eq_drop.mp h

/-- The requests of a window carry the batches of the window. -/
theorem windowed_ask {p : Producer World} (hqueue : ∀ tp, p.queue tp <:+ p.numberedFor tp)
    {keys : List TopicPartition} {round : ℕ} (hround : round < depth) {f : Frame}
    (hf : f.request = p.ask keys round) : Windowed p.numberedFor p.retired depth f := by
  have hcarried : ∀ tp batch, (tp, batch) ∈ batchesOf (p.produceRequest keys round) →
      (p.queue tp)[round]? = some batch := by
    intro tp batch hbatch
    rw [(batchesOf_produceRequest p keys round).mem_iff] at hbatch
    obtain ⟨tp', -, heq⟩ := List.mem_filterMap.mp hbatch
    obtain ⟨batch', hget, heq⟩ := Option.map_eq_some_iff.mp heq
    cases heq
    exact hget
  intro req hreq
  rw [hf, ask, Request.produce.injEq] at hreq
  subst hreq
  refine ⟨fun tp batch hbatch => ?_, fun tp batch batch' hbatch hbatch' => ?_⟩
  · have hget := hcarried tp batch hbatch
    rw [queue_eq_drop (hqueue tp), List.getElem?_drop] at hget
    exact ⟨p.retired tp + round, by omega, hget⟩
  · exact Option.some.inj ((hcarried tp batch hbatch).symm.trans (hcarried tp batch' hbatch'))

/-- No other request carries a batch. -/
theorem windowed_of_ne {numbered : TopicPartition → List Batch} {acked : TopicPartition → ℕ}
    {f : Frame} (h : ∀ req, f.request ≠ .produce req) : Windowed numbered acked depth f :=
  fun req hreq => absurd hreq (h req)

/-! ### The network code -/

/-- Nothing is outstanding afterwards either, and nothing was queued or retired. -/
structure Hushed (I : World → Prop) (p p' : Producer World) : Prop where
  calls : Cluster.Calls I p.cluster p'.cluster
  pending : p'.pending = p.pending
  numbered : p'.numbered = p.numbered
  maxInFlight : p'.maxInFlight = p.maxInFlight

section Hushed

variable {I : World → Prop} {W : Frame → Prop}

instance : IsPreorder (Producer World) (Hushed I) where
  refl _ := ⟨refl_of (Cluster.Calls I) _, rfl, rfl, rfl⟩
  trans _ _ _ h h' := ⟨trans_of (Cluster.Calls I) h.calls h'.calls, h'.pending.trans h.pending,
    h'.numbered.trans h.numbered, h'.maxInFlight.trans h.maxInFlight⟩

theorem Hushed.of_state (p : Producer World) (state : ProducerState) : Hushed I p { p with state } :=
  ⟨refl_of (Cluster.Calls I) _, rfl, rfl, rfl⟩

theorem numbers_hushed (codec : Codec) (hI : Lasting I W)
    (hW : ∀ f : Frame, f.request.isPlumbing → W f) :
    Numbers (World.transport codec) (Cluster.Calls I) (Hushed I) W where
  permits := Cluster.permits_calls codec hI hW
  cluster _ _ h := ⟨h, rfl, rfl, rfl⟩
  coordinator _ _ := ⟨refl_of (Cluster.Calls I) _, rfl, rfl, rfl⟩
  state p s _ _ := .of_state p s
  offsets _ _ := ⟨refl_of (Cluster.Calls I) _, rfl, rfl, rfl⟩
  roundRobin _ _ := ⟨refl_of (Cluster.Calls I) _, rfl, rfl, rfl⟩
  sequences p _ := .of_state p _

end Hushed

/-- The tracking of a producer whose window starts here. -/
abbrev Tracked (script : ℕ → Choice) (depth : ℕ) (p : Producer World) : World → Prop :=
  Tracks script p.numberedFor p.retired depth

theorem Upheld.of_hushed {p p' : Producer World} (h : Upheld script depth p)
    (hp : Hushed (Tracked script depth p) p p') : Upheld script depth p' := by
  have hnumbered : p'.numberedFor = p.numberedFor := by
    funext tp
    rw [numberedFor, numberedFor, hp.numbered]
  have hqueue : ∀ tp, p'.queue tp = p.queue tp := fun tp => by
    rw [Producer.queue, Producer.queue, hp.pending]
  have hretired : p'.retired = p.retired := by
    funext tp
    rw [retired, retired, hnumbered, hqueue]
  obtain ⟨hresting, hsince⟩ := hp.calls h.resting
  refine ⟨hresting, by rw [hp.maxInFlight]; exact h.bound, fun tp => ?_, ?_⟩
  · rw [hqueue, hnumbered]
    exact h.queue tp
  · rw [hnumbered, hretired]
    exact hsince.lasting h.tracks

theorem upheld_of_hushed {α : Type} {m : Act (Producer World) Error α}
    (hm : ∀ p, Moves (Hushed (Tracked script depth p)) m) :
    Moves (Preserves (Upheld script depth)) m :=
  fun p hp => hp.of_hushed (hm p p)

theorem hushed (script : ℕ → Choice) (depth : ℕ) (codec : Codec) (p : Producer World) :
    Numbers (World.transport codec) (Cluster.Calls (Tracked script depth p))
      (Hushed (Tracked script depth p)) (Windowed p.numberedFor p.retired depth) := by
  refine numbers_hushed codec lasting_tracks fun f hf => windowed_of_ne fun req hreq => ?_
  rw [hreq] at hf
  cases hf

/-! ### Queueing -/

/-- A batch that is numbered and queued changes nothing of what is retired. -/
theorem retired_queued {ω : Type} (p : Producer ω) (tp : TopicPartition) (batch : Batch) :
    retired { p with
      pending := p.pending.insert tp (p.pending.getD tp [] ++ [batch])
      numbered := p.numbered ++ [(tp, batch)] } = p.retired := by
  funext tp'
  by_cases htp : tp' = tp
  · subst htp
    simp [retired, numberedFor, Producer.queue]
  · simp [retired, numberedFor, Producer.queue, Std.TreeMap.getD_insert, Ne.symm htp]

/-- A batch is numbered and queued. -/
theorem Upheld.queued {p : Producer World} (h : Upheld script depth p) (tp : TopicPartition)
    (batch : Batch) : Upheld script depth { p with
      pending := p.pending.insert tp (p.pending.getD tp [] ++ [batch])
      numbered := p.numbered ++ [(tp, batch)] } := by
  let p' : Producer World := { p with
    pending := p.pending.insert tp (p.pending.getD tp [] ++ [batch])
    numbered := p.numbered ++ [(tp, batch)] }
  have hnumbered : p'.numberedFor tp = p.numberedFor tp ++ [batch] := by
    simp [p', numberedFor]
  have hothers : ∀ tp' ≠ tp, p'.numberedFor tp' = p.numberedFor tp' := fun tp' htp => by
    simp [p', numberedFor, Ne.symm htp]
  have hqueue : p'.queue tp = p.queue tp ++ [batch] := by
    simp [p', Producer.queue]
  have hqueues : ∀ tp' ≠ tp, p'.queue tp' = p.queue tp' := fun tp' htp => by
    simp [p', Producer.queue, Std.TreeMap.getD_insert, Ne.symm htp]
  refine ⟨h.resting, h.bound, fun tp' => ?_, ?_⟩
  · show p'.queue tp' <:+ p'.numberedFor tp'
    by_cases htp : tp' = tp
    · subst htp
      rw [hqueue, hnumbered]
      exact List.suffix_append_self_iff.mpr (h.queue tp')
    · rw [hqueues tp' htp, hothers tp' htp]
      exact h.queue tp'
  · show Tracks script p'.numberedFor p'.retired depth p.cluster.wire.env
    rw [retired_queued p tp batch]
    exact h.tracks.send hnumbered hothers

theorem upheld_enrollAll (codec : Codec) (topic : String) (partitions : List ℤ) :
    Moves (Preserves (Upheld script depth)) (enrollAll (World.transport codec) topic partitions) := by
  refine upheld_of_hushed fun p =>
    (hushed script depth codec p).enrollAll (fun f req hf => ?_) topic partitions
  exact windowed_of_ne fun _ hreq => by rw [hf] at hreq; cases hreq

theorem upheld_enqueue (codec : Codec) (tp : TopicPartition) (records : List ProducerRecord) :
    Moves (Preserves (Upheld script depth)) (enqueue (World.transport codec) tp records) := by
  refine Moves.ite (Moves.pure _) (Moves.bind (upheld_enrollAll codec _ _) fun _ => ?_)
  have hencode : Moves (Preserves (Upheld script depth))
      (encodeFor (World.transport codec) tp records) :=
    upheld_of_hushed fun p => (hushed script depth codec p).encodeFor tp records
  refine Moves.bind hencode fun batch => ?_
  exact Moves.modify fun p hp => hp.queued tp batch

/-! ### Sending -/

theorem Confirmed.posted {w : World} {tp : TopicPartition} {batch : Batch}
    (h : Confirmed w tp batch) : ∃ offset, Posted w tp batch offset := by
  obtain ⟨s, a, ha, req, hreq, hbatch, hcode⟩ := h
  exact ⟨_, s, a, ha, req, hreq, hbatch, Prod.fst_eq_iff.mp hcode⟩

/-- Retiring what was confirmed, and forgetting leaders. -/
theorem Upheld.retire {p p' : Producer World} (h : Upheld script depth p)
    (hscript : Faults Fault.Truthful script) (hresting : Cluster.Resting p'.cluster)
    (henv : p'.cluster.wire.env = p.cluster.wire.env) (hnumbered : p'.numbered = p.numbered)
    (hbound : p'.maxInFlight = p.maxInFlight)
    (hqueue : ∀ tp, ∃ k ≤ (p.queue tp).length, p'.queue tp = (p.queue tp).drop k ∧
      ∀ batch ∈ (p.queue tp).take k, Confirmed p.cluster.wire.env tp batch) :
    Upheld script depth p' := by
  have hsame : p'.numberedFor = p.numberedFor := by
    funext tp
    rw [numberedFor, numberedFor, hnumbered]
  refine ⟨hresting, by rw [hbound]; exact h.bound, fun tp => ?_, ?_⟩
  · obtain ⟨k, -, hdrop, -⟩ := hqueue tp
    rw [hdrop, hsame]
    exact (List.drop_suffix k _).trans (h.queue tp)
  · rw [hsame, henv]
    refine h.tracks.ack (fun tp => ?_) fun tp htp => ?_
    · obtain ⟨k, -, hdrop, -⟩ := hqueue tp
      rw [retired, retired, hsame, hdrop, List.length_drop]
      omega
    · obtain ⟨k, hk, hdrop, hconfirmed⟩ := hqueue tp
      have hknown : p.retired tp ≤ (p.cluster.wire.env.logs tp).length := (h.tracks.sound htp).acked
      have hlength := (h.queue tp).length_le
      rw [retired, hsame, hdrop, List.length_drop]
      rcases Nat.eq_zero_or_pos k with rfl | hpos
      · exact hknown
      · -- the last batch retired is in the log, and so are all before it
        have hlast : (p.numberedFor tp)[p.retired tp + (k - 1)]? = (p.queue tp)[k - 1]? := by
          rw [queue_eq_drop (h.queue tp), List.getElem?_drop]
        have hget : (p.queue tp)[k - 1]? = some (p.queue tp)[k - 1] :=
          List.getElem?_eq_getElem (by omega)
        obtain ⟨hi, heq⟩ := List.getElem?_eq_some_iff.mp (hlast.trans hget)
        have hmem : (p.queue tp)[k - 1] ∈ (p.queue tp).take k := by
          rw [List.mem_take_iff_getElem]
          exact ⟨k - 1, by omega, rfl⟩
        obtain ⟨offset, hposted⟩ := (hconfirmed _ hmem).posted
        have hlog := h.tracks.posted htp hscript hposted
        rw [← heq] at hlog
        have hlt := Log.lt_length htp (h.tracks.batches tp htp) hi (List.mem_map_of_mem hlog)
        rw [retired] at hlt
        omega
theorem upheld_retainQueued :
    Moves (Preserves (Upheld script depth)) (retainQueued : Act (Producer World) Error Unit) := by
  refine Moves.modify fun p hp => ?_
  let p' : Producer World := { p with pending := p.pending.filter fun _ queue => !queue.isEmpty }
  have hretired : p'.retired = p.retired := by
    funext tp
    rw [retired, retired, show p'.queue tp = p.queue tp from queue_retain p tp]
    rfl
  refine ⟨hp.resting, hp.bound, fun tp => ?_, ?_⟩
  · rw [show p'.queue tp = p.queue tp from queue_retain p tp]
    exact hp.queue tp
  · show Tracks script p'.numberedFor p'.retired depth p.cluster.wire.env
    rw [hretired]
    exact hp.tracks

section Window

variable (codec : Codec) (hscript : Faults Fault.Truthful script)

include hscript

theorem upheld_settleWindow {p : Producer World} {byBroker : ByBroker}
    (hnodup : (routed byBroker).Nodup) {n : ℕ} {c c' : Cluster World}
    {codes : List (List (TopicPartition × ErrorCode))}
    {offsets offsets' : List ((TopicPartition × ℕ) × ℤ)} {exchanges : List Exchange}
    (hcol : Collected p 0 (p.planned byBroker.toList n) c c' codes offsets offsets' exchanges)
    (hp : Upheld script depth { p with cluster := c', offsets := offsets' })
    (attempt : ℕ) (written : List (TopicPartition × ℤ)) :
    Upheld script depth (settleWindow (World.transport codec) attempt written codes
      { p with cluster := c', offsets := offsets' }).2 := by
  rcases judge_cases (inOrder codes) ⟨∅, false⟩ { p with cluster := c', offsets := offsets' } with
    ⟨verdict, metadata, heq, hfailed⟩ | ⟨e, metadata, heq⟩
  · have hfailed : ∀ tp : TopicPartition,
        verdict.failedAt[tp]? = firstFailed (inOrder codes) tp := by
      intro tp
      rw [hfailed tp]
      simp
    rw [settleWindow, bind_of_ok heq]
    let p₁ : Producer World := { p with cluster := { c' with metadata }, offsets := offsets' }
    have hretired : Upheld script depth (retire verdict.failedAt (inOrder codes) p₁).2 := by
      -- what is retired of a partition are its batches in front of the first that failed
      refine hp.retire hscript hp.resting rfl rfl rfl fun tp => ?_
      obtain ⟨m, hm, codeAt, hanswers, -⟩ := partition_answers hnodup hcol tp
      obtain ⟨hle, -⟩ := retiring_of_rounds hanswers (hfailed tp)
      refine ⟨_, hle.trans hm, queue_retire verdict.failedAt offsets' (inOrder codes) (p.pending, []) tp,
        fun batch hbatch => ?_⟩
      exact confirmed_of_retiring hnodup hcol (hfailed tp) hbatch
    -- what follows only waits and looks things up
    have hrest : Moves (Preserves (Upheld script depth)) (do
        retainQueued
        let p ← get
        if p.pending.isEmpty then
          pure (.inr (sortWritten (written ++ (retire verdict.failedAt (inOrder codes) p₁).1)))
        else do
          refreshTopics (World.transport codec) (if verdict.needsRefresh then p.pendingTopics else [])
          backoff (World.transport codec) attempt
          pure (.inl (written ++ (retire verdict.failedAt (inOrder codes) p₁).1)) :
        Act (Producer World) Error (List (TopicPartition × ℤ) ⊕ List (TopicPartition × ℤ))) := by
      refine Moves.bind upheld_retainQueued fun _ => Moves.bind Moves.get fun p => ?_
      refine Moves.ite (Moves.pure _) (Moves.bind (upheld_of_hushed fun p => ?_) fun _ => ?_)
      · exact (hushed script depth codec p).refreshTopics _
      · refine Moves.bind (upheld_of_hushed fun p => ?_) fun _ => Moves.pure _
        exact (hushed script depth codec p).backoff attempt
    exact hrest _ hretired
  · rw [settleWindow, bind_of_error heq]
    exact ⟨hp.resting, hp.bound, hp.queue, hp.tracks⟩

/-- A window, and what follows it. -/
theorem upheld_window {p : Producer World} (hp : Upheld script depth p) {byBroker : ByBroker}
    (hnodup : (routed byBroker).Nodup) (attempt : ℕ) (written : List (TopicPartition × ℤ)) :
    Upheld script depth ((do
      let rounds ← sendWindow (World.transport codec) byBroker (p.windowDepth byBroker) 0 []
      match ← collectWindow (World.transport codec) 0 rounds with
      | (_, some e) => abandonWindow (World.transport codec) attempt written e
      | (outcomes, none) => settleWindow (World.transport codec) attempt written outcomes :
        Act (Producer World) Error _) p).2 := by
  have hdepth : p.windowDepth byBroker ≤ depth := (min_le_right _ _).trans hp.bound
  have hask : ∀ keys, ∀ round < p.windowDepth byBroker, ∀ f : Frame,
      f.request = p.ask keys round → Windowed p.numberedFor p.retired depth f :=
    fun keys round hround f hf => windowed_ask hp.queue (hround.trans_le hdepth) hf
  have hplumbing : ∀ f : Frame, f.request.isPlumbing → Windowed p.numberedFor p.retired depth f :=
    (hushed script depth codec p).permits.plumbing
  rcases window_cases codec lasting_tracks hplumbing (p.windowDepth byBroker) hask hp.resting with
    ⟨n, codes, failure, c, c', offsets', hsend, hcollect, -, hresting, -, hsince, hcollected⟩ |
      ⟨e, c, offsets, hsend, hresting, hsince⟩
  · -- between sending and settling the brokers may have written any part of the window
    have hbetween : Upheld script depth { p with cluster := c', offsets := offsets' } :=
      ⟨hresting, hp.bound, hp.queue, hsince.lasting hp.tracks⟩
    rw [bind_of_ok hsend, bind_of_ok hcollect]
    cases failure with
    | some e =>
        refine upheld_of_hushed (fun p => ?_) _ hbetween
        exact (hushed script depth codec p).abandonWindow attempt written e
    | none =>
        obtain ⟨exchanges, hcol⟩ := hcollected rfl
        exact upheld_settleWindow codec hscript hnodup hcol hbetween attempt written
  · rw [bind_of_error hsend]
    exact ⟨hresting, hp.bound, hp.queue, hsince.lasting hp.tracks⟩

theorem upheld_flushOnce (attempt : ℕ) (written : List (TopicPartition × ℤ)) :
    Moves (Preserves (Upheld script depth)) (flushOnce (World.transport codec) attempt written) := by
  refine Moves.bind upheld_retainQueued fun _ => Moves.bind_get fun p => ?_
  split
  · exact id
  · have hroute : Moves (Preserves (Upheld script depth))
        (route (World.transport codec) p.pending.keys (∅, false)) :=
      upheld_of_hushed fun p => (hushed script depth codec p).route _ _
    refine moves_bind_at (hroute p) fun routes p₁ hrouted => ?_
    obtain ⟨byBroker, unroutable⟩ := routes
    have hnodup : (routed byBroker).Nodup := route_nodup hrouted Std.TreeMap.nodup_keys
    have hdepth : p₁.windowDepth byBroker = p.windowDepth byBroker := by
      have hsame := (hushed script depth codec p).route p.pending.keys
        (∅, false) p
      rw [hrouted] at hsame
      rw [windowDepth, windowDepth, hsame.pending, hsame.maxInFlight]
    dsimp only
    split
    · split
      · exact id
      · refine Moves.bind (upheld_of_hushed fun p => ?_) (fun _ => Moves.pure _) p₁
        exact (hushed script depth codec p).backoff attempt
    · rw [← hdepth]
      exact fun hp => upheld_window codec hscript hp hnodup attempt written

theorem upheld_sends : Moves (Preserves (Upheld script depth)) (sends (World.transport codec)) :=
  Moves.attempts (upheld_flushOnce codec hscript) (fun _ => Moves.bind Moves.get fun _ => Moves.throw _)
    _ _ _

end Window

/-! ### Every call -/

section Calls

variable (codec : Codec)

theorem hushed_endTransaction {I : World → Prop} {W : Frame → Prop} (hI : Lasting I W)
    (hW : ∀ f : Frame, (∀ req, f.request ≠ .produce req) → W f) (committed : Bool) :
    Moves (Hushed I) (endTransaction (World.transport codec) committed) := by
  have hplumbing : ∀ f : Frame, f.request.isPlumbing → W f := fun f hf =>
    hW f fun req hreq => by rw [hreq] at hf; cases hf
  have h := numbers_hushed codec hI hplumbing
  refine Moves.bind (fun p => .of_state p _) fun _ => Moves.bind Moves.get fun p => ?_
  refine Moves.bind (Moves.ofExcept _) fun identity => Moves.bind (Moves.ofExcept _) fun txnId => ?_
  refine Moves.bind (h.coordinatorCall (fun f hf => hW f fun req hreq => ?_) _ _ _) fun _ => ?_
  · rw [hf] at hreq
    cases hreq
  · exact Moves.modify fun p => .of_state p _

theorem hushed_construct {I : World → Prop} {W : Frame → Prop} (hI : Lasting I W)
    (hW : ∀ f : Frame, (∀ req, f.request ≠ .produce req) → W f) :
    Moves (Hushed I) (construct (World.transport codec)) := by
  have hplumbing : ∀ f : Frame, f.request.isPlumbing → W f := fun f hf =>
    hW f fun req hreq => by rw [hreq] at hf; cases hf
  have h := numbers_hushed codec hI hplumbing
  refine Moves.bind (h.onCluster h.permits.connect) fun _ => Moves.bind Moves.get fun p => ?_
  refine Moves.bind (h.coordinatorCall (fun f hf => hW f fun req hreq => ?_) _ _ _) fun _ => ?_
  · rw [hf] at hreq
    cases hreq
  · exact Moves.modify fun p => .of_state p _

theorem upholds_upheld (hscript : Faults Fault.Truthful script) :
    Upholds (World.transport codec) (Upheld script depth) where
  alike p p' h hp := by
    obtain ⟨age, hcluster⟩ := h.cluster
    refine hp.of_hushed ⟨fun hresting => ?_, h.pending, h.numbered, h.maxInFlight⟩
    rw [hcluster]
    exact ⟨hresting, .refl _⟩
  enqueue := upheld_enqueue codec
  now := upheld_of_hushed fun p =>
    (hushed script depth codec p).onCluster (hushed script depth codec p).permits.now
  partitionCountWaiting topic := upheld_of_hushed fun p =>
    (hushed script depth codec p).partitionCountWaiting topic
  enrollAll := upheld_enrollAll codec
  sends := upheld_sends codec hscript
  beginTransaction := upheld_of_hushed fun _ p => .of_state p _
  endTransaction committed := upheld_of_hushed fun p =>
    hushed_endTransaction codec lasting_tracks (fun _ => windowed_of_ne) committed
  sendOffsetsToTransaction offsets metadata := by
    refine upheld_of_hushed fun p => (hushed script depth codec p).sendOffsetsToTransaction
      offsets metadata (fun f req hf => ?_) fun f req hf => ?_
    · exact windowed_of_ne fun _ hreq => by rw [hf] at hreq; cases hreq
    · exact windowed_of_ne fun _ hreq => by rw [hf] at hreq; cases hreq

/-- Nothing has been numbered or written when a producer is made. -/
theorem upheld_start {p : Producer World} (hp : Booted codec p) (hdepth : defaultMaxInFlight ≤ depth) :
    Upheld p.cluster.wire.env.script depth p := by
  have hnew : ∀ {script bootstrap clientId state transactionalId},
      construct (World.transport codec) (.new (.new (World.start script) bootstrap clientId) state
        transactionalId) = (.ok (), p) → Upheld p.cluster.wire.env.script depth p := by
    intro script bootstrap clientId state transactionalId hmade
    let p₀ : Producer World :=
      .new (.new (World.start script) bootstrap clientId) state transactionalId
    have hretired : p₀.retired = fun _ => 0 := by
      funext tp
      exact Nat.zero_sub _
    have hstart : Upheld script depth p₀ := by
      refine ⟨Ledger.resting_new script bootstrap clientId, hdepth, fun tp => ?_, ?_⟩
      · simp [p₀, Producer.new, Producer.queue]
      · rw [hretired]
        exact tracks_start
    have hmoved := hushed_construct codec (I := Tracked script depth p₀) lasting_tracks
      (fun _ => windowed_of_ne) p₀
    rw [hmade] at hmoved
    have hupheld := hstart.of_hushed hmoved
    rwa [hupheld.tracks.same]
  obtain ⟨script, bootstrap, clientId, hmade | ⟨transactionalId, hmade⟩⟩ := hp
  · exact hnew hmade
  · exact hnew hmade

end Calls

end Producer

/-- A call that lets no more than so many requests be in flight. -/
def Call.Within (depth : ℕ) : Call → Prop
  | setMaxInFlight bound => bound ≤ depth
  | _ => True

namespace Producer

variable (codec : Codec)

theorem upheld_run {p : Producer World} (hp : Booted codec p)
    (hscript : Faults Fault.Truthful p.cluster.wire.env.script) {depth : ℕ}
    (hdepth : defaultMaxInFlight ≤ depth) (calls : List Call)
    (hcalls : ∀ call ∈ calls, call.Within depth) :
    Upheld p.cluster.wire.env.script depth (run (Call.step (World.transport codec)) p calls) := by
  refine run_induction_of_prefix (I := fun _ => Upheld p.cluster.wire.env.script depth)
    (upheld_start codec hp hdepth) calls fun pre call hpre hupheld => ?_
  refine (upholds_upheld codec hscript).exec (fun bound hcall p hp => ?_) _ hupheld
  have hbound := hcalls call (hpre.subset (List.mem_append_right _ List.mem_cons_self))
  rw [hcall] at hbound
  exact ⟨hp.resting, hbound, hp.queue, hp.tracks⟩

theorem inLine_of_lined {p : Producer World} (h : p.Lined) {tp : TopicPartition}
    (hfits : ((p.sequenced tp).length : ℤ) ≤ i32Max) : InLine (p.numberedFor tp) := by
  refine inLine_of_numbering (h.numbering tp) (h.filled tp) ?_
  rwa [recordsBefore, List.take_length, ← List.length_flatMap]

/-- Where the batches of a partition are: the log holds them in the order they were
numbered, each once, the producer keeps what it has not retired, and nothing is retired
that is not written. The log is ahead of that by at most `depth` batches. -/
structure Delivered (depth : ℕ) (p : Producer World) (tp : TopicPartition) : Prop where
  log : (p.cluster.wire.env.logs tp).batches <+: p.numberedFor tp
  once : (p.cluster.wire.env.logs tp).batches.Nodup
  spaced : (p.cluster.wire.env.logs tp).Spaced
  queue : p.queue tp = (p.numberedFor tp).drop (p.retired tp)
  written : p.retired tp ≤ (p.cluster.wire.env.logs tp).length
  ahead : (p.cluster.wire.env.logs tp).length ≤ p.retired tp + depth
  channel : GoBack.Steps depth GoBack.empty
    (World.channel p.numberedFor p.retired p.cluster.wire.env tp)

theorem Upheld.delivered {script : ℕ → Choice} {depth : ℕ} {p : Producer World}
    (h : Upheld script depth p) {tp : TopicPartition} (htp : InLine (p.numberedFor tp)) :
    Delivered depth p tp where
  log := h.tracks.batches tp htp
  once := (h.tracks.batches tp htp).sublist.nodup htp.nodup
  spaced := h.tracks.spaced tp htp
  queue := queue_eq_drop (h.queue tp)
  written := (h.tracks.sound htp).acked
  ahead := (h.tracks.sound htp).window
  channel := h.tracks.steps tp htp

/-- Queueing changes nothing of what is retired. -/
theorem numbers_retired {ω : Type} (T : Transport ω) :
    Numbers T (Appends Cluster.sent fun _ => True) (Act.Keeps retired) fun _ => True where
  permits := Cluster.permits_appends T fun _ _ => trivial
  cluster _ _ _ := rfl
  coordinator _ _ := rfl
  state _ _ _ _ := rfl
  offsets _ _ := rfl
  roundRobin _ _ := rfl
  sequences _ _ := rfl

theorem retired_eq {ω : Type} {p p' : Producer ω} (hpending : p'.pending = p.pending)
    (hnumbered : p'.numbered = p.numbered) : p'.retired = p.retired := by
  funext tp
  rw [retired, retired, Producer.queue, numberedFor, hpending, hnumbered, Producer.queue, numberedFor]

theorem keeps_retired_enqueue {ω : Type} (T : Transport ω) (tp : TopicPartition)
    (records : List ProducerRecord) : Moves (Act.Keeps retired) (enqueue T tp records) := by
  refine Moves.ite (Moves.pure _) ?_
  refine Moves.bind ((numbers_retired T).enrollAll (fun _ _ _ => trivial) _ _) fun _ => ?_
  refine Moves.bind ((numbers_retired T).encodeFor tp records) fun batch => ?_
  exact Moves.modify fun p => retired_queued p tp batch

theorem drainStaged_retired {ω : Type} {T : Transport ω} {p p' : Producer ω}
    (h : drainStaged T p = (.ok (), p')) : p'.retired = p.retired := by
  have hqueueing : UpheldByQueueing T fun p' : Producer ω => p'.retired = p.retired := by
    refine ⟨fun p₁ p₂ halike h₁ => ?_, fun tp records p₁ h₁ => ?_⟩
    · rw [retired_eq halike.pending halike.numbered, h₁]
    · exact (keeps_retired_enqueue T tp records p₁).trans h₁
  have hkept := hqueueing.enqueueStaged p.staged.keys p rfl
  rw [drainStaged, bind_of_ok (get_apply p)] at h
  rwa [h] at hkept

instance : Std.Antisymm writtenLe where
  antisymm a b h h' := by
    rcases writtenLe_cases h with hlt | ⟨htp, hle⟩
    · rcases writtenLe_cases h' with hlt' | ⟨htp', -⟩
      · have hswap : compare b.1 a.1 = (compare a.1 b.1).swap := Std.OrientedCmp.eq_swap
        rw [hswap, hlt] at hlt'
        cases hlt'
      · rw [htp', compare_self] at hlt
        cases hlt
    · rcases writtenLe_cases h' with hlt' | ⟨-, hle'⟩
      · rw [htp, compare_self] at hlt'
        cases hlt'
      · exact Prod.ext htp (le_antisymm hle hle')

theorem writtenLe_of_le {tp : TopicPartition} {o o' : ℤ} (h : o ≤ o') :
    writtenLe (tp, o) (tp, o') := by
  show ((compare tp tp).then (compare o o')).isLE
  rw [compare_self]
  exact Std.isLE_compare.mpr h

/-- The entries of one partition, when they come in order. -/
theorem filter_sortWritten {new : List (TopicPartition × ℤ)} {tp : TopicPartition} {log : Log}
    (hspaced : log.Spaced) (hcount : ∀ entry ∈ log, 0 ≤ entry.batch.range.count)
    (hnew : new.filter (·.1 = tp) = log.map fun entry => (tp, entry.offset)) :
    (sortWritten new).filter (·.1 = tp) = log.map fun entry => (tp, entry.offset) := by
  have hperm : ((sortWritten new).filter (·.1 = tp)).Perm (new.filter (·.1 = tp)) :=
    (List.perm_insertionSort writtenLe new).filter _
  rw [← hnew]
  refine hperm.eq_of_pairwise' ((sorted_sortWritten new).filter _) ?_
  rw [hnew, List.pairwise_map]
  refine hspaced.imp_of_mem fun hentry _ hle => writtenLe_of_le ?_
  have hpos := hcount _ hentry
  omega

/-- What is reported for batches that are in a log one after the other. -/
theorem entries_of_taken {w : World} {tp : TopicPartition} {log : Log}
    (hnodup : log.batches.Nodup) {r : ℕ} {entries : List (TopicPartition × ℤ)}
    (hposted : ∀ batch offset, Posted w tp batch offset → ⟨batch, offset⟩ ∈ log)
    (htaken : Taken w tp (log.batches.drop r) entries) :
    entries = (log.drop r).map fun entry => (tp, entry.offset) := by
  have hone : ∀ entry ∈ log, ∀ entry' ∈ log, entry.batch = entry'.batch → entry = entry' :=
    fun entry hentry entry' hentry' heq => List.inj_on_of_nodup_map hnodup hentry hentry' heq
  rw [Taken, Log.batches, ← List.map_drop, List.forall₂_map_left_iff] at htaken
  have hentries : List.Forall₂ (fun (entry : Entry) e => e = (tp, entry.offset)) (log.drop r)
      entries := by
    rw [List.forall₂_iff_get] at htaken ⊢
    refine ⟨htaken.1, fun i hi hi' => ?_⟩
    obtain ⟨htp, hpost⟩ := htaken.2 i hi hi'
    have hmem : (log.drop r).get ⟨i, hi⟩ ∈ log := List.mem_of_mem_drop (List.get_mem _ _)
    have heq := hone _ hmem _ (hposted _ _ hpost) rfl
    exact Prod.ext htp (congrArg Entry.offset heq).symm
  clear htaken
  generalize log.drop r = rest at hentries ⊢
  induction hentries with
  | nil => rfl
  | cons hhead _ ih => rw [hhead, ih, List.map_cons]

/-- **A flush that succeeds has everything written**, and what it reports of a partition
are the offsets, in order, at which its log holds what was pending before. -/
theorem Upheld.flush_delivers {script : ℕ → Choice} {depth : ℕ} {p p' : Producer World}
    (h : Upheld script depth p) (hscript : Faults Fault.Truthful script)
    {written : List (TopicPartition × ℤ)}
    (hflush : flush (World.transport codec) p = (.ok written, p')) {tp : TopicPartition}
    (htp : InLine (p'.numberedFor tp)) :
    (p'.cluster.wire.env.logs tp).batches = p'.numberedFor tp ∧
      written.filter (·.1 = tp) = ((p'.cluster.wire.env.logs tp).drop (p.retired tp)).map
        fun entry => (tp, entry.offset) := by
  have hupholds : Upholds (World.transport codec) (Upheld script depth) :=
    upholds_upheld codec hscript
  obtain ⟨_, p₁, hdrain, hsends⟩ := bind_eq_ok hflush
  have hretired := congrFun (drainStaged_retired hdrain) tp
  have h₁ : Upheld script depth p₁ := by
    have hstaged := hupholds.enqueueStaged p.staged.keys p h
    rw [drainStaged, bind_of_ok (get_apply p)] at hdrain
    rwa [hdrain] at hstaged
  have h' : Upheld script depth p' := by
    have hsent := hupholds.sends p₁ h₁
    rwa [sends, hsends] at hsent
  have hnumbered : p'.numberedFor tp = p₁.numberedFor tp := by
    have hkept := ordering_attempts (World.transport codec) [] p₁
    rw [hsends] at hkept
    rw [numberedFor, (ordering_eq_iff.mp hkept).2.1, numberedFor]
  obtain ⟨new, hnew, hreported, hempty⟩ := yields_attempts codec lasting_true
    (fun _ _ => trivial) (fun _ _ _ _ _ _ => trivial) h₁.resting hsends
  have hqueue : p'.queue tp = [] := by
    rw [Producer.queue, Std.TreeMap.getD_of_isEmpty hempty]
  have hall : (p'.numberedFor tp).length ≤ p'.retired tp := by
    rw [retired, hqueue, List.length_nil, Nat.sub_zero]
  have hdelivered := h'.delivered htp
  have hlog : (p'.cluster.wire.env.logs tp).batches = p'.numberedFor tp := by
    refine hdelivered.log.eq_of_length_le ?_
    rw [Log.length_batches]
    exact hall.trans hdelivered.written
  refine ⟨hlog, ?_⟩
  obtain ⟨k, hdrop, htaken⟩ := hreported.queue tp
  have htake : (p₁.queue tp).take k = (p'.cluster.wire.env.logs tp).batches.drop (p.retired tp) := by
    rw [hqueue, eq_comm, List.drop_eq_nil_iff] at hdrop
    rw [List.take_of_length_le hdrop, queue_eq_drop (h₁.queue tp), hlog, hnumbered, hretired]
  rw [htake] at htaken
  have hentries := entries_of_taken hdelivered.once
    (fun batch offset hposted => h'.tracks.posted htp hscript hposted) htaken
  rw [hnew, List.nil_append]
  refine filter_sortWritten (List.Pairwise.drop hdelivered.spaced) (fun entry hentry => ?_) hentries
  exact h'.tracks.count_nonneg htp entry (List.mem_of_mem_drop hentry)

theorem faults_scripted {P : Fault → Prop} (choices : List Choice)
    (h : ∀ choice ∈ choices, ∀ served ∈ choice.served, ∀ tp, P (served.2.fault tp)) :
    Faults P (scripted choices) := by
  intro n served hserved tp
  rw [scripted, List.getD_eq_getElem?_getD] at hserved
  cases hchoice : choices[n]? with
  | none =>
      rw [hchoice] at hserved
      cases hserved
  | some choice =>
      rw [hchoice] at hserved
      exact h choice (List.mem_of_getElem? hchoice) served hserved tp

/-- A request that is processed and answered with a timeout. -/
def timedOutAfter : Choice :=
  ⟨[(0, { Reply.of twoPartitions with fault := fun _ => .after 7 })], .done, 0, 0, ""⟩

/-- Two batches are queued and the metadata is read. The first batch is written and its
answer is a timeout, so that both are sent again. -/
def resentRounds : List Choice :=
  [.done, .done, .done, .done, .serving 0 twoPartitions, .done, .done, .done, timedOutAfter,
    .serving 0 twoPartitions, .done, .done, .done, .serving 0 twoPartitions,
    .serving 0 twoPartitions]

def twoBatches : List Call :=
  [.enqueue ⟨"t", 0⟩ [sampleRecord], .enqueue ⟨"t", 0⟩ [sampleRecord]]

theorem truthful_resentRounds :
    Faults Fault.Truthful (bootedWith resentRounds).cluster.wire.env.script := by
  refine faults_scripted (idempotentScript.take 7 ++ resentRounds) ?_
  simp [idempotentScript, resentRounds, timedOutAfter, Choice.done, Choice.serving, Reply.of,
    Fault.Truthful]

end Producer

end Barnabas.Client
