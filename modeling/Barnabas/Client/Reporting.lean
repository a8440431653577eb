import Barnabas.Client.Settling

/-!
The offsets `flush` reports.

A window keys the offsets of its answers by partition and round, and a partition is
answered once in each round it took part in. So what a retired batch is reported with
is the offset the answer to its own request gave it, in the order of its queue; over
a whole flush the entries of a partition are those of the batches that were taken from
the front of its queue.
-/

namespace Barnabas.Client

open Barnabas.Lib Barnabas.Core Barnabas.Lib.Act World

namespace Producer

variable {I : World → Prop} {W : Frame → Prop}

/-- The batch was accepted at this base offset, by an answer the client has read. -/
def Posted (w : World) (tp : TopicPartition) (batch : Batch) (offset : ℤ) : Prop :=
  ∃ s, ∃ a ∈ (w.streams s).read, ∃ req, a.frame.request = .produce req ∧
    (tp, batch) ∈ batchesOf req ∧ (a.outcome tp batch).1 = (0, offset)

theorem Posted.since {w w' : World} {tp : TopicPartition} {batch : Batch} {offset : ℤ}
    (h : Posted w tp batch offset) (hw : Since I w w') : Posted w' tp batch offset := by
  obtain ⟨s, a, ha, hreq⟩ := h
  exact ⟨s, a, (hw.read s).subset ha, hreq⟩

/-! ### The offsets of a window -/

section Window

variable {p : Producer World} {tp : TopicPartition}

/-- The offsets of an answer, as pairs of partition and offset. -/
theorem answerOffsets_ok (round : ℕ) (target : RoundTarget) (resp : ProduceResponse) :
    answerOffsets round (target, .ok resp) =
      ((partitionsOf resp).filter fun e => (ErrorCode.mk e.2.errorCode).isOk).map fun e =>
        ((e.1, round), e.2.baseOffset) := by
  simp [answerOffsets, partitionsOf, List.filter_flatMap, List.map_flatMap, List.filter_map,
    Function.comp_def]

/-- An answer has an offset for each batch of its request that it accepts. -/
theorem Exchange.mem_offsets {x : Exchange}
    (hasked : x.answer.frame.request = p.ask x.target.2 x.round) (round : ℕ) (offset : ℤ) :
    ((tp, round), offset) ∈ x.offsets ↔ x.round = round ∧ tp ∈ x.target.2 ∧
      ∃ batch, (p.queue tp)[round]? = some batch ∧
        (x.answer.outcome tp batch).1 = (0, offset) := by
  have hresponse : x.response =
      x.answer.reply.arrange (x.answer.response (p.produceRequest x.target.2 x.round)) := by
    rw [Exchange.response, body_of_ask hasked]
    rfl
  have hparts : ∀ e, e ∈ partitionsOf x.response ↔ ∃ key ∈ x.target.2, ∃ batch,
      (p.queue key)[x.round]? = some batch ∧
        (key, (⟨key.partition, (x.answer.outcome key batch).1.1,
          (x.answer.outcome key batch).1.2⟩ : PartitionProduceResponse)) = e := by
    intro e
    rw [hresponse, (x.answer.reply.arrange_perm _).mem_iff, Answer.partitionsOf_response,
      ((batchesOf_produceRequest p x.target.2 x.round).map _).mem_iff]
    simp only [List.mem_map, List.mem_filterMap, Option.map_eq_some_iff]
    constructor
    · rintro ⟨_, ⟨key, hkey, batch, hbatch, rfl⟩, heq⟩
      exact ⟨key, hkey, batch, hbatch, heq⟩
    · rintro ⟨key, hkey, batch, hbatch, heq⟩
      exact ⟨_, ⟨key, hkey, batch, hbatch, rfl⟩, heq⟩
  rw [Exchange.offsets, answerOffsets_ok]
  simp only [List.mem_map, List.mem_filter, hparts, ErrorCode.isOk_iff]
  constructor
  · rintro ⟨_, ⟨⟨key, hkey, batch, hbatch, rfl⟩, hok⟩, heq⟩
    obtain ⟨hplace, rfl⟩ := Prod.mk.inj heq
    obtain ⟨rfl, rfl⟩ := Prod.mk.inj hplace
    exact ⟨rfl, hkey, batch, hbatch, Prod.fst_eq_iff.mp (congrArg ErrorCode.code hok)⟩
  · rintro ⟨rfl, hkey, batch, hbatch, houtcome⟩
    refine ⟨_, ⟨⟨tp, hkey, batch, hbatch, rfl⟩, ?_⟩, ?_⟩
    · rw [houtcome]
      rfl
    · rw [houtcome]

variable {byBroker : ByBroker} {n : ℕ} {c c' : Cluster World}
  {codes : List (List (TopicPartition × ErrorCode))}
  {offsets offsets' : List ((TopicPartition × ℕ) × ℤ)} {exchanges : List Exchange}

/-- One request of a window carries a given batch. -/
theorem carried_once (hnodup : (routed byBroker).Nodup)
    (h : Collected p 0 (p.planned byBroker.toList n) c c' codes offsets offsets' exchanges)
    {x y : Exchange} (hx : x ∈ exchanges) (hy : y ∈ exchanges) (hround : x.round = y.round)
    (hxtp : tp ∈ x.target.2) (hytp : tp ∈ y.target.2) {batch : Batch}
    (hbatch : (p.queue tp)[x.round]? = some batch) : x = y := by
  have hdistinct := (carried_rounds hnodup h tp).symm ▸ List.nodup_range
  by_contra hne
  rw [List.nodup_flatMap] at hdistinct
  have hsymm : Std.Symm (Function.onFun List.Disjoint fun x : Exchange =>
      if tp ∈ x.target.2 then ((p.queue tp)[x.round]?).toList.map fun _ => x.round else []) :=
    ⟨fun _ _ h => List.Disjoint.symm h⟩
  have hdisjoint := hdistinct.2.forall hx hy hne
  refine hdisjoint (a := x.round) ?_ ?_
  · simp [hxtp, hbatch]
  · simp [hytp, ← hround, hbatch]

theorem lookup_append_of_unique {κ β : Type} [BEq κ] [LawfulBEq κ] {l : List (κ × β)} {k : κ} {v : β}
    (hmem : (k, v) ∈ l) (hone : ∀ v', (k, v') ∈ l → v' = v) (older : List (κ × β)) :
    (l ++ older).lookup k = some v := by
  induction l with
  | nil => cases hmem
  | cons e rest ih =>
      obtain ⟨k', v'⟩ := e
      rw [List.cons_append, List.lookup_cons]
      by_cases hk : k = k'
      · subst hk
        simp [hone v' List.mem_cons_self]
      · have hne : (k == k') = false := by simpa using hk
        rw [hne]
        refine ih ?_ fun v'' hv => hone v'' (List.mem_cons_of_mem _ hv)
        rcases List.mem_cons.mp hmem with heq | hmem
        · exact absurd (Prod.mk.inj heq).1 hk
        · exact hmem

/-- The offset of an accepted batch is the one its own answer gave. -/
theorem offset_of_accepted (hnodup : (routed byBroker).Nodup)
    (h : Collected p 0 (p.planned byBroker.toList n) c c' codes offsets offsets' exchanges)
    {x : Exchange} (hx : x ∈ exchanges) (hxtp : tp ∈ x.target.2) {batch : Batch} {offset : ℤ}
    (hbatch : (p.queue tp)[x.round]? = some batch)
    (houtcome : (x.answer.outcome tp batch).1 = (0, offset)) :
    offsets'.lookup (tp, x.round) = some offset := by
  rw [h.offsets]
  refine lookup_append_of_unique ?_ ?_ offsets
  · rw [List.mem_reverse, List.mem_flatMap]
    exact ⟨x, hx, (x.mem_offsets (h.asked x hx) x.round offset).mpr
      ⟨rfl, hxtp, batch, hbatch, houtcome⟩⟩
  · intro offset' hmem
    rw [List.mem_reverse, List.mem_flatMap] at hmem
    obtain ⟨y, hy, hmem⟩ := hmem
    obtain ⟨hround, hytp, batch', hbatch', houtcome'⟩ :=
      (y.mem_offsets (h.asked y hy) x.round offset').mp hmem
    obtain rfl : x = y := carried_once hnodup h hx hy hround.symm hxtp hytp hbatch
    rw [hbatch] at hbatch'
    obtain rfl := Option.some.inj hbatch'
    rw [houtcome] at houtcome'
    exact (congrArg Prod.snd houtcome').symm

end Window

/-! ### The entries of what is retired -/

/-- What is retired for a partition is its first rounds. -/
theorem retiring_rounds {answers : List (ℕ × TopicPartition × ErrorCode)} {tp : TopicPartition}
    {m : ℕ} {codeAt : ℕ → ErrorCode} (failedAt : PartitionMap ℕ)
    (hanswers : (answers.filter fun e => e.2.1 = tp) =
      (List.range m).map fun round => (round, tp, codeAt round)) :
    (retiring failedAt answers tp).map (·.1) =
      List.range (retiring failedAt answers tp).length := by
  have hsome : ∃ k, (retiring failedAt answers tp).map (·.1) = List.range k := by
    have hkept : (retiring failedAt answers tp).map (·.1) =
        (List.range m).filter fun round => !((failedAt[tp]?).any (· ≤ round)) := by
      rw [retiring, hanswers, List.filter_map, List.map_map]
      exact List.map_id' _
    rw [hkept]
    cases failedAt[tp]? with
    | none => exact ⟨m, List.filter_eq_self.mpr fun _ _ => rfl⟩
    | some first =>
        refine ⟨min m first, ?_⟩
        rw [← filter_range_lt]
        refine List.filter_congr fun round _ => ?_
        by_cases hlt : round < first
        · simp [hlt]
        · simp [hlt, Nat.le_of_not_lt hlt]
  obtain ⟨k, hk⟩ := hsome
  have hlength : (retiring failedAt answers tp).length = k := by
    simpa using congrArg List.length hk
  rw [hk, hlength]

/-- Retiring adds an entry for each batch it takes. -/
theorem written_retire (failedAt : PartitionMap ℕ) (offsets : List ((TopicPartition × ℕ) × ℤ))
    (answers : List (ℕ × TopicPartition × ErrorCode))
    (state : PartitionMap (List Batch) × List (TopicPartition × ℤ)) (tp : TopicPartition) :
    (answers.foldl (retireOne failedAt offsets) state).2.filter (·.1 = tp) =
      state.2.filter (·.1 = tp) ++
        ((retiring failedAt answers tp).take (state.1.getD tp []).length).map fun e =>
          (tp, (offsets.lookup (tp, e.1)).getD (-1)) := by
  induction answers generalizing state with
  | nil => simp [retiring]
  | cons answer rest ih =>
      obtain ⟨round, tp', code⟩ := answer
      obtain ⟨pending, written⟩ := state
      rw [List.foldl_cons, ih]
      by_cases htp : tp' = tp
      · subst htp
        by_cases hfailed : (failedAt[tp']?).any (· ≤ round)
        · have hsame : retireOne failedAt offsets (pending, written) (round, tp', code) =
              (pending, written) := by
            rw [retireOne, if_pos hfailed]
          rw [hsame, retiring_cons_failed hfailed]
        · rw [retiring_cons_kept hfailed, retireOne, if_neg hfailed]
          cases hget : pending[tp']? with
          | none => simp [Std.TreeMap.getD_eq_getD_getElem?, hget]
          | some queue =>
              cases queue with
              | nil => simp [Std.TreeMap.getD_eq_getD_getElem?, hget]
              | cons batch queue => simp [Std.TreeMap.getD_eq_getD_getElem?, hget]
      · rw [retiring_cons_ne htp, retireOne]
        split
        · rfl
        · split
          · simp [Std.TreeMap.getD_insert, htp]
          · rfl

/-- The batches from the front of a queue, each with the offset it was given. -/
def Taken (w : World) (tp : TopicPartition) (batches : List Batch)
    (entries : List (TopicPartition × ℤ)) : Prop :=
  List.Forall₂ (fun batch entry => entry.1 = tp ∧ Posted w tp batch entry.2) batches entries

theorem taken_of_retiring {p : Producer World} {byBroker : ByBroker}
    (hnodup : (routed byBroker).Nodup) {n : ℕ} {c c' : Cluster World}
    {codes : List (List (TopicPartition × ErrorCode))}
    {offsets offsets' : List ((TopicPartition × ℕ) × ℤ)} {exchanges : List Exchange}
    (h : Collected p 0 (p.planned byBroker.toList n) c c' codes offsets offsets' exchanges)
    {failedAt : PartitionMap ℕ} {tp : TopicPartition}
    (hfailed : failedAt[tp]? = firstFailed (inOrder codes) tp) :
    Taken c'.wire.env tp ((p.queue tp).take (retiring failedAt (inOrder codes) tp).length)
      (((inOrder codes).foldl (retireOne failedAt offsets') (p.pending, [])).2.filter
        (·.1 = tp)) := by
  obtain ⟨m, hm, codeAt, hanswers, hcodes⟩ := partition_answers hnodup h tp
  obtain ⟨hle, hok⟩ := retiring_of_rounds hanswers hfailed
  have hrounds := retiring_rounds failedAt hanswers
  have hall : (retiring failedAt (inOrder codes) tp).take (p.queue tp).length =
      retiring failedAt (inOrder codes) tp := List.take_of_length_le (hle.trans hm)
  have hentries : ((inOrder codes).foldl (retireOne failedAt offsets') (p.pending, [])).2.filter
      (·.1 = tp) = (List.range (retiring failedAt (inOrder codes) tp).length).map fun round =>
        (tp, (offsets'.lookup (tp, round)).getD (-1)) := by
    rw [written_retire, ← hrounds, List.map_map]
    refine congrArg _ (congrArg _ ?_)
    exact hall
  rw [hentries]
  generalize (retiring failedAt (inOrder codes) tp).length = k at hle hok
  refine List.forall₂_iff_get.mpr ⟨by simp; omega, fun i hi hi' => ?_⟩
  have hik : i < k := by simpa using hi'
  obtain ⟨batch, hbatch⟩ : ∃ batch, (p.queue tp)[i]? = some batch :=
    ⟨_, List.getElem?_eq_getElem (by omega)⟩
  have hget : ((p.queue tp).take k).get ⟨i, hi⟩ = batch := by
    rw [List.get_eq_getElem, List.getElem_take]
    exact (List.getElem?_eq_some_iff.mp hbatch).2
  rw [hget, List.get_eq_getElem, List.getElem_map, List.getElem_range]
  refine ⟨rfl, ?_⟩
  obtain ⟨x, hx, rfl, htarget, hcode⟩ := hcodes i (by omega) batch hbatch
  obtain ⟨s, hread⟩ := h.mem_read hx
  have hzero : (x.answer.outcome tp batch).1.1 = 0 := by
    have hzero := hok x.round hik
    rw [hcode, ErrorCode.isOk_iff] at hzero
    exact congrArg ErrorCode.code hzero
  have houtcome : (x.answer.outcome tp batch).1 = (0, (x.answer.outcome tp batch).1.2) :=
    Prod.fst_eq_iff.mp hzero
  rw [offset_of_accepted hnodup h hx htarget hbatch houtcome]
  refine ⟨s, x.answer, hread, _, h.asked x hx, ?_, houtcome⟩
  rw [(batchesOf_produceRequest p x.target.2 x.round).mem_iff]
  exact List.mem_filterMap.mpr ⟨tp, htarget, by rw [hbatch]; rfl⟩

/-! ### What a flush reports -/

theorem Taken.since {w w' : World} {tp : TopicPartition} {batches : List Batch}
    {entries : List (TopicPartition × ℤ)} (h : Taken w tp batches entries) (hw : Since I w w') :
    Taken w' tp batches entries :=
  h.imp fun _ _ h => ⟨h.1, h.2.since hw⟩

theorem Taken.append {w : World} {tp : TopicPartition} {batches batches' : List Batch}
    {entries entries' : List (TopicPartition × ℤ)} (h : Taken w tp batches entries)
    (h' : Taken w tp batches' entries') : Taken w tp (batches ++ batches') (entries ++ entries') :=
  List.rel_append h h'

/-- From `p` to `p'` the queues lost batches from their fronts, and these are the entries
that `new` has for each partition. -/
structure Reported (I : World → Prop) (new : List (TopicPartition × ℤ)) (p p' : Producer World) :
    Prop where
  resting : Cluster.Resting p'.cluster
  since : Since I p.cluster.wire.env p'.cluster.wire.env
  queue : ∀ tp, ∃ k, p'.queue tp = (p.queue tp).drop k ∧
    Taken p'.cluster.wire.env tp ((p.queue tp).take k) (new.filter (·.1 = tp))

theorem Reported.trans {new more : List (TopicPartition × ℤ)} {p p' p'' : Producer World}
    (h : Reported I new p p') (h' : Reported I more p' p'') :
    Reported I (new ++ more) p p'' := by
  refine ⟨h'.resting, h.since.trans h'.since, fun tp => ?_⟩
  obtain ⟨k, hqueue, htaken⟩ := h.queue tp
  obtain ⟨k', hqueue', htaken'⟩ := h'.queue tp
  refine ⟨k + k', by rw [hqueue', hqueue, List.drop_drop], ?_⟩
  rw [List.take_add, List.filter_append, ← hqueue]
  exact (htaken.since h'.since).append htaken'

/-- Nothing was taken. -/
theorem reported_nil {p p' : Producer World} (hresting : Cluster.Resting p'.cluster)
    (hsince : Since I p.cluster.wire.env p'.cluster.wire.env)
    (hqueue : ∀ tp, p'.queue tp = p.queue tp) : Reported I [] p p' :=
  ⟨hresting, hsince, fun tp => ⟨0, hqueue tp, .nil⟩⟩

theorem Quiet.reported {p p' : Producer World} (h : Quiet I p p')
    (hp : Cluster.Resting p.cluster) : Reported I [] p p' := by
  refine reported_nil (h.calls hp).1 (h.calls hp).2 fun tp => ?_
  rw [queue, queue, h.same.pending]

/-- What a round of `flush` brought, from the entries written before. -/
def Yields (I : World → Prop) (written : List (TopicPartition × ℤ)) (p p' : Producer World) :
    List (TopicPartition × ℤ) ⊕ List (TopicPartition × ℤ) → Prop
  | .inl more => ∃ new, more = written ++ new ∧ Reported I new p p'
  | .inr result => ∃ new, result = sortWritten (written ++ new) ∧ Reported I new p p' ∧
      p'.pending.isEmpty

theorem Yields.after {written more : List (TopicPartition × ℤ)} {p p' p'' : Producer World}
    {outcome : List (TopicPartition × ℤ) ⊕ List (TopicPartition × ℤ)}
    (h : Reported I more p p') (h' : Yields I (written ++ more) p' p'' outcome) :
    Yields I written p p'' outcome := by
  cases outcome with
  | inl _ =>
      obtain ⟨new, rfl, hnew⟩ := h'
      exact ⟨more ++ new, List.append_assoc .., h.trans hnew⟩
  | inr _ =>
      obtain ⟨new, rfl, hnew, hempty⟩ := h'
      exact ⟨more ++ new, by rw [List.append_assoc], h.trans hnew, hempty⟩

section Flush

variable (codec : Codec) (hI : Lasting I W) (hW : ∀ f : Frame, f.request.isPlumbing → W f)

include hI hW

theorem yields_settleWindow {p p' : Producer World} {byBroker : ByBroker}
    (hnodup : (routed byBroker).Nodup) {n : ℕ} {c c' : Cluster World}
    {codes : List (List (TopicPartition × ErrorCode))}
    {offsets offsets' : List ((TopicPartition × ℕ) × ℤ)} {exchanges : List Exchange}
    (hcol : Collected p 0 (p.planned byBroker.toList n) c c' codes offsets offsets' exchanges)
    (hresting : Cluster.Resting c') {attempt : ℕ} {written : List (TopicPartition × ℤ)}
    {outcome : List (TopicPartition × ℤ) ⊕ List (TopicPartition × ℤ)}
    (h : settleWindow (World.transport codec) attempt written codes
      { p with cluster := c', offsets := offsets' } = (.ok outcome, p')) :
    Yields I written { p with cluster := c', offsets := offsets' } p' outcome := by
  have hquiet := tolerates_quiet codec hI hW
  rcases judge_cases (inOrder codes) ⟨∅, false⟩
      { p with cluster := c', offsets := offsets' } with
    ⟨verdict, metadata, heq, hfailed⟩ | ⟨e, metadata, heq⟩
  · have hfailed : ∀ tp : TopicPartition,
        verdict.failedAt[tp]? = firstFailed (inOrder codes) tp := by
      intro tp
      rw [hfailed tp]
      simp
    rw [settleWindow, bind_of_ok heq] at h
    obtain ⟨more, p₁, hretire, h⟩ := bind_eq_ok h
    obtain ⟨_, p₂, hretain, h⟩ := bind_eq_ok h
    have hretired : Reported I more { p with cluster := c', offsets := offsets' } p₂ := by
      cases hretire
      cases hretain
      refine ⟨hresting, .refl _, fun tp =>
        ⟨(retiring verdict.failedAt (inOrder codes) tp).length, ?_, ?_⟩⟩
      · refine (queue_retain _ tp).trans ?_
        exact queue_retire verdict.failedAt offsets' (inOrder codes) (p.pending, []) tp
      · exact taken_of_retiring hnodup hcol (hfailed tp)
    rw [bind_of_ok (get_apply p₂)] at h
    split at h
    · next hempty =>
        cases h
        exact ⟨more, rfl, hretired, hempty⟩
    · obtain ⟨_, p₃, hrefresh, h⟩ := bind_eq_ok h
      obtain ⟨_, p₄, hbackoff, h⟩ := bind_eq_ok h
      cases h
      have hrefreshed :=
        hquiet.refreshTopics (if verdict.needsRefresh then p₂.pendingTopics else []) p₂
      rw [hrefresh] at hrefreshed
      have hbacked := hquiet.backoff attempt p₃
      rw [hbackoff] at hbacked
      refine ⟨more, rfl, ?_⟩
      have hlast := (trans_of (Quiet I) hrefreshed hbacked).reported hretired.resting
      simpa using hretired.trans hlast
  · rw [settleWindow, bind_of_error heq] at h
    cases h

omit hI hW in
/-- A failed window is tried again with what was written before. -/
theorem abandonWindow_eq_ok {T : Transport World} {attempt : ℕ}
    {written : List (TopicPartition × ℤ)} {e : Error} {p p' : Producer World}
    {outcome : List (TopicPartition × ℤ) ⊕ List (TopicPartition × ℤ)}
    (h : abandonWindow T attempt written e p = (.ok outcome, p')) : outcome = .inl written := by
  obtain ⟨_, p₁, -, h⟩ := bind_eq_ok h
  cases e with
  | io e =>
      dsimp only at h
      split at h
      · obtain ⟨_, p₂, -, h⟩ := bind_eq_ok h
        cases h
        rfl
      · cases h
  | _ => cases h

/-- From the writing of a window on. -/
theorem yields_window {p p' : Producer World} {byBroker : ByBroker}
    (hask : ∀ keys round (f : Frame), f.request = p.ask keys round → W f)
    (hnodup : (routed byBroker).Nodup) (hp : Cluster.Resting p.cluster) {depth attempt : ℕ}
    {written : List (TopicPartition × ℤ)}
    {outcome : List (TopicPartition × ℤ) ⊕ List (TopicPartition × ℤ)}
    (h : (do
      let rounds ← sendWindow (World.transport codec) byBroker depth 0 []
      match ← collectWindow (World.transport codec) 0 rounds with
      | (_, some e) => abandonWindow (World.transport codec) attempt written e
      | (outcomes, none) => settleWindow (World.transport codec) attempt written outcomes :
        Act (Producer World) Error _) p = (.ok outcome, p')) : Yields I written p p' outcome := by
  have hquiet := tolerates_quiet codec hI hW
  rcases window_cases codec hI hW depth (fun keys round _ => hask keys round) hp with
    ⟨n, codes, failure, c, c', offsets', hsend, hcollect, -, hresting, -, hsince, hcollected⟩ |
      ⟨e, c, offsets, hsend, -, -⟩
  · have hbetween : Reported I [] p { p with cluster := c', offsets := offsets' } :=
      reported_nil hresting hsince fun _ => rfl
    rw [bind_of_ok hsend, bind_of_ok hcollect] at h
    refine Yields.after hbetween ?_
    rw [List.append_nil]
    cases failure with
    | some e =>
        have hleft := hquiet.abandonWindow attempt written e
          { p with cluster := c', offsets := offsets' }
        dsimp only at h
        rw [h] at hleft
        obtain rfl := abandonWindow_eq_ok h
        exact ⟨[], by rw [List.append_nil], hleft.reported hresting⟩
    | none =>
        obtain ⟨exchanges, hcol⟩ := hcollected rfl
        exact yields_settleWindow codec hI hW hnodup hcol hresting h
  · rw [bind_of_error hsend] at h
    cases h

theorem yields_flushOnce {p p' : Producer World} (hask : p.MayAsk W)
    (hp : Cluster.Resting p.cluster) {attempt : ℕ} {written : List (TopicPartition × ℤ)}
    {outcome : List (TopicPartition × ℤ) ⊕ List (TopicPartition × ℤ)}
    (h : flushOnce (World.transport codec) attempt written p = (.ok outcome, p')) :
    Yields I written p p' outcome := by
  have hquiet := tolerates_quiet codec hI hW
  obtain ⟨_, p₁, hretain, h⟩ := bind_eq_ok h
  have hqueue : ∀ tp, p₁.queue tp = p.queue tp := by
    cases hretain
    exact queue_retain p
  have hretained : Reported I [] p p₁ ∧ Cluster.Resting p₁.cluster := by
    cases hretain
    exact ⟨reported_nil hp (.refl _) (queue_retain p), hp⟩
  obtain ⟨hretained, hp₁⟩ := hretained
  refine Yields.after hretained ?_
  rw [List.append_nil]
  rw [bind_of_ok (get_apply p₁)] at h
  split at h
  · next hempty =>
      cases h
      exact ⟨[], by rw [List.append_nil], reported_nil hp₁ (.refl _) fun _ => rfl, hempty⟩
  · obtain ⟨routes, p₂, hroute, h⟩ := bind_eq_ok h
    obtain ⟨byBroker, unroutable⟩ := routes
    have hnodup : (routed byBroker).Nodup := route_nodup hroute Std.TreeMap.nodup_keys
    have hrouted := hquiet.route p₁.pending.keys (∅, false) p₁
    rw [hroute] at hrouted
    have hresting := (hrouted.calls hp₁).1
    refine Yields.after (hrouted.reported hp₁) ?_
    rw [List.append_nil]
    dsimp only at h
    split at h
    · split at h
      · cases h
      · obtain ⟨_, p₃, hbackoff, h⟩ := bind_eq_ok h
        cases h
        have hbacked := hquiet.backoff attempt p₂
        rw [hbackoff] at hbacked
        exact ⟨[], by rw [List.append_nil], hbacked.reported hresting⟩
    · have hask₂ : ∀ keys round (f : Frame), f.request = p₂.ask keys round → W f := by
        refine hask p₂ fun tp => ?_
        rw [queue, hrouted.same.pending, ← hqueue tp]
        exact List.suffix_rfl
      exact yields_window codec hI hW hask₂ hnodup hresting h

theorem yields_attempts {p p' : Producer World} (hask : p.MayAsk W)
    (hp : Cluster.Resting p.cluster) {left i : ℕ} {written result : List (TopicPartition × ℤ)}
    (h : attempts (flushOnce (World.transport codec)) (fun _ => do throw (← get).stillPending) left i
      written p = (.ok result, p')) : Yields I written p p' (.inr result) := by
  induction left generalizing p i written with
  | zero => cases h
  | succ left ih =>
      obtain ⟨outcome, p₁, honce, h⟩ := bind_eq_ok h
      have hfirst := yields_flushOnce codec hI hW hask hp honce
      cases outcome with
      | inr _ =>
          cases h
          exact hfirst
      | inl more =>
          obtain ⟨new, rfl, hnew⟩ := hfirst
          refine Yields.after hnew (ih (fun p'' hqueue => ?_) hnew.resting h)
          refine hask p'' fun tp => (hqueue tp).trans ?_
          obtain ⟨k, hk, -⟩ := hnew.queue tp
          rw [hk]
          exact List.drop_suffix k _

end Flush

end Producer

end Barnabas.Client
