import Barnabas.Client.ExactlyOnce

/-!
An idempotent producer is never fenced.

A broker refuses a batch as out of sequence if one before it was lost, or if the batch is
older than the last five. Within a window neither is what a partition fails for first: the
log is at most a window ahead of what the producer has retired, and the answers of a
connection come in the order of its requests, so that the batches before the first that
fails are in the log when it arrives. What fails first has failed with a code that is
tried again, and the refusals behind it are not looked at.
-/

namespace Barnabas.Client

open Barnabas.Lib Barnabas.Core Barnabas.Lib.Act World

/-- A code that `flush` tries again for. -/
def Passes (code : ErrorCode) : Prop :=
  code.disposition = .retry ∨ code.disposition = .refreshMetadata

/-- What goes wrong is told with a code that is tried again for. -/
def Fault.Passing : Fault → Prop
  | none => True
  | before code | after code => Passes ⟨code⟩

theorem Fault.Passing.truthful {fault : Fault} (h : fault.Passing) : fault.Truthful := by
  have hzero : ∀ code, Passes ⟨code⟩ → code ≠ 0 := by
    rintro code hpasses rfl
    rcases hpasses with hcode | hcode
    · cases hcode
    · cases hcode
  cases fault with
  | none => trivial
  | before code => exact hzero code h
  | after code => exact hzero code h

theorem World.Faults.truthful {script : ℕ → Choice} (h : Faults Fault.Passing script) :
    Faults Fault.Truthful script :=
  fun n served hserved tp => (h n served hserved tp).truthful

/-- The next batch and the last five are not refused for their numbers. -/
theorem Log.serve_known {batches : List Batch} {log : Log} (h : InLine batches)
    (hlog : log.batches <+: batches) {i : ℕ} (hi : i < batches.length) (gap : ℕ) {fault : Fault}
    (hfault : fault.Passing) (hlast : log.length - 5 ≤ i) (hreached : i ≤ log.length) :
    (log.serve gap batches[i] fault).1.1 = 0 ∨
      Passes ⟨(log.serve gap batches[i] fault).1.1⟩ := by
  cases fault with
  | none =>
      obtain ⟨offset, hoffset⟩ := accept_known h hlog hi gap hlast hreached
      left
      rw [serve]
      rcases haccept : log.accept gap batches[i] with ⟨_ | found, log'⟩
      · rw [haccept] at hoffset
        cases hoffset
      · rfl
  | before code => exact .inr hfault
  | after code => exact .inr hfault

/-! ### What lasts together -/

theorem World.Lasting.and {I J : World → Prop} {W : Frame → Prop} (hI : Lasting I W)
    (hJ : Lasting J W) : Lasting (fun w => I w ∧ J w) W where
  serveOne w served hserved h :=
    ⟨hI.serveOne w served hserved h.1, hJ.serveOne w served hserved h.2⟩
  turn w turn h := ⟨hI.turn w turn h.1, hJ.turn w turn h.2⟩
  opened w h := ⟨hI.opened w h.1, hJ.opened w h.2⟩
  post w stream frame hframe h :=
    ⟨hI.post w stream frame hframe h.1, hJ.post w stream frame hframe h.2⟩
  deliver w stream h := ⟨hI.deliver w stream h.1, hJ.deliver w stream h.2⟩

theorem World.Lasting.of_subset {I : World → Prop} {W W' : Frame → Prop} (hI : Lasting I W)
    (hW : ∀ f, W' f → W f) : Lasting I W' where
  serveOne := hI.serveOne
  turn := hI.turn
  opened := hI.opened
  post w stream frame hframe h := hI.post w stream frame (hW frame hframe) h
  deliver := hI.deliver

namespace Producer

/-! ### When the answers of a window were given -/

section Window

variable {p : Producer World} {byBroker : ByBroker} {n : ℕ} {c c' : Cluster World}
  {codes : List (List (TopicPartition × ErrorCode))}
  {offsets offsets' : List ((TopicPartition × ℕ) × ℤ)} {exchanges : List Exchange}
  (hcol : Collected p 0 (p.planned byBroker.toList n) c c' codes offsets offsets' exchanges)

include hcol

/-- The answers of a window were given after it was begun. -/
theorem later_of_collected (hresting : Cluster.Resting p.cluster)
    (hrenewed : Cluster.Renewed p.cluster c)
    (hread : ∀ s, (p.cluster.wire.env.streams s).read <+: (c.wire.env.streams s).read)
    (hlater : Later p.cluster.wire.env c'.wire.env) {x : Exchange} (hx : x ∈ exchanges)
    (tp : TopicPartition) : p.cluster.wire.env.logs tp <+: x.answer.logs tp := by
  obtain ⟨b, hb⟩ := hcol.connected x hx
  -- nothing was owed on the connection before, whether it is a new one or not
  have hidle : p.cluster.wire.env.outstanding b.stream = [] := by
    rcases hrenewed.stream x.target.1 b hb with hnew | ⟨b₀, hb₀, hstream⟩
    · exact hresting.1.fresh b.stream hnew
    · have howed := hresting.2 x.target.1
      rw [Cluster.owed, Cluster.outs_of_some hb₀] at howed
      rwa [← hstream]
  have hunread : (p.cluster.wire.env.streams b.stream).unread = [] :=
    List.map_eq_nil_iff.mp (List.append_eq_nil_iff.mp hidle).1
  obtain ⟨new, hnew, hafter⟩ := hlater.answered b.stream
  obtain ⟨more, hmore⟩ := hread b.stream
  refine hafter x.answer ?_ tp
  rw [answered, answered, hunread, List.append_nil, hcol.read x.target.1 b hb, ← hmore,
    List.append_assoc, List.append_assoc] at hnew
  rw [← List.append_cancel_left hnew]
  refine List.mem_append_right _ (List.mem_append_left _ (List.mem_map.mpr ⟨x, ?_, rfl⟩))
  exact List.mem_filter.mpr ⟨hx, by simp⟩

theorem rounds_sorted : exchanges.Pairwise fun x y => x.round ≤ y.round := by
  have hrounds : (inRounds 0 (p.planned byBroker.toList n)).Pairwise fun e e' => e.1 ≤ e'.1 := by
    rw [inRounds_planned, List.pairwise_flatMap]
    refine ⟨fun round _ => ?_, List.pairwise_lt_range.imp fun hlt e he e' he' => ?_⟩
    · rw [List.pairwise_map]
      exact List.pairwise_of_forall fun _ _ => le_rfl
    · obtain ⟨_, -, rfl⟩ := List.mem_map.mp he
      obtain ⟨_, -, rfl⟩ := List.mem_map.mp he'
      exact hlt.le
  rw [← hcol.targets, List.pairwise_map] at hrounds
  exact hrounds

/-- The answer to an earlier round on the same connection was given before. -/
theorem precedes_of_collected (hdated : Dated c'.wire.env) {x y : Exchange} (hx : x ∈ exchanges)
    (hy : y ∈ exchanges) (hsame : x.target.1 = y.target.1) (hround : x.round < y.round) :
    x.answer.Precedes y.answer := by
  obtain ⟨b, hb⟩ := hcol.connected x hx
  have hread := (List.pairwise_append.mp (hdated.apart b.stream)).1
  rw [hcol.read x.target.1 b hb] at hread
  have hanswers := (List.pairwise_append.mp hread).2.1
  rw [List.pairwise_map] at hanswers
  have hall := hanswers.and ((rounds_sorted hcol).filter _)
  have hmem : ∀ {z : Exchange}, z ∈ exchanges → z.target.1 = x.target.1 →
      z ∈ exchanges.filter fun z => z.target.1 = x.target.1 :=
    fun hz heq => List.mem_filter.mpr ⟨hz, by simpa using heq⟩
  -- of two answers on the list, the one to the earlier round comes first
  refine List.Pairwise.forall_of_forall_of_flip (R := fun x y : Exchange =>
    x.round < y.round → x.answer.Precedes y.answer) (fun z _ hlt => absurd hlt (lt_irrefl _))
    (hall.imp fun h _ => h.1) (hall.imp fun h hlt => absurd hlt h.2.not_gt) (hmem hx rfl)
    (hmem hy hsame.symm) hround

/-- The requests that carry batches of a partition go to one broker. -/
theorem same_broker (hnodup : (routed byBroker).Nodup) {x y : Exchange} (hx : x ∈ exchanges)
    (hy : y ∈ exchanges) {tp : TopicPartition} (htpx : tp ∈ x.target.2) (htpy : tp ∈ y.target.2) :
    x.target.1 = y.target.1 := by
  have hentry : ∀ {z : Exchange}, z ∈ exchanges → tp ∈ z.target.2 →
      ∃ keys, (z.target.1, keys) ∈ byBroker.toList ∧ tp ∈ keys := by
    intro z hz htp
    have hmem : (z.round, z.target) ∈ inRounds 0 (p.planned byBroker.toList n) :=
      hcol.targets ▸ List.mem_map_of_mem hz
    rw [inRounds_planned] at hmem
    obtain ⟨round, -, hmem⟩ := List.mem_flatMap.mp hmem
    obtain ⟨target, htarget, heq⟩ := List.mem_map.mp hmem
    obtain ⟨-, rfl⟩ := Prod.mk.inj heq
    obtain ⟨⟨addr, keys⟩, hkeys, hplan⟩ := List.mem_filterMap.mp htarget
    dsimp only at hplan
    split at hplan
    · cases hplan
    · rw [← Option.some.inj hplan] at htp ⊢
      exact ⟨keys, hkeys, (List.mem_filter.mp htp).1⟩
  obtain ⟨keys, hkeys, htp⟩ := hentry hx htpx
  obtain ⟨keys', hkeys', htp'⟩ := hentry hy htpy
  by_contra hne
  have hapart : byBroker.toList.Pairwise fun e e' : RoundTarget => List.Disjoint e.2 e'.2 :=
    (List.nodup_flatMap.mp hnodup).2
  have : Std.Symm fun e e' : RoundTarget => List.Disjoint e.2 e'.2 := ⟨fun _ _ h => h.symm⟩
  exact hapart.forall hkeys hkeys' (fun heq => hne (Prod.mk.inj heq).1) htp htp'

/-- What a partition fails for first is tried again for. -/
theorem first_failure_passes {script : ℕ → Choice} (hp : Upheld script 5 p)
    (hscript : Faults Fault.Passing script) (hnodup : (routed byBroker).Nodup)
    (hrenewed : Cluster.Renewed p.cluster c)
    (hread : ∀ s, (p.cluster.wire.env.streams s).read <+: (c.wire.env.streams s).read)
    (hlater : Later p.cluster.wire.env c'.wire.env)
    (htracks : Tracked script 5 p c'.wire.env) {tp : TopicPartition} (htp : InLine (p.numberedFor tp))
    {answer : ℕ × TopicPartition × ErrorCode}
    (hfirst : ((inOrder codes).filter fun e => e.2.1 = tp).find? (fun e => !e.2.2.isOk) = some answer) :
    Passes answer.2.2 := by
  obtain ⟨m, hm, codeAt, hanswers, hcodes⟩ := partition_answers hnodup hcol tp
  rw [hanswers, List.find?_map, Option.map_eq_some_iff] at hfirst
  obtain ⟨round, hround, rfl⟩ := hfirst
  obtain ⟨hfails, hlt, hbefore⟩ := List.find?_range_eq_some.mp hround
  have hlt : round < m := List.mem_range.mp hlt
  -- the batch of a round, and the answer to it
  have hexchange : ∀ r < m, ∃ (hr : p.retired tp + r < (p.numberedFor tp).length),
      ∃ x ∈ exchanges, x.round = r ∧ tp ∈ x.target.2 ∧
        (tp, (p.numberedFor tp)[p.retired tp + r]) ∈ batchesOf (p.produceRequest x.target.2 r) ∧
        codeAt r = ⟨(x.answer.outcome tp (p.numberedFor tp)[p.retired tp + r]).1.1⟩ := by
    intro r hr
    obtain ⟨batch, hbatch⟩ : ∃ batch, (p.queue tp)[r]? = some batch :=
      ⟨_, List.getElem?_eq_getElem (by omega)⟩
    obtain ⟨x, hx, hxr, hxtp, hcode⟩ := hcodes r hr batch hbatch
    have hget := hbatch
    rw [queue_eq_drop (hp.queue tp), List.getElem?_drop] at hget
    obtain ⟨hlt, rfl⟩ := List.getElem?_eq_some_iff.mp hget
    refine ⟨hlt, x, hx, hxr, hxtp, ?_, hcode⟩
    rw [(batchesOf_produceRequest p x.target.2 r).mem_iff]
    exact List.mem_filterMap.mpr ⟨tp, hxtp, by rw [hbatch]; rfl⟩
  obtain ⟨hi, x, hx, hxround, hxtp, -, hcode⟩ := hexchange round hlt
  obtain ⟨s, hxread⟩ := hcol.mem_read hx
  have hanswered : x.answer ∈ c'.wire.env.answered s := List.mem_append_left _ hxread
  have hlogs := htracks.logs_begin hanswered htp
  have hpast : x.answer.logs tp <+: c'.wire.env.logs tp :=
    (x.answer.prefix_after tp).trans (htracks.dated.past s x.answer hanswered tp)
  have hsound := hp.tracks.sound htp
  have hsound' := htracks.sound htp
  -- the batch is among the last five of the log, or the next one
  have hlast : (x.answer.logs tp).length - 5 ≤ p.retired tp + round := by
    have hlength := hpast.length_le
    have hwindow : (c'.wire.env.logs tp).length ≤ p.retired tp + 5 := hsound'.window
    omega
  have hreached : p.retired tp + round ≤ (x.answer.logs tp).length := by
    rcases Nat.eq_zero_or_pos round with rfl | hpos
    · have hacked : p.retired tp ≤ (p.cluster.wire.env.logs tp).length := hsound.acked
      exact hacked.trans
        (later_of_collected hcol hp.resting hrenewed hread hlater hx tp).length_le
    · -- the batch before it was accepted, by an answer that was given before this one
      obtain ⟨hj, y, hy, hyround, hytp, hbatch, hycode⟩ := hexchange (round - 1) (by omega)
      have hok : (codeAt (round - 1)).isOk := by simpa using hbefore (round - 1) (by omega)
      have hprecedes : y.answer.Precedes x.answer :=
        precedes_of_collected hcol htracks.dated hy hx (same_broker hcol hnodup hy hx hytp hxtp)
          (by omega)
      obtain ⟨s', hyread⟩ := hcol.mem_read hy
      have hzero : (y.answer.outcome tp (p.numberedFor tp)[p.retired tp + (round - 1)]).1.1 = 0 := by
        rw [hycode, ErrorCode.isOk_iff] at hok
        exact congrArg ErrorCode.code hok
      have hreq : y.answer.frame.request = .produce (p.produceRequest y.target.2 (round - 1)) := by
        rw [hcol.asked y hy, hyround, ask]
      have hmem := htracks.mem_after (List.mem_append_left _ hyread) htp hscript.truthful hreq
        hbatch (Prod.fst_eq_iff.mp hzero)
      have hlt := Log.lt_length htp hlogs hj (List.mem_map_of_mem ((hprecedes tp).subset hmem))
      omega
  have hpassing : (x.answer.reply.fault tp).Passing := by
    obtain ⟨k, served, hserved, hreply⟩ := htracks.scripted s x.answer hanswered
    rw [hreply]
    exact hscript k served hserved tp
  rcases Log.serve_known htp hlogs hi (x.answer.reply.gap tp) hpassing hlast hreached with
    hzero | hpasses
  · have hok : (codeAt round).isOk := by
      rw [hcode, ErrorCode.isOk_iff]
      exact congrArg ErrorCode.mk hzero
    simp [hok] at hfails
  · rw [← Answer.outcome, ← hcode] at hpasses
    exact hpasses

end Window

/-! ### Judging a window -/

/-- A window in which every partition fails first with a code that is tried again for does
not fence the producer. -/
theorem judge_of_passing {ω : Type} (answers : List (ℕ × TopicPartition × ErrorCode))
    (verdict : Verdict) (p : Producer ω)
    (h : ∀ (tp : TopicPartition) answer, verdict.failedAt[tp]? = none →
      (answers.filter fun e => e.2.1 = tp).find? (fun e => !e.2.2.isOk) = some answer →
        Passes answer.2.2) : ∃ verdict' p', judge answers verdict p = (.ok verdict', p') := by
  induction answers generalizing verdict p with
  | nil => exact ⟨verdict, p, rfl⟩
  | cons answer rest ih =>
      obtain ⟨round, tp, code⟩ := answer
      rw [judge]
      by_cases hok : code.isOk
      · rw [if_pos hok]
        refine ih verdict p fun tp' answer hnone hfirst => h tp' answer hnone ?_
        rw [List.filter_cons]
        split
        · rwa [List.find?_cons_of_neg (by simp [hok])]
        · exact hfirst
      · rw [if_neg hok]
        have hskip : ∀ {tp' : TopicPartition}, tp ≠ tp' →
            (((round, tp, code) :: rest).filter fun e => e.2.1 = tp') =
              rest.filter fun e => e.2.1 = tp' := fun hne =>
          List.filter_cons_of_neg (by simpa using hne)
        -- only the first failure of a partition is judged
        by_cases hknown : verdict.failedAt.contains tp
        · rw [if_pos hknown]
          refine ih verdict p fun tp' answer hnone hfirst => h tp' answer hnone ?_
          have hne : tp ≠ tp' := by
            rintro rfl
            rw [Std.TreeMap.contains_eq_isSome_getElem?, hnone] at hknown
            cases hknown
          rwa [hskip hne]
        · rw [if_neg hknown]
          have hnone : verdict.failedAt[tp]? = none := by
            rw [Std.TreeMap.contains_eq_isSome_getElem?] at hknown
            simpa using hknown
          have hpasses : Passes code := by
            refine h tp (round, tp, code) hnone ?_
            rw [List.filter_cons_of_pos (by simp), List.find?_cons_of_pos]
            rw [Bool.not_eq_true] at hok
            dsimp only
            rw [hok]
            rfl
          -- both kinds of code that pass go on, with the partition noted as failed
          have hrest : ∀ needsRefresh (p : Producer ω), ∃ verdict' p',
              judge rest ⟨verdict.failedAt.insert tp round, needsRefresh⟩ p = (.ok verdict', p') := by
            intro needsRefresh p
            refine ih _ p fun tp' answer hnone' hfirst => ?_
            rw [Std.TreeMap.getElem?_insert] at hnone'
            split at hnone'
            · cases hnone'
            · next hne =>
                have hne : tp ≠ tp' := by simpa using hne
                refine h tp' answer hnone' ?_
                rwa [hskip hne]
          rcases hpasses with hcode | hcode
          · rw [hcode]
            exact hrest _ p
          · rw [hcode]
            exact hrest _ _

/-! ### A producer without a transactional id -/

/-- Nothing is fenced as long as what is numbered is in line, and of that nothing is lost. -/
structure Mild {ω : Type} (p p' : Producer ω) : Prop where
  transactionalId : p'.transactionalId = p.transactionalId
  numbered : p.numbered <+: p'.numbered
  txn : (∀ tp, InLine (p'.numberedFor tp)) → p'.state.txn = .fatal → p.state.txn = .fatal

section Mild

variable {ω : Type}

theorem numberedFor_grows {p p' : Producer ω} (h : p.numbered <+: p'.numbered)
    (tp : TopicPartition) : p.numberedFor tp <+: p'.numberedFor tp :=
  (h.filter _).map _

instance : IsPreorder (Producer ω) Mild where
  refl _ := ⟨rfl, List.prefix_rfl, fun _ => id⟩
  trans p p' p'' h h' := by
    refine ⟨h'.transactionalId.trans h.transactionalId, h.numbered.trans h'.numbered,
      fun hline hfatal => h.txn (fun tp => ?_) (h'.txn hline hfatal)⟩
    exact inLine_of_prefix (hline tp) (numberedFor_grows h'.numbered tp)

theorem Mild.of_same {p p' : Producer ω} (hstate : p'.state = p.state)
    (hname : p'.transactionalId = p.transactionalId) (hnumbered : p'.numbered = p.numbered) :
    Mild p p' := by
  refine ⟨hname, by rw [hnumbered], fun _ hfatal => ?_⟩
  rwa [hstate] at hfatal

theorem mild_onCluster {α ε : Type} (m : Act (Cluster ω) ε α) :
    Moves Mild (onCluster m : Act (Producer ω) ε α) :=
  fun _ => .of_same rfl rfl rfl

variable (T : Transport ω)

theorem mild_route (tps : List TopicPartition) (routes : ByBroker × Bool) :
    Moves Mild (route T tps routes) := by
  induction tps generalizing routes with
  | nil => exact .pure _
  | cons tp rest ih =>
      refine .bind (.attempt (mild_onCluster _)) fun outcome => ?_
      cases outcome with
      | ok addr => exact ih _
      | error e =>
          cases e with
          | noLeader _ _ => exact ih _
          | _ => exact .throw _

theorem mild_refreshTopics (topics : List String) : Moves Mild (refreshTopics T topics) := by
  induction topics with
  | nil => exact .pure _
  | cons topic rest ih => exact .bind (mild_onCluster _) fun _ => ih

theorem mild_abandonWindow (attempt : ℕ) (written : List (TopicPartition × ℤ)) (e : Error) :
    Moves Mild (abandonWindow T attempt written e) := by
  refine .bind (.modify fun _ => .of_same rfl rfl rfl) fun _ => ?_
  cases e with
  | io e => exact .ite (.bind (mild_onCluster _) fun _ => .pure _) (.throw _)
  | _ => exact .throw _

end Mild

section Window

variable {script : ℕ → Choice} (codec : Codec) (hscript : Faults Fault.Passing script)

include hscript

theorem mild_settleWindow {p : Producer World} (hp : Upheld script 5 p) {byBroker : ByBroker}
    (hnodup : (routed byBroker).Nodup) {n : ℕ} {c c' : Cluster World}
    {codes : List (List (TopicPartition × ErrorCode))}
    {offsets offsets' : List ((TopicPartition × ℕ) × ℤ)} {exchanges : List Exchange}
    (hcol : Collected p 0 (p.planned byBroker.toList n) c c' codes offsets offsets' exchanges)
    (hrenewed : Cluster.Renewed p.cluster c)
    (hread : ∀ s, (p.cluster.wire.env.streams s).read <+: (c.wire.env.streams s).read)
    (hlater : Later p.cluster.wire.env c'.wire.env) (htracks : Tracked script 5 p c'.wire.env)
    (attempt : ℕ) (written : List (TopicPartition × ℤ)) :
    Mild p (settleWindow (World.transport codec) attempt written codes
      { p with cluster := c', offsets := offsets' }).2 := by
  rcases judge_cases (inOrder codes) ⟨∅, false⟩ { p with cluster := c', offsets := offsets' } with
    ⟨verdict, metadata, heq, -⟩ | ⟨e, metadata, heq⟩
  · rw [settleWindow, bind_of_ok heq]
    have hjudged : Mild p { p with cluster := { c' with metadata }, offsets := offsets' } :=
      .of_same rfl rfl rfl
    refine trans_of Mild hjudged ?_
    refine Moves.bind (fun _ => .of_same rfl rfl rfl) (fun more => ?_) _
    refine Moves.bind (Moves.modify fun _ => .of_same rfl rfl rfl) fun _ => Moves.bind_get fun p => ?_
    refine Moves.ite (Moves.pure _) (Moves.bind (mild_refreshTopics _ _) fun _ => ?_) p
    exact Moves.bind (mild_onCluster _) fun _ => Moves.pure _
  · -- the first failure of no partition would have fenced
    rw [settleWindow, bind_of_error heq]
    refine ⟨rfl, List.prefix_rfl, fun hline _ => ?_⟩
    obtain ⟨verdict, p', hok⟩ := judge_of_passing (inOrder codes) ⟨∅, false⟩
      { p with cluster := c', offsets := offsets' } fun tp answer _ hfirst =>
        first_failure_passes hcol hp hscript hnodup hrenewed hread hlater htracks (hline tp) hfirst
    rw [hok] at heq
    cases heq

theorem mild_window {p : Producer World} (hp : Upheld script 5 p) {byBroker : ByBroker}
    (hnodup : (routed byBroker).Nodup) (attempt : ℕ) (written : List (TopicPartition × ℤ)) :
    Mild p ((do
      let rounds ← sendWindow (World.transport codec) byBroker (p.windowDepth byBroker) 0 []
      match ← collectWindow (World.transport codec) 0 rounds with
      | (_, some e) => abandonWindow (World.transport codec) attempt written e
      | (outcomes, none) => settleWindow (World.transport codec) attempt written outcomes :
        Act (Producer World) Error _) p).2 := by
  have hdepth : p.windowDepth byBroker ≤ 5 := (min_le_right _ _).trans hp.bound
  have hask : ∀ keys, ∀ round < p.windowDepth byBroker, ∀ f : Frame,
      f.request = p.ask keys round → Windowed p.numberedFor p.retired 5 f :=
    fun keys round hround f hf => windowed_ask hp.queue (hround.trans_le hdepth) hf
  have hplumbing : ∀ f : Frame, f.request.isPlumbing → Windowed p.numberedFor p.retired 5 f :=
    (hushed script 5 codec p).permits.plumbing
  have hlasting : Lasting (fun w => Tracked script 5 p w ∧ Later p.cluster.wire.env w)
      (Windowed p.numberedFor p.retired 5) :=
    lasting_tracks.and ((lasting_later _).of_subset fun _ _ => trivial)
  rcases window_cases codec hlasting hplumbing (p.windowDepth byBroker) hask hp.resting with
    ⟨n, codes, failure, c, c', offsets', hsend, hcollect, hrenewed, -, hsent, hsince, hcollected⟩ |
      ⟨e, c, offsets, hsend, -, -⟩
  · rw [bind_of_ok hsend, bind_of_ok hcollect]
    cases failure with
    | some e =>
        have hcollected : Mild p { p with cluster := c', offsets := offsets' } :=
          .of_same rfl rfl rfl
        exact trans_of Mild hcollected (mild_abandonWindow _ attempt written e _)
    | none =>
        obtain ⟨exchanges, hcol⟩ := hcollected rfl
        obtain ⟨htracks, hlater⟩ := hsince.lasting ⟨hp.tracks, later_refl _⟩
        exact mild_settleWindow codec hscript hp hnodup hcol hrenewed hsent.read hlater htracks
          attempt written
  · rw [bind_of_error hsend]
    exact .of_same rfl rfl rfl

theorem mild_flushOnce {p : Producer World} (hp : Upheld script 5 p) (attempt : ℕ)
    (written : List (TopicPartition × ℤ)) :
    Mild p (flushOnce (World.transport codec) attempt written p).2 := by
  have hretain : Moves Mild (retainQueued : Act (Producer World) Error Unit) :=
    Moves.modify fun _ => .of_same rfl rfl rfl
  refine moves_bind_at (hretain p) fun _ p₁ hretained => ?_
  have hp₁ : Upheld script 5 p₁ := by
    have hupheld := upheld_retainQueued p hp
    rwa [hretained] at hupheld
  rw [bind_of_ok (get_apply p₁)]
  split
  · exact refl_of Mild p₁
  · refine moves_bind_at (mild_route _ _ _ p₁) fun routes p₂ hrouted => ?_
    obtain ⟨byBroker, unroutable⟩ := routes
    have hnodup : (routed byBroker).Nodup := route_nodup hrouted Std.TreeMap.nodup_keys
    have hsame := (hushed script 5 codec p₁).route p₁.pending.keys (∅, false) p₁
    rw [hrouted] at hsame
    have hdepth : p₂.windowDepth byBroker = p₁.windowDepth byBroker := by
      rw [windowDepth, windowDepth, hsame.pending, hsame.maxInFlight]
    dsimp only
    split
    · split
      · exact refl_of Mild p₂
      · exact Moves.bind (mild_onCluster _) (fun _ => Moves.pure _) p₂
    · rw [← hdepth]
      exact mild_window codec hscript (hp₁.of_hushed hsame) hnodup attempt written

end Window

/-- A producer without a transactional id, not fenced as long as what it numbers is in line. -/
structure Plain (script : ℕ → Choice) (p : Producer World) : Prop where
  upheld : Upheld script 5 p
  transactionalId : p.transactionalId = none
  unfenced : (∀ tp, InLine (p.numberedFor tp)) → p.state.txn ≠ .fatal

section Plain

variable {script : ℕ → Choice}

theorem Plain.of_mild {p p' : Producer World} (h : Plain script p) (hupheld : Upheld script 5 p')
    (hmild : Mild p p') : Plain script p' := by
  refine ⟨hupheld, hmild.transactionalId.trans h.transactionalId, fun hline hfatal => ?_⟩
  refine h.unfenced (fun tp => ?_) (hmild.txn hline hfatal)
  exact inLine_of_prefix (hline tp) (numberedFor_grows hmild.numbered tp)

theorem plain_of {α : Type} {m : Act (Producer World) Error α}
    (hupheld : Moves (Preserves (Upheld script 5)) m)
    (hmild : ∀ p, Plain script p → Mild p (m p).2) : Moves (Preserves (Plain script)) m :=
  fun p hp => hp.of_mild (hupheld p hp.upheld) (hmild p hp)

variable {ω : Type} (T : Transport ω)

/-- Without a transactional id no partition is enrolled. -/
theorem enrollAll_of_nameless {p : Producer ω} (h : p.transactionalId = none) (topic : String)
    (partitions : List ℤ) : (enrollAll T topic partitions p).2 = p := by
  rw [enrollAll, bind_of_ok (get_apply p)]
  split
  · rfl
  · rw [h]
    cases p.state.identity with
    | none => rfl
    | some identity => rfl

theorem mild_encodeFor (tp : TopicPartition) (records : List ProducerRecord) :
    Moves Mild (encodeFor T tp records) := by
  refine Moves.ite (Moves.throw _) (Moves.bind (fun p => ?_) fun range => ?_)
  · rw [onState, mapError_apply, zoom_apply]
    rcases ProducerState.allocate_cases tp records.length p.state with ⟨-, heq⟩ | ⟨-, e, heq⟩
    · rw [heq]
      exact ⟨rfl, List.prefix_rfl, fun _ => id⟩
    · rw [heq]
      exact refl_of Mild p
  · refine Moves.bind Moves.get fun p => Moves.bind (Moves.ofExcept _) fun identity => ?_
    refine Moves.bind (mild_onCluster _) fun now => ?_
    dsimp only
    split
    · exact Moves.throw _
    · exact Moves.pure _

theorem mild_enqueue {p : Producer ω} (h : p.transactionalId = none) (tp : TopicPartition)
    (records : List ProducerRecord) : Mild p (enqueue T tp records p).2 := by
  rw [enqueue]
  split
  · exact refl_of Mild p
  · have henroll := enrollAll_of_nameless T h tp.topic [tp.partition]
    refine moves_bind_at (by rw [henroll]; exact refl_of Mild p) fun _ p₁ heq => ?_
    rw [heq] at henroll
    subst henroll
    refine Moves.bind (mild_encodeFor T tp records) (fun batch => Moves.modify fun p => ?_) p₁
    exact ⟨rfl, List.prefix_append _ _, fun _ => id⟩

theorem mild_beginTransaction : Moves Mild (beginTransaction : Act (Producer ω) Error Unit) := by
  intro p
  rw [beginTransaction, onState, mapError_apply, zoom_apply]
  rcases ProducerState.beginTransaction_cases p.state with ⟨-, heq⟩ | ⟨-, e, heq⟩
  · rw [heq]
    exact ⟨rfl, List.prefix_rfl, fun _ hfatal => by cases hfatal⟩
  · rw [heq]
    exact refl_of Mild p

/-- Without a transactional id no transaction is ended: nothing is sent. -/
theorem mild_endTransaction {p : Producer ω} (h : p.transactionalId = none) (committed : Bool) :
    Mild p (endTransaction T committed p).2 := by
  have hend : Mild p ((onState ProducerState.endTransaction : Act (Producer ω) Error Unit) p).2 := by
    rw [onState, mapError_apply, zoom_apply]
    rcases ProducerState.endTransaction_cases p.state with ⟨-, heq⟩ | ⟨-, e, heq⟩
    · rw [heq]
      exact ⟨rfl, List.prefix_rfl, fun _ hfatal => by cases hfatal⟩
    · rw [heq]
      exact refl_of Mild p
  refine moves_bind_at hend fun _ p₁ heq => ?_
  rw [heq] at hend
  rw [bind_of_ok (get_apply p₁), hend.transactionalId.trans h]
  exact Moves.bind (Moves.ofExcept _) (fun identity p => refl_of Mild p) p₁

theorem mild_sendOffsetsToTransaction {p : Producer ω} (h : p.transactionalId = none)
    (offsets : PartitionMap ℤ) (metadata : GroupMetadata) :
    Mild p (sendOffsetsToTransaction T offsets metadata p).2 := by
  rw [sendOffsetsToTransaction, bind_of_ok (get_apply p), h]
  split
  · exact refl_of Mild p
  · split
    · exact refl_of Mild p
    · exact Moves.bind (Moves.ofExcept _) (fun identity p => refl_of Mild p) p

end Plain

section Calls

variable (codec : Codec)

theorem upholds_plain {script : ℕ → Choice} (hscript : Faults Fault.Passing script) :
    Upholds (World.transport codec) (Plain script) := by
  have hupheld : Upholds (World.transport codec) (Upheld script 5) :=
    upholds_upheld codec hscript.truthful
  constructor
  · constructor
    · exact fun p p' h hp => hp.of_mild (hupheld.alike p p' h hp.upheld)
        (.of_same h.state h.transactionalId h.numbered)
    · exact fun tp records => plain_of (hupheld.enqueue tp records) fun p hp =>
        mild_enqueue _ hp.transactionalId tp records
  · exact plain_of hupheld.now fun p _ => mild_onCluster _ p
  · refine fun topic => plain_of (hupheld.partitionCountWaiting topic) fun p _ => ?_
    obtain ⟨c, heq⟩ := aside_partitionCountWaiting (World.transport codec) topic p
    rw [heq]
    exact .of_same rfl rfl rfl
  · refine fun topic partitions => plain_of (hupheld.enrollAll topic partitions) fun p hp => ?_
    rw [enrollAll_of_nameless _ hp.transactionalId]
    exact refl_of Mild p
  · refine Moves.attempts (fun attempt written => ?_)
      (fun _ => Moves.bind Moves.get fun _ => Moves.throw _) _ _ _
    exact plain_of (upheld_flushOnce codec hscript.truthful attempt written) fun p hp =>
      mild_flushOnce codec hscript hp.upheld attempt written
  · exact plain_of hupheld.beginTransaction fun p _ => mild_beginTransaction p
  · exact fun committed => plain_of (hupheld.endTransaction committed) fun p hp =>
      mild_endTransaction _ hp.transactionalId committed
  · exact fun offsets metadata => plain_of (hupheld.sendOffsetsToTransaction offsets metadata)
      fun p hp => mild_sendOffsetsToTransaction _ hp.transactionalId offsets metadata

/-- A producer fresh from its constructor is ready. -/
theorem ready_of_booted {p : Producer World} (hp : Booted codec p) : p.state.txn = .ready := by
  have hmade : ∀ {p₀ : Producer World}, construct (World.transport codec) p₀ = (.ok (), p) →
      p.state.txn = .ready := by
    intro p₀ h
    obtain ⟨_, _, -, h⟩ := bind_eq_ok h
    obtain ⟨_, _, -, h⟩ := bind_eq_ok h
    obtain ⟨resp, _, -, h⟩ := bind_eq_ok h
    cases h
    rfl
  obtain ⟨script, bootstrap, clientId, h | ⟨transactionalId, h⟩⟩ := hp
  · exact hmade h
  · exact hmade h

end Calls

theorem length_sequenced_le {ω : Type} (p : Producer ω) (tp : TopicPartition) :
    (p.sequenced tp).length ≤ (p.numbered.map (·.2.records.length)).sum := by
  rw [sequenced, List.length_flatMap, numberedFor, List.map_map]
  exact (List.filter_sublist.map _).sum_le_sum fun _ _ => Nat.zero_le _

theorem passing_resentRounds :
    Faults Fault.Passing (bootedWith resentRounds).cluster.wire.env.script := by
  have htimedOut : Passes ⟨7⟩ := .inl (by decide)
  refine faults_scripted (idempotentScript.take 7 ++ resentRounds) ?_
  simp [idempotentScript, resentRounds, timedOutAfter, Choice.done, Choice.serving, Reply.of,
    Fault.Passing, htimedOut]

end Producer

end Barnabas.Client
