import Barnabas.Client.Serving

/-!
The world as a producer's receiver.

Whatever is lost, delayed or served twice on the streams, a partition's log and the
queue that feeds it are a channel of `Lib.GoBack`: a request brings batches of the
window, and serving it is the arrival of each of them. Of the answers it is enough to
know when they were given, which their order on a stream says.
-/

namespace Barnabas.Client

open Barnabas.Lib Barnabas.Core

/-! ### What an answer did -/

namespace Answer

/-- The log of a partition after an answer: as it was, or as a batch of the request left it. -/
theorem after_cases (a : Answer) (tp : TopicPartition) : a.after tp = a.logs tp ∨
    ∃ req batch, a.frame.request = .produce req ∧ (tp, batch) ∈ batchesOf req ∧
      a.after tp = (a.outcome tp batch).2 := by
  rw [after]
  rcases hreq : a.frame.request with _ | _ | _ | _ | _ | req | _
  case produce req =>
    dsimp only
    rcases hlookup : (batchesOf req).lookup tp with _ | batch
    · exact .inl rfl
    · obtain ⟨before, behind, hsplit, -⟩ := List.lookup_eq_some_iff.mp hlookup
      exact .inr ⟨req, batch, rfl, by simp [hsplit], rfl⟩
  all_goals exact .inl rfl

theorem prefix_after (a : Answer) (tp : TopicPartition) : a.logs tp <+: a.after tp := by
  rcases a.after_cases tp with heq | ⟨req, batch, -, -, heq⟩
  · rw [heq]
  · rw [heq]
    exact Log.prefix_serve ..

/-- The second answer was given when what the first had left was in the logs. -/
def Precedes (a b : Answer) : Prop := ∀ tp, a.after tp <+: b.logs tp

end Answer

namespace World

/-! ### The requests and the answers of a stream -/

/-- The answers given on a stream, in order. -/
def answered (w : World) (s : ℕ) : List Answer := (w.streams s).read ++ (w.streams s).unread

/-- The requests that entered a stream, in order. -/
def entered (w : World) (s : ℕ) : List Frame :=
  (w.answered s).map (·.frame) ++ (w.streams s).queue

/-- Serving a stream gives one answer there, or there is nothing to serve. -/
theorem serveOne_cases (w : World) (served : ℕ × Reply) : w.serveOne served = w ∨
    ∃ a : Answer, a.reply = served.2 ∧ a.logs = w.logs ∧ a.frame ∈ w.entered served.1 ∧
      (w.serveOne served).script = w.script ∧ (w.serveOne served).logs = a.after ∧
      (∀ s, (w.serveOne served).entered s = w.entered s) ∧
      (w.serveOne served).answered served.1 = w.answered served.1 ++ [a] ∧
      ∀ s ≠ served.1, (w.serveOne served).answered s = w.answered s := by
  unfold serveOne
  rcases hqueue : (w.streams served.1).queue with _ | ⟨frame, rest⟩
  · exact .inl rfl
  · right
    refine ⟨⟨frame, served.2, w.logs⟩, rfl, rfl, ?_, rfl, rfl, fun s => ?_, ?_, fun s hs => ?_⟩
    · simp [entered, hqueue]
    · by_cases hs : s = served.1
      · subst hs
        simp [entered, answered, hqueue]
      · simp [entered, answered, streams_setStream_of_ne _ hs]
    · simp [answered]
    · simp [answered, streams_setStream_of_ne _ hs]

theorem answered_post (w : World) (stream s : ℕ) (frame : Frame) :
    (w.post stream frame).answered s = w.answered s := by
  by_cases hs : s = stream
  · subst hs
    simp [answered, post]
  · simp [answered, post, streams_setStream_of_ne _ hs]

theorem mem_entered_post {w : World} {stream s : ℕ} {frame f : Frame}
    (h : f ∈ (w.post stream frame).entered s) : f = frame ∨ f ∈ w.entered s := by
  rw [entered, answered_post] at h
  by_cases hs : s = stream
  · subst hs
    simp only [post, streams_setStream_self, List.mem_append, List.mem_singleton] at h
    rcases h with h | h | h
    · exact .inr (List.mem_append_left _ h)
    · exact .inr (List.mem_append_right _ h)
    · exact .inl h
  · rw [post, streams_setStream_of_ne _ hs] at h
    exact .inr h

theorem answered_deliver (w : World) (stream s : ℕ) :
    (w.deliver stream).2.answered s = w.answered s ∧
      (w.deliver stream).2.entered s = w.entered s := by
  rcases hunread : (w.streams stream).unread with _ | ⟨a, rest⟩
  · rw [deliver_of_nil hunread]
    exact ⟨rfl, rfl⟩
  · rw [deliver_of_cons hunread]
    by_cases hs : s = stream
    · subst hs
      simp [entered, answered, hunread]
    · simp [entered, answered, streams_setStream_of_ne _ hs]

theorem logs_deliver (w : World) (stream : ℕ) :
    (w.deliver stream).2.logs = w.logs ∧ (w.deliver stream).2.script = w.script := by
  rcases hunread : (w.streams stream).unread with _ | ⟨a, rest⟩
  · rw [deliver_of_nil hunread]
    exact ⟨rfl, rfl⟩
  · rw [deliver_of_cons hunread]
    exact ⟨rfl, rfl⟩

/-! ### When the answers were given -/

/-- The answers of a stream follow one another, and all of them are past. -/
structure Dated (w : World) : Prop where
  apart : ∀ s, (w.answered s).Pairwise Answer.Precedes
  past : ∀ s, ∀ a ∈ w.answered s, ∀ tp, a.after tp <+: w.logs tp

theorem Dated.of_eq {w w' : World} (h : Dated w) (hanswered : ∀ s, w'.answered s = w.answered s)
    (hlogs : w'.logs = w.logs) : Dated w' := by
  refine ⟨fun s => ?_, fun s => ?_⟩
  · rw [hanswered]
    exact h.apart s
  · rw [hanswered, hlogs]
    exact h.past s

theorem Dated.serveOne {w : World} (h : Dated w) (served : ℕ × Reply) :
    Dated (w.serveOne served) := by
  rcases w.serveOne_cases served with heq | ⟨a, -, halogs, -, -, hlogs, -, hhere, hothers⟩
  · rwa [heq]
  · have hgrows : ∀ tp, w.logs tp <+: (w.serveOne served).logs tp := by
      intro tp
      rw [hlogs, ← halogs]
      exact a.prefix_after tp
    have hold : ∀ s, ∀ b ∈ w.answered s, ∀ tp, b.after tp <+: (w.serveOne served).logs tp :=
      fun s b hb tp => (h.past s b hb tp).trans (hgrows tp)
    refine ⟨fun s => ?_, fun s b hb tp => ?_⟩
    · by_cases hs : s = served.1
      · subst hs
        rw [hhere]
        refine List.pairwise_append.mpr ⟨h.apart _, List.pairwise_singleton .., ?_⟩
        intro b hb a' ha' tp
        rw [List.mem_singleton.mp ha', halogs]
        exact h.past _ b hb tp
      · rw [hothers s hs]
        exact h.apart s
    · by_cases hs : s = served.1
      · subst hs
        rw [hhere] at hb
        rcases List.mem_append.mp hb with hb | hb
        · exact hold _ b hb tp
        · rw [List.mem_singleton.mp hb, hlogs]
      · rw [hothers s hs] at hb
        exact hold s b hb tp

/-- From `w₀` on: the logs have only grown, and the new answers were given after. -/
structure Later (w₀ w : World) : Prop where
  logs : ∀ tp, w₀.logs tp <+: w.logs tp
  answered : ∀ s, ∃ new, w.answered s = w₀.answered s ++ new ∧
    ∀ a ∈ new, ∀ tp, w₀.logs tp <+: a.logs tp

theorem later_refl (w : World) : Later w w :=
  ⟨fun _ => List.prefix_rfl, fun _ => ⟨[], (List.append_nil _).symm, by simp⟩⟩

theorem Later.of_eq {w₀ w w' : World} (h : Later w₀ w)
    (hanswered : ∀ s, w'.answered s = w.answered s) (hlogs : w'.logs = w.logs) : Later w₀ w' := by
  refine ⟨fun tp => ?_, fun s => ?_⟩
  · rw [hlogs]
    exact h.logs tp
  · rw [hanswered]
    exact h.answered s

theorem lasting_later (w₀ : World) : Lasting (Later w₀) fun _ => True where
  serveOne w served _ h := by
    rcases w.serveOne_cases served with heq | ⟨a, -, halogs, -, -, hlogs, -, hhere, hothers⟩
    · rwa [heq]
    · refine ⟨fun tp => ?_, fun s => ?_⟩
      · rw [hlogs]
        refine (h.logs tp).trans ?_
        rw [← halogs]
        exact a.prefix_after tp
      · obtain ⟨new, hnew, hafter⟩ := h.answered s
        by_cases hs : s = served.1
        · subst hs
          refine ⟨new ++ [a], by rw [hhere, hnew, List.append_assoc], fun b hb => ?_⟩
          rcases List.mem_append.mp hb with hb | hb
          · exact hafter b hb
          · rw [List.mem_singleton.mp hb, halogs]
            exact h.logs
        · exact ⟨new, by rw [hothers s hs, hnew], hafter⟩
  turn _ _ h := h.of_eq (fun _ => rfl) rfl
  opened _ h := h.of_eq (fun _ => rfl) rfl
  post w stream frame _ h := h.of_eq (fun s => answered_post w stream s frame) rfl
  deliver w stream h :=
    h.of_eq (fun s => (answered_deliver w stream s).1) (logs_deliver w stream).1

/-! ### The logs as receivers -/

section Tracks

variable (script : ℕ → Choice) (numbered : TopicPartition → List Batch)
  (acked : TopicPartition → ℕ) (depth : ℕ)

/-- The request carries at most one batch of each partition, and that batch is in the
window. -/
def Windowed (frame : Frame) : Prop :=
  ∀ req, frame.request = .produce req →
    (∀ tp batch, (tp, batch) ∈ batchesOf req →
      ∃ i < acked tp + depth, (numbered tp)[i]? = some batch) ∧
    ∀ tp batch batch', (tp, batch) ∈ batchesOf req → (tp, batch') ∈ batchesOf req → batch = batch'

/-- A partition's queue and log. -/
def channel (w : World) (tp : TopicPartition) : GoBack.Channel Batch :=
  ⟨numbered tp, acked tp, (w.logs tp).length⟩

/-- Every request is one of the window, every answer is from the script, and the log of
each partition whose numbers do not wrap is the receiver of a channel. -/
structure Tracks (w : World) : Prop where
  same : w.script = script
  entered : ∀ s, ∀ f ∈ w.entered s, Windowed numbered acked depth f
  scripted : ∀ s, ∀ a ∈ w.answered s, ∃ n, ∃ served ∈ (script n).served, a.reply = served.2
  dated : Dated w
  batches : ∀ tp, InLine (numbered tp) → (w.logs tp).batches <+: numbered tp
  spaced : ∀ tp, InLine (numbered tp) → (w.logs tp).Spaced
  steps : ∀ tp, InLine (numbered tp) →
    GoBack.Steps depth GoBack.empty (channel numbered acked w tp)

variable {script numbered acked depth}

theorem Tracks.of_eq {w w' : World} (h : Tracks script numbered acked depth w)
    (hscript : w'.script = w.script)
    (hentered : ∀ s, ∀ f ∈ w'.entered s, Windowed numbered acked depth f)
    (hanswered : ∀ s, w'.answered s = w.answered s) (hlogs : w'.logs = w.logs) :
    Tracks script numbered acked depth w' := by
  refine ⟨hscript.trans h.same, hentered, fun s => ?_, h.dated.of_eq hanswered hlogs,
    fun tp htp => ?_, fun tp htp => ?_, fun tp htp => ?_⟩
  · rw [hanswered]
    exact h.scripted s
  · rw [hlogs]
    exact h.batches tp htp
  · rw [hlogs]
    exact h.spaced tp htp
  · rw [channel, hlogs]
    exact h.steps tp htp

/-- The channel of a partition is sound. -/
theorem Tracks.sound {w : World} (h : Tracks script numbered acked depth w) {tp : TopicPartition}
    (htp : InLine (numbered tp)) : GoBack.Sound depth (channel numbered acked w tp) :=
  (GoBack.sound_empty depth).steps (h.steps tp htp)

/-- The counts of the batches in a log are not negative. -/
theorem Tracks.count_nonneg {w : World} (h : Tracks script numbered acked depth w)
    {tp : TopicPartition} (htp : InLine (numbered tp)) :
    ∀ entry ∈ w.logs tp, 0 ≤ entry.batch.range.count := by
  intro entry hentry
  have hmem : entry.batch ∈ numbered tp :=
    (h.batches tp htp).subset (List.mem_map_of_mem hentry)
  obtain ⟨i, hi, hget⟩ := List.getElem_of_mem hmem
  rw [← hget, htp.range i hi]
  exact Int.natCast_nonneg _

/-- A request of the window is served: each of its batches arrives. -/
theorem Tracks.after {w : World} (h : Tracks script numbered acked depth w) {a : Answer}
    (hlogs : a.logs = w.logs) (hwindowed : Windowed numbered acked depth a.frame)
    {tp : TopicPartition} (htp : InLine (numbered tp)) :
    (a.after tp).batches <+: numbered tp ∧ (a.after tp).Spaced ∧
      GoBack.Steps depth (channel numbered acked w tp)
        ⟨numbered tp, acked tp, (a.after tp).length⟩ := by
  rcases a.after_cases tp with heq | ⟨req, batch, hreq, hbatch, heq⟩
  · rw [heq, hlogs]
    exact ⟨h.batches tp htp, h.spaced tp htp, .refl⟩
  · obtain ⟨i, hwindow, hget⟩ := (hwindowed req hreq).1 tp batch hbatch
    obtain ⟨hi, rfl⟩ := List.getElem?_eq_some_iff.mp hget
    have hserved := Log.serve_batches htp (h.batches tp htp) hi (a.reply.gap tp)
      (a.reply.fault tp)
    have hspaced := (h.spaced tp htp).serve (h.count_nonneg htp) (a.reply.gap tp)
      (numbered tp)[i] (a.reply.fault tp)
    rw [heq, Answer.outcome, hlogs]
    refine ⟨hserved.1, hspaced, ?_⟩
    rcases hserved.2 with hlength | hlength
    · rw [hlength]
      exact .refl
    · rw [hlength]
      exact .single (.arrive (channel numbered acked w tp) i hi hwindow)

theorem lasting_tracks : Lasting (Tracks script numbered acked depth)
    (Windowed numbered acked depth) where
  serveOne w served hserved h := by
    rcases w.serveOne_cases served with
      heq | ⟨a, hreply, halogs, hframe, hscript, hlogs, hentered, hhere, hothers⟩
    · rwa [heq]
    · -- serving a request is the only step that writes a log
      have hafter := fun tp (htp : InLine (numbered tp)) =>
        h.after halogs (h.entered served.1 a.frame hframe) htp
      refine ⟨hscript.trans h.same, fun s f hf => ?_, fun s b hb => ?_, h.dated.serveOne served,
        fun tp htp => ?_, fun tp htp => ?_, fun tp htp => ?_⟩
      · rw [hentered] at hf
        exact h.entered s f hf
      · by_cases hs : s = served.1
        · subst hs
          rw [hhere] at hb
          rcases List.mem_append.mp hb with hb | hb
          · exact h.scripted _ b hb
          · rw [List.mem_singleton.mp hb]
            rw [h.same] at hserved
            exact ⟨w.turn, served, hserved, hreply⟩
        · rw [hothers s hs] at hb
          exact h.scripted s b hb
      · rw [hlogs]
        exact (hafter tp htp).1
      · rw [hlogs]
        exact (hafter tp htp).2.1
      · rw [channel, hlogs]
        exact (h.steps tp htp).trans (hafter tp htp).2.2
  turn _ _ h := h.of_eq rfl h.entered (fun _ => rfl) rfl
  opened _ h := h.of_eq rfl h.entered (fun _ => rfl) rfl
  post w stream frame hframe h := by
    refine h.of_eq rfl (fun s f hf => ?_) (fun s => answered_post w stream s frame) rfl
    rcases mem_entered_post hf with rfl | hf
    · exact hframe
    · exact h.entered s f hf
  deliver w stream h := by
    refine h.of_eq (logs_deliver w stream).2 (fun s f hf => ?_)
      (fun s => (answered_deliver w stream s).1) (logs_deliver w stream).1
    rw [(answered_deliver w stream s).2] at hf
    exact h.entered s f hf

/-- Nothing has been numbered, asked or answered yet. -/
theorem tracks_start : Tracks script (fun _ => []) (fun _ => 0) depth (World.start script) where
  same := rfl
  entered _ _ hf := by simp [World.entered, World.answered, World.start] at hf
  scripted _ _ ha := by simp [World.answered, World.start] at ha
  dated := by
    refine ⟨fun s => ?_, fun s a ha => ?_⟩
    · simp [World.answered, World.start]
    · simp [World.answered, World.start] at ha
  batches _ _ := List.prefix_rfl
  spaced _ _ := List.Pairwise.nil
  steps _ _ := .refl

/-- The sender learns of batches that are written. -/
theorem Tracks.ack {w : World} (h : Tracks script numbered acked depth w)
    {acked' : TopicPartition → ℕ} (hle : ∀ tp, acked tp ≤ acked' tp)
    (hwritten : ∀ tp, InLine (numbered tp) → acked' tp ≤ (w.logs tp).length) :
    Tracks script numbered acked' depth w where
  same := h.same
  entered s f hf req hreq := by
    obtain ⟨hwindow, hone⟩ := h.entered s f hf req hreq
    refine ⟨fun tp batch hbatch => ?_, hone⟩
    obtain ⟨i, hi, hget⟩ := hwindow tp batch hbatch
    exact ⟨i, hi.trans_le (Nat.add_le_add_right (hle tp) depth), hget⟩
  scripted := h.scripted
  dated := h.dated
  batches := h.batches
  spaced := h.spaced
  steps tp htp := (h.steps tp htp).tail
    (.ack (channel numbered acked w tp) (acked' tp) (hle tp) (hwritten tp htp))

/-- The first of the batches are in line if all are. -/
theorem inLine_of_prefix {batches batches' : List Batch} (h : InLine batches')
    (hpre : batches <+: batches') : InLine batches := by
  obtain ⟨more, rfl⟩ := hpre
  refine ⟨fun i hi => ?_, fun b hb => h.filled b (List.mem_append_left _ hb), ?_⟩
  · have hrange := h.range i (by rw [List.length_append]; omega)
    rwa [List.getElem_append_left hi, recordsBefore_append hi.le] at hrange
  · have hmono := recordsBefore_mono (batches ++ more)
      (i := batches.length) (j := (batches ++ more).length) (by simp)
    rw [recordsBefore_append le_rfl] at hmono
    have hfits := h.fits
    omega

/-- Another batch is numbered. -/
theorem Tracks.send {w : World} (h : Tracks script numbered acked depth w) {tp : TopicPartition}
    {batch : Batch} {numbered' : TopicPartition → List Batch}
    (hhere : numbered' tp = numbered tp ++ [batch])
    (hothers : ∀ tp' ≠ tp, numbered' tp' = numbered tp') :
    Tracks script numbered' acked depth w := by
  have hcases : ∀ tp', numbered' tp' = numbered tp' ∨ numbered' tp' = numbered tp' ++ [batch] := by
    intro tp'
    by_cases htp : tp' = tp
    · subst htp
      exact .inr hhere
    · exact .inl (hothers tp' htp)
  have hgrows : ∀ tp', numbered tp' <+: numbered' tp' := by
    intro tp'
    rcases hcases tp' with heq | heq
    · rw [heq]
    · rw [heq]
      exact List.prefix_append ..
  have hinLine : ∀ tp', InLine (numbered' tp') → InLine (numbered tp') := by
    intro tp' htp
    rcases hcases tp' with heq | heq
    · rwa [heq] at htp
    · rw [heq] at htp
      exact inLine_of_prefix htp (List.prefix_append _ _)
  refine ⟨h.same, fun s f hf req hreq => ?_, h.scripted, h.dated,
    fun tp' htp => (h.batches tp' (hinLine tp' htp)).trans (hgrows tp'),
    fun tp' htp => h.spaced tp' (hinLine tp' htp), fun tp' htp => ?_⟩
  · obtain ⟨hwindow, hone⟩ := h.entered s f hf req hreq
    refine ⟨fun tp' b hb => ?_, hone⟩
    obtain ⟨i, hi, hget⟩ := hwindow tp' b hb
    obtain ⟨hlt, -⟩ := List.getElem?_eq_some_iff.mp hget
    obtain ⟨more, hmore⟩ := hgrows tp'
    refine ⟨i, hi, ?_⟩
    rw [← hmore, List.getElem?_append_left hlt]
    exact hget
  · have hsteps := h.steps tp' (hinLine tp' htp)
    rcases hcases tp' with heq | heq
    · rw [channel, heq]
      exact hsteps
    · rw [channel, heq]
      exact hsteps.tail (.send (channel numbered acked w tp') batch)

end Tracks

end World

end Barnabas.Client
