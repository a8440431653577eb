import Barnabas.Client.Refusals
import Barnabas.Client.Upkeep

/-!
The numbers of a whole run.

With an encoder that takes every batch, nothing that is given a number is lost before it
is queued. The batches of a partition, counted from the first one on, then follow each
other in the numbering, over every run of calls and whatever their outcomes are.
-/

namespace Barnabas.Client

open Barnabas.Lib Barnabas.Core Barnabas.Lib.Act

/-- The encoder takes every batch. -/
def Codec.EncodesAll (codec : Codec) : Prop :=
  ∀ encoded compression, codec.encodeRecords encoded compression = .ok ()

namespace Producer

variable {ω : Type}

/-- The producer knows its id, and the batches of every partition are numbered from 0 on;
none of them is empty. -/
structure Lined (p : Producer ω) : Prop where
  identity : p.state.identity ≠ none
  numbering : ∀ tp, Numbering 0 (p.numberedFor tp) (p.state.nextSequence tp)
  filled : ∀ tp, ∀ batch ∈ p.numberedFor tp, batch.records ≠ []

theorem Lined.of_same {p p' : Producer ω} (h : p.Lined)
    (hidentity : p'.state.identity = p.state.identity) (hnumbered : p'.numbered = p.numbered)
    (hsequences : p'.state.sequences = p.state.sequences) : p'.Lined := by
  have hsame : ∀ tp, p'.numberedFor tp = p.numberedFor tp := fun tp => by
    rw [numberedFor, hnumbered, numberedFor]
  refine ⟨by rw [hidentity]; exact h.identity, fun tp => ?_, fun tp => ?_⟩
  · rw [hsame, nextSequence_eq hsequences]
    exact h.numbering tp
  · rw [hsame]
    exact h.filled tp

theorem lined_of {α : Type} {m : Act (Producer ω) Error α} (hnamed : Moves Named m)
    (hordering : Moves (Act.Keeps ordering) m) : Moves (Preserves Lined) m := by
  intro p hp
  obtain ⟨-, hnumbered, hsequences⟩ := ordering_eq_iff.mp (hordering p)
  exact hp.of_same (hnamed p).identity hnumbered hsequences

theorem lined_of_aside {α : Type} {m : Act (Producer ω) Error α} (h : Moves Aside m) :
    Moves (Preserves Lined) m := by
  intro p hp
  obtain ⟨c, heq⟩ := h p
  rw [heq]
  exact hp.of_same rfl rfl rfl

/-- A batch is numbered behind the others of its partition. -/
theorem Lined.queued {p : Producer ω} (h : p.Lined) {tp : TopicPartition} {batch : Batch}
    (hrange : batch.range = ⟨p.state.nextSequence tp, batch.records.length⟩)
    (hne : batch.records ≠ []) {p' : Producer ω}
    (hidentity : p'.state.identity = p.state.identity)
    (hnumbered : p'.numbered = p.numbered ++ [(tp, batch)])
    (hnext : ∀ tp', p'.state.nextSequence tp' = if tp = tp' then
      wrap 32 (p.state.nextSequence tp + batch.records.length) else p.state.nextSequence tp') :
    p'.Lined := by
  have hhere : p'.numberedFor tp = p.numberedFor tp ++ [batch] := by
    simp [numberedFor, hnumbered]
  have hothers : ∀ tp' ≠ tp, p'.numberedFor tp' = p.numberedFor tp' := fun tp' htp => by
    simp [numberedFor, hnumbered, Ne.symm htp]
  refine ⟨by rw [hidentity]; exact h.identity, fun tp' => ?_, fun tp' => ?_⟩
  · by_cases htp : tp' = tp
    · subst htp
      rw [hhere, hnext, if_pos rfl]
      exact (h.numbering tp').concat hrange
    · rw [hothers tp' htp, hnext, if_neg (Ne.symm htp)]
      exact h.numbering tp'
  · by_cases htp : tp' = tp
    · subst htp
      rw [hhere]
      intro batch' hmem
      rcases List.mem_append.mp hmem with hmem | hmem
      · exact h.filled tp' batch' hmem
      · rw [List.mem_singleton.mp hmem]
        exact hne
    · rw [hothers tp' htp]
      exact h.filled tp'

variable {T : Transport ω} (hcodec : T.codec.EncodesAll)

theorem lined_enrollAll (topic : String) (partitions : List ℤ) :
    Moves (Preserves Lined) (enrollAll T topic partitions) :=
  lined_of (keeps_enrollAll (blames_any T) topic partitions).named
    ((tolerates_ordering T).enrollAll (fun _ _ _ => trivial) topic partitions)

include hcodec

theorem lined_enqueue (tp : TopicPartition) (records : List ProducerRecord) :
    Moves (Preserves Lined) (enqueue T tp records) := by
  unfold enqueue
  split
  · exact Moves.pure _
  next hempty =>
  have hne : records ≠ [] := by simpa using hempty
  refine Moves.bind (lined_enrollAll _ _) fun _ p hp => ?_
  by_cases hlength : (records.length : ℤ) ≤ i32Max
  · rcases encodeFor_eq T p hlength with
      ⟨-, e, hrefused⟩ | ⟨-, -, batch, rfl, hrange, c, hok⟩ | ⟨-, hrefuses, -⟩
    · rw [bind_of_error hrefused]
      exact hp
    · rw [bind_of_ok hok]
      exact hp.queued hrange hne rfl rfl (nextSequence_allocated p tp · batch.records.length c)
    · -- the encoder would have to refuse what it takes
      obtain ⟨identity, hsome⟩ := Option.ne_none_iff_exists'.mp hp.identity
      exact absurd ⟨identity, hsome, hcodec _ _⟩ hrefuses
  · have htoo : encodeFor T tp records p = (.error (.missing "batch size"), p) := by
      unfold encodeFor
      rw [if_pos (not_le.mp hlength)]
      rfl
    rw [bind_of_error htoo]
    exact hp

theorem upholds_lined : Upholds T (Lined : Producer ω → Prop) where
  alike p p' h hp := hp.of_same (by rw [h.state]) h.numbered (by rw [h.state])
  enqueue := lined_enqueue hcodec
  now := lined_of_aside (aside_onCluster _)
  partitionCountWaiting topic := lined_of_aside (aside_partitionCountWaiting T topic)
  enrollAll := lined_enrollAll
  sends := lined_of
    (Keeps.attempts (keeps_flushOnce (blames_any T)) (fun _ => .bind .get fun _ => .throw _)
      _ _ _).named
    (ordering_attempts T [])
  beginTransaction := lined_of (fun p => named_step T p .beginTransaction) ordering_beginTransaction
  endTransaction committed :=
    lined_of (named_endTransaction T committed) (ordering_endTransaction committed)
  sendOffsetsToTransaction offsets metadata :=
    lined_of (keeps_sendOffsetsToTransaction (blames_any T) offsets metadata).named
      ((tolerates_ordering T).sendOffsetsToTransaction offsets metadata (fun _ _ _ => trivial)
        fun _ _ _ => trivial)

/-- The numbering, over a whole run. -/
theorem lined_run {start : Producer ω} (hstart : Started T start) (calls : List Call) :
    (run (Call.step T) start calls).Lined := by
  refine run_induction ?_ (fun p call hp => ?_) calls
  · obtain ⟨identity, hidentity⟩ := identity_of_reachable T ⟨start, [], hstart, (run_nil ..).symm⟩
    obtain ⟨-, hnumbered, hsequences⟩ := ordering_eq_iff.mp (Handed.ordering_of_started hstart)
    refine ⟨by rw [hidentity]; exact Option.some_ne_none _, fun tp => ?_, fun tp batch hbatch => ?_⟩
    · simp [numberedFor, ProducerState.nextSequence, hnumbered, hsequences, Numbering]
    · simp [numberedFor, hnumbered] at hbatch
  · exact (upholds_lined hcodec).exec (fun _ _ _ hp => hp.of_same rfl rfl rfl) p hp

end Producer

end Barnabas.Client
