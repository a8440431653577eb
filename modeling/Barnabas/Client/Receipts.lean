import Barnabas.Client.Ledger
import Barnabas.Client.Ordering
import Barnabas.Client.Reporting

/-!
Whose offset a call returns.

`send` and `send_keyed` queue their records and flush, and the flush also sends what
was pending or staged before, for any partition. Its answer lists all of it, sorted by
topic, partition and offset. `send` returns the first entry, which is its own only if
no other batch sorts before it; `send_keyed` returns every entry without its topic,
which are its own only if nothing else was waiting.
-/

namespace Barnabas.Client

open Barnabas.Lib Barnabas.Core Barnabas.Lib.Act World

namespace Producer

/-! ### The order of the entries -/

/-- Partition first, then offset. -/
abbrev writtenCmp : TopicPartition × ℤ → TopicPartition × ℤ → Ordering :=
  compareLex (compareOn (·.1)) (compareOn (·.2))

theorem writtenLe_iff (a b : TopicPartition × ℤ) : writtenLe a b ↔ (writtenCmp a b).isLE := Iff.rfl

instance : Std.Total writtenLe where
  total a b := by
    have hswap : writtenCmp b a = (writtenCmp a b).swap := Std.OrientedCmp.eq_swap
    rw [writtenLe_iff, writtenLe_iff, hswap]
    cases writtenCmp a b with
    | lt => exact .inl rfl
    | eq => exact .inl rfl
    | gt => exact .inr rfl

instance : IsTrans (TopicPartition × ℤ) writtenLe where
  trans a b c h h' := by
    rw [writtenLe_iff] at h h' ⊢
    exact Std.TransCmp.isLE_trans h h'

theorem compare_self (tp : TopicPartition) : compare tp tp = .eq := Std.ReflCmp.compare_self

theorem sorted_sortWritten (written : List (TopicPartition × ℤ)) :
    (sortWritten written).Pairwise writtenLe :=
  List.pairwise_insertionSort _ _

/-- An entry that comes first has the least partition, and the least offset there. -/
theorem writtenLe_cases {a b : TopicPartition × ℤ} (h : writtenLe a b) :
    compare a.1 b.1 = .lt ∨ a.1 = b.1 ∧ a.2 ≤ b.2 := by
  rw [writtenLe] at h
  cases hcompare : compare a.1 b.1 with
  | lt => exact .inl rfl
  | eq =>
      rw [hcompare] at h
      exact .inr ⟨Std.LawfulEqCmp.eq_of_compare hcompare, Std.isLE_compare.mp h⟩
  | gt =>
      rw [hcompare] at h
      cases h

/-! ### Queueing -/

/-- Records make one batch, if there are any. -/
def bundle (records : List ProducerRecord) : List (List ProducerRecord) :=
  if records = [] then [] else [records]

@[simp] theorem bundle_nil : bundle [] = [] := rfl

/-- From `p` to `p'` batches of these records were queued behind those of `p`. -/
structure Queued (new : TopicPartition → List (List ProducerRecord)) (p p' : Producer World) :
    Prop where
  resting : Cluster.Resting p'.cluster
  since : Since (fun _ => True) p.cluster.wire.env p'.cluster.wire.env
  queue : ∀ tp, ∃ fresh, p'.queue tp = p.queue tp ++ fresh ∧ fresh.map (·.records) = new tp

theorem Queued.trans {new more : TopicPartition → List (List ProducerRecord)}
    {p p' p'' : Producer World} (h : Queued new p p') (h' : Queued more p' p'') :
    Queued (fun tp => new tp ++ more tp) p p'' := by
  refine ⟨h'.resting, h.since.trans h'.since, fun tp => ?_⟩
  obtain ⟨fresh, hqueue, hfresh⟩ := h.queue tp
  obtain ⟨fresh', hqueue', hfresh'⟩ := h'.queue tp
  refine ⟨fresh ++ fresh', ?_, ?_⟩
  · rw [hqueue', hqueue, List.append_assoc]
  · rw [List.map_append, hfresh, hfresh']

theorem Queued.of_eq {new new' : TopicPartition → List (List ProducerRecord)}
    {p p' : Producer World} (h : Queued new p p') (heq : ∀ tp, new tp = new' tp) :
    Queued new' p p' := by
  refine ⟨h.resting, h.since, fun tp => ?_⟩
  rw [← heq tp]
  exact h.queue tp

theorem Quiet.queued {p p' : Producer World} (h : Quiet (fun _ => True) p p')
    (hp : Cluster.Resting p.cluster) : Queued (fun _ => []) p p' := by
  refine ⟨(h.calls hp).1, (h.calls hp).2, fun tp => ⟨[], ?_, rfl⟩⟩
  rw [queue, queue, h.same.pending, List.append_nil]

section Operations

variable (codec : Codec)

theorem queued_enqueue {tp : TopicPartition} {records : List ProducerRecord}
    {p p' : Producer World} (h : enqueue (World.transport codec) tp records p = (.ok (), p'))
    (hp : Cluster.Resting p.cluster) :
    Queued (fun tp' => bundle (recordsFor tp' (records.map (tp, ·)))) p p' ∧
      p'.staged = p.staged := by
  by_cases hne : records = []
  · subst hne
    cases h
    exact ⟨⟨hp, .refl _, fun _ => ⟨[], by simp, rfl⟩⟩, rfl⟩
  · rcases enqueue_cases codec tp records p with
      ⟨hnil, -⟩ | ⟨batch, p₁, hquiet, hrecords, heq⟩ | ⟨e, p₁, -, heq⟩
    · exact absurd hnil hne
    · rw [heq] at h
      cases h
      refine ⟨⟨(hquiet.calls hp).1, (hquiet.calls hp).2, fun tp' => ?_⟩, hquiet.same.staged⟩
      have hsame : p₁.queue tp' = p.queue tp' := by
        rw [queue, queue, hquiet.same.pending]
      by_cases htp : tp' = tp
      · subst htp
        refine ⟨[batch], ?_, ?_⟩
        · rw [← hsame]
          exact Std.TreeMap.getD_insert_self
        · rw [recordsFor_here, bundle, if_neg hne, List.map_singleton, hrecords]
      · refine ⟨[], ?_, ?_⟩
        · rw [← hsame, List.append_nil]
          have hne : ¬tp = tp' := fun h => htp h.symm
          simp [queue, Std.TreeMap.getD_insert, hne]
        · rw [recordsFor_elsewhere (Ne.symm htp)]
          rfl
    · rw [heq] at h
      cases h

theorem queued_enqueueStaged {tps : List TopicPartition} {p p' : Producer World}
    (h : enqueueStaged (World.transport codec) tps p = (.ok (), p'))
    (hp : Cluster.Resting p.cluster) :
    Queued (fun tp => if tp ∈ tps then bundle (p.stagedFor tp) else []) p p' := by
  induction tps generalizing p with
  | nil =>
      cases h
      exact ⟨hp, .refl _, fun _ => ⟨[], by simp, by simp⟩⟩
  | cons tp rest ih =>
      rw [enqueueStaged, bind_of_ok (get_apply p)] at h
      cases hget : p.staged[tp]? with
      | none =>
          rw [hget] at h
          have hnone : p.stagedFor tp = [] := by simp [stagedFor, hget]
          refine (ih h hp).of_eq fun tp' => ?_
          by_cases htp : tp' = tp
          · subst htp
            simp [hnone]
          · simp [htp]
      | some staged =>
          rw [hget] at h
          obtain ⟨_, p₀, hset, h⟩ := bind_eq_ok h
          obtain rfl := (Prod.mk.inj hset).2
          obtain ⟨_, p₁, htaken, h⟩ := bind_eq_ok h
          have hrecords : p.stagedFor tp = staged.records := by simp [stagedFor, hget]
          obtain ⟨hfirst, hstaged⟩ := queued_enqueue codec (enqueueTaken_eq_ok htaken) hp
          have hrest := ih h hfirst.resting
          have hall : Queued _ p p' := ⟨(hfirst.trans hrest).resting, (hfirst.trans hrest).since,
            (hfirst.trans hrest).queue⟩
          refine hall.of_eq fun tp' => ?_
          rw [stagedFor_eq hstaged]
          by_cases htp : tp' = tp
          · subst htp
            rw [recordsFor_here, stagedFor_erase_self, hrecords]
            simp
          · rw [recordsFor_elsewhere (Ne.symm htp), stagedFor_erase_of_ne p htp]
            simp [htp]

theorem queued_drainStaged {p p' : Producer World}
    (h : drainStaged (World.transport codec) p = (.ok (), p')) (hp : Cluster.Resting p.cluster) :
    Queued (fun tp => bundle (p.stagedFor tp)) p p' := by
  rw [drainStaged, bind_of_ok (get_apply p)] at h
  refine (queued_enqueueStaged codec h hp).of_eq fun tp => ?_
  by_cases htp : tp ∈ p.staged.keys
  · rw [if_pos htp]
  · have hnone : p.stagedFor tp = [] := by
      rw [Std.TreeMap.mem_keys] at htp
      rw [stagedFor, Std.TreeMap.getElem?_eq_none htp]
      rfl
    rw [if_neg htp, hnone]
    rfl

theorem queued_enqueueGroups {topic : String} {groups : List (ℤ × List ProducerRecord)}
    {p p' : Producer World}
    (h : enqueueGroups (World.transport codec) topic groups p = (.ok (), p'))
    (hp : Cluster.Resting p.cluster) :
    Queued (fun tp => groups.flatMap fun group =>
        bundle (recordsFor tp (group.2.map (⟨topic, group.1⟩, ·)))) p p' ∧
      p'.staged = p.staged := by
  induction groups generalizing p with
  | nil =>
      cases h
      exact ⟨⟨hp, .refl _, fun _ => ⟨[], by simp, rfl⟩⟩, rfl⟩
  | cons group rest ih =>
      obtain ⟨_, p₁, hone, h⟩ := bind_eq_ok h
      obtain ⟨hfirst, hstaged⟩ := queued_enqueue codec hone hp
      obtain ⟨hrest, hstaged'⟩ := ih h hfirst.resting
      exact ⟨(hfirst.trans hrest).of_eq fun _ => rfl, hstaged'.trans hstaged⟩

/-! ### Receipts -/

/-- Nothing waits for a partition. -/
def Idle {ω : Type} (p : Producer ω) (tp : TopicPartition) : Prop :=
  p.queue tp = [] ∧ p.stagedFor tp = []

/-- What a call that queued the records of `passed` and flushed had acknowledged: for each
partition the batches that were pending, the one made of the records passed for it and
the one made of what it had staged, in this order, each with the base offset the broker
gave it. `written` has all of it, as `flush` sorts it. -/
structure Receipts (p p' : Producer World) (passed : List (TopicPartition × ProducerRecord)) where
  acked : TopicPartition → List (Batch × ℤ)
  written : List (TopicPartition × ℤ)
  queued : ∀ tp, ∃ fresh, (acked tp).map (·.1) = p.queue tp ++ fresh ∧
    fresh.map (·.records) = bundle (recordsFor tp passed) ++ bundle (p.stagedFor tp)
  posted : ∀ tp, ∀ e ∈ acked tp, Posted p'.cluster.wire.env tp e.1 e.2
  sorted : written.Pairwise writtenLe
  entries : ∀ tp, (written.filter (·.1 = tp)).Perm ((acked tp).map fun e => (tp, e.2))

theorem Taken.zip {w : World} {tp : TopicPartition} {batches : List Batch}
    {entries : List (TopicPartition × ℤ)} (h : Taken w tp batches entries) :
    (batches.zip (entries.map (·.2))).map (·.1) = batches ∧
      (batches.zip (entries.map (·.2))).map (fun e => (tp, e.2)) = entries ∧
      ∀ e ∈ batches.zip (entries.map (·.2)), Posted w tp e.1 e.2 := by
  induction h with
  | nil => simp
  | cons hone _ ih =>
      obtain ⟨hbatches, hentries, hposted⟩ := ih
      obtain ⟨htp, hpost⟩ := hone
      refine ⟨?_, ?_, ?_⟩
      · simpa using hbatches
      · simpa [← htp] using hentries
      · simpa [hpost] using hposted

/-- What a flush that succeeds has in its answer, from the batches queued before it. -/
theorem receipts_of_flush {p p₁ p' : Producer World} {written : List (TopicPartition × ℤ)}
    {passed : List (TopicPartition × ProducerRecord)}
    (hqueued : Queued (fun tp => bundle (recordsFor tp passed)) p p₁)
    (hstaged : ∀ tp, p₁.stagedFor tp = p.stagedFor tp)
    (h : flush (World.transport codec) p₁ = (.ok written, p')) :
    ∃ r : Receipts p p' passed, r.written = written := by
  obtain ⟨_, p₂, hdrain, h⟩ := bind_eq_ok h
  have hdrained := queued_drainStaged codec hdrain hqueued.resting
  have hall := hqueued.trans hdrained
  obtain ⟨new, rfl, hreported, hempty⟩ := yields_attempts codec lasting_true
    (fun _ _ => trivial) (fun _ _ _ _ _ _ => trivial) hdrained.resting h
  have htaken : ∀ tp, Taken p'.cluster.wire.env tp (p₂.queue tp) (new.filter (·.1 = tp)) := by
    intro tp
    obtain ⟨k, hqueue, htaken⟩ := hreported.queue tp
    have hnone : p'.queue tp = [] := Std.TreeMap.getD_of_isEmpty hempty
    rw [hnone, eq_comm, List.drop_eq_nil_iff] at hqueue
    rwa [List.take_of_length_le hqueue] at htaken
  refine ⟨⟨fun tp => (p₂.queue tp).zip ((new.filter (·.1 = tp)).map (·.2)), sortWritten new,
    fun tp => ?_, fun tp => (htaken tp).zip.2.2, sorted_sortWritten _, fun tp => ?_⟩, ?_⟩
  · obtain ⟨fresh, hqueue, hfresh⟩ := hall.queue tp
    rw [(htaken tp).zip.1, hqueue]
    exact ⟨fresh, rfl, by rw [hfresh, hstaged]⟩
  · rw [(htaken tp).zip.2.1]
    exact (List.perm_insertionSort writtenLe new).filter _
  · rw [List.nil_append]

end Operations

namespace Receipts

variable {p p' : Producer World} {passed : List (TopicPartition × ProducerRecord)}

/-- The batch that the call made for a partition, if it passed records for it, and the
offset it was given. -/
def own (r : Receipts p p' passed) (tp : TopicPartition) : Option (Batch × ℤ) :=
  if recordsFor tp passed = [] then none else (r.acked tp)[(p.queue tp).length]?

/-- A partition's batches were given rising offsets, as a log does. -/
def Rising (r : Receipts p p' passed) (tp : TopicPartition) : Prop :=
  ((r.acked tp).map (·.2)).Pairwise (· < ·)

/-- The batches of a partition: those that were pending, the call's own, and the staged
one. -/
theorem acked_eq (r : Receipts p p' passed) (tp : TopicPartition) :
    ∃ before after, r.acked tp = before ++ (r.own tp).toList ++ after ∧
      before.length = (p.queue tp).length ∧ after.length = (bundle (p.stagedFor tp)).length ∧
      (r.own tp).toList.map (·.1.records) = bundle (recordsFor tp passed) := by
  obtain ⟨fresh, hqueue, hfresh⟩ := r.queued tp
  have hsplit : r.acked tp = (r.acked tp).take (p.queue tp).length ++
      (r.acked tp).drop (p.queue tp).length := (List.take_append_drop ..).symm
  have hlength := congrArg List.length hqueue
  rw [List.length_map, List.length_append] at hlength
  have hbefore : ((r.acked tp).take (p.queue tp).length).length = (p.queue tp).length := by
    rw [List.length_take, hlength]
    omega
  have hdrop : ((r.acked tp).drop (p.queue tp).length).map (·.1) = fresh := by
    rw [List.map_drop, hqueue, List.drop_left]
  by_cases hnone : recordsFor tp passed = []
  · refine ⟨_, (r.acked tp).drop (p.queue tp).length, ?_, hbefore, ?_, ?_⟩
    · rw [own, if_pos hnone]
      simp
    · rw [← List.length_map (·.1), hdrop, ← List.length_map (·.records), hfresh, hnone]
      simp
    · rw [own, if_pos hnone, hnone]
      rfl
  · rw [bundle, if_neg hnone] at hfresh
    obtain ⟨first, rest, hdropped⟩ : ∃ first rest,
        (r.acked tp).drop (p.queue tp).length = first :: rest := by
      refine List.exists_cons_of_ne_nil fun hnil => ?_
      rw [hnil] at hdrop
      rw [← hdrop] at hfresh
      cases hfresh
    have hown : r.own tp = some first := by
      rw [own, if_neg hnone, ← List.head?_drop, hdropped]
      rfl
    rw [hdropped] at hdrop
    rw [← hdrop, List.map_cons, List.map_cons, List.cons_append, List.cons.injEq] at hfresh
    refine ⟨_, rest, ?_, hbefore, ?_, ?_⟩
    · rw [hown, List.append_assoc]
      rw [hdropped] at hsplit
      exact hsplit
    · have hrest := congrArg List.length hfresh.2
      simpa using hrest
    · rw [hown, bundle, if_neg hnone]
      simpa using hfresh.1

/-- The call's own batch for a partition is made of the records passed for it, and was
given this offset. -/
theorem own_posted (r : Receipts p p' passed) {tp : TopicPartition} {batch : Batch} {own : ℤ}
    (h : r.own tp = some (batch, own)) :
    batch.records = recordsFor tp passed ∧ Posted p'.cluster.wire.env tp batch own := by
  obtain ⟨before, after, hacked, -, -, hrecords⟩ := r.acked_eq tp
  rw [h] at hacked hrecords
  constructor
  · rw [bundle] at hrecords
    split at hrecords
    · cases hrecords
    · simpa using hrecords
  · refine r.posted tp (batch, own) ?_
    rw [hacked]
    simp

theorem own_of_passed (r : Receipts p p' passed) {tp : TopicPartition}
    (h : recordsFor tp passed ≠ []) : ∃ batch own, r.own tp = some (batch, own) ∧
      batch.records = recordsFor tp passed ∧ Posted p'.cluster.wire.env tp batch own := by
  obtain ⟨before, after, -, -, -, hrecords⟩ := r.acked_eq tp
  cases hown : r.own tp with
  | none =>
      rw [hown, bundle, if_neg h] at hrecords
      cases hrecords
  | some e => exact ⟨e.1, e.2, rfl, r.own_posted hown⟩

theorem mem_written (r : Receipts p p' passed) {tp : TopicPartition} {offset : ℤ} :
    (tp, offset) ∈ r.written ↔ offset ∈ (r.acked tp).map (·.2) := by
  have hentries := (r.entries tp).mem_iff (a := (tp, offset))
  simpa using hentries

/-- Nothing of a partition was waiting if only the call's own batch was acknowledged. -/
theorem idle_iff (r : Receipts p p' passed) (tp : TopicPartition) :
    p.Idle tp ↔ (r.acked tp).length = (r.own tp).toList.length := by
  obtain ⟨before, after, hacked, hbefore, hafter, -⟩ := r.acked_eq tp
  have hlength : (r.acked tp).length =
      (p.queue tp).length + (r.own tp).toList.length + (bundle (p.stagedFor tp)).length := by
    rw [hacked, List.length_append, List.length_append, hbefore, hafter]
  have hbundle : (bundle (p.stagedFor tp)).length = 0 ↔ p.stagedFor tp = [] := by
    by_cases hnone : p.stagedFor tp = []
    · simp [bundle, hnone]
    · simp [bundle, hnone]
  rw [Idle, ← List.length_eq_zero_iff, ← hbundle, hlength]
  omega

/-! ### One partition -/

section One

variable (r : Receipts p p' passed) {tp : TopicPartition} {batch : Batch} {own : ℤ}

/-- The entries come in order. -/
theorem head_le {first : TopicPartition × ℤ} (hfirst : r.written.head? = some first) :
    ∀ e ∈ r.written, writtenLe first e := by
  obtain ⟨rest, hwritten⟩ := List.head?_eq_some_iff.mp hfirst
  have hsorted := r.sorted
  rw [hwritten, List.pairwise_cons] at hsorted
  intro e he
  rw [hwritten] at he
  rcases List.mem_cons.mp he with rfl | he
  · exact (Std.Total.total e e).elim id id
  · exact hsorted.1 e he

/-- The first entry is that of the call's own batch if and only if no other batch sorts
before it. -/
theorem head_own_iff (hown : r.own tp = some (batch, own)) (hrising : r.Rising tp)
    (hpassed : ∀ tp', tp' ≠ tp → recordsFor tp' passed = []) :
    r.written.head? = some (tp, own) ↔
      p.queue tp = [] ∧ ∀ tp', compare tp' tp = .lt → p.Idle tp' := by
  obtain ⟨before, after, hacked, hbefore, -, -⟩ := r.acked_eq tp
  rw [hown] at hacked
  have hmem : (tp, own) ∈ r.written := by
    rw [r.mem_written, hacked]
    simp
  constructor
  · intro hhead
    have hle := r.head_le hhead
    constructor
    · rw [← List.length_eq_zero_iff, ← hbefore, List.length_eq_zero_iff]
      by_contra hne
      obtain ⟨⟨earlier, offset⟩, rest, rfl⟩ := List.exists_cons_of_ne_nil hne
      have hlt : offset < own := by
        rw [Rising, hacked] at hrising
        simp only [List.cons_append, List.map_cons, List.pairwise_cons] at hrising
        exact hrising.1 own (by simp)
      have hearlier : (tp, offset) ∈ r.written := by
        rw [r.mem_written, hacked]
        simp
      rcases writtenLe_cases (hle _ hearlier) with hcompare | ⟨-, hge⟩
      · rw [compare_self] at hcompare
        cases hcompare
      · exact absurd hlt (not_lt.mpr hge)
    · intro tp' hlt
      have hne : tp' ≠ tp := by
        rintro rfl
        rw [compare_self] at hlt
        cases hlt
      have hnone : r.own tp' = none := by
        rw [Receipts.own, if_pos (hpassed tp' hne)]
      rw [r.idle_iff, hnone]
      by_contra hlength
      obtain ⟨⟨other, offset⟩, hother⟩ := List.exists_mem_of_length_pos
        (Nat.pos_of_ne_zero hlength)
      have hentry : (tp', offset) ∈ r.written := by
        rw [r.mem_written]
        exact List.mem_map.mpr ⟨_, hother, rfl⟩
      have hswap : compare tp' tp = (compare tp tp').swap := Std.OrientedCmp.eq_swap
      rcases writtenLe_cases (hle _ hentry) with hcompare | ⟨heq, -⟩
      · rw [hlt, hcompare] at hswap
        cases hswap
      · exact hne heq.symm
  · rintro ⟨hnone, hidle⟩
    rw [hnone, List.length_nil, List.length_eq_zero_iff] at hbefore
    rw [hbefore, List.nil_append] at hacked
    obtain ⟨first, hfirst⟩ := Option.isSome_iff_exists.mp
      (List.isSome_head?.mpr (List.ne_nil_of_mem hmem))
    have hentry : first ∈ r.written := List.mem_of_head? hfirst
    have hoffset := r.mem_written.mp hentry
    rw [hfirst]
    refine congrArg some ?_
    rcases writtenLe_cases (r.head_le hfirst _ hmem) with hlt | ⟨heq, hle⟩
    · have hne : first.1 ≠ tp := by
        intro heq
        rw [heq, compare_self] at hlt
        cases hlt
      have hlength := (r.idle_iff first.1).mp (hidle first.1 hlt)
      rw [Receipts.own, if_pos (hpassed first.1 hne)] at hlength
      rw [List.length_eq_zero_iff.mp hlength] at hoffset
      cases hoffset
    · obtain ⟨tp', offset⟩ := first
      dsimp only at heq hle hoffset
      subst heq
      rw [Rising, hacked] at hrising
      simp only [Option.toList_some, List.singleton_append, List.map_cons,
        List.pairwise_cons] at hrising
      rw [hacked] at hoffset
      simp only [Option.toList_some, List.singleton_append, List.map_cons, List.mem_cons] at hoffset
      rcases hoffset with rfl | hlater
      · rfl
      · exact absurd (hrising.1 offset hlater) (not_lt.mpr hle)

/-- With nothing else waiting for the partition or one that sorts before it, the first
entry is that of the call's own batch. -/
theorem head_own_of_idle (hown : r.own tp = some (batch, own))
    (hpassed : ∀ tp', tp' ≠ tp → recordsFor tp' passed = [])
    (hidle : ∀ tp', (compare tp' tp).isLE → p.Idle tp') : r.written.head? = some (tp, own) := by
  have hhere := hidle tp (by rw [compare_self]; rfl)
  have hlength := (r.idle_iff tp).mp hhere
  have hrising : r.Rising tp := by
    rw [hown] at hlength
    obtain ⟨e, he⟩ := List.length_eq_one_iff.mp hlength
    rw [Rising, he]
    simp
  exact (r.head_own_iff hown hrising hpassed).mpr
    ⟨hhere.1, fun tp' hlt => hidle tp' (by rw [hlt]; rfl)⟩

end One

/-! ### The partitions of a topic -/

theorem length_filters_le {α : Type} {f g h : α → Bool} (hf : ∀ a, f a → h a)
    (hg : ∀ a, g a → h a) (hfg : ∀ a, f a → g a → False) (l : List α) :
    (l.filter f).length + (l.filter g).length ≤ (l.filter h).length := by
  induction l with
  | nil => exact le_refl 0
  | cons a l ih =>
      have hf := hf a
      have hg := hg a
      have hfg := hfg a
      cases hfa : f a <;> cases hga : g a <;> cases hha : h a <;> simp_all <;> omega

/-- Without the topics, the entries are those of the call's own batches if and only if
nothing else was waiting. -/
theorem entries_own_iff (r : Receipts p p' passed) {topic : String}
    (hpassed : ∀ tp : TopicPartition, tp.topic ≠ topic → recordsFor tp passed = []) :
    (∀ partition, (r.written.map fun e => (e.1.partition, e.2)).filter (·.1 = partition) =
        (r.own ⟨topic, partition⟩).toList.map fun e => (partition, e.2)) ↔
      ∀ tp, p.Idle tp := by
  have hcount : ∀ tp, (r.written.filter (·.1 = tp)).length = (r.acked tp).length := by
    intro tp
    rw [(r.entries tp).length_eq, List.length_map]
  have hfilter : ∀ partition,
      (r.written.map fun e => (e.1.partition, e.2)).filter (·.1 = partition) =
        (r.written.filter (·.1.partition = partition)).map fun e => (e.1.partition, e.2) := by
    intro partition
    rw [List.filter_map]
    rfl
  constructor
  · intro hown tp
    have hall := congrArg List.length (hown tp.partition)
    rw [hfilter, List.length_map, List.length_map] at hall
    obtain ⟨before, after, hacked, -, -, -⟩ := r.acked_eq ⟨topic, tp.partition⟩
    have hleast : (r.own ⟨topic, tp.partition⟩).toList.length ≤
        (r.acked ⟨topic, tp.partition⟩).length := by
      rw [hacked]
      simp only [List.length_append]
      omega
    by_cases htopic : tp.topic = topic
    · have htp : tp = ⟨topic, tp.partition⟩ := by rw [← htopic]
      rw [r.idle_iff]
      have hsub : (r.written.filter (·.1 = tp)).length ≤
          (r.written.filter (·.1.partition = tp.partition)).length := by
        refine (List.monotone_filter_right _ fun e he => ?_).length_le
        simp only [decide_eq_true_eq] at he ⊢
        rw [he]
      rw [hcount, hall, ← htp] at hsub
      rw [← htp] at hleast
      omega
    · rw [r.idle_iff, Receipts.own, if_pos (hpassed tp htopic)]
      have hboth : (r.written.filter (·.1 = tp)).length +
          (r.written.filter (·.1 = ⟨topic, tp.partition⟩)).length ≤
            (r.written.filter (·.1.partition = tp.partition)).length := by
        refine length_filters_le ?_ ?_ ?_ r.written
        · intro e he
          simpa using congrArg TopicPartition.partition (of_decide_eq_true he)
        · intro e he
          simpa using congrArg TopicPartition.partition (of_decide_eq_true he)
        · intro e he he'
          refine htopic ?_
          rw [← of_decide_eq_true he, of_decide_eq_true he']
      rw [hcount, hcount, hall] at hboth
      simp only [Option.toList_none, List.length_nil]
      omega
  · intro hidle partition
    have hacked : ∀ tp, r.acked tp = (r.own tp).toList := by
      intro tp
      obtain ⟨before, after, hacked, hbefore, hafter, -⟩ := r.acked_eq tp
      rw [(hidle tp).1, List.length_nil, List.length_eq_zero_iff] at hbefore
      rw [(hidle tp).2, bundle_nil, List.length_nil, List.length_eq_zero_iff] at hafter
      simpa [hbefore, hafter] using hacked
    have hsame : r.written.filter (·.1.partition = partition) =
        r.written.filter (·.1 = ⟨topic, partition⟩) := by
      refine List.filter_congr fun e he => ?_
      have htopic : e.1.topic = topic := by
        by_contra hne
        have hoffset := r.mem_written.mp he
        rw [hacked, Receipts.own, if_pos (hpassed e.1 hne)] at hoffset
        cases hoffset
      rw [decide_eq_decide, ← htopic]
      constructor
      · rintro rfl
        rfl
      · intro heq
        rw [heq]
    have hperm := r.entries ⟨topic, partition⟩
    rw [hacked] at hperm
    rw [hfilter, hsame]
    cases hown : r.own ⟨topic, partition⟩ with
    | none =>
        rw [hown] at hperm
        rw [hperm.eq_nil]
        rfl
    | some e =>
        rw [hown] at hperm
        rw [List.perm_singleton.mp hperm]
        rfl

end Receipts

/-! ### The calls -/

section Calls

variable (codec : Codec)

theorem receipts_of_send {tp : TopicPartition} {records : List ProducerRecord} {o : ℤ}
    {p p' : Producer World} (hp : Cluster.Resting p.cluster) (hne : records ≠ [])
    (h : send (World.transport codec) tp records p = (.ok o, p')) :
    ∃ r : Receipts p p' (records.map (tp, ·)), o = (r.written.head?.map (·.2)).getD (-1) := by
  rw [send, if_neg (by simpa using hne)] at h
  obtain ⟨_, p₁, henqueue, h⟩ := bind_eq_ok h
  obtain ⟨written, p₂, hflush, h⟩ := bind_eq_ok h
  obtain ⟨hqueued, hstaged⟩ := queued_enqueue codec henqueue hp
  obtain ⟨r, rfl⟩ := receipts_of_flush codec hqueued (stagedFor_eq hstaged) hflush
  cases h
  exact ⟨r, rfl⟩

/-- The batch of each group. -/
theorem bundle_groups (topic : String) (groups : Std.TreeMap ℤ (List ProducerRecord))
    (tp : TopicPartition) :
    (groups.toList.flatMap fun group => bundle (recordsFor tp (group.2.map (⟨topic, group.1⟩, ·)))) =
      if tp.topic = topic then bundle (groups.getD tp.partition []) else [] := by
  obtain ⟨topic', partition⟩ := tp
  by_cases htopic : topic' = topic
  · subst htopic
    rw [if_pos rfl]
    have hone : ∀ group : ℤ × List ProducerRecord,
        bundle (recordsFor ⟨topic', partition⟩ (group.2.map (⟨topic', group.1⟩, ·))) =
          if partition == group.1 then bundle group.2 else [] := by
      intro group
      by_cases hgroup : partition = group.1
      · subst hgroup
        rw [recordsFor_here, if_pos (by simp)]
      · rw [recordsFor_elsewhere, if_neg (by simpa using hgroup), bundle_nil]
        exact fun h => hgroup (congrArg TopicPartition.partition h).symm
    have hflat : ∀ l : List (ℤ × List ProducerRecord),
        (l.flatMap fun group => if partition == group.1 then bundle group.2 else []) =
          (l.filter fun group => partition == group.1).flatMap fun group => bundle group.2 := by
      intro l
      induction l with
      | nil => rfl
      | cons group l ih =>
          rw [List.flatMap_cons, ih, List.filter_cons]
          split
          · rw [List.flatMap_cons]
          · rfl
    simp only [hone]
    rw [hflat, filter_key_toList, Std.TreeMap.getD_eq_getD_getElem?]
    cases groups[partition]? with
    | none => rfl
    | some records => simp
  · rw [if_neg htopic, List.flatMap_eq_nil_iff]
    intro group _
    rw [recordsFor_elsewhere, bundle_nil]
    exact fun h => htopic (congrArg TopicPartition.topic h).symm

theorem receipts_of_sendKeyed {topic : String} {records : List ProducerRecord}
    {list : List (ℤ × ℤ)} {p p' : Producer World} (hp : Cluster.Resting p.cluster)
    (hne : records ≠ [])
    (h : sendKeyed (World.transport codec) topic records p = (.ok list, p')) :
    ∃ r : Receipts p p' ((Call.sendKeyed topic records).passed (World.transport codec) p),
      list = (r.written.map fun e => (e.1.partition, e.2)) ∧
        ∀ tp : TopicPartition, tp.topic ≠ topic →
          recordsFor tp ((Call.sendKeyed topic records).passed (World.transport codec) p) = [] := by
  rw [sendKeyed, if_neg (by simpa using hne)] at h
  obtain ⟨count, p₁, hcount, h⟩ := bind_eq_ok h
  obtain ⟨groups, p₂, hgroups, h⟩ := bind_eq_ok h
  obtain ⟨_, p₃, henroll, h⟩ := bind_eq_ok h
  obtain ⟨_, p₄, henqueue, h⟩ := bind_eq_ok h
  obtain ⟨written, p₅, hflush, h⟩ := bind_eq_ok h
  have hquiet : Quiet (fun _ => True) p p₃ := by
    have hwaited := (quiets codec).partitionCountWaiting topic p
    rw [hcount] at hwaited
    have hgrouped := (quiets codec).groupByPartition topic count records ∅ p₁
    rw [hgroups] at hgrouped
    have henrolled := (quiets codec).enrollAll (fun _ _ _ => trivial) topic groups.keys p₂
    rw [henroll] at henrolled
    exact trans_of (Quiet _) (trans_of (Quiet _) hwaited hgrouped) henrolled
  have hpassed : (Call.sendKeyed topic records).passed (World.transport codec) p =
      placements p₁.partitioner count topic p₁.roundRobin records := by
    rw [Call.passed, hcount]
  have helsewhere : ∀ tp : TopicPartition, tp.topic ≠ topic →
      recordsFor tp (placements p₁.partitioner count topic p₁.roundRobin records) = [] := by
    intro tp htopic
    rw [recordsFor, List.map_eq_nil_iff, List.filter_eq_nil_iff]
    intro entry hentry
    have hplaced := topic_of_placements hentry
    simpa using fun heq : entry.1 = tp => htopic (by rw [← heq, hplaced])
  rw [hpassed]
  obtain ⟨hqueued, hstaged⟩ := queued_enqueueGroups codec henqueue (hquiet.calls hp).1
  have hall : Queued (fun tp => bundle (recordsFor tp
      (placements p₁.partitioner count topic p₁.roundRobin records))) p p₄ := by
    refine ((hquiet.queued hp).trans hqueued).of_eq fun tp => ?_
    rw [List.nil_append, bundle_groups]
    by_cases htopic : tp.topic = topic
    · rw [if_pos htopic, groupByPartition_eq_ok hgroups, Std.TreeMap.getD_emptyc, List.nil_append,
        ← htopic]
    · rw [if_neg htopic, helsewhere tp htopic, bundle_nil]
  obtain ⟨r, rfl⟩ := receipts_of_flush codec hall
    (stagedFor_eq (hstaged.trans hquiet.same.staged)) hflush
  cases h
  exact ⟨r, rfl, helsewhere⟩

end Calls

end Producer

theorem Ledger.kept_after (codec : Codec) {p : Producer World} (hp : Booted codec p)
    (calls : List Call) : (Ledger.after (World.transport codec) p calls).Kept :=
  run_induction (I := Ledger.Kept) (Ledger.Kept.start hp).1 (fun _ call h => h.step codec call) calls

namespace Producer

/-- In every reachable state: the entry whose offset `send` returns is that of the call's
own batch if and only if no batch is pending for the same partition and nothing waits for
a partition that sorts before it, where the broker gives a partition's batches rising
offsets; and the entries `send_keyed` returns are those of the call's own batches, one for
each partition the records hashed to, if and only if nothing else was waiting. -/
theorem returned_offsets_own_iff (codec : Codec) {p₀ : Producer World} (hp : Booted codec p₀)
    (calls : List Call) (p : Producer World)
    (hrun : p = (Ledger.after (World.transport codec) p₀ calls).producer) :
    (∀ (tp : TopicPartition) (records : List ProducerRecord) (o : ℤ) (p' : Producer World),
      records ≠ [] → send (World.transport codec) tp records p = (.ok o, p') →
      ∃ (r : Receipts p p' (records.map (tp, ·))) (batch : Batch) (own : ℤ),
        r.own tp = some (batch, own) ∧ batch.records = records ∧
        Posted p'.cluster.wire.env tp batch own ∧ r.written.head?.map (·.2) = some o ∧
        (r.Rising tp → (r.written.head? = some (tp, own) ↔
          p.queue tp = [] ∧ ∀ tp', compare tp' tp = .lt → p.Idle tp')) ∧
        ((∀ tp', (compare tp' tp).isLE → p.Idle tp') → o = own)) ∧
    ∀ (topic : String) (records : List ProducerRecord) (list : List (ℤ × ℤ))
        (p' : Producer World), records ≠ [] →
      sendKeyed (World.transport codec) topic records p = (.ok list, p') →
      ∃ r : Receipts p p' ((Call.sendKeyed topic records).passed (World.transport codec) p),
        (∀ tp, recordsFor tp ((Call.sendKeyed topic records).passed (World.transport codec) p) ≠
          [] → ∃ batch own, r.own tp = some (batch, own) ∧ batch.records =
            recordsFor tp ((Call.sendKeyed topic records).passed (World.transport codec) p) ∧
            Posted p'.cluster.wire.env tp batch own) ∧
        ((∀ partition, list.filter (·.1 = partition) =
          (r.own ⟨topic, partition⟩).toList.map fun e => (partition, e.2)) ↔
            ∀ tp, p.Idle tp) := by
  have hresting : Cluster.Resting p.cluster := by
    rw [hrun]
    exact (Ledger.kept_after codec hp calls).resting
  constructor
  · intro tp records o p' hne h
    obtain ⟨r, ho⟩ := receipts_of_send codec hresting hne h
    have helsewhere : ∀ tp', tp' ≠ tp → recordsFor tp' (records.map (tp, ·)) = [] :=
      fun tp' htp => recordsFor_elsewhere (Ne.symm htp) records
    have hpassed : recordsFor tp (records.map (tp, ·)) ≠ [] := by
      rwa [recordsFor_here]
    obtain ⟨batch, own, hown, hbatch, hposted⟩ := r.own_of_passed hpassed
    rw [recordsFor_here] at hbatch
    have hmem : (tp, own) ∈ r.written := by
      obtain ⟨before, after, hacked, -⟩ := r.acked_eq tp
      rw [r.mem_written, hacked, hown]
      simp
    obtain ⟨first, hfirst⟩ := Option.isSome_iff_exists.mp
      (List.isSome_head?.mpr (List.ne_nil_of_mem hmem))
    rw [hfirst] at ho
    refine ⟨r, batch, own, hown, hbatch, hposted, ?_,
      fun hrising => r.head_own_iff hown hrising helsewhere, fun hidle => ?_⟩
    · rw [hfirst, ho]
      rfl
    · have hhead := r.head_own_of_idle hown helsewhere hidle
      rw [hfirst] at hhead
      rw [ho, Option.some.inj hhead]
      rfl
  · intro topic records list p' hne h
    obtain ⟨r, hlist, helsewhere⟩ := receipts_of_sendKeyed codec hresting hne h
    refine ⟨r, fun tp htp => r.own_of_passed htp, ?_⟩
    rw [hlist]
    exact r.entries_own_iff helsewhere

/-! ### A flush that is shared -/

/-- A topic of two partitions, both led by the bootstrap broker. -/
def twoPartitions : Body :=
  .metadata ⟨[⟨1, "b", 1⟩], 1, [⟨0, some "t", [⟨0, 0, 1⟩, ⟨0, 1, 1⟩]⟩]⟩

/-- A request is answered where the first partition has five records of other producers
before each batch. -/
def crowded : Choice :=
  ⟨[(0, { Reply.of twoPartitions with gap := fun tp => if tp.partition = 0 then 5 else 0 })],
    .done, 0, 0, ""⟩

def bootedWith (rest : List Choice) : Producer World :=
  (Producer.idempotent (World.transport Tape.codec)
    (.start (scripted (idempotentScript.take 7 ++ rest))) ["b:1"] "c").2

theorem booted_bootedWith {rest : List Choice} (h : (Producer.idempotent
    (World.transport Tape.codec) (.start (scripted (idempotentScript.take 7 ++ rest))) ["b:1"]
      "c").1 = .ok ()) : Booted Tape.codec (bootedWith rest) :=
  ⟨_, _, _, .inl (by rw [bootedWith, ← h])⟩

/-- One batch queued, the metadata read, and one request of two partitions. -/
def sharedRound : List Choice :=
  [.done, .done, .done, .serving 0 twoPartitions, .done, .done, crowded]

/-- The metadata read, one batch queued, and two rounds. -/
def keyedRounds : List Choice :=
  [.done, .done, .serving 0 twoPartitions, .done, .done, .done, .done, crowded, crowded]

theorem idle_of_isEmpty {ω : Type} {p : Producer ω} (hpending : p.pending.isEmpty)
    (hstaged : p.staged.isEmpty) (tp : TopicPartition) : p.Idle tp := by
  constructor
  · exact Std.TreeMap.getD_of_isEmpty hpending
  · rw [stagedFor, Std.TreeMap.getElem?_of_isEmpty hstaged]
    rfl

theorem returned_offsets_own_alone :
    (send (World.transport Tape.codec) ⟨"t", 1⟩ [sampleRecord] (bootedWith sharedRound)).1 =
        .ok 0 ∧
      ∃ batch : Batch, batch.records = [sampleRecord] ∧
        Posted (send (World.transport Tape.codec) ⟨"t", 1⟩ [sampleRecord]
          (bootedWith sharedRound)).2.cluster.wire.env ⟨"t", 1⟩ batch 0 := by
  have hsent : (send (World.transport Tape.codec) ⟨"t", 1⟩ [sampleRecord]
      (bootedWith sharedRound)).1 = .ok 0 := by decide +kernel
  refine ⟨hsent, ?_⟩
  have hown := (returned_offsets_own_iff Tape.codec
    (@booted_bootedWith sharedRound (by decide)) [] _ rfl).1 ⟨"t", 1⟩ [sampleRecord] 0 _
      (List.cons_ne_nil _ _) (Prod.fst_eq_iff.mp hsent)
  obtain ⟨r, batch, own, -, hbatch, hposted, -, -, hidle⟩ := hown
  obtain rfl := hidle fun tp _ => idle_of_isEmpty (by decide) (by decide) tp
  exact ⟨batch, hbatch, hposted⟩

/-- The batches of a partition that a broker has taken, as records and base offset. -/
def logged (w : World) (tp : TopicPartition) : List (List ProducerRecord × ℤ) :=
  (w.logs tp).map fun entry => (entry.batch.records, entry.offset)

/-- With a batch pending for the first partition, `send` to the second returns the offset
of that one, while its own batch is at another; and `send_keyed` lists two entries for the
partition its one record hashed to. -/
theorem pending_batch_answers :
    (let p := (Ledger.after (World.transport Tape.codec) (bootedWith (.done :: sharedRound))
        [.enqueue ⟨"t", 0⟩ [sampleRecord]]).producer;
      Booted Tape.codec (bootedWith (.done :: sharedRound)) ∧
      (send (World.transport Tape.codec) ⟨"t", 1⟩ [sampleRecord] p).1 = .ok 5 ∧
      logged (send (World.transport Tape.codec) ⟨"t", 1⟩ [sampleRecord] p).2.cluster.wire.env
        ⟨"t", 1⟩ = [([sampleRecord], 0)]) ∧
    (let p := (Ledger.after (World.transport Tape.codec) (bootedWith (.done :: keyedRounds))
        [.enqueue ⟨"t", 0⟩ [sampleRecord]]).producer;
      Booted Tape.codec (bootedWith (.done :: keyedRounds)) ∧
      (sendKeyed (World.transport Tape.codec) "t" [sampleRecord] p).1 = .ok [(0, 5), (0, 11)] ∧
      (Call.sendKeyed "t" [sampleRecord]).passed (World.transport Tape.codec) p =
        [(⟨"t", 0⟩, sampleRecord)]) := by
  exact ⟨⟨booted_bootedWith (by decide), by decide +kernel, by decide +kernel⟩,
    booted_bootedWith (by decide), by decide +kernel, by decide⟩

end Producer

end Barnabas.Client
