import Barnabas.Client.Enrolment
import Barnabas.Core.Progress

/-!
Sentinel offsets and the wire.

`EARLIEST` and `LATEST` are stored in the map of positions until a `ListOffsets` has
resolved them, by `assign` for the partition it was given and by `advance_group` for
the partitions of a new assignment that have no committed offset. Both store first
and ask then. A lookup that fails in between leaves the sentinel where the next
fetch, and the next commit, take it for an offset.
-/

namespace Barnabas.Client

open Barnabas.Lib Barnabas.Core Barnabas.Lib.Act

/-! ### Where the filters leave a position -/

section Filters

variable (lastStableOffset : ℤ) (isolation : IsolationLevel) (fetchOffset : ℤ)

/-- The filter of batches goes on from behind a record it has read, or stays. -/
theorem filterBatchesLoop_snd (tracker : AbortTracker) (nextOffset : ℤ) (batches : List LeanBatch) :
    (filterBatchesLoop lastStableOffset isolation fetchOffset tracker nextOffset batches).2 =
        nextOffset ∨
      ∃ batch ∈ batches, ∃ r ∈ batch.records,
        (filterBatchesLoop lastStableOffset isolation fetchOffset tracker nextOffset batches).2 =
          wrap 64 (r.offset + 1) := by
  rw [filterBatchesLoop_next]
  cases hlast : lastRead lastStableOffset isolation batches with
  | none => exact .inl rfl
  | some offset =>
      obtain ⟨batch, hbatch, r, hr, rfl⟩ := lastRead_mem lastStableOffset isolation hlast
      exact .inr ⟨batch, hbatch, r, hr, rfl⟩

theorem filterLoop_nextOffset (tracker : AbortTracker) (nextOffset : ℤ) (records : List Record) :
    (filterLoop lastStableOffset isolation fetchOffset tracker nextOffset records).nextOffset =
        nextOffset ∨
      ∃ r ∈ records,
        (filterLoop lastStableOffset isolation fetchOffset tracker nextOffset records).nextOffset =
          wrap 64 (r.offset + 1) := by
  induction records generalizing tracker nextOffset with
  | nil => exact .inl rfl
  | cons record records ih =>
      have hlater : ∀ tracker, ∃ r ∈ record :: records,
          (filterLoop lastStableOffset isolation fetchOffset tracker (wrap 64 (record.offset + 1))
            records).nextOffset = wrap 64 (r.offset + 1) := by
        intro tracker
        rcases ih tracker (wrap 64 (record.offset + 1)) with heq | ⟨r, hr, heq⟩
        · exact ⟨record, List.mem_cons_self, heq⟩
        · exact ⟨r, List.mem_cons_of_mem _ hr, heq⟩
      rw [filterLoop]
      dsimp only
      split
      · exact .inl rfl
      · right
        split
        · exact hlater _
        · split
          · exact hlater _
          · split
            · exact hlater _
            · exact hlater _

theorem filter_nextOffset (records : List Record) (aborted : List AbortedTransaction) :
    (filter lastStableOffset isolation fetchOffset records aborted).nextOffset = fetchOffset ∨
      ∃ r ∈ records, (filter lastStableOffset isolation fetchOffset records aborted).nextOffset =
        wrap 64 (r.offset + 1) := by
  rw [filter]
  split
  · cases hlast : records.getLast? with
    | none => exact .inl rfl
    | some r => exact .inr ⟨r, List.mem_of_getLast? hlast, rfl⟩
  · exact filterLoop_nextOffset lastStableOffset isolation fetchOffset _ _ records

end Filters

/-! ### What may go on the wire -/

/-- The offsets a request asks for, or commits, are no sentinels. -/
def Request.Plain : Request → Prop
  | .fetch req => ∀ topic ∈ req.topics, ∀ part ∈ topic.2, 0 ≤ part.fetchOffset
  | .offsetCommit req => ∀ topic ∈ req.topics, ∀ entry ∈ topic.2, 0 ≤ entry.2
  | _ => True

instance (req : Request) : Decidable req.Plain := by
  cases req <;> unfold Request.Plain <;> infer_instance

/-- A frame whose request is plain. -/
def Frame.Plain (f : Frame) : Prop := f.request.Plain

theorem Frame.plain_of_isPlumbing {f : Frame} (h : f.request.isPlumbing) : f.Plain := by
  rw [Frame.Plain]
  cases hreq : f.request <;> simp_all [Request.isPlumbing, Request.Plain]

theorem Frame.plain_of_isMembership {f : Frame} (h : f.request.isMembership) : f.Plain := by
  rw [Frame.Plain]
  cases hreq : f.request <;> simp_all [Request.isMembership, Request.Plain]

namespace Consumer

variable {ω : Type} (T : Transport ω)

/-- What a caller may ask a partition to be read from. -/
def IsStart (offset : ℤ) : Prop := offset = earliest ∨ offset = latest ∨ 0 ≤ offset

/-- Every position is an offset. -/
def Placed (c : Consumer ω) : Prop :=
  ∀ (tp : TopicPartition) (offset : ℤ), c.positions[tp]? = some offset → 0 ≤ offset

/-- Nothing but offsets was sent, and what is to be taken for a partition without a
committed offset makes sense. -/
structure Plain (c : Consumer ω) : Prop where
  sent : ∀ f ∈ c.cluster.sent, f.Plain
  reset : IsStart c.reset

/-- The positions are left alone, and only offsets are sent. -/
def Still (c c' : Consumer ω) : Prop := c'.positions = c.positions ∧ (Plain c → Plain c')

instance : IsPreorder (Consumer ω) Still where
  refl _ := ⟨rfl, id⟩
  trans _ _ _ h h' := ⟨h'.1.trans h.1, h'.2 ∘ h.2⟩

theorem plain_of_appends {c : Consumer ω} {cluster : Cluster ω} (hc : Plain c)
    (h : Appends Cluster.sent Frame.Plain c.cluster cluster) : ∀ f ∈ cluster.sent, f.Plain := by
  obtain ⟨entries, heq, hentries⟩ := h
  intro f hf
  rw [heq, List.mem_append] at hf
  rcases hf with hf | hf
  · exact hc.sent f hf
  · exact hentries f hf

theorem permits_still : Permits T (Appends Cluster.sent Frame.Plain) Frame.Plain Still where
  calls := Cluster.permits_appends T fun _ => Frame.plain_of_isPlumbing
  coordinates := Cluster.coordinates_appends T fun _ => Frame.plain_of_isPlumbing
  recv := (Cluster.carries_appends fun _ => Frame.plain_of_isPlumbing).recvMany T .fetch Body.asFetch
  membership _ := Frame.plain_of_isMembership
  listOffsets f req hf := by
    rw [Frame.Plain, hf]
    trivial
  cluster _ _ h := ⟨rfl, fun hc => ⟨plain_of_appends hc h, hc.reset⟩⟩
  discardOutstanding := moves_discardOutstanding T
    (fun _ _ _ => ⟨rfl, fun hc => ⟨hc.sent, hc.reset⟩⟩) fun addrs => Moves.zoom
      ((Cluster.carries_appends fun _ => Frame.plain_of_isPlumbing).recvMany T .fetch Body.asFetch addrs)
      fun _ _ h => ⟨rfl, fun hc => ⟨plain_of_appends hc h, hc.reset⟩⟩
  fetch _ _ _ := ⟨rfl, fun hc => ⟨hc.sent, hc.reset⟩⟩
  group _ _ _ _ _ h := ⟨rfl, fun hc => ⟨plain_of_appends hc h, hc.reset⟩⟩
  books _ _ _ := ⟨rfl, fun hc => ⟨hc.sent, hc.reset⟩⟩

/-- What the sent requests have to do with the positions: both are fine. -/
def Sober (c : Consumer ω) : Prop := Placed c ∧ Plain c

/-- A consumer in order stays so. -/
def Sobers (c c' : Consumer ω) : Prop := Sober c → Sober c'

instance : IsPreorder (Consumer ω) Sobers where
  refl _ := id
  trans _ _ _ h h' := h' ∘ h

theorem Still.sobers {c c' : Consumer ω} (h : Still c c') : Sobers c c' := by
  rintro ⟨hplaced, hplain⟩
  refine ⟨?_, h.2 hplain⟩
  rw [Placed, h.1]
  exact hplaced

theorem permits_sobers : Permits T (Appends Cluster.sent Frame.Plain) Frame.Plain Sobers where
  calls := (permits_still T).calls
  coordinates := (permits_still T).coordinates
  recv := (permits_still T).recv
  membership := (permits_still T).membership
  listOffsets := (permits_still T).listOffsets
  cluster c cluster h := ((permits_still T).cluster c cluster h).sobers
  discardOutstanding c := ((permits_still T).discardOutstanding c).sobers
  fetch c outstanding sessions := ((permits_still T).fetch c outstanding sessions).sobers
  group c group group' cluster hgroup h :=
    ((permits_still T).group c group group' cluster hgroup h).sobers
  books c expansions last := ((permits_still T).books c expansions last).sobers

/-! ### Commits and fetches -/

theorem sobers_commit : Moves Sobers (commit T) := by
  refine Moves.bind (permits_sobers T).discardOutstanding fun _ => Moves.bind_get fun c hc => ?_
  refine (permits_sobers T).onGroup _ (ClassicProtocol.via_commit (permits_sobers T).coordinates ?_) c hc
  intro g req hreq f hf
  cases hreq
  rw [Frame.Plain, hf]
  intro topic htopic entry hentry
  have hmem := mem_byTopic htopic hentry
  exact hc.1 _ _ (Std.TreeMap.mem_toList_iff_getElem?_eq_some.mp hmem)

theorem plain_fetchRequest {c : Consumer ω} (hc : Placed c) (addr : String)
    (partitions : List TopicPartition) :
    (Request.fetch (c.fetchRequest addr partitions)).Plain := by
  intro topic htopic part hpart
  simp only [fetchRequest, List.mem_map] at htopic
  obtain ⟨gathered, hgathered, rfl⟩ := htopic
  simp only [List.mem_map] at hpart
  obtain ⟨entry, hentry, rfl⟩ := hpart
  have hmem := mem_byTopic hgathered hentry
  simp only [List.mem_map] at hmem
  obtain ⟨tp, -, heq⟩ := hmem
  have hpart : entry.2 = c.fetchPartition tp := (congrArg Prod.snd heq).symm
  rw [hpart]
  change 0 ≤ c.positions.getD tp 0
  rw [Std.TreeMap.getD_eq_getD_getElem?]
  cases hposition : c.positions[tp]? with
  | none => exact le_rfl
  | some offset => exact hc tp offset hposition

theorem sobers_sendFetches (c : Consumer ω)
    (byBroker : Std.TreeMap String (List TopicPartition)) :
    Sobers c (sendFetches T (c.planned byBroker) [] c).2 := by
  intro hc
  refine (permits_sobers T).sendFetches ?_ [] c hc
  intro entry hentry
  obtain ⟨⟨addr, partitions⟩, -, rfl⟩ := List.mem_map.mp hentry
  refine (Cluster.carries_appends fun _ => Frame.plain_of_isPlumbing).sendAt T ?_ addr
  intro f hf
  rw [Frame.Plain, hf]
  exact plain_fetchRequest hc.1 addr partitions

/-! ### Membership -/

theorem nonneg_committedOffsets {answers : List (TopicPartition × OffsetFetchPartition)}
    {out found : PartitionMap ℤ} (h : ClassicProtocol.committedOffsets answers out = .ok found)
    (hout : ∀ (tp : TopicPartition) (o : ℤ), out[tp]? = some o → 0 ≤ o) :
    ∀ (tp : TopicPartition) (o : ℤ), found[tp]? = some o → 0 ≤ o := by
  induction answers generalizing out with
  | nil =>
      cases h
      exact hout
  | cons first rest ih =>
      rw [ClassicProtocol.committedOffsets] at h
      split at h
      · cases h
      · refine ih h fun tp o ho => ?_
        split at ho
        · next hnonneg =>
            rw [Std.TreeMap.getElem?_insert] at ho
            split at ho
            · cases ho
              exact hnonneg
            · exact hout tp o ho
        · exact hout tp o ho

/-- What the group has committed are offsets. -/
theorem nonneg_committed {partitions : List TopicPartition} {g g' : Grouped ω}
    {found : PartitionMap ℤ} (h : ClassicProtocol.committed T partitions g = (.ok found, g'))
    (tp : TopicPartition) (o : ℤ) (ho : found[tp]? = some o) : 0 ≤ o := by
  have hempty : ∀ (tp : TopicPartition) (o : ℤ), (∅ : PartitionMap ℤ)[tp]? = some o → 0 ≤ o := by
    intro tp o ho
    simp at ho
  rw [ClassicProtocol.committed] at h
  split at h
  · cases h
    exact hempty tp o ho
  · obtain ⟨resp, g₁, -, h⟩ := bind_eq_ok h
    obtain ⟨_, g₂, -, h⟩ := bind_eq_ok h
    exact nonneg_committedOffsets (congrArg Prod.fst h) hempty tp o ho

/-- Every position is an offset or a sentinel. -/
def Starting (c : Consumer ω) : Prop :=
  ∀ (tp : TopicPartition) (offset : ℤ), c.positions[tp]? = some offset → IsStart offset

theorem Placed.starting {c : Consumer ω} (h : Placed c) : Starting c :=
  fun tp offset hoffset => .inr (.inr (h tp offset hoffset))

theorem starting_takeAssignment {c : Consumer ω} (hreset : IsStart c.reset)
    (partitions : List TopicPartition) {found : PartitionMap ℤ}
    (hfound : ∀ (tp : TopicPartition) (o : ℤ), found[tp]? = some o → 0 ≤ o) :
    Starting (takeAssignment partitions found c) := by
  have hfold : ∀ positions : PartitionMap ℤ,
      (∀ (tp : TopicPartition) (o : ℤ), positions[tp]? = some o → IsStart o) →
      ∀ (tp : TopicPartition) (o : ℤ), (partitions.foldl (fun positions tp =>
        positions.insert tp (found.getD tp c.reset)) positions)[tp]? = some o → IsStart o := by
    induction partitions with
    | nil => exact fun _ h => h
    | cons first rest ih =>
        intro positions hpositions
        refine ih _ fun tp o ho => ?_
        rw [Std.TreeMap.getElem?_insert] at ho
        split at ho
        · cases ho
          rw [Std.TreeMap.getD_eq_getD_getElem?]
          cases hget : found[first]? with
          | none => exact hreset
          | some o => exact .inr (.inr (hfound first o hget))
        · exact hpositions tp o ho
  refine hfold ∅ fun tp o ho => ?_
  simp at ho

theorem placed_giveUp {c : Consumer ω} (h : Placed c) (lost : List TopicPartition) :
    Placed (giveUp lost c) := by
  have hfold : ∀ positions : PartitionMap ℤ,
      (∀ (tp : TopicPartition) (o : ℤ), positions[tp]? = some o → 0 ≤ o) →
      ∀ (tp : TopicPartition) (o : ℤ), (lost.foldl (fun positions tp =>
        positions.erase tp) positions)[tp]? = some o → 0 ≤ o := by
    induction lost with
    | nil => exact fun _ h => h
    | cons first rest ih =>
        intro positions hpositions
        refine ih _ fun tp o ho => ?_
        rw [Std.TreeMap.getElem?_erase] at ho
        split at ho
        · cases ho
        · exact hpositions tp o ho
  exact hfold c.positions h

/-- How the loop of `advanceGroup` may end: only a new assignment holds sentinels. -/
def Settles : Advanced → Consumer ω → Prop
  | .settled true, c => Starting c ∧ Plain c
  | _, c => Sober c

theorem settles_of_sober {c : Consumer ω} (h : Sober c) (b : Bool) : Settles (.settled b) c := by
  cases b with
  | true => exact ⟨h.1.starting, h.2⟩
  | false => exact h

theorem sober_advanceOnce (i : ℕ) (changed : Bool) :
    Triple Sober (advanceOnce T i changed)
      (fun result => match result with
        | .inl _ => Sober
        | .inr advanced => Settles advanced) (fun _ => Sober) := by
  intro c hc
  cases hgroup : c.group with
  | none =>
      have hround : advanceOnce T i changed c = (.ok (.inr (.groupless changed)), c) := by
        rw [advanceOnce, bind_of_ok (get_apply c), hgroup]
        rfl
      rw [hround]
      exact hc
  | some group =>
      rcases hadvance : ClassicProtocol.advance T ⟨group, c.cluster⟩ with ⟨outcome, g⟩
      rw [advanceOnce_eq T hgroup hadvance]
      have happends := ClassicProtocol.via_advance (permits_still T).coordinates
        (permits_still T).membership ⟨group, c.cluster⟩
      rw [hadvance] at happends
      have hplain : ∀ c' : Consumer ω, c'.cluster = g.cluster → c'.reset = c.reset → Plain c' := by
        rintro c' hcluster hreset
        refine ⟨?_, hreset ▸ hc.2.reset⟩
        rw [hcluster]
        exact plain_of_appends hc.2 happends
      have hsober : Sober { c with group := some g.group, cluster := g.cluster } :=
        ⟨hc.1, hplain _ rfl rfl⟩
      rcases outcome with e | _ | partitions | lost
      · exact hsober
      · exact hsober
      · let c₁ : Consumer ω := { c with group := none, cluster := g.cluster }
        cases hholds : c.holds partitions with
        | true =>
            rw [follow_held T (c := c₁) hholds]
            exact settles_of_sober hsober changed
        | false =>
            have happends' := ClassicProtocol.via_committed (permits_still T).coordinates
              (permits_still T).membership partitions g
            rcases hcommitted : ClassicProtocol.committed T partitions g with ⟨e | found, g'⟩
            · rw [hcommitted] at happends'
              rw [follow_unread T (c := c₁) hholds hcommitted]
              exact ⟨hc.1, plain_of_appends (hplain c₁ rfl rfl) happends', hc.2.reset⟩
            · rw [hcommitted] at happends'
              rw [follow_assigned T (c := c₁) hholds hcommitted]
              refine ⟨?_, plain_of_appends (hplain c₁ rfl rfl) happends', hc.2.reset⟩
              exact starting_takeAssignment (c := c₁) hc.2.reset partitions
                (nonneg_committed T hcommitted)
      · exact ⟨placed_giveUp (c := { c with group := none, cluster := g.cluster }) hc.1 lost,
          hplain _ rfl rfl⟩

theorem sober_advanceSteps : Triple Sober (advanceSteps T) Settles (fun _ => Sober) := by
  have hloop : ∀ left i changed, Triple Sober (Act.attempts (advanceOnce T)
      (fun changed => pure (.settled changed)) left i changed) Settles (fun _ => Sober) := by
    intro left
    induction left with
    | zero => exact fun i changed => Triple.pure fun c hc => settles_of_sober hc changed
    | succ left ih =>
        intro i changed
        refine Triple.bind (sober_advanceOnce T i changed) fun result => ?_
        cases result with
        | inl changed' => exact ih (i + 1) changed'
        | inr advanced => exact Triple.pure fun c hc => hc
  exact hloop maxSteps 0 false

/-- Every lookup of a list of sentinels finds an offset. -/
def Resolved : List (TopicPartition × ℤ) → Consumer ω → Prop
  | [], _ => True
  | (tp, sentinel) :: rest, c => ∃ offset c', listOffset T tp sentinel c = (.ok offset, c') ∧
      0 ≤ offset ∧ Resolved rest (setPosition tp offset c')

theorem sober_resolve {list : List (TopicPartition × ℤ)} {c : Consumer ω}
    (hpositions : ∀ (tp : TopicPartition) (o : ℤ), c.positions[tp]? = some o →
      0 ≤ o ∨ ∃ sentinel, (tp, sentinel) ∈ list)
    (hplain : Plain c) (hresolved : Resolved T list c) : Sober (resolve T list c).2 := by
  induction list generalizing c with
  | nil =>
      refine ⟨fun tp o ho => ?_, hplain⟩
      rcases hpositions tp o ho with h | ⟨_, h⟩
      · exact h
      · cases h
  | cons first rest ih =>
      obtain ⟨offset, c', hlookup, hnonneg, hrest⟩ := hresolved
      have hstill := (permits_still T).listOffset first.1 first.2 c
      rw [hlookup] at hstill
      obtain ⟨hsame, hplain'⟩ := hstill
      rw [resolve, bind_of_ok hlookup, bind_of_ok (modify_apply _ _)]
      refine ih (fun tp o ho => ?_) ⟨(hplain' hplain).sent, (hplain' hplain).reset⟩ hrest
      rw [setPosition, hsame, Std.TreeMap.getElem?_insert] at ho
      split at ho
      · cases ho
        exact .inl hnonneg
      · next hne =>
          rcases hpositions tp o ho with h | ⟨sentinel, h⟩
          · exact .inl h
          · rcases List.mem_cons.mp h with heq | h
            · refine absurd ?_ hne
              rw [Std.LawfulEqCmp.compare_eq_iff_eq]
              exact (congrArg Prod.fst heq).symm
            · exact .inr ⟨sentinel, h⟩

/-- The sentinels of a new assignment are resolved. -/
def AdvanceResolves (c : Consumer ω) : Prop :=
  ∀ c₁, advanceSteps T c = (.ok (.settled true), c₁) →
    Resolved T c₁.onFetchSetChanged.unresolved c₁.onFetchSetChanged

theorem sober_advanceGroup {c : Consumer ω} (hc : Sober c) (hresolves : AdvanceResolves T c) :
    Sober (advanceGroup T c).2 := by
  have hsteps := sober_advanceSteps T c hc
  rcases hadvance : advanceSteps T c with ⟨e | advanced, c₁⟩
  · rw [hadvance] at hsteps
    rw [advanceGroup, bind_of_error hadvance]
    exact hsteps
  · rw [hadvance] at hsteps
    rw [advanceGroup, bind_of_ok hadvance]
    rcases advanced with (_ | _) | changed
    · exact hsteps
    · obtain ⟨hstarting, hplain⟩ := hsteps
      have hsober := sober_resolve T (c := c₁.onFetchSetChanged) (fun tp o ho => ?_)
        ⟨hplain.sent, hplain.reset⟩ (hresolves c₁ hadvance)
      · dsimp only
        rw [bind_of_ok (modify_apply _ _), bind_of_ok (get_apply _)]
        rcases hresolve : resolve T c₁.onFetchSetChanged.unresolved c₁.onFetchSetChanged with
          ⟨e | _, c₂⟩
        · rw [hresolve] at hsober
          rw [bind_of_error hresolve]
          exact hsober
        · rw [hresolve] at hsober
          rw [bind_of_ok hresolve]
          exact hsober
      · rcases hstarting tp o ho with h | h | h
        · refine .inr ⟨o, List.mem_filter.mpr ⟨?_, by simp [h]⟩⟩
          exact Std.TreeMap.mem_toList_iff_getElem?_eq_some.mpr ho
        · refine .inr ⟨o, List.mem_filter.mpr ⟨?_, by simp [h]⟩⟩
          exact Std.TreeMap.mem_toList_iff_getElem?_eq_some.mpr ho
        · exact .inl h
    · exact hsteps

/-! ### The result loop -/

variable (D : Decoders)

/-- The records in the data of a partition are at offsets a log can have. -/
def Recorded (part : PartitionData) : Prop :=
  ∀ bytes, part.records = some bytes →
    (∀ batches, decodeLean D.toCodecs bytes = .ok (some batches) →
      ∀ batch ∈ batches, ∀ r ∈ batch.records, 0 ≤ r.offset ∧ r.offset < i64Max) ∧
    ∀ records, decodeRecords D bytes.length bytes = .ok records →
      ∀ r ∈ records, 0 ≤ r.offset ∧ r.offset < i64Max

/-- As `Recorded`, for all that a fetch has brought. -/
def AllRecorded (answers : List Answered) : Prop :=
  ∀ answer ∈ answers, ∀ resp, answer.2 = .ok resp → ∀ entry ∈ dataOf resp, Recorded D entry.2

theorem nonneg_wrap_succ {offset : ℤ} (h : 0 ≤ offset ∧ offset < i64Max) :
    0 ≤ wrap 64 (offset + 1) := by
  have hfits : Fits 64 (offset + 1) := by
    simp only [i64Max] at h
    constructor
    · norm_num
      omega
    · norm_num at h ⊢
      omega
  rw [wrap_eq_self (by decide) hfits]
  omega

theorem nonneg_readPartition {isolation : IsolationLevel} {fetchOffset : ℤ} {tp : TopicPartition}
    {part : PartitionData} {bytes : Bytes} {records : ConsumerRecords} {nextOffset : ℤ}
    (hoffset : 0 ≤ fetchOffset) (hbytes : part.records = some bytes) (hpart : Recorded D part)
    (h : readPartition D isolation fetchOffset tp part bytes = .ok (records, nextOffset)) :
    0 ≤ nextOffset := by
  obtain ⟨hlean, hfull⟩ := hpart bytes hbytes
  rw [readPartition] at h
  split at h
  · cases h
  · next batches hdecode =>
      cases h
      rcases filterBatchesLoop_snd part.lastStableOffset isolation fetchOffset
        (.new (abortedOf part)) fetchOffset batches with heq | ⟨batch, hbatch, r, hr, heq⟩
      · exact hoffset.trans_eq heq.symm
      · exact (nonneg_wrap_succ (hlean batches hdecode batch hbatch r hr)).trans_eq heq.symm
  · split at h
    · cases h
    · next records hdecode =>
        cases h
        rcases filter_nextOffset part.lastStableOffset isolation fetchOffset records
          (abortedOf part) with heq | ⟨r, hr, heq⟩
        · exact hoffset.trans_eq heq.symm
        · exact (nonneg_wrap_succ (hfull records hdecode r hr)).trans_eq heq.symm

theorem placed_setPosition {c : Consumer ω} (h : Placed c) (tp : TopicPartition) {offset : ℤ}
    (hoffset : 0 ≤ offset) : Placed (setPosition tp offset c) := by
  intro tp' o ho
  rw [setPosition, Std.TreeMap.getElem?_insert] at ho
  split at ho
  · cases ho
    exact hoffset
  · exact h tp' o ho

theorem sobers_absorbPartitions {parts : List (TopicPartition × PartitionData)}
    (hparts : ∀ entry ∈ parts, Recorded D entry.2) (out : List ConsumerRecords) :
    Moves Sobers (absorbPartitions D parts out : Act (Consumer ω) Error _) := by
  induction parts generalizing out with
  | nil => exact Moves.pure _
  | cons first rest ih =>
      obtain ⟨hfirst, hrest⟩ := List.forall_mem_cons.mp hparts
      refine Moves.bind (fun c hc => ?_) fun out => ih hrest out
      rcases absorbPartition_cases D first.1 first.2 out c with
        ⟨e, heq⟩ | heq | ⟨fetchOffset, bytes, records, next, hposition, hbytes, hread, heq⟩
      · rw [heq]
        exact hc
      · rw [heq]
        exact hc
      · rw [heq]
        have hnext := nonneg_readPartition D (hc.1 _ _ hposition) hbytes hfirst hread
        exact ⟨placed_setPosition hc.1 first.1 hnext, hc.2.sent, hc.2.reset⟩

theorem sobers_absorb {answers : List Answered} (hanswers : AllRecorded D answers)
    (out : List ConsumerRecords) : Moves Sobers (absorb D answers out : Act (Consumer ω) Error _) := by
  induction answers generalizing out with
  | nil => exact Moves.pure _
  | cons answer rest ih =>
      obtain ⟨hanswer, hrest⟩ := List.forall_mem_cons.mp hanswers
      refine Moves.bind ?_ fun out => ih hrest out
      have hsessions : ∀ (c : Consumer ω) sessions, Sobers c { c with sessions } :=
        fun _ _ hc => ⟨hc.1, hc.2.sent, hc.2.reset⟩
      refine Moves.bind_of (Moves.ofExcept _) (Q := fun resp => answer.2 = .ok resp)
        (fun c resp c' hok => congrArg Prod.fst hok) fun resp hresp => Moves.ite ?_ ?_
      · exact Moves.bind (Moves.modify fun c => hsessions c _) fun _ => Moves.pure _
      · refine Moves.bind (Moves.ofExcept _) fun _ => Moves.bind (Moves.modify fun c => ?_) fun _ =>
          sobers_absorbPartitions D (hanswer resp hresp) out
        rw [acceptSession]
        split
        · exact hsessions c _
        · exact id

/-! ### The calls -/

/-- What `assign` does before it looks a sentinel up. -/
def store (tp : TopicPartition) (offset : ℤ) : Act (Consumer ω) Error Unit := do
  discardOutstanding T
  onCluster (Cluster.refreshMetadata T tp.topic)
  modify (setPosition tp offset)

/-- The offsets a caller hands in are offsets, or sentinels where these are meant. -/
def Call.Sensible : Call → Prop
  | .assign _ offset => IsStart offset
  | .seekTo _ offset => 0 ≤ offset
  | .subscribe _ _ _ reset => IsStart reset
  | _ => True

/-- Every lookup of a sentinel that a call has stored finds an offset, and what a fetch
brings back is at offsets a log can have. -/
def Call.Resolves (c : Consumer ω) : Call → Prop
  | .assign tp offset => offset = earliest ∨ offset = latest → ∀ c₁, store T tp offset c = (.ok (), c₁) →
      ∃ resolved c₂, Consumer.listOffset T tp offset c₁ = (.ok resolved, c₂) ∧ 0 ≤ resolved
  | .heartbeat => AdvanceResolves T c
  | .poll => (∀ c₁, beforeAdvance T c = (.ok (), c₁) → AdvanceResolves T c₁) ∧
      ∀ c₁ answers c₂, keepMembership T c = (.ok (), c₁) → collect T c₁ = (.ok answers, c₂) →
        AllRecorded D answers
  | _ => True

/-- What `assign` does after it has stored the offset. -/
def settleAssigned (tp : TopicPartition) (offset : ℤ) : Act (Consumer ω) Error Unit := do
  if offset = earliest ∨ offset = latest then do
    let resolved ← listOffset T tp offset
    modify (setPosition tp resolved)
  else pure ()
  modify onFetchSetChanged

theorem assign_eq (tp : TopicPartition) (offset : ℤ) (c : Consumer ω) :
    assign T tp offset c = (store T tp offset >>= fun _ => settleAssigned T tp offset) c := by
  rw [assign, store, settleAssigned]
  rcases hdiscard : discardOutstanding T c with ⟨e | _, c₁⟩
  · rw [bind_of_error hdiscard, bind_of_error (bind_of_error hdiscard)]
  · rw [bind_of_ok hdiscard]
    rcases hrefresh : (onCluster (Cluster.refreshMetadata T tp.topic) : Act (Consumer ω) Error _) c₁
      with ⟨e | _, c₂⟩
    · rw [bind_of_error hrefresh, bind_of_error ((bind_of_ok hdiscard).trans (bind_of_error hrefresh))]
    · have hstore : (do
          discardOutstanding T
          onCluster (Cluster.refreshMetadata T tp.topic)
          modify (setPosition tp offset) : Act (Consumer ω) Error Unit) c =
            (.ok (), setPosition tp offset c₂) := by
        rw [bind_of_ok hdiscard, bind_of_ok hrefresh]
        rfl
      rw [bind_of_ok hrefresh, bind_of_ok hstore]
      rfl

/-- The offset is stored, or the positions are left as they were. -/
theorem store_cases (tp : TopicPartition) (offset : ℤ) (c : Consumer ω) :
    (∃ e c', store T tp offset c = (.error e, c') ∧ Still c c') ∨
      ∃ c', store T tp offset c = (.ok (), setPosition tp offset c') ∧ Still c c' := by
  have hprepare : Moves Still (do
      discardOutstanding T
      onCluster (Cluster.refreshMetadata T tp.topic) : Act (Consumer ω) Error Unit) :=
    Moves.bind (permits_still T).discardOutstanding fun _ =>
      (permits_still T).onCluster ((permits_still T).calls.refreshMetadata tp.topic)
  have hstill := hprepare c
  rw [store]
  rcases hdiscard : discardOutstanding T c with ⟨e | _, c₁⟩
  · rw [bind_of_error hdiscard] at hstill ⊢
    exact .inl ⟨e, c₁, rfl, hstill⟩
  · rw [bind_of_ok hdiscard] at hstill ⊢
    rcases hrefresh : (onCluster (Cluster.refreshMetadata T tp.topic) : Act (Consumer ω) Error _) c₁
      with ⟨e | _, c₂⟩
    · rw [hrefresh] at hstill
      rw [bind_of_error hrefresh]
      exact .inl ⟨e, c₂, rfl, hstill⟩
    · rw [hrefresh] at hstill
      rw [bind_of_ok hrefresh]
      exact .inr ⟨c₂, rfl, hstill⟩

/-- An assignment whose sentinel is resolved is at an offset; one that fails leaves the
positions as they were. -/
theorem assign_sober {tp : TopicPartition} {offset : ℤ} {c : Consumer ω} (hc : Sober c)
    (hoffset : IsStart offset) (hresolves : Call.Resolves T D c (.assign tp offset)) :
    Sober (assign T tp offset c).2 ∧
      ∀ e, (assign T tp offset c).1 = .error e → (assign T tp offset c).2.positions = c.positions := by
  rw [assign_eq]
  rcases store_cases T tp offset c with ⟨e, c', hstore, hstill⟩ | ⟨c', hstore, hstill⟩
  · rw [bind_of_error hstore]
    exact ⟨hstill.sobers hc, fun _ _ => hstill.1⟩
  · rw [bind_of_ok hstore, settleAssigned]
    by_cases hsentinel : offset = earliest ∨ offset = latest
    · obtain ⟨resolved, c₂, hlookup, hnonneg⟩ := hresolves hsentinel _ hstore
      have hstill' := (permits_still T).listOffset tp offset (setPosition tp offset c')
      rw [hlookup] at hstill'
      rw [if_pos hsentinel, bind_of_ok hlookup, bind_of_ok (modify_apply _ _)]
      refine ⟨?_, fun e he => by cases he⟩
      have hplain := hstill'.2 ⟨(hstill.2 hc.2).sent, (hstill.2 hc.2).reset⟩
      refine ⟨fun tp' o ho => ?_, hplain.sent, hplain.reset⟩
      change (c₂.positions.insert tp resolved)[tp']? = some o at ho
      rw [hstill'.1, setPosition, hstill.1, Std.TreeMap.getElem?_insert] at ho
      split at ho
      · cases ho
        exact hnonneg
      · next hne =>
          rw [Std.TreeMap.getElem?_insert, if_neg hne] at ho
          exact hc.1 tp' o ho
    · rw [if_neg hsentinel]
      refine ⟨?_, fun e he => by cases he⟩
      have hnonneg : 0 ≤ offset := by
        rcases hoffset with h | h | h
        · exact absurd (.inl h) hsentinel
        · exact absurd (.inr h) hsentinel
        · exact h
      have hplaced := placed_setPosition (hstill.sobers hc).1 tp hnonneg
      exact ⟨hplaced, (hstill.2 hc.2).sent, (hstill.2 hc.2).reset⟩

theorem sober_keepMembership {c : Consumer ω} (hc : Sober c)
    (hresolves : ∀ c₁, beforeAdvance T c = (.ok (), c₁) → AdvanceResolves T c₁) :
    Sober (keepMembership T c).2 := by
  have hchecked := (permits_sobers T).checkForExpansion c hc
  rw [keepMembership]
  rcases hcheck : checkForExpansion T c with ⟨e | _, c₁⟩
  · rw [hcheck] at hchecked
    rw [bind_of_error hcheck]
    exact hchecked
  · rw [hcheck] at hchecked
    rw [bind_of_ok hcheck, bind_of_ok (get_apply c₁)]
    split
    · have hcommitted := (permits_sobers T).maybeAutoCommit (sobers_commit T) c₁ hchecked
      rcases hcommit : maybeAutoCommit T c₁ with ⟨e | _, c₂⟩
      · rw [hcommit] at hcommitted
        rw [bind_of_error hcommit]
        exact hcommitted
      · rw [hcommit] at hcommitted
        rw [bind_of_ok hcommit]
        have hadvanced := sober_advanceGroup T hcommitted
          (hresolves c₂ ((bind_of_ok hcheck).trans hcommit))
        rcases hadvance : advanceGroup T c₂ with ⟨e | changed, c₃⟩
        · rw [hadvance] at hadvanced
          rw [bind_of_error hadvance]
          exact hadvanced
        · rw [hadvance] at hadvanced
          rw [bind_of_ok hadvance]
          exact Moves.ite (permits_sobers T).discardOutstanding (Moves.pure _) c₃ hadvanced
    · exact hchecked

theorem sober_poll {c : Consumer ω} (hc : Sober c) (hresolves : Call.Resolves T D c .poll) :
    Sober (poll T D c).2 := by
  have hmember := sober_keepMembership T hc hresolves.1
  rw [poll]
  rcases hkeep : keepMembership T c with ⟨e | _, c₁⟩
  · rw [hkeep] at hmember
    rw [bind_of_error hkeep]
    exact hmember
  · rw [hkeep] at hmember
    rw [bind_of_ok hkeep, bind_of_ok (get_apply c₁)]
    split
    · exact hmember
    · have hcollected := (permits_sobers T).collect (sobers_sendFetches T) c₁ hmember
      rcases hcollect : collect T c₁ with ⟨e | answers, c₂⟩
      · rw [hcollect] at hcollected
        rw [bind_of_error hcollect]
        exact hcollected
      · rw [hcollect] at hcollected
        rw [bind_of_ok hcollect]
        have hrecorded := hresolves.2 c₁ answers c₂ hkeep hcollect
        refine Moves.bind (sobers_absorb D hrecorded []) (fun out => ?_) c₂ hcollected
        refine Moves.bind ((permits_sobers T).startPrefetch (sobers_sendFetches T)) fun _ => ?_
        refine Moves.bind (Moves.modify fun c hc => ?_) fun _ => Moves.pure _
        exact ⟨hc.1, hc.2.sent, hc.2.reset⟩

theorem sober_unsubscribe : Moves Sobers (unsubscribe T) := by
  refine Moves.bind (permits_sobers T).discardOutstanding fun _ => ?_
  refine Moves.bind (Moves.modify fun c hc => ?_) fun _ => Moves.bind_get fun c hc => ?_
  · exact ⟨fun tp o ho => by simp at ho, hc.2.sent, hc.2.reset⟩
  · cases c.group with
    | none => exact hc
    | some group =>
        have happends := ClassicProtocol.via_leave (permits_still T).coordinates
          (permits_still T).membership ⟨group, c.cluster⟩
        exact ⟨hc.1, plain_of_appends hc.2 happends, hc.2.reset⟩

/-- A call keeps the consumer in order. -/
theorem sober_step {c : Consumer ω} (hc : Sober c) {call : Call} (hsensible : call.Sensible)
    (hresolves : call.Resolves T D c) : Sober (call.step T D c) := by
  have hpermits := permits_sobers T
  have hsame : ∀ c' : Consumer ω, c'.positions = c.positions → c'.cluster.sent = c.cluster.sent →
      c'.reset = c.reset → Sober c' := by
    intro c' hpositions hsent hreset
    refine ⟨?_, ?_, hreset ▸ hc.2.reset⟩
    · rw [Placed, hpositions]
      exact hc.1
    · rw [hsent]
      exact hc.2.sent
  cases call with
  | assign tp offset => exact (assign_sober T D hc hsensible hresolves).1
  | remove tp =>
      refine ⟨fun tp' o ho => ?_, hc.2.sent, hc.2.reset⟩
      change (c.positions.erase tp)[tp']? = some o at ho
      rw [Std.TreeMap.getElem?_erase] at ho
      split at ho
      · cases ho
      · exact hc.1 tp' o ho
  | seekTo tp offset =>
      have hplaced := placed_setPosition hc.1 tp hsensible
      exact ⟨hplaced, hc.2.sent, hc.2.reset⟩
  | subscribe groupId topics assignor reset =>
      refine Moves.bind hpermits.discardOutstanding (fun _ => Moves.modify fun c hc => ?_) c hc
      exact ⟨fun tp o ho => by simp at ho, hc.2.sent, hsensible⟩
  | unsubscribe => exact sober_unsubscribe T c hc
  | commit => exact sobers_commit T c hc
  | heartbeat =>
      refine moves_bind_at (R := Sobers) (fun hc => ?_) (fun _ c' _ => id) hc
      rw [heartbeat, bind_of_ok (get_apply c)]
      split
      · exact hc
      · exact sober_advanceGroup T hc hresolves
  | poll => exact moves_bind_at (R := Sobers) (fun hc => sober_poll T D hc hresolves) (fun _ c' _ => id) hc
  | partitionCount topic =>
      exact Moves.bind (hpermits.partitionCount topic) (fun _ => Moves.pure _) c hc
  | listOffset tp timestamp =>
      exact Moves.bind (hpermits.listOffset tp timestamp) (fun _ => Moves.pure _) c hc
  | endOffsets partitions =>
      exact Moves.bind (hpermits.endOffsets partitions) (fun _ => Moves.pure _) c hc
  | beginningOffsets partitions =>
      exact Moves.bind (hpermits.beginningOffsets partitions) (fun _ => Moves.pure _) c hc
  | offsetsForTimes want =>
      exact Moves.bind (hpermits.listOffsetsMany want) (fun _ => Moves.pure _) c hc
  | lag => exact Moves.bind hpermits.lag (fun _ => Moves.pure _) c hc
  | committed partitions =>
      exact Moves.bind (hpermits.committed partitions) (fun _ => Moves.pure _) c hc
  | pause partitions => exact hsame _ rfl rfl rfl
  | resume partitions => exact hsame _ rfl rfl rfl
  | takeExpansions => exact hsame _ rfl rfl rfl
  | setIncrementalFetch incremental => exact hsame _ rfl rfl rfl
  | setPrefetch prefetch => exact hsame _ rfl rfl rfl
  | setMaxWait maxWait => exact hsame _ rfl rfl rfl
  | setAutoCommit interval => exact hsame _ rfl rfl rfl
  | setGroupTimeouts session rebalance => exact hsame _ rfl rfl rfl
  | setMetadataMaxAge age => exact hsame _ rfl rfl rfl

theorem Started.sober {c : Consumer ω} (h : Started T c) : Sober c := by
  obtain ⟨env, bootstrap, clientId, isolation, credentials, cluster, hconnect, rfl⟩ := h
  refine ⟨fun tp o ho => by simp [fromCluster] at ho, ?_, .inl rfl⟩
  have happends := (permits_still T).calls.connect (.new env bootstrap clientId)
  rw [hconnect] at happends
  obtain ⟨entries, heq, hentries⟩ := happends
  intro f hf
  refine hentries f ?_
  have hsent : cluster.sent = entries := heq
  rw [← hsent]
  exact hf

/-- Sentinels stay off the wire in every run in which those that are stored are
resolved, and then an assignment that fails changes no assignment. -/
theorem sentinels_resolved {c : Consumer ω} (hstart : Started T c) (calls : List Call)
    (hsensible : ∀ call ∈ calls, call.Sensible)
    (hresolves : ∀ pre call, pre ++ [call] <+: calls →
      call.Resolves T D (run (Call.step T D) c pre)) :
    (∀ f ∈ (run (Call.step T D) c calls).cluster.sent, f.request.Plain) ∧
      (∀ (tp : TopicPartition) (offset : ℤ),
        (run (Call.step T D) c calls).positions[tp]? = some offset → 0 ≤ offset) ∧
      ∀ pre tp offset e, pre ++ [.assign tp offset] <+: calls →
        (assign T tp offset (run (Call.step T D) c pre)).1 = .error e →
        (run (Call.step T D) c (pre ++ [.assign tp offset])).positions =
          (run (Call.step T D) c pre).positions := by
  have hrun : ∀ pre, pre <+: calls → Sober (run (Call.step T D) c pre) := by
    intro pre hpre
    refine run_induction_of_prefix (I := fun _ => Sober) (Started.sober T hstart) pre ?_
    intro done call hdone hsober
    have hprefix := hdone.trans hpre
    refine sober_step T D hsober (hsensible call ?_) (hresolves done call hprefix)
    exact hprefix.subset (by simp)
  have hend := hrun calls (List.prefix_refl _)
  refine ⟨hend.2.sent, hend.1, fun pre tp offset e hpre hfails => ?_⟩
  have hsober := hrun pre ((List.prefix_append _ _).trans hpre)
  have hcall := hsensible (.assign tp offset) (hpre.subset (by simp))
  rw [run_concat]
  exact (assign_sober T D hsober hcall (hresolves pre _ hpre)).2 e hfails

/-- The metadata of a topic with one partition, led by that broker. -/
def onePartition : Body := .metadata ⟨[⟨1, "b", 1⟩], 1, [⟨0, some "t", [⟨0, 0, 1⟩]⟩]⟩

theorem sentinels_resolved_assigned :
    (∀ f ∈ (run (Call.step Tape.transport plainDecoders)
        (connected [onePartition, .listOffsets [("t", [⟨0, 0, -1, 7⟩])]])
        [.assign ⟨"t", 0⟩ earliest]).cluster.sent, f.request.Plain) ∧
      ∀ (tp : TopicPartition) (offset : ℤ), (run (Call.step Tape.transport plainDecoders)
        (connected [onePartition, .listOffsets [("t", [⟨0, 0, -1, 7⟩])]])
        [.assign ⟨"t", 0⟩ earliest]).positions[tp]? = some offset → 0 ≤ offset := by
  have h := sentinels_resolved Tape.transport plainDecoders
    (started_connected [onePartition, .listOffsets [("t", [⟨0, 0, -1, 7⟩])]])
    [.assign ⟨"t", 0⟩ earliest] ?_ ?_
  · exact ⟨h.1, h.2.1⟩
  · intro call hcall
    rw [List.mem_singleton] at hcall
    rw [hcall]
    exact .inl rfl
  · refine forall_position fun i hi => ?_
    obtain rfl : i = 0 := by simpa using hi
    intro _ c₁ hstore
    cases hstore
    exact ⟨7, _, Prod.fst_eq_iff.mp rfl, by decide⟩

/-- The lookup of `EARLIEST` times out. The assignment fails and is there all the same,
and the next poll asks for offset `-2`. -/
theorem sentinel_sent :
    Started Tape.transport (connected [onePartition, .listOffsets [("t", [⟨0, 7, -1, -1⟩])]]) ∧
      (assign Tape.transport ⟨"t", 0⟩ earliest
        (connected [onePartition, .listOffsets [("t", [⟨0, 7, -1, -1⟩])]])).1 =
          .error (.broker "ListOffsets" 7 .retry) ∧
      (run (Call.step Tape.transport plainDecoders)
        (connected [onePartition, .listOffsets [("t", [⟨0, 7, -1, -1⟩])]])
        [.assign ⟨"t", 0⟩ earliest]).positions.toList = [(⟨"t", 0⟩, earliest)] ∧
      ∃ f ∈ (run (Call.step Tape.transport plainDecoders)
        (connected [onePartition, .listOffsets [("t", [⟨0, 7, -1, -1⟩])]])
        [.assign ⟨"t", 0⟩ earliest, .poll]).cluster.sent, ¬f.request.Plain := by
  refine ⟨started_connected _, rfl, ?_, ?_⟩
  · decide
  · decide

end Consumer

end Barnabas.Client
