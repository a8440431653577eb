import Barnabas.Client.Lookups
import Barnabas.Client.Routes
import Barnabas.Core.Leadership

/-!
Leaders that have moved.

A broker that no longer leads a partition says so with a code that asks for fresh
metadata, and the client is to forget the leader it has for that partition, and no other.
Four operations read such codes: a window of `Produce`, the result loop of `poll`, and
the lookups of one offset and of many. What an operation heeds is said in terms of the
codes alone. It forgets exactly that; what it passes over keeps its old leader, unless
something that follows before it returns or retries speaks of the partition.
-/

namespace Barnabas.Client

open Barnabas.Lib Barnabas.Core Barnabas.Lib.Act

/-- The code that a broker answered for one partition. -/
structure PartitionAnswer where
  addr : String
  tp : TopicPartition
  code : ErrorCode
  deriving DecidableEq, Repr

/-- The code asks for fresh metadata. -/
def PartitionAnswer.Moved (a : PartitionAnswer) : Prop := a.code.disposition = .refreshMetadata

instance (a : PartitionAnswer) : Decidable a.Moved :=
  inferInstanceAs (Decidable (a.code.disposition = .refreshMetadata))

/-- The broker has this address. -/
def HasAddr (metadata : Metadata) (addr : String) (node : ℤ) : Prop :=
  (metadata.brokers[node]?).map (·.addr) = some addr

/-- The partition is mapped to the broker at this address. -/
def Leads (metadata : Metadata) (addr : String) (tp : TopicPartition) : Prop :=
  (metadata.leaderFor tp).map (·.addr) = some addr

instance (metadata : Metadata) (addr : String) (tp : TopicPartition) :
    Decidable (Leads metadata addr tp) :=
  inferInstanceAs (Decidable ((metadata.leaderFor tp).map (·.addr) = some addr))

theorem leads_iff {metadata : Metadata} {addr : String} {tp : TopicPartition} :
    Leads metadata addr tp ↔ ∃ node, metadata.leaders[tp]? = some node ∧ HasAddr metadata addr node := by
  rw [Leads, Metadata.leaderFor]
  cases metadata.leaders[tp]? with
  | none => simp
  | some node => simp [HasAddr]

/-- What the map was told after the answers, in order. -/
def noticesOf (later : List ClusterOp) : List Notice := later.flatMap (·.notices)

/-- A refresh has said who leads the partition. -/
def ToldSince (later : List ClusterOp) (tp : TopicPartition) : Prop :=
  ∃ notice ∈ noticesOf later, ∃ node, notice.onLeader tp = .write node

/-- Nothing has spoken of the partition. -/
def Unspoken (later : List ClusterOp) (tp : TopicPartition) : Prop :=
  ∀ notice ∈ noticesOf later, notice.onLeader tp = .leave

/-- Between reading the answers and returning, or retrying, the map has become `between` and
then, after what followed, `after`: no partition that has moved is mapped to the broker that
said so unless a refresh has told it so since, and the leaders of the others have not been
touched on account of the answers. -/
structure Reacted (answers : List PartitionAnswer) (later : List ClusterOp)
    (before between after : Metadata) : Prop where
  forgotten : ∀ a ∈ answers, a.Moved → ∀ node, HasAddr before a.addr node →
    after.leaders[a.tp]? = some node → ToldSince later a.tp
  spared : ∀ tp, (∀ a ∈ answers, a.tp = tp → ¬a.Moved) → between.leaderFor tp = before.leaderFor tp

/-- The leaders of these partitions are forgotten, and nothing else. -/
structure Forgets (P : TopicPartition → Prop) (before after : Metadata) : Prop where
  forgotten : ∀ tp, P tp → after.leaders[tp]? = none
  kept : ∀ tp, ¬P tp → after.leaders[tp]? = before.leaders[tp]?
  brokers : after.brokers = before.brokers

section Forgets

variable {P Q : TopicPartition → Prop} {before between after : Metadata}

theorem Forgets.congr (h : Forgets P before after) (hiff : ∀ tp, P tp ↔ Q tp) :
    Forgets Q before after := by
  constructor
  · exact fun tp hQ => h.forgotten tp ((hiff tp).mpr hQ)
  · exact fun tp hQ => h.kept tp fun hP => hQ ((hiff tp).mp hP)
  · exact h.brokers

theorem forgets_none (hnone : ∀ tp, ¬P tp) : Forgets P before before :=
  ⟨fun tp hP => absurd hP (hnone tp), fun _ _ => rfl, rfl⟩

theorem leaders_invalidatePartition (metadata : Metadata) (tp tp' : TopicPartition) :
    (metadata.invalidatePartition tp).leaders[tp']? =
      if tp' = tp then none else metadata.leaders[tp']? := by
  rw [Metadata.invalidatePartition, Std.TreeMap.getElem?_erase]
  by_cases h : tp = tp'
  · simp [h]
  · rw [if_neg (by simpa using h), if_neg (Ne.symm h)]

/-- One more partition, forgotten first. -/
theorem Forgets.cons {tp : TopicPartition}
    (h : Forgets P (before.invalidatePartition tp) after) :
    Forgets (fun tp' => tp' = tp ∨ P tp') before after := by
  constructor
  · intro tp' htp'
    by_cases hP : P tp'
    · exact h.forgotten tp' hP
    · rw [h.kept tp' hP, leaders_invalidatePartition, if_pos (htp'.resolve_right hP)]
  · intro tp' htp'
    rw [not_or] at htp'
    rw [h.kept tp' htp'.2, leaders_invalidatePartition, if_neg htp'.1]
  · exact h.brokers

theorem Forgets.leaderFor_eq_none (h : Forgets P before after) {tp : TopicPartition} (hP : P tp) :
    after.leaderFor tp = none := by
  rw [Metadata.leaderFor, h.forgotten tp hP]
  rfl

theorem Forgets.leaderFor_eq (h : Forgets P before after) {tp : TopicPartition} (hP : ¬P tp) :
    after.leaderFor tp = before.leaderFor tp := by
  rw [Metadata.leaderFor, Metadata.leaderFor, h.kept tp hP, h.brokers]

/-- What holds after notices that name no leader of the partition held before, and they did
not speak of it. -/
theorem leaders_run_of_not_told {later : List ClusterOp} {tp : TopicPartition} {node : ℤ}
    (htold : ¬ToldSince later tp)
    (hafter : (run ClusterOp.step between later).leaders[tp]? = some node) :
    between.leaders[tp]? = some node ∧ Unspoken later tp := by
  rw [run_step_eq_run] at hafter
  exact held_of_no_write (fun metadata : Metadata => metadata.leaders[tp]?)
    (Notice.leader_record tp) (fun notice hnotice node hwrite => htold ⟨notice, hnotice, node, hwrite⟩)
    hafter

theorem leaders_run_of_unspoken {later : List ClusterOp} {tp : TopicPartition}
    (h : Unspoken later tp) :
    (run ClusterOp.step between later).leaders[tp]? = between.leaders[tp]? := by
  rw [run_step_eq_run]
  exact read_run_of_leave (fun metadata : Metadata => metadata.leaders[tp]?)
    (Notice.leader_record tp) between h

theorem not_told_of_unspoken {later : List ClusterOp} {tp : TopicPartition} (h : Unspoken later tp) :
    ¬ToldSince later tp := by
  rintro ⟨notice, hnotice, node, hwrite⟩
  rw [h notice hnotice] at hwrite
  cases hwrite

/-- What forgets these partitions reacts to the answers if every one that has moved is
among them, or was not mapped to the broker that answered, or is spoken of later; and it
forgets none without a reason. -/
theorem Forgets.reacts_iff (h : Forgets P before between) (answers : List PartitionAnswer)
    (later : List ClusterOp) :
    Reacted answers later before between (run ClusterOp.step between later) ↔
      (∀ a ∈ answers, a.Moved → P a.tp ∨ ¬Leads before a.addr a.tp ∨ ¬Unspoken later a.tp) ∧
        ∀ tp, P tp → (∃ a ∈ answers, a.tp = tp ∧ a.Moved) ∨ before.leaderFor tp = none := by
  constructor
  · intro hreacted
    constructor
    · intro a ha hmoved
      by_contra hnot
      rw [not_or, not_or, not_not, not_not] at hnot
      obtain ⟨hP, hleads, hunspoken⟩ := hnot
      obtain ⟨node, hnode, haddr⟩ := leads_iff.mp hleads
      apply not_told_of_unspoken hunspoken
      apply hreacted.forgotten a ha hmoved node haddr
      rw [leaders_run_of_unspoken hunspoken, h.kept a.tp hP, hnode]
    · intro tp hP
      by_cases hcarried : ∃ a ∈ answers, a.tp = tp ∧ a.Moved
      · exact .inl hcarried
      · right
        rw [← hreacted.spared tp fun a ha htp hmoved => hcarried ⟨a, ha, htp, hmoved⟩]
        exact h.leaderFor_eq_none hP
  · rintro ⟨hheeded, hreason⟩
    constructor
    · intro a ha hmoved node haddr hafter
      by_contra htold
      obtain ⟨hbetween, hunspoken⟩ := leaders_run_of_not_told htold hafter
      rcases hheeded a ha hmoved with hP | hleads | hspoken
      · rw [h.forgotten a.tp hP] at hbetween
        cases hbetween
      · by_cases hP : P a.tp
        · rw [h.forgotten a.tp hP] at hbetween
          cases hbetween
        · rw [h.kept a.tp hP] at hbetween
          exact hleads (leads_iff.mpr ⟨node, hbetween, haddr⟩)
      · exact hspoken hunspoken
    · intro tp hspared
      by_cases hP : P tp
      · rw [h.leaderFor_eq_none hP]
        rcases hreason tp hP with ⟨a, ha, htp, hmoved⟩ | hnone
        · exact absurd hmoved (hspared a ha htp)
        · exact hnone.symm
      · exact h.leaderFor_eq hP

end Forgets

/-! ### A window of `Produce` -/

/-- A code that ends the flush. -/
def Ends (code : ErrorCode) : Prop :=
  code.disposition ≠ .ok ∧ code.disposition ≠ .refreshMetadata ∧ code.disposition ≠ .retry

/-- After these answers this one is the first failure of its partition; `Failed` are the
partitions that had failed before. -/
def FirstFailure (Failed : TopicPartition → Prop) (pre : List (ℕ × TopicPartition × ErrorCode))
    (e : ℕ × TopicPartition × ErrorCode) : Prop :=
  ¬e.2.2.isOk ∧ ¬Failed e.2.1 ∧ ∀ e' ∈ pre, e'.2.1 = e.2.1 → e'.2.2.isOk

/-- The first failure of the partition says that it has moved, and no first failure before
it ends the flush. -/
def HeedsWindow (Failed : TopicPartition → Prop) (answers : List (ℕ × TopicPartition × ErrorCode))
    (tp : TopicPartition) : Prop :=
  ∃ pre e, pre ++ [e] <+: answers ∧ e.2.1 = tp ∧ e.2.2.disposition = .refreshMetadata ∧
    FirstFailure Failed pre e ∧
    ∀ pre' e', pre' ++ [e'] <+: pre → FirstFailure Failed pre' e' → ¬Ends e'.2.2

namespace Producer

variable {ω : Type} {Failed : TopicPartition → Prop}

theorem firstFailure_nil {e : ℕ × TopicPartition × ErrorCode} :
    FirstFailure Failed [] e ↔ ¬e.2.2.isOk ∧ ¬Failed e.2.1 :=
  ⟨fun h => ⟨h.1, h.2.1⟩, fun h => ⟨h.1, h.2, fun _ h' => by cases h'⟩⟩

/-- A failure at the head counts its partition among those that have failed. -/
theorem firstFailure_cons {a e : ℕ × TopicPartition × ErrorCode}
    {pre : List (ℕ × TopicPartition × ErrorCode)} :
    FirstFailure Failed (a :: pre) e ↔
      FirstFailure (fun tp => Failed tp ∨ ¬a.2.2.isOk ∧ tp = a.2.1) pre e := by
  rw [FirstFailure, FirstFailure, List.forall_mem_cons]
  constructor
  · rintro ⟨hfails, hfailed, hhead, hpre⟩
    refine ⟨hfails, ?_, hpre⟩
    rintro (hbefore | ⟨hnot, htp⟩)
    · exact hfailed hbefore
    · exact hnot (hhead htp.symm)
  · rintro ⟨hfails, hfailed, hpre⟩
    rw [not_or, not_and'] at hfailed
    refine ⟨hfails, hfailed.1, fun htp => ?_, hpre⟩
    by_contra hnot
    exact hfailed.2 htp.symm hnot

theorem heedsWindow_nil (tp : TopicPartition) : ¬HeedsWindow Failed [] tp := by
  rintro ⟨pre, e, hpre, -⟩
  have hlength := hpre.length_le
  simp at hlength

theorem heedsWindow_cons {a : ℕ × TopicPartition × ErrorCode}
    {rest : List (ℕ × TopicPartition × ErrorCode)} {tp : TopicPartition} :
    HeedsWindow Failed (a :: rest) tp ↔
      (a.2.1 = tp ∧ a.2.2.disposition = .refreshMetadata ∧ FirstFailure Failed [] a) ∨
      ((FirstFailure Failed [] a → ¬Ends a.2.2) ∧
        HeedsWindow (fun tp => Failed tp ∨ ¬a.2.2.isOk ∧ tp = a.2.1) rest tp) := by
  constructor
  · rintro ⟨pre, e, hpre, htp, hmoved, hfirst, hbefore⟩
    rcases pre with _ | ⟨b, pre⟩
    · rw [List.nil_append, List.cons_prefix_cons] at hpre
      obtain ⟨rfl, -⟩ := hpre
      exact .inl ⟨htp, hmoved, hfirst⟩
    · rw [List.cons_append, List.cons_prefix_cons] at hpre
      obtain ⟨rfl, hpre⟩ := hpre
      refine .inr ⟨hbefore [] b (List.cons_prefix_cons.mpr ⟨rfl, List.nil_prefix⟩), ?_⟩
      refine ⟨pre, e, hpre, htp, hmoved, firstFailure_cons.mp hfirst, fun pre' e' hpre' hfirst' => ?_⟩
      apply hbefore (b :: pre') e'
      · exact List.cons_prefix_cons.mpr ⟨rfl, hpre'⟩
      · exact firstFailure_cons.mpr hfirst'
  · rintro (⟨htp, hmoved, hfirst⟩ | ⟨hhead, pre, e, hpre, htp, hmoved, hfirst, hbefore⟩)
    · refine ⟨[], a, List.cons_prefix_cons.mpr ⟨rfl, List.nil_prefix⟩, htp, hmoved, hfirst, ?_⟩
      intro pre' e' hpre'
      have hlength := hpre'.length_le
      simp at hlength
    · refine ⟨a :: pre, e, List.cons_prefix_cons.mpr ⟨rfl, hpre⟩, htp, hmoved,
        firstFailure_cons.mpr hfirst, fun pre' e' hpre' hfirst' => ?_⟩
      rcases pre' with _ | ⟨b, pre'⟩
      · rw [List.nil_append, List.cons_prefix_cons] at hpre'
        obtain ⟨rfl, -⟩ := hpre'
        exact hhead hfirst'
      · rw [List.cons_append, List.cons_prefix_cons] at hpre'
        obtain ⟨rfl, hpre'⟩ := hpre'
        exact hbefore pre' e' hpre' (firstFailure_cons.mp hfirst')

theorem heedsWindow_of_not_first {a : ℕ × TopicPartition × ErrorCode}
    {rest : List (ℕ × TopicPartition × ErrorCode)} (h : ¬FirstFailure Failed [] a)
    (tp : TopicPartition) : HeedsWindow Failed rest tp ↔ HeedsWindow Failed (a :: rest) tp := by
  have hsame : (fun t => Failed t ∨ ¬a.2.2.isOk ∧ t = a.2.1) = Failed := by
    funext t
    rw [eq_iff_iff, or_iff_left_iff_imp]
    rintro ⟨hnot, rfl⟩
    by_contra hfailed
    exact h (firstFailure_nil.mpr ⟨hnot, hfailed⟩)
  rw [heedsWindow_cons, hsame]
  constructor
  · exact fun hrest => .inr ⟨fun hfirst => absurd hfirst h, hrest⟩
  · rintro (⟨-, -, hfirst⟩ | ⟨-, hrest⟩)
    · exact absurd hfirst h
    · exact hrest

theorem heedsWindow_of_first {a : ℕ × TopicPartition × ErrorCode}
    {rest : List (ℕ × TopicPartition × ErrorCode)} {Failed' : TopicPartition → Prop}
    (h : FirstFailure Failed [] a) (hmore : ∀ t, Failed' t ↔ t = a.2.1 ∨ Failed t)
    (tp : TopicPartition) : HeedsWindow Failed (a :: rest) tp ↔
      (a.2.1 = tp ∧ a.2.2.disposition = .refreshMetadata) ∨
        ¬Ends a.2.2 ∧ HeedsWindow Failed' rest tp := by
  have hsame : (fun t => Failed t ∨ ¬a.2.2.isOk ∧ t = a.2.1) = Failed' := by
    funext t
    rw [eq_iff_iff, hmore, or_comm, and_iff_right h.1]
  rw [heedsWindow_cons, hsame]
  simp only [h, forall_const, and_true]

/-- Judging a window forgets what it heeds. -/
theorem forgets_judge (answers : List (ℕ × TopicPartition × ErrorCode)) :
    ∀ (verdict : Verdict) (p : Producer ω),
      Forgets (HeedsWindow (· ∈ verdict.failedAt) answers) p.cluster.metadata
        (judge answers verdict p).2.cluster.metadata := by
  induction answers with
  | nil => exact fun verdict p => forgets_none heedsWindow_nil
  | cons answer rest ih =>
      intro verdict p
      obtain ⟨round, tp, code⟩ := answer
      rw [judge]
      by_cases hok : code.isOk
      · rw [if_pos hok]
        apply (ih verdict p).congr
        exact heedsWindow_of_not_first fun hfirst => hfirst.1 hok
      rw [if_neg hok]
      by_cases hfailed : verdict.failedAt.contains tp
      · rw [if_pos hfailed]
        apply (ih verdict p).congr
        exact heedsWindow_of_not_first fun hfirst => hfirst.2.1 hfailed
      rw [if_neg hfailed]
      have hfirst : FirstFailure (· ∈ verdict.failedAt) [] (round, tp, code) :=
        firstFailure_nil.mpr ⟨hok, hfailed⟩
      have hmore : ∀ t, t ∈ verdict.failedAt.insert tp round ↔ t = tp ∨ t ∈ verdict.failedAt := by
        intro t
        rw [Std.TreeMap.mem_insert, Std.LawfulEqCmp.compare_eq_iff_eq, eq_comm (a := tp)]
      have hiff : ∀ tp', HeedsWindow (· ∈ verdict.failedAt) ((round, tp, code) :: rest) tp' ↔
          (tp = tp' ∧ code.disposition = .refreshMetadata) ∨
            ¬Ends code ∧ HeedsWindow (· ∈ verdict.failedAt.insert tp round) rest tp' :=
        heedsWindow_of_first hfirst hmore
      -- A failure whose disposition is neither of the two ends the flush.
      have hends : Ends code → Forgets (HeedsWindow (· ∈ verdict.failedAt) ((round, tp, code) :: rest))
          p.cluster.metadata p.cluster.metadata := by
        intro h
        apply forgets_none
        intro tp' hheeds
        rcases (hiff tp').mp hheeds with ⟨-, hmoved⟩ | ⟨hnot, -⟩
        · exact h.2.1 hmoved
        · exact hnot h
      cases hdisposition : code.disposition with
      | ok => exact absurd (ErrorCode.isOk_iff.mpr (ErrorCode.disposition_eq_ok_iff.mp hdisposition)) hok
      | retry =>
          apply (ih ⟨verdict.failedAt.insert tp round, verdict.needsRefresh⟩ p).congr
          intro tp'
          rw [hiff tp']
          simp [Ends, hdisposition]
      | refreshMetadata =>
          have hrest := ih ⟨verdict.failedAt.insert tp round, true⟩
            { p with cluster := p.cluster.invalidate tp }
          apply hrest.cons.congr
          intro tp'
          rw [hiff tp']
          simp [Ends, hdisposition, eq_comm]
      | findCoordinator => exact hends (by simp [Ends, hdisposition])
      | fatal => exact hends (by simp [Ends, hdisposition])

end Producer

/-! ### The result loop of `poll` -/

namespace Consumer

variable {ω : Type}

/-- No answer to a fetch changes what is known of the cluster. -/
theorem cluster_absorb (D : Decoders) (answers : List Answered) (out : List ConsumerRecords)
    (c : Consumer ω) : (absorb D answers out c).2.cluster = c.cluster := by
  have hkeeps : Moves (Keeps fun c : Consumer ω => c.cluster) (absorb D answers out) :=
    moves_absorb D (fun _ _ _ => rfl) (fun _ _ => rfl) answers out
  exact hkeeps c

/-- A poll whose result loop fails returns there. -/
theorem poll_of_refused {T : Transport ω} {D : Decoders} {c c₁ c₂ c₃ : Consumer ω}
    {answers : List Answered} {e : Error} (hkeep : keepMembership T c = (.ok (), c₁))
    (hfetchable : c₁.fetchable ≠ []) (hcollect : collect T c₁ = (.ok answers, c₂))
    (habsorb : absorb D answers [] c₂ = (.error e, c₃)) : poll T D c = (.error e, c₃) := by
  rw [poll, bind_of_ok hkeep, bind_of_ok (get_apply c₁), if_neg hfetchable, bind_of_ok hcollect,
    bind_of_error habsorb]

/-! ### Lookups -/

/-- What one attempt of `listOffset` does to the map once it is answered. -/
def heedOffset (tp : TopicPartition) (topics : List (String × List ListOffsetsPartitionResponse)) :
    Act (Consumer ω) Error Unit :=
  match (topics.flatMap (·.2)).find? (·.partitionIndex = tp.partition) with
  | none => pure ()
  | some found =>
      if (ErrorCode.mk found.errorCode).disposition = .refreshMetadata then
        modify fun c => { c with cluster := c.cluster.invalidate tp }
      else pure ()

/-- An attempt of `listOffset` that is answered heeds the answer, and goes on from there:
by failing, by a refresh and another attempt, or by the offset. -/
theorem listOffsetOnce_heeds {T : Transport ω} {tp : TopicPartition} {timestamp : ℤ} (attempt : ℕ)
    {c c₁ c₂ : Consumer ω} {addr : String}
    {topics : List (String × List ListOffsetsPartitionResponse)}
    (hleader : (onCluster (Cluster.leaderAddr T tp) : Act (Consumer ω) Error String) c = (.ok addr, c₁))
    (hcall : onCluster (Cluster.callAt T Body.asListOffsets addr 7
      (.listOffsets ⟨-1, c.isolation.asI8, [(tp.topic, [(tp.partition, timestamp)])]⟩)) c₁ =
        (.ok topics, c₂)) :
    listOffsetOnce T tp timestamp attempt () c =
      (match (topics.flatMap (·.2)).find? (·.partitionIndex = tp.partition) with
      | none => throw (.missing "partition")
      | some found =>
          if (ErrorCode.mk found.errorCode).disposition = .refreshMetadata then
            if attempt = maxLeaderRetries then
              throw (.broker "ListOffsets" found.errorCode (ErrorCode.mk found.errorCode).disposition)
            else do
              onCluster (Cluster.refreshMetadata T tp.topic)
              onCluster (Cluster.sleep T leaderBackoff)
              pure (.inl ())
          else do
            Act.ofExcept (check "ListOffsets" found.errorCode)
            pure (.inr found.offset) : Act (Consumer ω) Error (Unit ⊕ ℤ))
        (heedOffset tp topics c₂).2 := by
  have hleader' : (Act.attempt (onCluster (Cluster.leaderAddr T tp)) : Act (Consumer ω) Error _) c =
      (.ok (.ok addr), c₁) := by
    rw [attempt_apply, hleader]
  rw [listOffsetOnce, bind_of_ok (get_apply c), bind_of_ok hleader']
  dsimp only
  rw [bind_of_ok hcall, heedOffset]
  generalize List.find? _ (topics.flatMap (·.2)) = outcome
  cases outcome with
  | none => rfl
  | some found =>
      dsimp only
      split
      · rfl
      · rfl

/-- Answers before this one are in order or have moved, and it has moved. -/
def HeedsLookup (answers : List (TopicPartition × ListOffsetsPartitionResponse))
    (tp : TopicPartition) : Prop :=
  ∃ pre part, pre ++ [(tp, part)] <+: answers ∧
    (ErrorCode.mk part.errorCode).disposition = .refreshMetadata ∧
    ∀ a ∈ pre, (ErrorCode.mk a.2.errorCode).isOk ∨
      (ErrorCode.mk a.2.errorCode).disposition = .refreshMetadata

theorem heedsLookup_nil (tp : TopicPartition) : ¬HeedsLookup [] tp := by
  rintro ⟨pre, part, hpre, -⟩
  have hlength := hpre.length_le
  simp at hlength

theorem heedsLookup_cons {a : TopicPartition × ListOffsetsPartitionResponse}
    {rest : List (TopicPartition × ListOffsetsPartitionResponse)} {tp : TopicPartition} :
    HeedsLookup (a :: rest) tp ↔
      (a.1 = tp ∧ (ErrorCode.mk a.2.errorCode).disposition = .refreshMetadata) ∨
      ((ErrorCode.mk a.2.errorCode).isOk ∨
        (ErrorCode.mk a.2.errorCode).disposition = .refreshMetadata) ∧ HeedsLookup rest tp := by
  constructor
  · rintro ⟨pre, part, hpre, hmoved, hbefore⟩
    rcases pre with _ | ⟨b, pre⟩
    · rw [List.nil_append, List.cons_prefix_cons] at hpre
      obtain ⟨rfl, -⟩ := hpre
      exact .inl ⟨rfl, hmoved⟩
    · rw [List.cons_append, List.cons_prefix_cons] at hpre
      obtain ⟨rfl, hpre⟩ := hpre
      rw [List.forall_mem_cons] at hbefore
      exact .inr ⟨hbefore.1, pre, part, hpre, hmoved, hbefore.2⟩
  · rintro (⟨rfl, hmoved⟩ | ⟨hhead, pre, part, hpre, hmoved, hbefore⟩)
    · exact ⟨[], a.2, List.cons_prefix_cons.mpr ⟨rfl, List.nil_prefix⟩, hmoved,
        fun _ h => by cases h⟩
    · exact ⟨a :: pre, part, List.cons_prefix_cons.mpr ⟨rfl, hpre⟩, hmoved,
        List.forall_mem_cons.mpr ⟨hhead, hbefore⟩⟩

/-- The lookup of many offsets forgets what it heeds. -/
theorem forgets_readOffsets (asked : List (TopicPartition × ℤ))
    (answers : List (TopicPartition × ListOffsetsPartitionResponse)) :
    ∀ (lookup : Lookup) (c : Consumer ω), Forgets (HeedsLookup answers) c.cluster.metadata
      (readOffsets asked answers lookup c).2.cluster.metadata := by
  induction answers with
  | nil => exact fun lookup c => forgets_none heedsLookup_nil
  | cons a rest ih =>
      intro lookup c
      obtain ⟨tp, part⟩ := a
      rw [readOffsets]
      by_cases hok : (ErrorCode.mk part.errorCode).isOk
      · rw [if_pos hok]
        apply (ih _ c).congr
        intro tp'
        have hnot : (ErrorCode.mk part.errorCode).disposition ≠ .refreshMetadata := by
          rw [ErrorCode.disposition_eq_ok_iff.mpr (ErrorCode.isOk_iff.mp hok)]
          decide
        rw [heedsLookup_cons]
        simp [hok, hnot]
      · rw [if_neg hok]
        by_cases hmoved : (ErrorCode.mk part.errorCode).disposition = .refreshMetadata
        · rw [if_pos hmoved, bind_of_ok (modify_apply _ c)]
          have hrest := ih { lookup with
            retry := lookup.retry ++ [(tp, (asked.lookup tp).getD latest)]
            refresh := lookup.refresh ++ [tp.topic] } { c with cluster := c.cluster.invalidate tp }
          apply hrest.cons.congr
          intro tp'
          rw [heedsLookup_cons, eq_comm (a := tp')]
          simp only [hmoved, and_true, or_true, true_and]
        · rw [if_neg hmoved]
          have hcheck : check "ListOffsets" part.errorCode = .error (.broker "ListOffsets"
              part.errorCode (ErrorCode.mk part.errorCode).disposition) := by
            rw [check, if_neg hok]
          rw [hcheck, bind_of_error (ofExcept_apply _ c)]
          apply forgets_none
          intro tp' hheeds
          rcases heedsLookup_cons.mp hheeds with ⟨-, h⟩ | ⟨h | h, -⟩
          · exact hmoved h
          · exact hok h
          · exact hmoved h

/-- The partition that was asked about is answered first under its number, and has moved. -/
def HeedsOffset (asked : TopicPartition) (topics : List (String × List ListOffsetsPartitionResponse))
    (tp : TopicPartition) : Prop :=
  tp = asked ∧ ∃ found, (topics.flatMap (·.2)).find? (·.partitionIndex = asked.partition) = some found ∧
    (ErrorCode.mk found.errorCode).disposition = .refreshMetadata

theorem forgets_heedOffset (tp : TopicPartition)
    (topics : List (String × List ListOffsetsPartitionResponse)) (c : Consumer ω) :
    Forgets (HeedsOffset tp topics) c.cluster.metadata
      (heedOffset tp topics c).2.cluster.metadata := by
  unfold HeedsOffset heedOffset
  generalize List.find? _ (topics.flatMap (·.2)) = outcome
  cases outcome with
  | none =>
      apply forgets_none
      rintro tp' ⟨-, found, hfound, -⟩
      cases hfound
  | some found =>
      dsimp only
      by_cases hmoved : (ErrorCode.mk found.errorCode).disposition = .refreshMetadata
      · rw [if_pos hmoved]
        have hone : Forgets (fun tp' => tp' = tp ∨ False) c.cluster.metadata
            (c.cluster.metadata.invalidatePartition tp) := (forgets_none fun _ => id).cons
        apply hone.congr
        intro tp'
        simp [hmoved]
      · rw [if_neg hmoved]
        apply forgets_none
        rintro tp' ⟨-, found', hfound, h⟩
        cases hfound
        exact hmoved h

end Consumer

/-! ### Every operation -/

/-- The first transport error of a window, round by round. -/
def windowError (window : List (List (RoundTarget × Except Error ProduceResponse))) : Option Error :=
  window.findSome? (·.findSome? Producer.answerError)

theorem windowError_cons (answers : List (RoundTarget × Except Error ProduceResponse))
    (window : List (List (RoundTarget × Except Error ProduceResponse))) :
    windowError (answers :: window) =
      (answers.findSome? Producer.answerError).or (windowError window) := by
  rw [windowError, windowError, List.findSome?_cons]
  cases answers.findSome? Producer.answerError with
  | none => rfl
  | some e => rfl

/-- The codes of a window, round by round. -/
def windowCodes (window : List (List (RoundTarget × Except Error ProduceResponse))) :
    List (List (TopicPartition × ErrorCode)) :=
  window.map (·.flatMap Producer.answerCodes)

/-- An operation that has read its answers: a window of `Produce`, or one that a failed
write has cut short; the fetches a poll has collected, or those it reads away; a lookup of
one offset, and a lookup of many. What may follow before it returns or retries are the
refreshes it asks for, and what the leaders asked after this one answer. -/
inductive Hearing (ω : Type)
  | produce (T : Transport ω) (attempt : ℕ) (written : List (TopicPartition × ℤ))
      (window : List (List (RoundTarget × Except Error ProduceResponse))) (p : Producer ω)
      (later : List ClusterOp)
  | produceCut (window : List (List (RoundTarget × Except Error ProduceResponse))) (e : Error)
      (p : Producer ω)
  | fetch (D : Decoders) (answers : List Consumer.Answered) (c : Consumer ω)
  | discard (answers : List Consumer.Answered) (c : Consumer ω)
  | listOffset (addr : String) (tp : TopicPartition)
      (topics : List (String × List ListOffsetsPartitionResponse)) (c : Consumer ω)
      (later : List ClusterOp)
  | listOffsetsMany (addr : String) (asked : List (TopicPartition × ℤ))
      (topics : List (String × List ListOffsetsPartitionResponse)) (lookup : Consumer.Lookup)
      (c : Consumer ω) (later : List ClusterOp)

/-- The partitions a broker answers a `Produce` for. -/
def produceAnswers : RoundTarget × Except Error ProduceResponse → List PartitionAnswer
  | ((addr, _), .ok resp) => resp.flatMap fun (topic, parts) =>
      parts.map fun part => ⟨addr, ⟨topic, part.index⟩, ⟨part.errorCode⟩⟩
  | (_, .error _) => []

/-- The partitions a broker answers a `Fetch` for. -/
def fetchAnswers : Consumer.Answered → List PartitionAnswer
  | ((addr, _), .ok resp) =>
      (Consumer.dataOf resp).map fun (tp, part) => ⟨addr, tp, ⟨part.errorCode⟩⟩
  | (_, .error _) => []

/-- The partitions a broker answers a `ListOffsets` for. -/
def offsetAnswers (addr : String) (topics : List (String × List ListOffsetsPartitionResponse)) :
    List PartitionAnswer :=
  (Consumer.answersOf topics).map fun (tp, part) => ⟨addr, tp, ⟨part.errorCode⟩⟩

namespace Hearing

variable {ω : Type}

/-- The partitions that were answered, whatever the answer. -/
def answers : Hearing ω → List PartitionAnswer
  | produce _ _ _ window _ _ | produceCut window _ _ => window.flatten.flatMap produceAnswers
  | fetch _ answers _ | discard answers _ => answers.flatMap fetchAnswers
  | listOffset addr _ topics _ _ | listOffsetsMany addr _ topics _ _ _ => offsetAnswers addr topics

/-- The map when the answers have been read. -/
def before : Hearing ω → Metadata
  | produce _ _ _ _ p _ | produceCut _ _ p => p.cluster.metadata
  | fetch _ _ c | discard _ c | listOffset _ _ _ c _ | listOffsetsMany _ _ _ _ c _ =>
      c.cluster.metadata

/-- The map when the operation has gone through them. -/
def between : Hearing ω → Metadata
  | produce T attempt written window p _ =>
      match windowError window with
      | some e => (Producer.abandonWindow T attempt written e p).2.cluster.metadata
      | none => (Producer.judge (Producer.inOrder (windowCodes window)) ⟨∅, false⟩ p).2.cluster.metadata
  | produceCut _ e p => ((throw e : Act (Producer ω) Error Window) p).2.cluster.metadata
  | fetch D answers c => (Consumer.absorb D answers [] c).2.cluster.metadata
  | discard _ c => c.resetSessions.cluster.metadata
  | listOffset _ tp topics c _ => (Consumer.heedOffset tp topics c).2.cluster.metadata
  | listOffsetsMany _ asked topics lookup c _ =>
      (Consumer.readOffsets asked (Consumer.answersOf topics) lookup c).2.cluster.metadata

/-- What follows before the operation returns or retries. -/
def later : Hearing ω → List ClusterOp
  | produce _ _ _ _ _ later | listOffset _ _ _ _ later | listOffsetsMany _ _ _ _ _ later => later
  | produceCut _ _ _ | fetch _ _ _ | discard _ _ => []

/-- The map when the operation returns or retries. -/
def after (h : Hearing ω) : Metadata := run ClusterOp.step h.between h.later

/-- The operation reacts to what it was told of this partition: a window of which every
answer arrived, to a first failure that nothing ends the flush before; a window cut short,
and a poll, to nothing; a lookup of one offset to the partition it is about; a lookup of
many to what comes before any other failure. -/
def Heeds : Hearing ω → TopicPartition → Prop
  | produce _ _ _ window _ _ => fun tp =>
      windowError window = none ∧
        HeedsWindow (fun _ => False) (Producer.inOrder (windowCodes window)) tp
  | produceCut _ _ _ | fetch _ _ _ | discard _ _ => fun _ => False
  | listOffset _ tp topics _ _ => Consumer.HeedsOffset tp topics
  | listOffsetsMany _ _ topics _ _ _ => Consumer.HeedsLookup (Consumer.answersOf topics)

/-- An operation forgets what it heeds. -/
theorem forgets (h : Hearing ω) : Forgets h.Heeds h.before h.between := by
  cases h with
  | produce T attempt written window p later =>
      rcases herror : windowError window with _ | e
      · have hbetween : (produce T attempt written window p later).between = (Producer.judge
            (Producer.inOrder (windowCodes window)) ⟨∅, false⟩ p).2.cluster.metadata := by
          rw [between, herror]
        rw [hbetween]
        apply (Producer.forgets_judge (Producer.inOrder (windowCodes window)) ⟨∅, false⟩ p).congr
        intro tp
        have hfresh : (fun t => t ∈ (∅ : PartitionMap ℕ)) = fun _ => False := by
          funext t
          simp
        rw [Heeds]
        dsimp only
        rw [and_iff_right herror, ← hfresh]
      · have hbetween : (produce T attempt written window p later).between =
            p.cluster.metadata := by
          rw [between, herror]
          exact Producer.map_abandonWindow T attempt written e p
        rw [hbetween]
        apply forgets_none
        rintro tp ⟨hnone, -⟩
        rw [herror] at hnone
        cases hnone
  | produceCut window e p => exact forgets_none fun _ h => h
  | fetch D answers c =>
      rw [before, between, Consumer.cluster_absorb]
      exact forgets_none fun _ h => h
  | discard answers c => exact forgets_none fun _ h => h
  | listOffset addr tp topics c later => exact Consumer.forgets_heedOffset tp topics c
  | listOffsetsMany addr asked topics lookup c later =>
      exact Consumer.forgets_readOffsets asked (Consumer.answersOf topics) lookup c

/-- An operation reacts to moved leaders as it should if and only if every partition that has
moved is heeded, or was not mapped to the broker that answered, or is spoken of later; and
every partition it forgets has moved, or had no leader. -/
theorem reacted_iff (h : Hearing ω) :
    Reacted h.answers h.later h.before h.between h.after ↔
      (∀ a ∈ h.answers, a.Moved →
        h.Heeds a.tp ∨ ¬Leads h.before a.addr a.tp ∨ ¬Unspoken h.later a.tp) ∧
      ∀ tp, h.Heeds tp → (∃ a ∈ h.answers, a.tp = tp ∧ a.Moved) ∨
        h.before.leaderFor tp = none :=
  h.forgets.reacts_iff h.answers h.later

end Hearing

/-! ### What follows -/

namespace Cluster

variable {ω : Type}

/-- The map has been told this and that. -/
def Retold (c c' : Cluster ω) : Prop :=
  ∃ later, c'.metadata = run ClusterOp.step c.metadata later

instance : IsPreorder (Cluster ω) Retold where
  refl c := ⟨[], rfl⟩
  trans c c' c'' := by
    rintro ⟨first, hfirst⟩ ⟨second, hsecond⟩
    exact ⟨first ++ second, by rw [hsecond, hfirst, run_append]⟩

theorem retold_of_keeps {c c' : Cluster ω} (h : Keeps Cluster.metadata c c') : Retold c c' := ⟨[], h⟩

theorem permits_retold (T : Transport ω) : Permits T Retold fun _ => True where
  plumbing _ _ := trivial
  pick := (carries_metadata.onEnv _).mono fun _ _ => retold_of_keeps
  now := (carries_metadata.onEnv _).mono fun _ _ => retold_of_keeps
  systemTime := (carries_metadata.onEnv _).mono fun _ _ => retold_of_keeps
  sleep _ := (carries_metadata.onEnv _).mono fun _ _ => retold_of_keeps
  bootstrap addrs lastErr c _ :=
    retold_of_keeps (carries_metadata.connectBootstrap T addrs lastErr c)
  call as addr _ _ _ :=
    (carries_metadata.callAt T (fun _ _ => trivial) as addr).mono fun _ _ => retold_of_keeps
  update _ resp := ⟨[.map (.update resp)], rfl⟩
  invalidate _ tp := ⟨[.map (.invalidatePartition tp)], rfl⟩
  refreshedAt _ _ := ⟨[], rfl⟩

end Cluster

namespace Producer

variable {ω : Type}

/-- A window that is judged goes on from there, telling the map this and that. -/
theorem settleWindow_judged (T : Transport ω) (attempt : ℕ) (written : List (TopicPartition × ℤ))
    (outcomes : List (List (TopicPartition × ErrorCode))) (p : Producer ω) :
    Cluster.Retold (judge (inOrder outcomes) ⟨∅, false⟩ p).2.cluster
      (settleWindow T attempt written outcomes p).2.cluster := by
  let R (p p' : Producer ω) : Prop := Cluster.Retold p.cluster p'.cluster
  have hpre : IsPreorder (Producer ω) R :=
    { refl := fun p => refl_of Cluster.Retold p.cluster
      trans := fun _ _ _ h h' => trans_of Cluster.Retold h h' }
  have hcluster : ∀ {α : Type} {m : Act (Cluster ω) Error α}, Moves Cluster.Retold m →
      Moves R (onCluster m) := fun hm => Moves.zoom hm fun _ _ h => h
  have hrefresh : ∀ topics, Moves R (refreshTopics T topics) := by
    intro topics
    induction topics with
    | nil => exact Moves.pure _
    | cons topic rest ih =>
        exact Moves.bind (hcluster ((Cluster.permits_retold T).refreshMetadata topic)) fun _ => ih
  rcases hjudge : judge (inOrder outcomes) ⟨∅, false⟩ p with ⟨e | verdict, p₁⟩
  · rw [settleWindow, bind_of_error hjudge]
    exact refl_of Cluster.Retold p₁.cluster
  · rw [settleWindow, bind_of_ok hjudge]
    refine Moves.bind (R := R) (fun p => refl_of R p) (fun more => ?_) p₁
    refine Moves.bind (fun p => refl_of R p) fun _ => Moves.bind Moves.get fun p => ?_
    refine Moves.ite (Moves.pure _) ?_
    refine Moves.bind (hrefresh _) fun _ => ?_
    exact Moves.bind (hcluster ((Cluster.permits_retold T).sleep _)) fun _ => Moves.pure _

/-- What `collectWindow` makes of a window are its codes and its first error, and it leaves
the map alone. -/
theorem collectWindow_window (T : Transport ω) :
    ∀ (rounds : Window) (round : ℕ) (p : Producer ω), ∃ window p',
      Producer.collectWindow T round rounds p = (.ok (windowCodes window, windowError window), p') ∧
        p'.cluster.metadata = p.cluster.metadata
  | [], round, p => ⟨[], p, rfl, rfl⟩
  | sent :: rest, round, p => by
      let recv : Act (Producer ω) Error (List (Except Error ProduceResponse)) :=
        Producer.onCluster (Cluster.recvMany T .produce Body.asProduce (sent.map (·.1)))
      have hrecv : recv p = (.ok ((recv p).1.toOption.getD []), (recv p).2) := rfl
      have hmoves : Moves (Act.Keeps fun p : Producer ω => p.cluster.metadata) recv :=
        Moves.zoom (Cluster.carries_metadata.recvMany T .produce Body.asProduce _) fun _ _ h => h
      obtain ⟨window, p', hwindow, hsame⟩ := collectWindow_window T rest (round + 1)
        { (recv p).2 with offsets :=
          ((sent.zip ((recv p).1.toOption.getD [])).flatMap (Producer.answerOffsets round)).reverse ++
            (recv p).2.offsets }
      refine ⟨sent.zip ((recv p).1.toOption.getD []) :: window, p', ?_, hsame.trans (hmoves p)⟩
      rw [Producer.collectWindow, bind_of_ok hrecv, bind_of_ok (modify_apply _ _),
        bind_of_ok hwindow, windowError_cons]
      rfl

end Producer

namespace Consumer

variable {ω : Type}

/-- The map of the consumer has been told this and that. -/
def Retold (c c' : Consumer ω) : Prop := Cluster.Retold c.cluster c'.cluster

instance : IsPreorder (Consumer ω) Retold where
  refl c := refl_of Cluster.Retold c.cluster
  trans _ _ _ h h' := trans_of Cluster.Retold h h'

theorem consults_retold (T : Transport ω) :
    Consults T Cluster.Retold (fun _ => True) (Retold : Consumer ω → Consumer ω → Prop) where
  calls := Cluster.permits_retold T
  listOffsets _ _ _ := trivial
  cluster _ _ h := h
  discardOutstanding := by
    refine moves_discardOutstanding T (R := Retold)
      (fun c _ _ => refl_of Cluster.Retold c.cluster) fun addrs => ?_
    refine Moves.zoom ?_ fun _ _ h => h
    exact (Cluster.carries_metadata.recvMany T _ _ addrs).mono fun _ _ => Cluster.retold_of_keeps

/-- A lookup of one offset goes on from the map it has heeded the answer in. -/
theorem listOffsetOnce_retold {T : Transport ω} {tp : TopicPartition} {timestamp : ℤ}
    (attempt : ℕ) {c c₁ c₂ : Consumer ω} {addr : String}
    {topics : List (String × List ListOffsetsPartitionResponse)}
    (hleader : (onCluster (Cluster.leaderAddr T tp) : Act (Consumer ω) Error String) c = (.ok addr, c₁))
    (hcall : onCluster (Cluster.callAt T Body.asListOffsets addr 7
      (.listOffsets ⟨-1, c.isolation.asI8, [(tp.topic, [(tp.partition, timestamp)])]⟩)) c₁ =
        (.ok topics, c₂)) :
    Retold (heedOffset tp topics c₂).2 (listOffsetOnce T tp timestamp attempt () c).2 := by
  rw [listOffsetOnce_heeds attempt hleader hcall]
  have h := consults_retold T
  generalize List.find? _ (topics.flatMap (·.2)) = outcome
  cases outcome with
  | none => exact refl_of Retold _
  | some found =>
      dsimp only
      refine Moves.ite (R := Retold) (Moves.ite (Moves.throw _) ?_) ?_ _
      · refine Moves.bind (h.onCluster (h.calls.refreshMetadata _)) fun _ => ?_
        exact Moves.bind (h.onCluster (h.calls.sleep _)) fun _ => Moves.pure _
      · exact Moves.bind (Moves.ofExcept _) fun _ => Moves.pure _

/-- So does a lookup of many, with the leaders it has yet to ask. -/
theorem askLeaders_retold {T : Transport ω} {addr : String} {asked : List (TopicPartition × ℤ)}
    {rest : List (String × List (TopicPartition × ℤ))} {lookup : Lookup} {c c₁ : Consumer ω}
    {topics : List (String × List ListOffsetsPartitionResponse)}
    (hcall : onCluster (Cluster.callAt T Body.asListOffsets addr 7
      (.listOffsets ⟨-1, c.isolation.asI8, Producer.byTopic asked⟩)) c = (.ok topics, c₁)) :
    Retold (readOffsets asked (answersOf topics) lookup c₁).2
      (askLeaders T ((addr, asked) :: rest) lookup c).2 := by
  rw [askLeaders, bind_of_ok (get_apply c), bind_of_ok hcall]
  show Retold _ ((readOffsets asked (answersOf topics) lookup >>= fun lookup =>
    askLeaders T rest lookup : Act (Consumer ω) Error Lookup) c₁).2
  rcases hanswers : readOffsets asked (answersOf topics) lookup c₁ with ⟨e | l, c₂⟩
  · rw [bind_of_error hanswers]
    exact refl_of Retold c₂
  · rw [bind_of_ok hanswers]
    exact (consults_retold T).askLeaders rest l c₂

/-- A consumer of a partition that its broker says it does not lead. -/
def misled : Consumer Tape :=
  let metadata := .metadata ⟨[⟨1, "b", 1⟩], 1, [⟨0, some "t", [⟨0, 0, 1⟩]⟩]⟩
  ((Call.assign ⟨"t", 0⟩ 0).exec Tape.transport plainDecoders
    (connected [metadata, .fetch ⟨0, 7, [("t", [⟨0, 6, -1, none, none⟩])]⟩])).2

/-- The poll fails with `NOT_LEADER_OR_FOLLOWER`, and asks the same broker again next time. -/
theorem moved_not_forgotten :
    let result := poll Tape.transport plainDecoders misled
    result.1 = .error (.broker "Fetch partition" 6 .refreshMetadata) ∧
      Leads misled.cluster.metadata "b:1" ⟨"t", 0⟩ ∧
      Leads result.2.cluster.metadata "b:1" ⟨"t", 0⟩ ∧
      ¬∀ h : Hearing Tape, Reacted h.answers h.later h.before h.between h.after := by
  intro result
  have hleads : Leads misled.cluster.metadata "b:1" ⟨"t", 0⟩ := by decide
  refine ⟨by decide, hleads, by decide, fun hall => ?_⟩
  let answered : Answered := (("b:1", [⟨"t", 0⟩]), .ok ⟨0, 7, [("t", [⟨0, 6, -1, none, none⟩])]⟩)
  have hreacted := hall (.fetch plainDecoders [answered] misled)
  have hled : misled.cluster.metadata.leaders[(⟨"t", 0⟩ : TopicPartition)]? = some 1 := by
    decide
  have haddr : HasAddr misled.cluster.metadata "b:1" 1 := by
    unfold HasAddr
    decide
  have hafter : (Hearing.fetch plainDecoders [answered] misled).after = misled.cluster.metadata := by
    rw [Hearing.after, Hearing.between, cluster_absorb]
    rfl
  have htold := hreacted.forgotten ⟨"b:1", ⟨"t", 0⟩, ⟨6⟩⟩ (by decide) (by decide) 1 haddr
    (hafter ▸ hled)
  obtain ⟨notice, hnotice, -⟩ := htold
  cases hnotice

end Consumer

end Barnabas.Client
