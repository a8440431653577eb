import Barnabas.Client.Pools
import Barnabas.Client.ConsumerRules
import Barnabas.Client.ProducerRules

/-!
Connections that are out of step.

A response that does not belong to the oldest request in flight, or a frame beyond the
limit, says that a stream can no longer be read. The client drops a connection on which
an operation was lost, but not one on which it has received such an answer. This module
says which connections stay in the pools, and what the owner of a pool can rely on as
long as the peers keep in step.
-/

namespace Barnabas.Client

open Barnabas.Lib Barnabas.Core Barnabas.Lib.Act

theorem mem_slots {α : Type} {targets : List (String × α)} {addr : String} :
    (Pool.data, addr) ∈ targets.map (fun t => (Pool.data, t.1)) ↔ addr ∈ targets.map (·.1) := by
  simp

/-! ### The fetches of a consumer -/

namespace Consumer

open Cluster (InBooks dueAt Slot Evens Sent Took)

variable {ω : Type} {T : Transport ω} {debts : ω → Debts}

/-- The brokers of the fetch in flight. -/
def asked (c : Consumer ω) : List String := ((c.outstanding.map (·.groups)).getD []).map (·.1)

/-- How many answers the consumer still intends to collect at a place: one from each
broker of the fetch in flight. -/
def intended (c : Consumer ω) : Slot → ℕ
  | (.data, addr) => if addr ∈ c.asked then 1 else 0
  | (.coordinator, _) => 0

/-- The consumer is owed what it intends to collect. -/
structure Kept (debts : ω → Debts) (c : Consumer ω) : Prop where
  books : InBooks debts c.cluster
  once : c.asked.Nodup
  dues : ∀ slot, dueAt debts c.cluster slot = c.intended slot

def Keeping (debts : ω → Debts) (c c' : Consumer ω) : Prop := Kept debts c → Kept debts c'

instance : IsPreorder (Consumer ω) (Keeping debts) where
  refl _ := id
  trans _ _ _ h h' := h' ∘ h

/-- Nothing that is owed has changed, and the fetch in flight is the same. -/
theorem Kept.after {c c' : Consumer ω} (h : Kept debts c)
    (hcluster : Evens debts c.cluster c'.cluster) (houtstanding : c'.outstanding = c.outstanding) :
    Kept debts c' := by
  obtain ⟨hbooks, hdues⟩ := hcluster h.books
  have hasked : c'.asked = c.asked := by rw [asked, asked, houtstanding]
  refine ⟨hbooks, hasked ▸ h.once, fun ⟨pool, addr⟩ => ?_⟩
  rw [hdues, h.dues]
  cases pool with
  | data => rw [intended, intended, hasked]
  | coordinator => rfl

/-- Local changes do not matter. -/
theorem keeping_inner {c c' : Consumer ω} (hcluster : c'.cluster = c.cluster)
    (houtstanding : c'.outstanding = c.outstanding) : Keeping debts c c' := by
  intro h
  apply h.after _ houtstanding
  rw [hcluster]
  exact refl_of (Evens debts) c.cluster

theorem intended_of_idle {c : Consumer ω} (h : c.outstanding = none) (slot : Slot) :
    c.intended slot = 0 := by
  obtain ⟨pool, addr⟩ := slot
  cases pool with
  | data =>
      rw [intended, asked, h]
      rfl
  | coordinator => rfl

section Operations

variable (hT : T.InStep debts)

include hT

/-- Once the answers of the fetch in flight are read, nothing is owed. -/
theorem kept_recvMany {c c' : Consumer ω} (h : Kept debts c) (hidle : c'.outstanding = none)
    (hcluster : c'.cluster = ((Cluster.recvMany T .fetch Body.asFetch c.asked :
      Act (Cluster ω) Error _) c.cluster).2) : Kept debts c' := by
  have htook : Took c.asked c.cluster.look (debts c.cluster.wire.env) c'.cluster.look
      (debts c'.cluster.wire.env) := by
    rw [hcluster]
    exact Cluster.recvMany_took hT .fetch Body.asFetch h.once h.books
  refine ⟨htook.books, ?_, fun ⟨pool, addr⟩ => ?_⟩
  · rw [asked, hidle]
    exact List.nodup_nil
  · rw [intended_of_idle hidle]
    have hold := h.dues (pool, addr)
    by_cases haddr : (pool, addr) ∈ c.asked.map (Pool.data, ·)
    · obtain ⟨_, ha, heq⟩ := List.mem_map.mp haddr
      cases heq
      rw [intended, if_pos ha] at hold
      have hfewer := htook.fewer addr ha
      rw [show Cluster.owes c.cluster.look (debts c.cluster.wire.env) (.data, addr) = 1 from hold]
        at hfewer
      exact Nat.le_zero.mp hfewer
    · have hzero : c.intended (pool, addr) = 0 := by
        cases pool with
        | coordinator => rfl
        | data =>
            rw [intended, if_neg]
            exact fun ha => haddr (List.mem_map.mpr ⟨addr, ha, rfl⟩)
      exact (htook.others _ haddr).trans (hold.trans hzero)

theorem keeping_discardOutstanding : Moves (Keeping debts) (discardOutstanding T) := by
  intro c h
  rw [discardOutstanding, bind_of_ok (get_apply c)]
  cases houtstanding : c.outstanding with
  | none => exact h
  | some outstanding =>
      have hasked : c.asked = outstanding.groups.map (·.1) := by
        rw [asked, houtstanding]
        rfl
      apply kept_recvMany hT h rfl
      rw [hasked]
      rfl

theorem coordinates_evens : Cluster.Coordinates T (Evens debts) fun _ => True where
  toPermits := Cluster.permits_evens hT
  coordinator as addr _ _ timeout _ := Cluster.evens_callCoordinator hT as addr timeout

theorem attends_keeping : Attends T (Evens debts) (fun _ => True) (Keeping debts) where
  calls := Cluster.permits_evens hT
  listOffsets _ _ _ := trivial
  cluster _ _ h hc := hc.after h rfl
  discardOutstanding := keeping_discardOutstanding hT
  coordinates := coordinates_evens hT
  membership _ _ := trivial
  group _ _ _ _ _ h hc := hc.after h rfl
  books _ _ _ := keeping_inner rfl rfl

/-- What is owed while a fetch is written: one answer from each broker it was sent to. -/
structure Sending (debts : ω → Debts) (sent : List (String × List TopicPartition))
    (c : Consumer ω) : Prop where
  books : InBooks debts c.cluster
  idle : c.outstanding = none
  dues : ∀ slot, dueAt debts c.cluster slot = if slot ∈ sent.map fun s => (Pool.data, s.1) then 1 else 0

theorem sending_sendFetches {planned : List (String × List TopicPartition × FetchRequest)}
    {sent : List (String × List TopicPartition)} {c : Consumer ω} (h : Sending debts sent c)
    (hnodup : (sent.map (·.1) ++ planned.map (·.1)).Nodup) :
    ∃ sent' failure c', sendFetches T planned sent c = (.ok (sent', failure), c') ∧
      Sending debts sent' c' ∧ (sent'.map (·.1)).Nodup := by
  induction planned generalizing sent c with
  | nil => exact ⟨sent, none, c, rfl, h, by simpa using hnodup⟩
  | cons first rest ih =>
      obtain ⟨addr, partitions, req⟩ := first
      have hnew : addr ∉ sent.map (·.1) := by
        intro hmem
        exact (List.nodup_append.mp hnodup).2.2 addr hmem addr (by simp) rfl
      have hzero : dueAt debts c.cluster (.data, addr) = 0 := by
        rw [h.dues, if_neg]
        intro hmem
        obtain ⟨s, hs, heq⟩ := List.mem_map.mp hmem
        exact hnew (List.mem_map.mpr ⟨s, hs, (Prod.mk.inj heq).2⟩)
      have hsend := Cluster.sendAt_sent hT 12 (.fetch req) addr h.books
      rw [sendFetches, bind_of_ok (attempt_apply _ c), onCluster, zoom_apply]
      rcases hsent : Cluster.sendAt T addr 12 (.fetch req) c.cluster with ⟨e | _, cluster⟩
      · rw [hsent] at hsend
        refine ⟨sent, some e, { c with cluster }, rfl, ⟨hsend.books, h.idle, fun slot => ?_⟩, ?_⟩
        · by_cases hslot : slot = (.data, addr)
          · rw [hslot, ← h.dues, hzero]
            have := hsend.high
            rw [hzero] at this
            exact Nat.le_zero.mp this
          · exact (hsend.others slot hslot).trans (h.dues slot)
        · exact (List.nodup_append.mp hnodup).1
      · rw [hsent] at hsend
        have hnext : Sending debts (sent ++ [(addr, partitions)]) { c with cluster } := by
          refine ⟨hsend.books, h.idle, fun slot => ?_⟩
          by_cases hslot : slot = (.data, addr)
          · have hlow := hsend.low rfl
            have hhigh := hsend.high
            rw [hzero] at hhigh
            rw [hslot, if_pos (by simp)]
            exact le_antisymm hhigh hlow
          · apply ((hsend.others slot hslot).trans (h.dues slot)).trans
            have hiff : slot ∈ (sent ++ [(addr, partitions)]).map (fun s => (Pool.data, s.1)) ↔
                slot ∈ sent.map fun s => (Pool.data, s.1) := by
              simp [hslot]
            simp only [hiff]
        exact ih hnext (by simpa using hnodup)

omit hT in
theorem route_outstanding (partitions : List TopicPartition)
    (byBroker : Std.TreeMap String (List TopicPartition)) :
    Moves (Keeps Consumer.outstanding) (route T partitions byBroker) := by
  induction partitions generalizing byBroker with
  | nil => exact Moves.pure _
  | cons tp rest ih => exact Moves.bind (fun _ => rfl) fun _ => ih _

/-- A fetch is issued only where none is in flight. -/
theorem keeping_issueFetch {c : Consumer ω} (h : Kept debts c) (hidle : c.outstanding = none) :
    Kept debts (issueFetch T c).2 := by
  have hrouted := (attends_keeping hT).route c.fetchable ∅ c h
  have hsame : Keeps Consumer.outstanding c (route T c.fetchable ∅ c).2 :=
    route_outstanding c.fetchable ∅ c
  rw [issueFetch, bind_of_ok (get_apply c)]
  rcases hroute : route T c.fetchable ∅ c with ⟨e | byBroker, c₁⟩
  · rw [hroute] at hrouted
    rw [bind_of_error hroute]
    exact hrouted
  · rw [hroute] at hrouted hsame
    have hidle₁ : c₁.outstanding = none := hsame.trans hidle
    have hsending : Sending debts [] c₁ := ⟨hrouted.books, hidle₁, fun slot => by
      rw [hrouted.dues, intended_of_idle hidle₁]
      rfl⟩
    have hnodup : (([] : List (String × List TopicPartition)).map (·.1) ++
        (c₁.planned byBroker).map (·.1)).Nodup := by
      rw [List.map_nil, List.nil_append, planned, List.map_map]
      change (byBroker.toList.map (·.1)).Nodup
      rw [Std.TreeMap.map_fst_toList_eq_keys]
      exact Std.TreeMap.nodup_keys
    obtain ⟨sent, failure, c₂, hsend, hsent, honce⟩ := sending_sendFetches hT hsending hnodup
    rw [bind_of_ok hroute, bind_of_ok (get_apply c₁), bind_of_ok hsend]
    dsimp only
    have hkept : Kept debts (if sent = [] then c₂ else
        { c₂ with outstanding := some ⟨sent, c₂.generation⟩ }) := by
      split
      · next hnil =>
          refine ⟨hsent.books, by rw [asked, hsent.idle]; exact List.nodup_nil, fun slot => ?_⟩
          rw [hsent.dues, hnil, intended_of_idle hsent.idle]
          rfl
      · refine ⟨hsent.books, honce, fun ⟨pool, addr⟩ => (hsent.dues _).trans ?_⟩
        cases pool with
        | coordinator =>
            rw [if_neg (by simp)]
            rfl
        | data =>
            simp only [mem_slots]
            rfl
    have hstate : ∀ m : Act (Consumer ω) Error Unit, (∀ c, (m c).2 = c) →
        ((if sent = [] then m
          else do
            modify fun c => { c with outstanding := some ⟨sent, c.generation⟩ }
            m : Act (Consumer ω) Error Unit) c₂).2 = if sent = [] then c₂ else
              { c₂ with outstanding := some ⟨sent, c₂.generation⟩ } := by
      intro m hm
      split
      · exact hm c₂
      · exact hm _
    cases failure with
    | none => exact (hstate (pure ()) fun _ => rfl).symm ▸ hkept
    | some e => exact (hstate (throw e) fun _ => rfl).symm ▸ hkept

theorem kept_askAndTake {c : Consumer ω} (h : Kept debts c) :
    Post (fun _ c' => Kept debts c' ∧ c'.outstanding = none) (fun _ c' => Kept debts c')
      (askAndTake T c) := by
  have htake : ∀ {c : Consumer ω}, Kept debts c →
      Post (fun _ c' => Kept debts c' ∧ c'.outstanding = none) (fun _ c' => Kept debts c')
        (takeAnswers T c) := fun h => ⟨kept_recvMany hT h rfl rfl, rfl⟩
  rw [askAndTake, bind_of_ok (get_apply c)]
  by_cases hnone : c.outstanding.isNone
  · rw [if_pos hnone]
    have hissued := keeping_issueFetch hT h (Option.isNone_iff_eq_none.mp hnone)
    rcases hissue : issueFetch T c with ⟨e | _, c₁⟩
    · rw [hissue] at hissued
      rw [bind_of_error hissue]
      exact hissued
    · rw [hissue] at hissued
      rw [bind_of_ok hissue]
      exact htake hissued
  · rw [if_neg hnone]
    exact htake h

/-- Collecting leaves nothing in flight. -/
theorem kept_collect {c : Consumer ω} (h : Kept debts c) :
    Post (fun _ c' => Kept debts c' ∧ c'.outstanding = none) (fun _ c' => Kept debts c')
      (collect T c) := by
  rw [collect_eq, bind_of_ok (get_apply c)]
  split
  · have hdiscarded := keeping_discardOutstanding hT c h
    rcases hdiscard : discardOutstanding T c with ⟨e | _, c₁⟩
    · rw [hdiscard] at hdiscarded
      rw [bind_of_error hdiscard]
      exact hdiscarded
    · rw [hdiscard] at hdiscarded
      rw [bind_of_ok hdiscard]
      exact kept_askAndTake hT hdiscarded
  · exact kept_askAndTake hT h

theorem keeping_fetching (D : Decoders) : Moves (Keeping debts) (fetching T D) := by
  intro c h
  have hcollected := kept_collect hT h
  rcases hcollect : collect T c with ⟨e | answers, c₁⟩
  · rw [hcollect] at hcollected
    rw [fetching, bind_of_error hcollect]
    exact hcollected
  · rw [hcollect] at hcollected
    rw [fetching, bind_of_ok hcollect]
    -- the result loop touches neither the connections nor the fetch in flight
    have habsorbed : Keeps (fun c : Consumer ω => (c.cluster, c.outstanding)) c₁
        (absorb D answers [] c₁).2 := moves_absorb D (fun _ _ _ => rfl) (fun _ _ => rfl) answers [] c₁
    rcases habsorb : absorb D answers [] c₁ with ⟨e | out, c₂⟩
    · rw [habsorb] at habsorbed
      obtain ⟨hcluster, houtstanding⟩ := Prod.mk.inj habsorbed
      rw [bind_of_error habsorb]
      exact keeping_inner hcluster houtstanding hcollected.1
    · rw [habsorb] at habsorbed
      obtain ⟨hcluster, houtstanding⟩ := Prod.mk.inj habsorbed
      rw [bind_of_ok habsorb]
      have hkept : Kept debts c₂ := keeping_inner hcluster houtstanding hcollected.1
      have hidle : c₂.outstanding = none := houtstanding.trans hcollected.2
      have hprefetched : Kept debts (startPrefetch T c₂).2 := by
        rw [startPrefetch, bind_of_ok (get_apply c₂)]
        by_cases hfetch : c₂.prefetch ∧ c₂.fetchable ≠ []
        · rw [if_pos hfetch]
          exact keeping_issueFetch hT hkept hidle
        · rw [if_neg hfetch]
          exact hkept
      rcases hprefetch : startPrefetch T c₂ with ⟨e | _, c₃⟩
      · rw [hprefetch] at hprefetched
        rw [bind_of_error hprefetch]
        exact hprefetched
      · rw [hprefetch] at hprefetched
        rw [bind_of_ok hprefetch]
        change Kept debts { c₃ with returned := c₃.returned ++ out }
        exact hprefetched.after (refl_of (Evens debts) _) rfl

theorem confined_keeping : Confined T (Evens debts) (Keeping debts) where
  toAttends := attends_keeping hT
  inner _ _ := keeping_inner
  fetching := keeping_fetching hT

end Operations

end Consumer

/-! ### The windows of a producer -/

namespace Producer

open Cluster (InBooks dueAt Slot Evens Sent Took)

variable {ω : Type} {T : Transport ω} {debts : ω → Debts}

/-- The producer is owed nothing. -/
def AtRest (debts : ω → Debts) (p : Producer ω) : Prop :=
  InBooks debts p.cluster ∧ ∀ slot, dueAt debts p.cluster slot = 0

def Resting (debts : ω → Debts) (p p' : Producer ω) : Prop := AtRest debts p → AtRest debts p'

instance : IsPreorder (Producer ω) (Resting debts) where
  refl _ := id
  trans _ _ _ h h' := h' ∘ h

/-- How many rounds of a window went to a place. -/
def roundsAt (rounds : Window) : Slot → ℕ
  | (.data, addr) => rounds.countP fun round => addr ∈ round.map (·.1)
  | (.coordinator, _) => 0

/-- A window in flight is owed at most what its rounds have asked for. -/
structure Underway (debts : ω → Debts) (rounds : Window) (p : Producer ω) : Prop where
  books : InBooks debts p.cluster
  dues : ∀ slot, dueAt debts p.cluster slot ≤ roundsAt rounds slot

theorem AtRest.underway {p : Producer ω} (h : AtRest debts p) : Underway debts [] p :=
  ⟨h.1, fun slot => (h.2 slot).le.trans (Nat.zero_le _)⟩

theorem roundsAt_nil (slot : Slot) : roundsAt [] slot = 0 := by
  obtain ⟨pool, addr⟩ := slot
  cases pool <;> rfl

theorem Underway.atRest {p : Producer ω} (h : Underway debts [] p) : AtRest debts p := by
  refine ⟨h.books, fun slot => Nat.le_zero.mp ?_⟩
  rw [← roundsAt_nil slot]
  exact h.dues slot

section Operations

variable (hT : T.InStep debts)

include hT

omit hT in
theorem roundsAt_cons (round : List RoundTarget) (rest : Window) (slot : Slot) :
    roundsAt (round :: rest) slot =
      roundsAt rest slot + if slot ∈ round.map (fun t => (Pool.data, t.1)) then 1 else 0 := by
  obtain ⟨pool, addr⟩ := slot
  cases pool with
  | coordinator => simp [roundsAt]
  | data =>
      simp only [roundsAt, List.countP_cons, mem_slots]
      by_cases haddr : addr ∈ round.map (·.1) <;> simp only [haddr, decide_true, decide_false] <;> rfl

omit hT in
theorem roundsAt_concat (rounds : Window) (round : List RoundTarget) (slot : Slot) :
    roundsAt (rounds ++ [round]) slot =
      roundsAt rounds slot + if slot ∈ round.map (fun t => (Pool.data, t.1)) then 1 else 0 := by
  obtain ⟨pool, addr⟩ := slot
  cases pool with
  | coordinator => simp [roundsAt]
  | data =>
      simp only [roundsAt, List.countP_append, List.countP_singleton, mem_slots]
      by_cases haddr : addr ∈ round.map (·.1) <;> simp only [haddr, decide_true, decide_false] <;> rfl

/-- Every round that is collected takes away one answer at each of its places. -/
theorem underway_collectWindow {rounds : Window} (hnodup : ∀ round ∈ rounds, (round.map (·.1)).Nodup)
    (i : ℕ) {p : Producer ω} (h : Underway debts rounds p) :
    AtRest debts (collectWindow T i rounds p).2 := by
  induction rounds generalizing i p with
  | nil => exact h.atRest
  | cons round rest ih =>
      have htook : Took (round.map (·.1)) p.cluster.look (debts p.cluster.wire.env) _ _ :=
        Cluster.recvMany_took (ε := Error) hT .produce Body.asProduce
          (hnodup round List.mem_cons_self) h.books
      rw [collectWindow]
      rcases hrecv : (Cluster.recvMany T .produce Body.asProduce (round.map (·.1)) :
          Act (Cluster ω) Error _) p.cluster with ⟨outcome, cluster⟩
      rw [hrecv] at htook
      have hunder : ∀ p' : Producer ω, p'.cluster = cluster → Underway debts rest p' := by
        intro p' hp'
        refine ⟨hp' ▸ htook.books, fun slot => ?_⟩
        rw [hp']
        have hdues := h.dues slot
        rw [roundsAt_cons] at hdues
        by_cases hslot : slot ∈ round.map fun t => (Pool.data, t.1)
        · rw [if_pos hslot] at hdues
          obtain ⟨target, htarget, rfl⟩ := List.mem_map.mp hslot
          have hfewer := htook.fewer target.1 (List.mem_map_of_mem htarget)
          exact hfewer.trans (Nat.sub_le_of_le_add hdues)
        · rw [if_neg hslot, Nat.add_zero] at hdues
          have hsame := htook.others slot (by simpa using hslot)
          exact hsame.le.trans hdues
      cases outcome with
      | error e =>
          -- reading from several connections has no error of its own
          cases hrecv
      | ok responses =>
          have hcluster : (onCluster (Cluster.recvMany T .produce Body.asProduce (round.map (·.1))) :
              Act (Producer ω) Error _) p = (.ok responses, { p with cluster }) := by
            rw [onCluster, zoom_apply, hrecv]
          rw [bind_of_ok hcluster, bind_of_ok (modify_apply _ _)]
          have hrest := ih (fun round hround => hnodup round (List.mem_cons_of_mem _ hround)) (i + 1)
            (hunder { p with
              cluster
              offsets := ((round.zip responses).flatMap (answerOffsets i)).reverse ++ p.offsets } rfl)
          rcases hcollect : collectWindow T (i + 1) rest { p with
              cluster
              offsets := ((round.zip responses).flatMap (answerOffsets i)).reverse ++ p.offsets }
            with ⟨e | codes, p'⟩
          · rw [hcollect] at hrest
            rw [bind_of_error hcollect]
            exact hrest
          · rw [hcollect] at hrest
            rw [bind_of_ok hcollect]
            exact hrest

/-- Writing a round asks for one answer more at each of its places, at most. -/
theorem underway_sendRound {rounds : Window} (round : ℕ) {targets sent : List RoundTarget}
    (hnodup : ((sent ++ targets).map (·.1)).Nodup) {p : Producer ω}
    (h : Underway debts (rounds ++ [sent]) p) :
    ∃ sent' failure p', sendRound T round targets sent p = (.ok (sent', failure), p') ∧
      Underway debts (rounds ++ [sent']) p' ∧ (sent'.map (·.1)).Nodup := by
  induction targets generalizing sent p with
  | nil => exact ⟨sent, none, p, rfl, h, by simpa using hnodup⟩
  | cons target rest ih =>
      obtain ⟨addr, keys⟩ := target
      rw [sendRound, bind_of_ok (get_apply p)]
      by_cases htaking : (keys.filter fun tp => round < (p.pending.getD tp []).length) = []
      · rw [if_pos htaking]
        refine ih (hnodup.sublist ?_) h
        exact List.Sublist.map _ (List.Sublist.append_left (List.sublist_cons_self _ _) sent)
      · rw [if_neg htaking]
        let taking := keys.filter fun tp => round < (p.pending.getD tp []).length
        have hsend := Cluster.sendAt_sent hT 9 (.produce (p.produceRequest taking round)) addr h.books
        rw [bind_of_ok (attempt_apply _ p), onCluster, zoom_apply]
        rcases hsent : Cluster.sendAt T addr 9 (.produce (p.produceRequest taking round)) p.cluster with
          ⟨e | _, cluster⟩
        · rw [hsent] at hsend
          refine ⟨sent, some e, { p with cluster }, rfl, ⟨hsend.books, fun slot => ?_⟩, ?_⟩
          · by_cases hslot : slot = (.data, addr)
            · subst hslot
              exact hsend.high.trans (h.dues _)
            · exact (hsend.others slot hslot).le.trans (h.dues slot)
          · rw [List.map_append] at hnodup
            exact (List.nodup_append.mp hnodup).1
        · rw [hsent] at hsend
          have hnext : Underway debts (rounds ++ [sent ++ [(addr, taking)]]) { p with cluster } := by
            refine ⟨hsend.books, fun slot => ?_⟩
            have hdues := h.dues slot
            rw [roundsAt_concat] at hdues ⊢
            by_cases hslot : slot = (.data, addr)
            · have hnew : slot ∉ sent.map fun t => (Pool.data, t.1) := by
                rw [hslot, mem_slots]
                rw [List.map_append] at hnodup
                exact fun hmem => (List.nodup_append.mp hnodup).2.2 addr hmem addr (by simp) rfl
              rw [if_neg hnew, Nat.add_zero] at hdues
              rw [if_pos (by simp [hslot])]
              subst hslot
              exact hsend.high.trans (Nat.add_le_add_right hdues 1)
            · have hiff : slot ∈ (sent ++ [(addr, taking)]).map (fun t => (Pool.data, t.1)) ↔
                  slot ∈ sent.map fun t => (Pool.data, t.1) := by
                simp [hslot]
              simp only [hiff]
              exact (hsend.others slot hslot).le.trans hdues
          exact ih (by simpa using hnodup) hnext

theorem underway_sendWindow (byBroker : ByBroker) (left round : ℕ) {rounds : Window}
    (hnodup : ∀ round ∈ rounds, (round.map (·.1)).Nodup) {p : Producer ω}
    (h : Underway debts rounds p) :
    Post (fun rounds p' => Underway debts rounds p' ∧ ∀ round ∈ rounds, (round.map (·.1)).Nodup)
      (fun _ p' => AtRest debts p') (sendWindow T byBroker left round rounds p) := by
  induction left generalizing round rounds p with
  | zero => exact ⟨h, hnodup⟩
  | succ left ih =>
      have haddrs : ((([] : List RoundTarget) ++ byBroker.toList).map (·.1)).Nodup := by
        rw [List.nil_append, Std.TreeMap.map_fst_toList_eq_keys]
        exact Std.TreeMap.nodup_keys
      have hbegun : Underway debts (rounds ++ [[]]) p := by
        refine ⟨h.books, fun slot => ?_⟩
        rw [roundsAt_concat]
        exact (h.dues slot).trans (Nat.le_add_right _ _)
      obtain ⟨sent, failure, p₁, hround, hunder, honce⟩ :=
        underway_sendRound hT round haddrs hbegun
      have hnodup' : ∀ round ∈ rounds ++ [sent], (round.map (·.1)).Nodup := by
        intro round hround
        rcases List.mem_append.mp hround with hround | hround
        · exact hnodup round hround
        · rw [List.mem_singleton.mp hround]
          exact honce
      rw [sendWindow, bind_of_ok hround]
      cases failure with
      | some e =>
          have hrest := underway_collectWindow hT hnodup' 0 hunder
          dsimp only
          rcases hcollect : collectWindow T 0 (rounds ++ [sent]) p₁ with ⟨e' | collected, p₂⟩
          · rw [hcollect] at hrest
            rw [bind_of_error hcollect]
            exact hrest
          · rw [hcollect] at hrest
            rw [bind_of_ok hcollect]
            exact hrest
      | none =>
          dsimp only
          split
          · next hnil =>
              refine ⟨⟨hunder.books, fun slot => ?_⟩, hnodup⟩
              have hdues := hunder.dues slot
              rw [hnil, roundsAt_concat] at hdues
              simpa using hdues
          · exact ih (round + 1) hnodup' hunder

theorem resting_window (byBroker : ByBroker) (depth : ℕ) :
    Moves (Resting debts) (throughWindow T byBroker depth) := by
  intro p h
  have hsent := underway_sendWindow hT byBroker depth 0 (by simp) h.underway
  rcases hsend : sendWindow T byBroker depth 0 [] p with ⟨e | rounds, p₁⟩
  · rw [hsend] at hsent
    rw [throughWindow, bind_of_error hsend]
    exact hsent
  · rw [hsend] at hsent
    rw [throughWindow, bind_of_ok hsend]
    exact underway_collectWindow hT hsent.2 0 hsent.1

theorem confined_resting : Confined T (Evens debts) (Resting debts) where
  permits := Cluster.permits_evens hT
  cluster _ _ h hp := ⟨(h hp.1).1, fun slot => ((h hp.1).2 slot).trans (hp.2 slot)⟩
  inner p p' hcluster hp := by
    rw [AtRest, hcluster]
    exact hp
  window := resting_window hT

end Operations

end Producer

/-! ### What stays in a pool -/

namespace Cluster

variable {ω ε α : Type} (T : Transport ω)

theorem brokerIn_look (pool : Pool) (addr : String) (c : Cluster ω) :
    Post (fun b c' => look c' (pool, addr) = some b) (fun _ c' => look c' (pool, addr) = none)
      (brokerIn T pool addr c) := by
  rw [brokerIn, bind_of_ok (get_apply c)]
  cases hlook : (c.pool pool)[addr]? with
  | some b => exact hlook
  | none =>
      dsimp only
      rcases hopen : onWire (Broker.connect T addr c.clientId c.credentials) c with ⟨e | b, c'⟩
      · have hc' : c' = { c with wire := (Broker.connect T addr c.clientId c.credentials c.wire).2 } :=
          (congrArg Prod.snd hopen).symm
        rw [bind_of_error hopen]
        change look c' (pool, addr) = none
        rw [hc', look_wire]
        exact hlook
      · rw [bind_of_ok hopen, bind_of_ok (modify_apply _ _)]
        change look (c'.keep pool addr b) (pool, addr) = some b
        rw [look_keep]
        exact Function.update_self ..

/-- One attempt of a call, and the state its connection is lost in. -/
def LostIn (pool : Pool) (as : Body → Option α) (addr : String) (version : ℤ) (req : Request)
    (timeout : ℕ) (c c' : Cluster ω) : Prop :=
  ∃ b c₁ e l, brokerIn T pool addr c = (.ok b, c₁) ∧
    Broker.call T (T.within timeout) as version req ⟨c₁.wire, b⟩ = (.error (some (.io e)), l) ∧
    c' = ({ c₁ with wire := l.wire }.keep pool addr l.broker).drop pool addr

/-- No connection could be opened: for the first attempt of a call, or for the second after
the first had lost its own. -/
def Unopened (pool : Pool) (as : Body → Option α) (addr : String) (version : ℤ) (req : Request)
    (timeout : ℕ) (c : Cluster ω) : Prop :=
  (∃ e, (brokerIn T pool addr c).1 = .error e) ∨
    ∃ c' e, LostIn T pool as addr version req timeout c c' ∧ (brokerIn T pool addr c').1 = .error e

variable {T} {pool : Pool} {as : Body → Option α} {addr : String} {version : ℤ} {req : Request}
  {timeout : ℕ} {c c' : Cluster ω} {e : Core.Error}

/-- A call on an open connection that ends in an error of the protocol: the connection is
kept, or it was lost and the error is that of another attempt. -/
theorem callBroker_core {b : Broker} {retry : IoError → Act (Cluster ω) Error α}
    (h : (do
      let outcome ← onBroker pool addr b (Broker.call T (T.within timeout) as version req)
      settle pool req.apiKey addr retry outcome : Act (Cluster ω) Error α) c =
        (.error (.core e), c')) :
    (∃ l, Broker.call T (T.within timeout) as version req ⟨c.wire, b⟩ =
          (.error (some (.core e)), l) ∧ look c' (pool, addr) = some l.broker) ∨
      ∃ io l, Broker.call T (T.within timeout) as version req ⟨c.wire, b⟩ =
          (.error (some (.io io)), l) ∧
        retry io (({ c with wire := l.wire }.keep pool addr l.broker).drop pool addr) =
          (.error (.core e), c') := by
  rcases hcall : Broker.call T (T.within timeout) as version req ⟨c.wire, b⟩ with ⟨outcome, l⟩
  rw [bind_of_ok (onBroker_apply hcall)] at h
  rcases outcome with (_ | e') | message
  · cases h
  · cases e' with
    | io io => exact .inr ⟨io, l, rfl, h⟩
    | core e' =>
        cases h
        refine .inl ⟨l, rfl, ?_⟩
        rw [look_keep]
        exact Function.update_self ..
    | _ => cases h
  · cases h

theorem LostIn.unique {c₁ c₂ : Cluster ω} (h₁ : LostIn T pool as addr version req timeout c c₁)
    (h₂ : LostIn T pool as addr version req timeout c c₂) : c₁ = c₂ := by
  obtain ⟨b, d, io, l, hbroker, hcall, rfl⟩ := h₁
  obtain ⟨b', d', io', l', hbroker', hcall', rfl⟩ := h₂
  obtain ⟨hb, rfl⟩ := Prod.mk.inj (hbroker.symm.trans hbroker')
  cases hb
  obtain ⟨-, rfl⟩ := Prod.mk.inj (hcall.symm.trans hcall')
  rfl

/-- How an attempt comes to fail with an error of the protocol. -/
inductive Fails (T : Transport ω) (pool : Pool) (as : Body → Option α) (addr : String) (version : ℤ)
    (req : Request) (timeout : ℕ) (retry : IoError → Act (Cluster ω) Error α) (e : Core.Error)
    (c c' : Cluster ω) : Prop
  | unopened (e' : Error) (hopen : (brokerIn T pool addr c).1 = .error e')
      (hlook : look c' (pool, addr) = none)
  | kept (b : Broker) (c₁ : Cluster ω) (hopen : brokerIn T pool addr c = (.ok b, c₁))
      (hnot : ∀ c₂, ¬LostIn T pool as addr version req timeout c c₂) (b' : Broker)
      (hlook : look c' (pool, addr) = some b')
  | lost (io : IoError) (c₁ : Cluster ω) (hlost : LostIn T pool as addr version req timeout c c₁)
      (hretry : retry io c₁ = (.error (.core e), c'))

/-- An attempt from the point where its connection is open. -/
theorem fails_callBroker {b : Broker} {c₁ : Cluster ω} {retry : IoError → Act (Cluster ω) Error α}
    (hopen : brokerIn T pool addr c = (.ok b, c₁))
    (h : (do
      let outcome ← onBroker pool addr b (Broker.call T (T.within timeout) as version req)
      settle pool req.apiKey addr retry outcome : Act (Cluster ω) Error α) c₁ =
        (.error (.core e), c')) :
    Fails T pool as addr version req timeout retry e c c' := by
  rcases callBroker_core h with ⟨l, hcall, hlook⟩ | ⟨io, l, hcall, hretry⟩
  · refine .kept b c₁ hopen ?_ l.broker hlook
    rintro c₂ ⟨b', d, io, l', hopen', hcall', -⟩
    obtain ⟨hb, rfl⟩ := Prod.mk.inj (hopen.symm.trans hopen')
    cases hb
    cases hcall.symm.trans hcall'
  · exact .lost io _ ⟨b, c₁, io, l, hopen, hcall, rfl⟩ hretry

theorem fails_callOnce {retry : IoError → Act (Cluster ω) Error α}
    (h : callOnce T as addr version req timeout retry c = (.error (.core e), c')) :
    Fails T .data as addr version req timeout retry e c c' := by
  have hlook := brokerIn_look T .data addr c
  rw [callOnce, brokerAt] at h
  rcases hopen : brokerIn T .data addr c with ⟨e' | b, c₁⟩
  · rw [hopen] at hlook
    rw [bind_of_error hopen] at h
    cases h
    exact .unopened _ (by rw [hopen]) hlook
  · rw [bind_of_ok hopen] at h
    by_cases hbusy : b.conn.inFlight.length ≠ 0
    · rw [if_pos hbusy] at h
      cases h
    · rw [if_neg hbusy] at h
      exact fails_callBroker hopen h

theorem fails_callCoordinatorOnce {retry : IoError → Act (Cluster ω) Error α}
    (h : callCoordinatorOnce T as addr version req timeout retry c = (.error (.core e), c')) :
    Fails T .coordinator as addr version req timeout retry e c c' := by
  have hlook := brokerIn_look T .coordinator addr c
  rw [callCoordinatorOnce] at h
  rcases hopen : brokerIn T .coordinator addr c with ⟨e' | b, c₁⟩
  · rw [hopen] at hlook
    rw [bind_of_error hopen] at h
    cases h
    exact .unopened _ (by rw [hopen]) hlook
  · rw [bind_of_ok hopen] at h
    exact fails_callBroker hopen h

/-- A call of two attempts that fails with an error of the protocol leaves no connection
behind exactly if it could not open one. -/
theorem unpooled_iff {once : (IoError → Act (Cluster ω) Error α) → Act (Cluster ω) Error α}
    (honce : ∀ {retry c c'}, once retry c = (.error (.core e), c') →
      Fails T pool as addr version req timeout retry e c c')
    (h : once (fun _ => once fun e => throw (.io e)) c = (.error (.core e), c')) :
    look c' (pool, addr) = none ↔ Unopened T pool as addr version req timeout c := by
  cases honce h with
  | unopened e' hopen hlook => exact ⟨fun _ => .inl ⟨e', hopen⟩, fun _ => hlook⟩
  | kept b c₁ hopen hnot b' hlook =>
      constructor
      · intro hnone
        cases hlook.symm.trans hnone
      · rintro (⟨e', he'⟩ | ⟨c₂, e', hlost, -⟩)
        · rw [hopen] at he'
          cases he'
        · exact absurd hlost (hnot c₂)
  | lost io c₁ hlost hretry =>
      have hfirst : ∀ e', (brokerIn T pool addr c).1 ≠ .error e' := by
        obtain ⟨b, d, -, -, hopen, -, -⟩ := hlost
        rw [hopen]
        intro e' he'
        cases he'
      cases honce hretry with
      | unopened e' hopen hlook => exact ⟨fun _ => .inr ⟨c₁, e', hlost, hopen⟩, fun _ => hlook⟩
      | kept b c₂ hopen hnot b' hlook =>
          constructor
          · intro hnone
            cases hlook.symm.trans hnone
          · rintro (⟨e', he'⟩ | ⟨c₃, e', hlost', he'⟩)
            · exact absurd he' (hfirst e')
            · rw [← hlost.unique hlost', hopen] at he'
              cases he'
      | lost io' c₂ hlost' hretry' => cases hretry'

/-! Reading from several connections. -/

/-- Reading puts connections back and takes none away. -/
theorem recvOne_look (op : ApiKey) (taken : String × Option Broker) (slot : Slot)
    (h : look c slot ≠ none) : look (recvOne T op as taken c).2 slot ≠ none := by
  have hkeep : ∀ (wire : Wire ω) addr b, look ({ c with wire }.keep .data addr b) slot ≠ none := by
    intro wire addr b
    rw [look_keep, look_wire]
    by_cases hslot : slot = (.data, addr)
    · rw [hslot, Function.update_self]
      exact Option.some_ne_none _
    · rw [Function.update_of_ne hslot]
      exact h
  have hwire : ∀ wire : Wire ω, look { c with wire } slot ≠ none := fun wire => by
    rw [look_wire]
    exact h
  rcases taken with ⟨addr, _ | b⟩
  · exact h
  · rw [recvOne]
    rcases Broker.recv (T.within c.requestTimeout) as ⟨c.wire, b⟩ with ⟨(_ | e) | message, l⟩
    · exact hwire _
    · cases e with
      | io io => exact hwire _
      | _ => exact hkeep _ _ _
    · exact hkeep _ _ _

theorem recvTaken_look (op : ApiKey) (taken : List (String × Option Broker)) (slot : Slot)
    (h : look c slot ≠ none) : look (recvTaken T op as taken c).2 slot ≠ none := by
  induction taken generalizing c with
  | nil => exact h
  | cons first rest ih => exact ih (recvOne_look op first slot h)

/-- An answer that is an error of the protocol leaves its connection in the pool. -/
theorem recvTaken_kept (op : ApiKey) {taken : List (String × Option Broker)} {i : ℕ}
    (haddr : (taken.map (·.1))[i]? = some addr)
    (h : (recvTaken T op as taken c).1[i]? = some (.error (.core e))) :
    look (recvTaken T op as taken c).2 (.data, addr) ≠ none := by
  induction taken generalizing c i with
  | nil => cases haddr
  | cons first rest ih =>
      cases i with
      | succ i => exact ih haddr h
      | zero =>
          obtain ⟨a, t⟩ := first
          obtain rfl : a = addr := Option.some.inj haddr
          apply recvTaken_look (c := (recvOne T op as (a, t) c).2) op rest
          have hone : (recvOne T op as (a, t) c).1 = .error (.core e) := Option.some.inj h
          rcases t with _ | b
          · cases hone
          · simp only [recvOne] at hone ⊢
            rcases hrecv : Broker.recv (T.within c.requestTimeout) as ⟨c.wire, b⟩ with
              ⟨(_ | e') | message, l⟩
            · rw [hrecv] at hone
              cases hone
            · rw [hrecv] at hone
              cases e' with
              | core e' =>
                  rw [look_keep, Function.update_self]
                  exact Option.some_ne_none _
              | _ => cases hone
            · rw [hrecv] at hone
              cases hone

theorem takeConns_names (addrs : List String) (c : Cluster ω) :
    (takeConns addrs c).1.map (·.1) = addrs := by
  induction addrs generalizing c with
  | nil => rfl
  | cons addr addrs ih => exact congrArg (addr :: ·) (ih (c.drop .data addr))

end Cluster

/-! ### Runs -/

section Runs

open Cluster (InBooks dueAt look)

variable {ω : Type} {T : Transport ω} {debts : ω → Debts}

/-- A cluster that has no connection yet. -/
theorem Cluster.inBooks_new (debts : ω → Debts) (env : ω) (bootstrap : List String) (clientId : String) :
    InBooks debts (.new env bootstrap clientId) ∧
      ∀ slot, dueAt debts (.new env bootstrap clientId) slot = 0 := by
  have hlook : ∀ slot, look (.new env bootstrap clientId : Cluster ω) slot = none := by
    rintro ⟨pool, addr⟩
    cases pool <;> exact Std.TreeMap.getElem?_emptyc
  refine ⟨⟨fun slot b hb => ?_, fun slot slot' b b' hb => ?_, fun slot b hb => ?_⟩, fun slot => ?_⟩
  · rw [hlook] at hb
    cases hb
  · rw [hlook] at hb
    cases hb
  · rw [hlook] at hb
    cases hb
  · exact Cluster.owes_of_none (hlook slot)

variable (hT : T.InStep debts)

include hT

theorem Consumer.Started.kept {c : Consumer ω} (h : Consumer.Started T c) : Consumer.Kept debts c := by
  obtain ⟨env, bootstrap, clientId, isolation, credentials, cluster, hconnect, rfl⟩ := h
  obtain ⟨hbooks, hdues⟩ := Cluster.inBooks_new debts env bootstrap clientId
  have hevens := (Cluster.permits_evens hT).connect (.new env bootstrap clientId) hbooks
  rw [hconnect] at hevens
  refine ⟨hevens.1, List.nodup_nil, fun slot => ?_⟩
  rw [Consumer.intended_of_idle rfl]
  exact (hevens.2 slot).trans (hdues slot)

theorem Consumer.kept_run {c : Consumer ω} (h : Consumer.Started T c) (D : Decoders)
    (calls : List Consumer.Call) :
    Consumer.Kept debts (run (Consumer.Call.step T D) c calls) := by
  refine run_induction (h.kept hT) (fun c call hc => ?_) calls
  exact (Consumer.confined_keeping hT).exec D
    (fun c _ hc => hc.after (fun hbooks => ⟨hbooks, fun _ => rfl⟩) rfl) call c hc

theorem Started.atRest {p : Producer ω} (h : Started T p) : Producer.AtRest debts p := by
  have hmade : ∀ {env bootstrap clientId state transactionalId},
      Producer.construct T (.new (.new env bootstrap clientId) state transactionalId) = (.ok (), p) →
      Producer.AtRest debts p := by
    intro env bootstrap clientId state transactionalId hmade
    have hrest := (Producer.confined_resting hT).construct
      (.new (.new env bootstrap clientId) state transactionalId)
      (Cluster.inBooks_new debts env bootstrap clientId)
    rw [hmade] at hrest
    exact hrest
  obtain ⟨env, bootstrap, clientId, hmake | ⟨transactionalId, hmake⟩⟩ := h
  · exact hmade hmake
  · exact hmade hmake

theorem Producer.atRest_run {p : Producer ω} (h : Started T p) (calls : List Call) :
    Producer.AtRest debts (run (Call.step T) p calls) := by
  refine run_induction (h.atRest hT) (fun p call hp => ?_) calls
  exact (Producer.confined_resting hT).exec (fun p _ hp => hp) call p hp

end Runs

/-- In flight is what the owner intends to collect exactly if all of it was written. -/
theorem Cluster.inFlight_iff {ω : Type} {debts : ω → Debts} {c : Cluster ω} (h : InBooks debts c)
    {slot : Slot} {b : Broker} (hb : look c slot = some b) {n : ℕ} (hn : dueAt debts c slot = n) :
    b.conn.inFlight.length = n ↔
      b.conn.inFlight.map (·.correlationId) = (debts c.wire.env).owed b.stream := by
  have howed : ((debts c.wire.env).owed b.stream).length = n := by
    rw [← hn]
    exact (owes_of_some hb).symm
  constructor
  · intro hlength
    refine ((h.listed slot b hb).eq_of_length ?_).symm
    rw [howed, List.length_map, hlength]
  · intro heq
    rw [← howed, ← heq, List.length_map]

/-- A connection on which an error of the protocol came up stays in its pool, unless it
came up while the connection was being opened. With peers that keep in step, the
requests in flight on a pooled connection are those its owner still intends to collect,
exactly as far as they were written: a request too long for a frame is in flight for
good. -/
theorem kept_when_desynchronised {ω : Type} (T : Transport ω) :
    (∀ {α : Type} (as : Body → Option α) (addr : String) (version : ℤ) (req : Request)
        (timeout : ℕ) (c c' : Cluster ω) (e : Core.Error),
      Cluster.callAtWithTimeout T as addr version req timeout c = (.error (.core e), c') →
        (c'.conns[addr]? = none ↔ Cluster.Unopened T .data as addr version req timeout c)) ∧
    (∀ {α : Type} (as : Body → Option α) (addr : String) (version : ℤ) (req : Request)
        (timeout : ℕ) (c c' : Cluster ω) (e : Core.Error),
      Cluster.callCoordinator T as addr version req timeout c = (.error (.core e), c') →
        (c'.coordinatorConns[addr]? = none ↔
          Cluster.Unopened T .coordinator as addr version req timeout c)) ∧
    (∀ {α : Type} (op : ApiKey) (as : Body → Option α) (addrs : List String) (c c' : Cluster ω)
        (outcomes : List (Except Error α)) (i : ℕ) (addr : String) (e : Core.Error),
      (Cluster.recvMany T op as addrs c : Except Error _ × _) = (.ok outcomes, c') →
        addrs[i]? = some addr → outcomes[i]? = some (.error (.core e)) → c'.conns[addr]? ≠ none) ∧
    ∀ debts, T.InStep debts →
      (∀ (D : Decoders) (c : Consumer ω), Consumer.Started T c → ∀ calls slot b,
        (run (Consumer.Call.step T D) c calls).cluster.look slot = some b →
          (b.conn.inFlight.length = (run (Consumer.Call.step T D) c calls).intended slot ↔
            b.conn.inFlight.map (·.correlationId) =
              (debts (run (Consumer.Call.step T D) c calls).cluster.wire.env).owed b.stream)) ∧
      ∀ p : Producer ω, Started T p → ∀ calls slot b,
        (run (Call.step T) p calls).cluster.look slot = some b →
          (b.conn.inFlight.length = 0 ↔
            b.conn.inFlight.map (·.correlationId) =
              (debts (run (Call.step T) p calls).cluster.wire.env).owed b.stream) := by
  refine ⟨fun as addr version req timeout c c' e h => ?_,
    fun as addr version req timeout c c' e h => ?_,
    fun op as addrs c c' outcomes i addr e h haddr houtcome => ?_, fun debts hT =>
      ⟨fun D c hstart calls slot b hb => ?_, fun p hstart calls slot b hb => ?_⟩⟩
  · exact Cluster.unpooled_iff (fun h => Cluster.fails_callOnce h) h
  · exact Cluster.unpooled_iff (fun h => Cluster.fails_callCoordinatorOnce h) h
  · have htaken : Cluster.recvTaken T op as (Cluster.takeConns addrs c).1
        (Cluster.takeConns addrs c).2 = (outcomes, c') := by
      obtain ⟨houtcomes, hc'⟩ := Prod.mk.inj h
      exact Prod.ext (Except.ok.inj houtcomes) hc'
    have hname : ((Cluster.takeConns addrs c).1.map (·.1))[i]? = some addr := by
      rw [Cluster.takeConns_names]
      exact haddr
    have hfatal : (Cluster.recvTaken T op as (Cluster.takeConns addrs c).1
        (Cluster.takeConns addrs c).2).1[i]? = some (.error (.core e)) := by
      rw [htaken]
      exact houtcome
    have hkept := Cluster.recvTaken_kept op hname hfatal
    rw [htaken] at hkept
    exact hkept
  · have hkept := Consumer.kept_run hT hstart D calls
    exact Cluster.inFlight_iff hkept.books hb (hkept.dues slot)
  · have hrest := Producer.atRest_run hT hstart calls
    exact Cluster.inFlight_iff hrest.1 hb (hrest.2 slot)

/-! ### Two transports -/

/-- Streams that hand out a list of answers, each to the oldest request of the stream
that is read. -/
structure Lines where
  owed : List (List ℤ)
  answers : List Body

namespace Lines

def write (stream : ℕ) (frame : Frame) : Act Lines (Option IoError) Unit := fun lines =>
  if stream < lines.owed.length then
    (.ok (), { lines with
      owed := lines.owed.set stream (lines.owed.getD stream [] ++ [frame.correlationId]) })
  else (.error none, lines)

def read (stream : ℕ) : Act Lines (Option IoError) Incoming := fun lines =>
  match lines.owed.getD stream [], lines.answers with
  | id :: ids, body :: answers => (.ok (.frame (.ok id) body), ⟨lines.owed.set stream ids, answers⟩)
  | _, _ => (.ok .closed, lines)

def transport : Transport Lines where
  codec := Tape.codec
  connect _ lines := (.ok lines.owed.length, { lines with owed := lines.owed ++ [[]] })
  write stream frame := mapError (·.getD World.timedOut) (write stream frame)
  read stream := mapError (·.getD World.timedOut) (read stream)
  writeWithin _ := write
  readWithin _ := read
  sleep _ := id
  now := (0, ·)
  systemTime := (0, ·)
  pick := (0, ·)
  nonce := ("", ·)

def debts (lines : Lines) : Debts := ⟨(· < lines.owed.length), fun s => lines.owed.getD s []⟩

theorem beside_set (lines : Lines) (stream : ℕ) (ids : List ℤ) (answers : List Body) :
    Debts.Beside stream (debts lines) (debts ⟨lines.owed.set stream ids, answers⟩) := by
  refine ⟨?_, fun s hs => ?_⟩
  · simp [debts]
  · simp [debts, List.getElem?_set_ne (Ne.symm hs)]

theorem posts_write (stream : ℕ) (frame : Frame) :
    Debts.Posts debts stream frame (write stream frame) := by
  intro lines
  unfold write
  split
  · next hlt => exact ⟨beside_set lines stream _ _, fun _ => by simp [debts, hlt]⟩
  · exact ⟨.refl _ _, nofun⟩

theorem delivers_read (stream : ℕ) : Debts.Delivers debts stream (read stream) := by
  intro lines
  unfold read
  split
  · next id ids body answers hids _ =>
      refine ⟨beside_set lines stream ids answers, fun incoming hok => ?_⟩
      cases hok
      have hlt : stream < lines.owed.length := by
        by_contra hge
        rw [List.getD_eq_getElem?_getD, List.getElem?_eq_none (Nat.le_of_not_lt hge)] at hids
        cases hids
      refine .inr ⟨id, body, rfl, ?_⟩
      change lines.owed.getD stream [] = id :: (lines.owed.set stream ids).getD stream []
      rw [hids]
      simp [hlt]
  · refine ⟨.refl _ _, fun incoming hok => ?_⟩
    cases hok
    exact .inl rfl

theorem inStep : transport.InStep debts where
  connect _ lines stream hok := by
    cases hok
    refine ⟨Nat.lt_irrefl _, ?_⟩
    have hopened : (debts ⟨lines.owed ++ [[]], lines.answers⟩).opened =
        fun s => s = lines.owed.length ∨ (debts lines).opened s := by
      funext s
      rw [eq_iff_iff]
      change s < (lines.owed ++ [[]]).length ↔ s = lines.owed.length ∨ s < lines.owed.length
      rw [List.length_append, List.length_singleton]
      omega
    have howed : (debts ⟨lines.owed ++ [[]], lines.answers⟩).owed =
        Function.update (debts lines).owed lines.owed.length [] := by
      funext s
      change (lines.owed ++ [[]]).getD s [] = _
      rcases Nat.lt_trichotomy s lines.owed.length with hlt | rfl | hgt
      · rw [Function.update_of_ne hlt.ne]
        simp [debts, List.getElem?_append_left hlt]
      · simp
      · rw [Function.update_of_ne hgt.ne']
        have hlength : (lines.owed ++ [[]]).length ≤ s := by
          rw [List.length_append, List.length_singleton]
          exact hgt
        simp [debts, hgt.le, List.getElem?_eq_none hlength]
    exact congrArg₂ Debts.mk hopened howed
  unconnected _ _ _ := nofun
  write stream frame := (posts_write stream frame).mapError _
  read stream := (delivers_read stream).mapError _
  writeWithin _ := posts_write
  readWithin _ := delivers_read
  sleep _ _ := rfl
  now _ := rfl
  systemTime _ := rfl
  pick _ := rfl
  nonce _ := rfl

end Lines

/-- Peers that answer under the wrong correlation id, once a deadline is set. -/
def slipped : Transport Tape :=
  { Tape.transport with
    readWithin := fun _ stream tape =>
      match tape.next stream with
      | (.frame (.ok id) body, tape) => (.ok (.frame (.ok (id + 1)) body), tape)
      | (incoming, tape) => (.ok incoming, tape) }

/-- A cluster that has connected to such a peer, which then answers so. -/
def slippedTo (answers : List Body) : Cluster Tape :=
  (Cluster.connect slipped (.new (.of (.apiVersions ⟨0, []⟩ :: answers)) ["b:1"] "client")).2

def slippedStart : Cluster Tape := slippedTo [.endTxn 0]

/-- The next answers are for a connection to the coordinator. -/
def slippedCoordinator : Cluster Tape := slippedTo [.apiVersions ⟨0, []⟩, .endTxn 0]

def endTxn : Request := .endTxn ⟨"t", ⟨1, 0⟩, true⟩

/-- A mismatch leaves the connection in the pool, where every later call is refused. -/
theorem mismatch_keeps_connection :
    (Cluster.callAt slipped Body.asEndTxn "b:1" 3 endTxn slippedStart).1 =
        .error (.core (.correlation 3 2)) ∧
      ((Cluster.callAt slipped Body.asEndTxn "b:1" 3 endTxn slippedStart).2.conns.contains "b:1") ∧
      (Cluster.callAt slipped Body.asEndTxn "b:1" 3 endTxn
        (Cluster.callAt slipped Body.asEndTxn "b:1" 3 endTxn slippedStart).2).1 =
          .error (.connectionBusy .endTxn "b:1" 1) := by
  decide

/-- The cluster after a request was sent and left outstanding. -/
def slippedSent : Cluster Tape := (Cluster.sendAt slipped "b:1" 3 endTxn slippedStart).2

def linesConsumer : Consumer Lines :=
  Consumer.fromCluster { (Cluster.connect Lines.transport (.new ⟨[], [.apiVersions ⟨0, []⟩]⟩ ["b:1"]
    "client")).2 with credentials := none } .readCommitted

def linesProducer : Producer Lines :=
  (Producer.idempotent Lines.transport ⟨[], [.apiVersions ⟨0, []⟩, .initProducerId ⟨0, 1, 0⟩]⟩ ["b:1"]
    "client").2

theorem kept_when_desynchronised_slipped :
    (¬Cluster.Unopened slipped .data Body.asEndTxn "b:1" 3 endTxn 30000 slippedStart ∧
      ¬Cluster.Unopened slipped .coordinator Body.asEndTxn "b:1" 3 endTxn 30000 slippedCoordinator ∧
      ((Cluster.recvMany slipped .endTxn Body.asEndTxn ["b:1"] :
        Act (Cluster Tape) Error _) slippedSent).2.conns["b:1"]? ≠ none) ∧
    (linesConsumer.cluster.look (.data, "b:1")).isSome ∧
    (∀ b, linesConsumer.cluster.look (.data, "b:1") = some b →
      (b.conn.inFlight.length = linesConsumer.intended (.data, "b:1") ↔
        b.conn.inFlight.map (·.correlationId) =
          (Lines.debts linesConsumer.cluster.wire.env).owed b.stream)) ∧
    (linesProducer.cluster.look (.data, "b:1")).isSome ∧
    ∀ b, linesProducer.cluster.look (.data, "b:1") = some b →
      (b.conn.inFlight.length = 0 ↔
        b.conn.inFlight.map (·.correlationId) =
          (Lines.debts linesProducer.cluster.wire.env).owed b.stream) := by
  have hslipped := kept_when_desynchronised slipped
  have hlines := (kept_when_desynchronised Lines.transport).2.2.2 Lines.debts Lines.inStep
  have hconsumer : Consumer.Started Lines.transport linesConsumer :=
    ⟨⟨[], [.apiVersions ⟨0, []⟩]⟩, ["b:1"], "client", .readCommitted, none, _,
      Prod.fst_eq_iff.mp (by decide), rfl⟩
  have hproducer : Started Lines.transport linesProducer :=
    ⟨⟨[], [.apiVersions ⟨0, []⟩, .initProducerId ⟨0, 1, 0⟩]⟩, ["b:1"], "client",
      .inl (Prod.fst_eq_iff.mp (by decide))⟩
  refine ⟨⟨?_, ?_, ?_⟩, by decide, ?_, by decide, ?_⟩
  · refine mt (hslipped.1 Body.asEndTxn "b:1" 3 endTxn 30000 slippedStart _ (.correlation 3 2)
      (Prod.fst_eq_iff.mp (by decide))).mpr ?_
    exact Option.isSome_iff_ne_none.mp (by decide)
  · refine mt (hslipped.2.1 Body.asEndTxn "b:1" 3 endTxn 30000 slippedCoordinator _ (.correlation 3 2)
      (Prod.fst_eq_iff.mp (by decide))).mpr ?_
    exact Option.isSome_iff_ne_none.mp (by decide)
  · exact hslipped.2.2.1 .endTxn Body.asEndTxn ["b:1"] slippedSent _
      [.error (.core (.correlation 3 2))] 0 "b:1" (.correlation 3 2)
      (Prod.fst_eq_iff.mp (by decide)) rfl rfl
  · exact hlines.1 Consumer.plainDecoders linesConsumer hconsumer [] (.data, "b:1")
  · exact hlines.2 linesProducer hproducer [] (.data, "b:1")

end Barnabas.Client
