import Barnabas.Client.Health
import Barnabas.Client.Linger
import Barnabas.Client.Reporting

/-!
How many windows a flush of a healthy cluster takes.

Every window retires as many batches of each partition as may be in flight, no more,
and each of them counts as one of the attempts that `flush` has. So whether it returns
depends on the longest queue alone: up to the product of the two it is drained, and
beyond that `flush` gives up with everything in order.
-/

namespace Barnabas.Client

open Barnabas.Lib Barnabas.Core Barnabas.Lib.Act

namespace Producer

variable {ω : Type} {T : Transport ω} {Good : ω → Backlog → Prop} {clientId : String}
  {credentials : Option Credentials}

/-! ### Routing -/

/-- The metadata know who leads the partition. -/
def Led (p : Producer ω) (tp : TopicPartition) : Prop :=
  ∃ broker, p.cluster.metadata.leaderFor tp = some broker

theorem leaderAddr_of_led {p : Producer ω} {tp : TopicPartition} (h : p.Led tp) :
    ∃ addr, Cluster.leaderAddr T tp p.cluster = (.ok addr, p.cluster) := by
  obtain ⟨broker, hbroker⟩ := h
  refine ⟨broker.addr, ?_⟩
  rw [Cluster.leaderAddr, bind_of_ok (get_apply _), hbroker]
  rfl

/-- Partitions with a known leader are all routed, and nobody has to be asked. -/
theorem route_of_led {p : Producer ω} {tps : List TopicPartition} (h : ∀ tp ∈ tps, p.Led tp)
    (byBroker : ByBroker) (unroutable : Bool) :
    ∃ byBroker', route T tps (byBroker, unroutable) p = (.ok (byBroker', unroutable), p) ∧
      (routed byBroker').Perm (routed byBroker ++ tps) := by
  induction tps generalizing byBroker with
  | nil => exact ⟨byBroker, rfl, by rw [List.append_nil]⟩
  | cons tp rest ih =>
      obtain ⟨addr, haddr⟩ := leaderAddr_of_led (T := T) (h tp List.mem_cons_self)
      have hattempt : (attempt (onCluster (Cluster.leaderAddr T tp)) :
          Act (Producer ω) Error _) p = (.ok (.ok addr), p) := by
        rw [attempt_apply, onCluster, zoom_apply, haddr]
      obtain ⟨byBroker', hroute, hperm⟩ :=
        ih (fun tp' htp' => h tp' (List.mem_cons_of_mem _ htp'))
          (byBroker.insert addr (byBroker.getD addr [] ++ [tp]))
      refine ⟨byBroker', ?_, hperm.trans ?_⟩
      · rw [route, bind_of_ok hattempt]
        exact hroute
      · refine ((routed_insert_perm byBroker addr tp).append_right rest).trans ?_
        rw [List.append_assoc, List.singleton_append]

/-! ### How deep a window is -/

theorem lt_foldl_max {n a : ℕ} {l : List ℕ} : n < l.foldl max a ↔ n < a ∨ ∃ x ∈ l, n < x := by
  induction l generalizing a with
  | nil => simp
  | cons x l ih =>
      rw [List.foldl_cons, ih, lt_max_iff]
      simp [or_assoc]

/-- A window has a round for each batch of the longest queue, as far as is allowed. -/
theorem lt_windowDepth {p : Producer ω} {byBroker : ByBroker} {n : ℕ} :
    n < p.windowDepth byBroker ↔
      n < p.maxInFlight ∧ ∃ tp ∈ routed byBroker, n < (p.queue tp).length := by
  have hlength : ∀ tp, n < (p.queue tp).length ↔
      ∃ queue, p.pending[tp]? = some queue ∧ n < queue.length := by
    intro tp
    rw [queue, Std.TreeMap.getD_eq_getD_getElem?]
    cases p.pending[tp]? <;> simp
  rw [windowDepth, lt_min_iff, lt_foldl_max, and_comm]
  simp only [Nat.not_lt_zero, false_or, List.mem_filterMap, Option.map_eq_some_iff, hlength, routed]
  refine and_congr_right fun _ => ⟨?_, ?_⟩
  · rintro ⟨_, ⟨tp, htp, queue, hqueue, rfl⟩, hn⟩
    exact ⟨tp, htp, queue, hqueue, hn⟩
  · rintro ⟨tp, htp, queue, hqueue, hn⟩
    exact ⟨_, ⟨tp, htp, queue, hqueue, rfl⟩, hn⟩

/-- What the requests of a round carry: one batch for each partition that still has one. -/
theorem plan_flatMap (p : Producer ω) (round : ℕ) (targets : List RoundTarget) :
    (p.plan round targets).flatMap (·.2) =
      (targets.flatMap (·.2)).filter fun tp => round < (p.queue tp).length := by
  induction targets with
  | nil => rfl
  | cons target rest ih =>
      obtain ⟨addr, keys⟩ := target
      rw [List.flatMap_cons, List.filter_append]
      by_cases h : (keys.filter fun tp => round < (p.queue tp).length) = []
      · rw [plan_cons_of_nil h, ih, h, List.nil_append]
      · rw [plan_cons_of_ne h, List.flatMap_cons, ih]

theorem plan_ne_nil {p : Producer ω} {byBroker : ByBroker} {round : ℕ}
    (h : round < p.windowDepth byBroker) : p.plan round byBroker.toList ≠ [] := by
  obtain ⟨-, tp, htp, hlt⟩ := lt_windowDepth.mp h
  intro hnil
  have hmem : tp ∈ (p.plan round byBroker.toList).flatMap (·.2) := by
    rw [plan_flatMap]
    exact List.mem_filter.mpr ⟨htp, by simpa using hlt⟩
  rw [hnil] at hmem
  cases hmem

/-! ### Writing a window -/

variable (hT : Healthy T Good clientId credentials)

include hT

theorem sendRound_of_healthy {p : Producer ω}
    (hask : ∀ keys round, Sendable T.codec (p.ask keys round)) (round : ℕ)
    (targets sent : List RoundTarget) {c : Cluster ω} (hid : c.clientId = clientId)
    (hcredentials : c.credentials = credentials) {due : String → List Request}
    (hc : Cluster.Serving Good c.wire.env c.look due) :
    ∃ c', sendRound T round targets sent { p with cluster := c } =
        (.ok (sent ++ p.plan round targets, none), { p with cluster := c' }) ∧
      Cluster.Serving Good c'.wire.env c'.look
        (fun a => due a ++ p.asked round (p.plan round targets) a) ∧ Cluster.Alike c c' := by
  induction targets generalizing sent c due with
  | nil =>
      refine ⟨c, ?_, ?_, .refl c⟩
      · rw [sendRound, plan, List.filterMap_nil, List.append_nil]
        rfl
      · have hsame : (fun a => due a ++ p.asked round (p.plan round []) a) = due := by
          funext a
          exact List.append_nil _
        rw [hsame]
        exact hc
  | cons target rest ih =>
      obtain ⟨addr, keys⟩ := target
      by_cases htaking : (keys.filter fun tp => round < (p.queue tp).length) = []
      · rw [plan_cons_of_nil htaking]
        obtain ⟨c', heq, hserving, halike⟩ := ih sent hid hcredentials hc
        refine ⟨c', ?_, hserving, halike⟩
        rw [sendRound_skips htaking, heq]
      · let taking := keys.filter fun tp => round < (p.queue tp).length
        obtain ⟨c₁, hsend, hserving₁, halike₁⟩ :=
          Cluster.sendAt_of_healthy hT (hask taking round) hid hcredentials hc 9 addr
        obtain ⟨c', heq, hserving, halike⟩ := ih (sent ++ [(addr, taking)])
          (halike₁.clientId.trans hid) (halike₁.credentials.trans hcredentials) hserving₁
        refine ⟨c', ?_, ?_, halike₁.trans halike⟩
        · have happend : sent ++ p.plan round ((addr, keys) :: rest) =
              sent ++ [(addr, taking)] ++ p.plan round rest := by
            rw [plan_cons_of_ne htaking]
            exact List.append_cons ..
          rw [sendRound_sends htaking hsend, heq, happend]
        · have hsame : (fun a => due a ++ p.asked round (p.plan round ((addr, keys) :: rest)) a) =
              fun a => Function.update due addr (due addr ++ [p.ask taking round]) a ++
                p.asked round (p.plan round rest) a := by
            funext a
            rw [plan_cons_of_ne htaking, ← List.singleton_append, asked_append, ← List.append_assoc]
            by_cases ha : a = addr
            · subst ha
              rw [Function.update_self]
              simp [asked, taking]
            · rw [Function.update_of_ne ha]
              simp [asked, Ne.symm ha]
          rw [hsame]
          exact hserving

/-- Writing a window of which no round is empty. -/
theorem sendWindow_of_healthy {p : Producer ω}
    (hask : ∀ keys round, Sendable T.codec (p.ask keys round)) (byBroker : ByBroker)
    (left done : ℕ) (hplan : ∀ round < done + left, p.plan round byBroker.toList ≠ [])
    {c : Cluster ω} (hid : c.clientId = clientId) (hcredentials : c.credentials = credentials)
    (hc : Cluster.Serving Good c.wire.env c.look (p.asks 0 (p.planned byBroker.toList done))) :
    ∃ c', sendWindow T byBroker left done (p.planned byBroker.toList done)
          { p with cluster := c } =
        (.ok (p.planned byBroker.toList (done + left)), { p with cluster := c' }) ∧
      Cluster.Serving Good c'.wire.env c'.look
        (p.asks 0 (p.planned byBroker.toList (done + left))) ∧ Cluster.Alike c c' := by
  induction left generalizing done c with
  | zero => exact ⟨c, rfl, hc, .refl c⟩
  | succ left ih =>
      obtain ⟨c₁, hround, hserving₁, halike₁⟩ :=
        sendRound_of_healthy hT hask done byBroker.toList [] hid hcredentials hc
      have hnext : (fun a => p.asks 0 (p.planned byBroker.toList done) a ++
          p.asked done (p.plan done byBroker.toList) a) =
            p.asks 0 (p.planned byBroker.toList (done + 1)) := by
        funext a
        rw [planned_succ, asks_concat, length_planned, Nat.zero_add]
      rw [hnext] at hserving₁
      have hsucc : done + (left + 1) = done + 1 + left := by omega
      obtain ⟨c', heq, hserving, halike⟩ := ih (done + 1) (by rwa [← hsucc])
        (halike₁.clientId.trans hid) (halike₁.credentials.trans hcredentials) hserving₁
      refine ⟨c', ?_, by rw [hsucc]; exact hserving, halike₁.trans halike⟩
      rw [sendWindow, bind_of_ok hround]
      dsimp only
      rw [List.nil_append, if_neg (hplan done (by omega)), ← planned_succ, hsucc]
      exact heq

/-! ### Collecting a window -/

omit hT in
/-- An answer that accepts everything has a code for each partition of its request. -/
theorem answerCodes_of_accepts {p : Producer ω} {round : ℕ} {target : RoundTarget}
    (hcarried : ∀ tp ∈ target.2, round < (p.queue tp).length) {resp : ProduceResponse}
    (h : Client.Accepts (p.produceRequest target.2 round) resp) :
    ((answerCodes (target, .ok resp)).map (·.1)).Perm target.2 ∧
      ∀ e ∈ answerCodes (target, .ok resp), e.2.isOk := by
  rw [answerCodes_ok]
  constructor
  · have hkeys : ((target.2.filterMap fun tp => ((p.queue tp)[round]?).map fun batch =>
        (tp, batch)).map (·.1)) = target.2 := by
      rw [List.map_filterMap]
      have hsome : ∀ tp ∈ target.2, (Option.map (·.1) (((p.queue tp)[round]?).map fun batch =>
          (tp, batch))) = some tp := by
        intro tp htp
        rw [List.getElem?_eq_getElem (hcarried tp htp)]
        rfl
      rw [List.filterMap_congr hsome, List.filterMap_some]
    rw [List.map_map]
    refine h.1.trans ?_
    have hbatches := (batchesOf_produceRequest p target.2 round).map (·.1)
    rwa [hkeys] at hbatches
  · intro e he
    obtain ⟨part, hpart, rfl⟩ := List.mem_map.mp he
    rw [ErrorCode.isOk_iff, h.2 part hpart]
    rfl

omit hT in
/-- The answers of a round in which everything was accepted. -/
theorem round_of_accepts {p : Producer ω} {round : ℕ} {targets : List RoundTarget}
    (hcarried : ∀ target ∈ targets, ∀ tp ∈ target.2, round < (p.queue tp).length)
    {rs : List (Except Error ProduceResponse)}
    (h : List.Forall₂ (fun target r => ∃ resp, r = .ok resp ∧
      Client.Accepts (p.produceRequest target.2 round) resp) targets rs) :
    (((targets.zip rs).flatMap answerCodes).map (·.1)).Perm (targets.flatMap (·.2)) ∧
      (∀ e ∈ (targets.zip rs).flatMap answerCodes, e.2.isOk) ∧
      (targets.zip rs).findSome? answerError = none := by
  induction h with
  | nil => exact ⟨.nil, nofun, rfl⟩
  | @cons target r targets rs hone _ ih =>
      obtain ⟨resp, rfl, haccepts⟩ := hone
      obtain ⟨hnamed, hok⟩ := answerCodes_of_accepts (hcarried target List.mem_cons_self) haccepts
      obtain ⟨hnamed', hok', herror⟩ := ih fun t ht => hcarried t (List.mem_cons_of_mem _ ht)
      rw [List.zip_cons_cons, List.flatMap_cons, List.flatMap_cons]
      refine ⟨?_, fun e he => ?_, ?_⟩
      · rw [List.map_append]
        exact hnamed.append hnamed'
      · rcases List.mem_append.mp he with he | he
        · exact hok e he
        · exact hok' e he
      · exact herror

omit hT in
theorem plan_carries {p : Producer ω} {round : ℕ} {targets : List RoundTarget} {target : RoundTarget}
    (h : target ∈ p.plan round targets) : ∀ tp ∈ target.2, round < (p.queue tp).length := by
  intro tp htp
  have hmem : tp ∈ (p.plan round targets).flatMap (·.2) := List.mem_flatMap.mpr ⟨target, h, htp⟩
  rw [plan_flatMap] at hmem
  simpa using (List.mem_filter.mp hmem).2

/-- The rounds of a window from one on. -/
theorem collectWindow_of_healthy {p : Producer ω} {targets : List RoundTarget}
    (hnodup : (targets.map (·.1)).Nodup) (round n : ℕ) {c : Cluster ω}
    (offsets : List ((TopicPartition × ℕ) × ℤ))
    (hc : Cluster.Serving Good c.wire.env c.look
      (p.asks round ((List.range' round n).map fun r => p.plan r targets))) :
    ∃ codes c' offsets', collectWindow T round ((List.range' round n).map fun r => p.plan r targets)
          { p with cluster := c, offsets } =
        (.ok (codes, none), { p with cluster := c', offsets := offsets' }) ∧
      (codes.flatten.map (·.1)).Perm ((List.range' round n).flatMap fun r =>
        (targets.flatMap (·.2)).filter fun tp => r < (p.queue tp).length) ∧
      (∀ e ∈ codes.flatten, e.2.isOk) ∧
      Cluster.Serving Good c'.wire.env c'.look (fun _ => []) ∧ Cluster.Alike c c' := by
  induction n generalizing round c offsets with
  | zero => exact ⟨[], c, offsets, rfl, .nil, nofun, hc, .refl c⟩
  | succ n ih =>
      let rest := (List.range' (round + 1) n).map fun r => p.plan r targets
      have hrounds : ((List.range' round (n + 1)).map fun r => p.plan r targets) =
          p.plan round targets :: rest := by
        rw [List.range'_succ, List.map_cons]
      rw [hrounds] at hc ⊢
      let asked := (p.plan round targets).map fun t => (t.1, p.produceRequest t.2 round)
      have hnames : asked.map (·.1) = (p.plan round targets).map (·.1) := by
        rw [List.map_map]
        rfl
      have hplanned : ((p.plan round targets).map (·.1)).Nodup :=
        (plan_addrs p round targets).nodup hnodup
      have hdue : ∀ e ∈ asked, ∃ others,
          p.asks round (p.plan round targets :: rest) e.1 = .produce e.2 :: others := by
        intro e he
        obtain ⟨t, ht, rfl⟩ := List.mem_map.mp he
        refine ⟨p.asks (round + 1) rest t.1, ?_⟩
        rw [asks, asked_of_mem p round hplanned ht]
        rfl
      obtain ⟨rs, c₁, hrecv, haccepts, hserving₁, halike₁⟩ :=
        Cluster.recvMany_of_healthy (ε := Error) hT (hnames ▸ hplanned) hdue hc .produce
      rw [hnames] at hrecv
      rw [List.forall₂_map_left_iff] at haccepts
      obtain ⟨hnamed, hok, herror⟩ := round_of_accepts (fun t ht => plan_carries ht) haccepts
      have hheard : Cluster.heardFrom (asked.map (·.1)) (p.asks round (p.plan round targets :: rest)) =
          p.asks (round + 1) rest := by
        funext a
        rw [hnames, Cluster.heardFrom, asks]
        by_cases ha : a ∈ (p.plan round targets).map (·.1)
        · obtain ⟨t, ht, rfl⟩ := List.mem_map.mp ha
          rw [if_pos ha, asked_of_mem p round hplanned ht]
          rfl
        · rw [if_neg ha, asked_of_not_mem p round ha, List.nil_append]
      rw [hheard] at hserving₁
      let offsets₁ :=
        (((p.plan round targets).zip rs).flatMap (answerOffsets round)).reverse ++ offsets
      obtain ⟨codes, c', offsets', hcollect, hnamed', hok', hserving, halike⟩ :=
        ih (round + 1) offsets₁ hserving₁
      have honCluster : (onCluster (Cluster.recvMany T .produce Body.asProduce
          ((p.plan round targets).map (·.1))) : Act (Producer ω) Error _)
            { p with cluster := c, offsets } = (.ok rs, { p with cluster := c₁, offsets }) := by
        rw [onCluster, zoom_apply]
        dsimp only
        rw [hrecv]
      refine ⟨((p.plan round targets).zip rs).flatMap answerCodes :: codes, c', offsets', ?_, ?_,
        fun e he => ?_, hserving, halike₁.trans halike⟩
      · rw [collectWindow, bind_of_ok honCluster, bind_of_ok (modify_apply _ _), bind_of_ok hcollect,
          herror]
        rfl
      · rw [List.flatten_cons, List.map_append, List.range'_succ, List.flatMap_cons,
          ← plan_flatMap]
        exact hnamed.append hnamed'
      · rw [List.flatten_cons, List.mem_append] at he
        rcases he with he | he
        · exact hok e he
        · exact hok' e he

/-! ### Settling a window -/

omit hT

theorem inOrder_map_snd (codes : List (List (TopicPartition × ErrorCode))) :
    (inOrder codes).map (·.2) = codes.flatten := by
  have hfrom : ∀ round, ((codes.zipIdx round).flatMap fun e =>
      e.1.map fun result => (e.2, result)).map (·.2) = codes.flatten := by
    induction codes with
    | nil => exact fun _ => rfl
    | cons first rest ih =>
        intro round
        rw [List.zipIdx_cons, List.flatMap_cons, List.map_append, ih, List.flatten_cons, List.map_map]
        congr 1
        exact List.map_id' first
  exact hfrom 0

/-- Where nothing failed there is nothing to judge. -/
theorem judge_of_ok {answers : List (ℕ × TopicPartition × ErrorCode)}
    (h : ∀ e ∈ answers, e.2.2.isOk) (verdict : Verdict) (p : Producer ω) :
    judge answers verdict p = (.ok verdict, p) := by
  induction answers with
  | nil => rfl
  | cons answer rest ih =>
      obtain ⟨round, tp, code⟩ := answer
      rw [judge, if_pos (h _ List.mem_cons_self)]
      exact ih fun e he => h e (List.mem_cons_of_mem _ he)

/-- Where nothing failed every answer retires a batch. -/
theorem retiring_of_ok (answers : List (ℕ × TopicPartition × ErrorCode)) (tp : TopicPartition) :
    retiring ∅ answers tp = answers.filter fun e => e.2.1 = tp := by
  rw [retiring, List.filter_eq_self]
  intro e _
  simp

/-- A partition is in as many rounds of a window as it has batches. -/
theorem count_rounds {keys : List TopicPartition} (hnodup : keys.Nodup) (len : TopicPartition → ℕ)
    (n : ℕ) (tp : TopicPartition) :
    ((List.range n).flatMap fun r => keys.filter fun tp => r < len tp).count tp =
      if tp ∈ keys then min n (len tp) else 0 := by
  induction n with
  | zero => simp
  | succ n ih =>
      rw [List.range_succ, List.flatMap_append, List.count_append, ih, List.flatMap_singleton]
      by_cases hkey : tp ∈ keys
      · rw [if_pos hkey, if_pos hkey]
        by_cases hlt : n < len tp
        · rw [List.count_filter (by simpa using hlt), List.count_eq_one_of_mem hnodup hkey]
          omega
        · have hout : tp ∉ keys.filter fun tp => n < len tp := by simp [hlt]
          rw [List.count_eq_zero_of_not_mem hout]
          omega
      · have hout : tp ∉ keys.filter fun tp => n < len tp := by simp [hkey]
        rw [if_neg hkey, if_neg hkey, List.count_eq_zero_of_not_mem hout]

/-- What is kept in the map of queues are the queues that are not empty. -/
theorem mem_retained {p : Producer ω} {tp : TopicPartition} :
    tp ∈ (p.pending.filter fun _ queue => !queue.isEmpty) ↔ p.queue tp ≠ [] := by
  rw [Std.TreeMap.mem_iff_isSome_getElem?, Std.TreeMap.getElem?_filter', queue,
    Std.TreeMap.getD_eq_getD_getElem?]
  cases p.pending[tp]? with
  | none => simp
  | some queue => cases queue <;> simp

theorem isEmpty_retained {p : Producer ω} :
    (p.pending.filter fun _ queue => !queue.isEmpty).isEmpty ↔ ∀ tp, p.queue tp = [] := by
  rw [Std.TreeMap.isEmpty_iff_forall_not_mem]
  exact forall_congr' fun tp => by rw [mem_retained, not_not]

/-- A producer with nothing outstanding, whose cluster is well, that knows the leaders of
what is pending and can send it. -/
structure Ready (T : Transport ω) (Good : ω → Backlog → Prop) (clientId : String)
    (credentials : Option Credentials) (p : Producer ω) : Prop where
  serving : Cluster.Serving Good p.cluster.wire.env p.cluster.look fun _ => []
  clientId : p.cluster.clientId = clientId
  credentials : p.cluster.credentials = credentials
  led : ∀ tp, p.queue tp ≠ [] → p.Led tp
  sendable : ∀ keys round, Sendable T.codec (p.ask keys round)

/-- From `p` to `p'` every queue lost what may be in flight, and `more` has an entry for
each batch. -/
structure Advanced (p p' : Producer ω) (more : List (TopicPartition × ℤ)) : Prop where
  queue : ∀ tp, p'.queue tp = (p.queue tp).drop p.maxInFlight
  entries : ∀ tp, (more.filter (·.1 = tp)).length = min p.maxInFlight (p.queue tp).length
  maxInFlight : p'.maxInFlight = p.maxInFlight

/-- The requests of the producer whose queues advanced are later ones of the producer it
was. -/
theorem ask_of_advanced {p : Producer ω} {c : Cluster ω} {pending : PartitionMap (List Batch)}
    {offsets : List ((TopicPartition × ℕ) × ℤ)}
    (h : ∀ tp, queue { p with cluster := c, pending, offsets } tp = (p.queue tp).drop p.maxInFlight)
    (keys : List TopicPartition) (round : ℕ) :
    ask { p with cluster := c, pending, offsets } keys round = p.ask keys (p.maxInFlight + round) := by
  have hget : ∀ tp, (pending.getD tp [])[round]? = (p.queue tp)[p.maxInFlight + round]? := by
    intro tp
    rw [← List.getElem?_drop, ← h tp]
    rfl
  simp only [ask, produceRequest, hget]
  rfl

theorem Ready.advanced {p : Producer ω} (hp : Ready T Good clientId credentials p) {c : Cluster ω}
    (halike : Cluster.Alike p.cluster c)
    (hserving : Cluster.Serving Good c.wire.env c.look fun _ => [])
    {pending : PartitionMap (List Batch)} {offsets : List ((TopicPartition × ℕ) × ℤ)}
    (hqueue : ∀ tp, queue { p with cluster := c, pending, offsets } tp =
      (p.queue tp).drop p.maxInFlight) :
    Ready T Good clientId credentials { p with cluster := c, pending, offsets } where
  serving := hserving
  clientId := halike.clientId.trans hp.clientId
  credentials := halike.credentials.trans hp.credentials
  led tp htp := by
    rw [hqueue tp] at htp
    have hne : p.queue tp ≠ [] := by
      intro hnil
      rw [hnil, List.drop_nil] at htp
      exact htp rfl
    obtain ⟨broker, hbroker⟩ := hp.led tp hne
    refine ⟨broker, ?_⟩
    change c.metadata.leaderFor tp = some broker
    rw [halike.metadata]
    exact hbroker
  sendable keys round := by
    rw [ask_of_advanced hqueue]
    exact hp.sendable keys _

include hT

/-- Waiting leaves the connections as they are. -/
theorem backoff_of_healthy (attempt : ℕ) {p : Producer ω} {due : String → List Request}
    (hc : Cluster.Serving Good p.cluster.wire.env p.cluster.look due) :
    ∃ c, backoff T attempt p = (.ok (), { p with cluster := c }) ∧ Cluster.Alike p.cluster c ∧
      Cluster.Serving Good c.wire.env c.look due := by
  obtain ⟨k, hgood, hmatched⟩ := hc
  let wait := min (retryBackoff * 2 ^ min attempt 16) retryBackoffMax
  have hlook := Cluster.look_wire p.cluster ⟨T.sleep wait p.cluster.wire.env, p.cluster.wire.sent⟩
  refine ⟨_, rfl, ⟨rfl, rfl, rfl⟩, k, hT.sleep wait _ _ hgood, ?_⟩
  rw [← hlook] at hmatched
  exact hmatched

/-- The outcome of an attempt: all is written, or there is more to do. -/
def Attempted (p p' : Producer ω) (written more : List (TopicPartition × ℤ))
    (outcome : List (TopicPartition × ℤ) ⊕ List (TopicPartition × ℤ)) : Prop :=
  Advanced p p' more ∧
    ((∀ tp, p'.queue tp = []) ∧ outcome = .inr (sortWritten (written ++ more)) ∨
      (∃ tp, p'.queue tp ≠ []) ∧ outcome = .inl (written ++ more))

/-- Settling a window of which all was accepted. -/
theorem settleWindow_of_healthy {p : Producer ω} (hp : Ready T Good clientId credentials p)
    {codes : List (List (TopicPartition × ErrorCode))} (hok : ∀ e ∈ codes.flatten, e.2.isOk)
    (hcount : ∀ tp, (codes.flatten.map (·.1)).count tp = min p.maxInFlight (p.queue tp).length)
    {c : Cluster ω} (halike : Cluster.Alike p.cluster c)
    (hserving : Cluster.Serving Good c.wire.env c.look fun _ => [])
    (offsets : List ((TopicPartition × ℕ) × ℤ)) (attempt : ℕ)
    (written : List (TopicPartition × ℤ)) :
    ∃ outcome more p', settleWindow T attempt written codes { p with cluster := c, offsets } =
        (.ok outcome, p') ∧ Attempted p p' written more outcome ∧
      Ready T Good clientId credentials p' := by
  have hanswers : ∀ e ∈ inOrder codes, e.2.2.isOk := by
    intro e he
    refine hok e.2 ?_
    rw [← inOrder_map_snd]
    exact List.mem_map_of_mem he
  have hretiring : ∀ tp, (retiring ∅ (inOrder codes) tp).length =
      min p.maxInFlight (p.queue tp).length := by
    intro tp
    rw [retiring_of_ok, ← hcount, ← inOrder_map_snd, List.map_map, List.count, List.countP_map,
      List.countP_eq_length_filter]
    rfl
  let retired := (inOrder codes).foldl (retireOne ∅ offsets) (p.pending, [])
  let pending := retired.1.filter fun _ queue => !queue.isEmpty
  let p₁ : Producer ω := { p with cluster := c, pending, offsets := [] }
  have hqueue : ∀ tp, p₁.queue tp = (p.queue tp).drop p.maxInFlight := by
    intro tp
    change (retired.1.filter fun _ queue => !queue.isEmpty).getD tp [] = _
    rw [queue_retain { p with pending := retired.1 } tp]
    change retired.1.getD tp [] = _
    rw [queue_retire, hretiring]
    change (p.queue tp).drop _ = _
    rcases le_total p.maxInFlight (p.queue tp).length with h | h
    · rw [min_eq_left h]
    · rw [min_eq_right h, List.drop_length, List.drop_eq_nil_of_le h]
  have hadvanced : ∀ c', Advanced p { p₁ with cluster := c' } retired.2 := by
    intro c'
    refine ⟨hqueue, fun tp => ?_, rfl⟩
    rw [written_retire, List.filter_nil, List.nil_append, List.length_map, List.length_take, hretiring]
    change min (p.queue tp).length (min p.maxInFlight (p.queue tp).length) = _
    omega
  rw [settleWindow, bind_of_ok (judge_of_ok hanswers _ _)]
  have hretire : (modifyGet (retire ∅ (inOrder codes)) : Act (Producer ω) Error _)
      { p with cluster := c, offsets } =
        (.ok retired.2, { p with cluster := c, pending := retired.1, offsets := [] }) := rfl
  dsimp only
  rw [bind_of_ok hretire, retainQueued, bind_of_ok (modify_apply _ _), bind_of_ok (get_apply _)]
  by_cases hempty : pending.isEmpty
  · refine ⟨_, retired.2, p₁, congrFun (if_pos hempty) p₁, ⟨hadvanced c, .inl ⟨?_, rfl⟩⟩,
      hp.advanced halike hserving hqueue⟩
    exact fun tp => Std.TreeMap.getD_of_isEmpty hempty
  · obtain ⟨c', hsleep, halike', hserving'⟩ := backoff_of_healthy hT attempt (p := p₁) hserving
    refine ⟨_, retired.2, { p₁ with cluster := c' }, ?_, ⟨hadvanced c', .inr ⟨?_, rfl⟩⟩,
      hp.advanced (halike.trans halike') hserving' hqueue⟩
    · refine (congrFun (if_neg hempty) p₁).trans ?_
      have hrefresh : refreshTopics T [] p₁ = (.ok (), p₁) := rfl
      simp only [Bool.false_eq_true, if_false]
      rw [bind_of_ok hrefresh, bind_of_ok hsleep]
      rfl
    · by_contra hall
      push Not at hall
      refine hempty (isEmpty_retained (p := { p with pending := retired.1 }).mpr fun tp => ?_)
      rw [← queue_retain]
      exact hall tp

/-- An attempt of `flush`. -/
theorem flushOnce_of_healthy {p : Producer ω} (hp : Ready T Good clientId credentials p)
    (attempt : ℕ) (written : List (TopicPartition × ℤ)) :
    ∃ outcome more p', flushOnce T attempt written p = (.ok outcome, p') ∧
      Attempted p p' written more outcome ∧ Ready T Good clientId credentials p' := by
  let pending := p.pending.filter fun _ queue => !queue.isEmpty
  let p₀ : Producer ω := { p with pending }
  have hqueue : ∀ tp, p₀.queue tp = p.queue tp := queue_retain p
  have hp₀ : Ready T Good clientId credentials p₀ := by
    refine ⟨hp.serving, hp.clientId, hp.credentials, fun tp htp => ?_, fun keys round => ?_⟩
    · exact hp.led tp (hqueue tp ▸ htp)
    · have hask : p₀.ask keys round = p.ask keys round := by
        have hget : ∀ tp, (pending.getD tp [])[round]? = (p.pending.getD tp [])[round]? := by
          intro tp
          exact congrArg (·[round]?) (hqueue tp)
        simp only [ask, produceRequest, p₀, hget]
      rw [hask]
      exact hp.sendable keys round
  -- what is true of the producer without the empty queues is true of this one
  suffices h : ∃ outcome more p', flushOnce T attempt written p = (.ok outcome, p') ∧
      Attempted p₀ p' written more outcome ∧ Ready T Good clientId credentials p' by
    obtain ⟨outcome, more, p', heq, ⟨hadvanced, hout⟩, hready⟩ := h
    refine ⟨outcome, more, p', heq, ⟨⟨fun tp => ?_, fun tp => ?_, hadvanced.maxInFlight⟩, hout⟩, hready⟩
    · rw [hadvanced.queue, hqueue]
    · rw [hadvanced.entries, hqueue]
  rw [flushOnce, retainQueued, bind_of_ok (modify_apply _ _), bind_of_ok (get_apply _)]
  by_cases hempty : pending.isEmpty
  · have hnil : ∀ tp, p₀.queue tp = [] := fun tp => Std.TreeMap.getD_of_isEmpty hempty
    refine ⟨_, [], p₀, congrFun (if_pos hempty) p₀, ⟨⟨fun tp => ?_, fun tp => ?_, rfl⟩,
      .inl ⟨hnil, by rw [List.append_nil]⟩⟩, hp₀⟩
    · rw [hnil, List.drop_nil]
    · rw [hnil, List.length_nil, Nat.min_zero]
      rfl
  · have hkeys : ∀ tp, tp ∈ pending.keys ↔ p₀.queue tp ≠ [] := by
      intro tp
      rw [Std.TreeMap.mem_keys, mem_retained, hqueue]
    obtain ⟨byBroker, hroute, hperm⟩ := route_of_led (T := T)
      (fun tp htp => hp₀.led tp ((hkeys tp).mp htp)) ∅ false
    have hperm : (routed byBroker).Perm pending.keys := hperm
    have hmem : ∀ tp, tp ∈ routed byBroker ↔ p₀.queue tp ≠ [] := fun tp =>
      hperm.mem_iff.trans (hkeys tp)
    have hbroker : ¬byBroker.isEmpty := by
      intro hnone
      rw [Bool.not_eq_true, Std.TreeMap.isEmpty_eq_false_iff_exists_mem] at hempty
      obtain ⟨tp, htp⟩ := hempty
      have hrouted := hperm.mem_iff.mpr (Std.TreeMap.mem_keys.mpr htp)
      rw [← Std.TreeMap.isEmpty_toList, List.isEmpty_iff] at hnone
      rw [routed, hnone] at hrouted
      cases hrouted
    let depth := p₀.windowDepth byBroker
    have hstart : Cluster.Serving Good p₀.cluster.wire.env p₀.cluster.look
        (p₀.asks 0 (p₀.planned byBroker.toList 0)) := hp₀.serving
    obtain ⟨c, hsend, hserving, halike⟩ := sendWindow_of_healthy hT hp₀.sendable byBroker depth 0
      (fun round hround => plan_ne_nil (by simpa using hround)) hp₀.clientId hp₀.credentials hstart
    have hplanned : p₀.planned byBroker.toList (0 + depth) =
        (List.range' 0 depth).map fun r => p₀.plan r byBroker.toList := by
      rw [planned, Nat.zero_add, List.range_eq_range']
    rw [hplanned] at hsend hserving
    obtain ⟨codes, c', offsets', hcollect, hnamed, hok, hserving', halike'⟩ :=
      collectWindow_of_healthy hT (nodup_addrs byBroker) 0 depth p₀.offsets hserving
    have hcount : ∀ tp, (codes.flatten.map (·.1)).count tp =
        min p₀.maxInFlight (p₀.queue tp).length := by
      intro tp
      have hrounds := count_rounds (hperm.nodup_iff.mpr Std.TreeMap.nodup_keys)
        (fun tp => (p₀.queue tp).length) depth tp
      rw [List.range_eq_range'] at hrounds
      rw [hnamed.count_eq]
      refine hrounds.trans ?_
      by_cases htp : tp ∈ routed byBroker
      · rw [if_pos htp]
        refine eq_of_forall_lt_iff fun n => ?_
        rw [lt_min_iff, lt_min_iff, lt_windowDepth]
        exact ⟨fun h => ⟨h.1.1, h.2⟩, fun h => ⟨⟨h.1, tp, htp, h.2⟩, h.2⟩⟩
      · have hnil : p₀.queue tp = [] := by
          by_contra hne
          exact htp ((hmem tp).mpr hne)
        rw [if_neg htp, hnil, List.length_nil, Nat.min_zero]
    obtain ⟨outcome, more, p', hsettle, hattempted, hready⟩ := settleWindow_of_healthy hT hp₀ hok
      hcount (halike.trans halike') hserving' offsets' attempt written
    refine ⟨outcome, more, p', ?_, hattempted, hready⟩
    refine ((congrFun (if_neg hempty) p₀).trans (bind_of_ok hroute)).trans ?_
    refine (congrFun (if_neg hbroker) p₀).trans ?_
    have hsend : sendWindow T byBroker depth 0 [] p₀ =
        (.ok ((List.range' 0 depth).map fun r => p₀.plan r byBroker.toList),
          { p₀ with cluster := c }) := hsend
    exact (bind_of_ok hsend).trans ((bind_of_ok hcollect).trans hsettle)

/-- Enough attempts: everything is written. -/
theorem attempts_drain {p : Producer ω} (hp : Ready T Good clientId credentials p) (left i : ℕ)
    (hleft : 0 < left) (written : List (TopicPartition × ℤ))
    (hfew : ∀ tp, (p.queue tp).length ≤ left * p.maxInFlight) :
    ∃ more p', Act.attempts (flushOnce T) (fun _ => do throw (← get).stillPending) left i written p =
        (.ok (sortWritten (written ++ more)), p') ∧
      ∀ tp, (more.filter (·.1 = tp)).length = (p.queue tp).length := by
  induction left generalizing p i written with
  | zero => omega
  | succ left ih =>
      obtain ⟨outcome, more, p', honce, ⟨hadvanced, hout⟩, hready⟩ :=
        flushOnce_of_healthy hT hp i written
      rw [attempts, andThen, honce]
      rcases hout with ⟨hempty, rfl⟩ | ⟨⟨tp, htp⟩, rfl⟩
      · refine ⟨more, p', rfl, fun tp => ?_⟩
        have hlength := congrArg List.length (hempty tp)
        rw [hadvanced.queue, List.length_drop, List.length_nil] at hlength
        rw [hadvanced.entries]
        omega
      · have hrest : ∀ tp, (p'.queue tp).length ≤ left * p'.maxInFlight := by
          intro tp
          have hlen := hfew tp
          rw [Nat.succ_mul] at hlen
          rw [hadvanced.queue, List.length_drop, hadvanced.maxInFlight]
          omega
        have hpos : 0 < left := by
          by_contra hnot
          have hlen := hrest tp
          rw [Nat.eq_zero_of_not_pos hnot, Nat.zero_mul, Nat.le_zero, List.length_eq_zero_iff] at hlen
          exact htp hlen
        obtain ⟨others, p'', hrun, hentries⟩ := ih hready (i + 1) hpos (written ++ more) hrest
        refine ⟨more ++ others, p'', by rw [← List.append_assoc]; exact hrun, fun tp => ?_⟩
        rw [List.filter_append, List.length_append, hadvanced.entries, hentries, hadvanced.queue,
          List.length_drop]
        omega

/-- Too few attempts: `flush` fails with batches left over. -/
theorem attempts_exhausted {p : Producer ω} (hp : Ready T Good clientId credentials p)
    (left i : ℕ) (written : List (TopicPartition × ℤ)) {tp : TopicPartition}
    (hmany : left * p.maxInFlight < (p.queue tp).length) :
    ∃ e p', Act.attempts (flushOnce T) (fun _ => do throw (← get).stillPending) left i written p =
      (.error e, p') := by
  induction left generalizing p i written with
  | zero => exact ⟨_, _, rfl⟩
  | succ left ih =>
      obtain ⟨outcome, more, p', honce, ⟨hadvanced, hout⟩, hready⟩ :=
        flushOnce_of_healthy hT hp i written
      rw [Nat.succ_mul] at hmany
      have hrest : left * p'.maxInFlight < (p'.queue tp).length := by
        rw [hadvanced.queue, List.length_drop, hadvanced.maxInFlight]
        omega
      rw [attempts, andThen, honce]
      rcases hout with ⟨hempty, -⟩ | ⟨-, rfl⟩
      · rw [hempty tp] at hrest
        exact absurd hrest (Nat.not_lt_zero _)
      · exact ih hready (i + 1) (written ++ more) hrest

/-! ### What is waiting to be sent -/

omit hT

/-- The batches of a partition, with the one that its stage becomes. -/
def waiting (p : Producer ω) (tp : TopicPartition) : ℕ :=
  (p.queue tp).length + if p.stagedFor tp = [] then 0 else 1

/-- What only queueing changes. -/
def shelf (p : Producer ω) : PartitionMap Staged × PartitionMap (List Batch) × ℕ :=
  (p.staged, p.pending, p.maxInFlight)

theorem shelf_eq_iff {p : Producer ω} {staged : PartitionMap Staged}
    {pending : PartitionMap (List Batch)} {n : ℕ} : p.shelf = (staged, pending, n) ↔
      p.staged = staged ∧ p.pending = pending ∧ p.maxInFlight = n := by
  simp [shelf]

theorem numbers_shelf (T : Transport ω) :
    Numbers T (Appends Cluster.sent fun _ => True) (Act.Keeps shelf) (fun _ => True) where
  permits := Cluster.permits_appends T fun _ _ => trivial
  cluster _ _ _ := rfl
  coordinator _ _ := rfl
  state _ _ _ _ := rfl
  offsets _ _ := rfl
  roundRobin _ _ := rfl
  sequences _ _ := rfl

theorem enqueue_shelf {tp : TopicPartition} {records : List ProducerRecord} {p p' : Producer ω}
    (hne : records ≠ []) (h : enqueue T tp records p = (.ok (), p')) : ∃ batch,
      p'.shelf = (p.staged, p.pending.insert tp (p.queue tp ++ [batch]), p.maxInFlight) := by
  unfold enqueue at h
  rw [if_neg (by simpa using hne)] at h
  obtain ⟨_, p₁, henroll, h⟩ := bind_eq_ok h
  obtain ⟨batch, p₂, hencode, h⟩ := bind_eq_ok h
  have hfirst := (numbers_shelf T).enrollAll (fun _ _ _ => trivial) tp.topic [tp.partition] p
  have hsecond := (numbers_shelf T).encodeFor tp records p₁
  rw [henroll] at hfirst
  rw [hencode] at hsecond
  obtain ⟨hstaged, hpending, hmax⟩ := shelf_eq_iff.mp (hsecond.trans hfirst)
  refine ⟨batch, ?_⟩
  rw [← (Prod.mk.inj h).2, shelf_eq_iff, ← hstaged, ← hpending, ← hmax, queue, ← hpending]
  exact ⟨rfl, rfl, rfl⟩

/-- A stage that becomes a batch was counted as one. -/
theorem waiting_take {tp : TopicPartition} {staged : Staged} {p p' : Producer ω}
    (hget : p.staged[tp]? = some staged)
    (h : enqueue T tp staged.records { p with staged := p.staged.erase tp } = (.ok (), p')) :
    p'.maxInFlight = p.maxInFlight ∧ ∀ tp', p'.waiting tp' = p.waiting tp' := by
  have hrecords : p.stagedFor tp = staged.records := by simp [stagedFor, hget]
  by_cases hne : staged.records = []
  · rw [hne] at h
    cases h
    refine ⟨rfl, fun tp' => ?_⟩
    by_cases htp : tp' = tp
    · subst htp
      rw [waiting, waiting, stagedFor_erase_self, hrecords, hne]
      rfl
    · rw [waiting, waiting, stagedFor_erase_of_ne p htp]
      rfl
  · obtain ⟨batch, hshelf⟩ := enqueue_shelf hne h
    obtain ⟨hstaged, hpending, hmax⟩ := shelf_eq_iff.mp hshelf
    refine ⟨hmax, fun tp' => ?_⟩
    rw [waiting, waiting, stagedFor_eq hstaged, queue, hpending, Std.TreeMap.getD_insert]
    by_cases htp : tp' = tp
    · subst htp
      have hsame : compare tp' tp' = .eq := Std.ReflCmp.compare_self
      rw [if_pos hsame, stagedFor_erase_self, hrecords, if_neg hne, if_pos rfl, List.length_append]
      rfl
    · have hother : ¬compare tp tp' = .eq := by
        rw [Std.LawfulEqCmp.compare_eq_iff_eq]
        exact Ne.symm htp
      rw [if_neg hother, stagedFor_erase_of_ne p htp]
      rfl

theorem waiting_enqueueStaged {tps : List TopicPartition} {p p' : Producer ω}
    (h : enqueueStaged T tps p = (.ok (), p')) :
    p'.maxInFlight = p.maxInFlight ∧ ∀ tp, p'.waiting tp = p.waiting tp := by
  induction tps generalizing p with
  | nil =>
      cases h
      exact ⟨rfl, fun _ => rfl⟩
  | cons tp rest ih =>
      rw [enqueueStaged, bind_of_ok (get_apply p)] at h
      cases hget : p.staged[tp]? with
      | none =>
          rw [hget] at h
          exact ih h
      | some staged =>
          rw [hget] at h
          obtain ⟨_, p₀, hset, h⟩ := bind_eq_ok h
          obtain rfl := (Prod.mk.inj hset).2
          obtain ⟨_, p₁, htaken, h⟩ := bind_eq_ok h
          obtain ⟨hmax, hwaiting⟩ := waiting_take hget (enqueueTaken_eq_ok htaken)
          obtain ⟨hmax', hwaiting'⟩ := ih h
          exact ⟨hmax'.trans hmax, fun tp' => (hwaiting' tp').trans (hwaiting tp')⟩

/-- Once the stage is drained, what waits is in the queues. -/
theorem waiting_drainStaged {p p' : Producer ω} (h : drainStaged T p = (.ok (), p')) :
    p'.maxInFlight = p.maxInFlight ∧ ∀ tp, (p'.queue tp).length = p.waiting tp := by
  rw [drainStaged, bind_of_ok (get_apply p)] at h
  obtain ⟨hmax, hwaiting⟩ := waiting_enqueueStaged h
  obtain ⟨-, hleft⟩ := follows_enqueueStaged h
  refine ⟨hmax, fun tp => ?_⟩
  have hnone : p'.stagedFor tp = [] := by
    rcases hleft tp with hleft | ⟨hleft, hmem⟩
    · exact hleft
    · rw [Std.TreeMap.mem_keys] at hmem
      rw [hleft, stagedFor, Std.TreeMap.getElem?_eq_none hmem]
      rfl
  rw [← hwaiting tp, waiting, if_pos hnone, Nat.add_zero]

/-! ### `flush` -/

/-- `flush` returns with nothing pending and an entry for each batch that was waiting. -/
def Drains (T : Transport ω) (p : Producer ω) : Prop :=
  ∃ written p', flush T p = (.ok written, p') ∧ p'.pending.isEmpty ∧
    ∀ tp, (written.filter (·.1 = tp)).length = p.waiting tp

include hT in
/-- A flush of a healthy cluster drains the queues if and only if none is longer than what
its attempts can take in windows of what may be in flight. -/
theorem drains_iff {p p' : Producer ω} (hdrain : drainStaged T p = (.ok (), p'))
    (hp : Ready T Good clientId credentials p') :
    Drains T p ↔ ∀ tp, p.waiting tp ≤ maxRetries * p.maxInFlight := by
  obtain ⟨hmax, hwaiting⟩ := waiting_drainStaged hdrain
  constructor
  · rintro ⟨written, p'', hflush, -, -⟩ tp
    by_contra hmany
    rw [not_le, ← hwaiting, ← hmax] at hmany
    obtain ⟨e, p₂, hrun⟩ := attempts_exhausted hT hp maxRetries 0 [] hmany
    rw [flush, bind_of_ok hdrain, hrun] at hflush
    cases hflush
  · intro hfew
    have hfew' : ∀ tp, (p'.queue tp).length ≤ maxRetries * p'.maxInFlight := by
      intro tp
      rw [hwaiting, hmax]
      exact hfew tp
    obtain ⟨more, p'', hrun, hentries⟩ :=
      attempts_drain hT hp maxRetries 0 (by decide) [] hfew'
    have hflush : flush T p = (.ok (sortWritten more), p'') := by
      rw [flush, bind_of_ok hdrain]
      exact hrun
    refine ⟨sortWritten more, p'', hflush, flush_finishes hflush, fun tp => ?_⟩
    rw [← hwaiting, ← hentries tp]
    exact ((List.perm_insertionSort _ _).filter _).length_eq

/-! ### One partition, one batch in flight -/

/-- The metadata of a cluster of one broker and one topic. -/
def oneLeader : Metadata := Metadata.new.update ⟨[⟨1, "b", 1⟩], 1, [⟨0, some "t", [⟨0, 0, 1⟩]⟩]⟩

/-- A producer that knows the leader of a partition and has `n` batches for it, one of
which may be in flight. -/
def loaded (n : ℕ) : Producer Ideal :=
  let p := Producer.new (.new .start ["b:1"] "c") .idempotent none
  { p with
    cluster := { p.cluster with metadata := oneLeader }
    maxInFlight := 1
    pending := Std.TreeMap.insert ∅ ⟨"t", 0⟩
      (List.replicate n ⟨[], ⟨0, 1⟩, ⟨1, 0⟩, false, 0, .none⟩) }

theorem waiting_loaded (n : ℕ) (tp : TopicPartition) : (loaded n).waiting tp ≤ n := by
  have hqueue : ((loaded n).queue tp).length ≤ n := by
    change ((Std.TreeMap.insert _ _ _).getD tp []).length ≤ n
    rw [Std.TreeMap.getD_insert]
    split
    · rw [List.length_replicate]
    · exact Nat.zero_le n
  exact hqueue

theorem ready_loaded (n : ℕ) : Ready Ideal.transport Ideal.Tallies "c" none (loaded n) where
  serving := by
    refine ⟨_, Ideal.tallies_start, ?_⟩
    have hnone : ∀ addr, (loaded n).cluster.look (.data, addr) = none := fun _ => rfl
    constructor
    case idle => exact fun _ _ => rfl
    all_goals simp [hnone]
  clientId := rfl
  credentials := rfl
  led tp htp := by
    have htp : tp = ⟨"t", 0⟩ := by
      by_contra hne
      refine htp ?_
      change (Std.TreeMap.insert _ _ _).getD tp [] = []
      rw [Std.TreeMap.getD_insert, if_neg]
      · rfl
      · rw [Std.LawfulEqCmp.compare_eq_iff_eq]
        exact Ne.symm hne
    subst htp
    have hleader : oneLeader.leaderFor ⟨"t", 0⟩ = some ⟨1, "b", 1⟩ := by decide
    exact ⟨_, hleader⟩
  sendable keys round _ _ := ⟨0, 0, rfl, rfl, by decide⟩

theorem drains_iff_loaded : Drains Ideal.transport (loaded 3) :=
  (drains_iff (Ideal.healthy "c") rfl (ready_loaded 3)).mpr fun tp =>
    (waiting_loaded 3 tp).trans (by decide)

/-- Calls that lead there: send once, and queue one batch more than `flush` has attempts. -/
def overfilling : List Call :=
  [.send ⟨"t", 0⟩ [sampleRecord], .setMaxInFlight ⟨1, by decide⟩] ++
    List.replicate (maxRetries + 1) (.enqueue ⟨"t", 0⟩ [sampleRecord])

def overfilled : Producer Ideal :=
  run (Call.step Ideal.transport)
    (Producer.idempotent Ideal.transport .start ["b:1"] "c").2 overfilling

theorem overfilled_not_drained :
    (¬∀ (T : Transport Ideal) (Good : Ideal → Backlog → Prop) (p p' : Producer Ideal),
      Healthy T Good "c" none → drainStaged T p = (.ok (), p') → Ready T Good "c" none p' →
        0 < p.maxInFlight → Drains T p) ∧
    Reachable Ideal.transport overfilled ∧
      (flush Ideal.transport overfilled).1 = .error (.noLeader "t" 0) := by
  refine ⟨fun hclaim => ?_, ⟨_, overfilling, ⟨.start, ["b:1"], "c", .inl ?_⟩, rfl⟩, by decide +kernel⟩
  · obtain ⟨written, p', hflush, -⟩ := hclaim Ideal.transport Ideal.Tallies (loaded 41) _
      (Ideal.healthy "c") rfl (ready_loaded 41) (by decide)
    have hfails : (flush Ideal.transport (loaded 41)).1 = .error (.noLeader "t" 0) := by
      decide +kernel
    rw [hflush] at hfails
    cases hfails
  · have hok : (Producer.idempotent Ideal.transport .start ["b:1"] "c").1 = .ok () := by
      decide
    rw [← hok]

end Producer

end Barnabas.Client
