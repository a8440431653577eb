import Barnabas.Client.Window

/-!
Settling a window.

A window that was collected without a failure answers each partition once in every
round it took part in, from the first on. So what `retire` takes from a queue are
the batches before the partition's first failure, and each of them was accepted
by the answer to the request that carried it. A window that failed retires nothing.
-/

namespace Barnabas.Client

open Barnabas.Lib Barnabas.Core Barnabas.Lib.Act World

namespace Producer

variable {I : World → Prop} {W : Frame → Prop}

/-! ### The window that is written -/

/-- The rounds of a window over these brokers. -/
def planned {ω : Type} (p : Producer ω) (targets : List RoundTarget) (n : ℕ) : Window :=
  (List.range n).map fun round => p.plan round targets

theorem planned_succ {ω : Type} (p : Producer ω) (targets : List RoundTarget) (n : ℕ) :
    p.planned targets (n + 1) = p.planned targets n ++ [p.plan n targets] := by
  simp [planned, List.range_succ]

@[simp] theorem length_planned {ω : Type} (p : Producer ω) (targets : List RoundTarget) (n : ℕ) :
    (p.planned targets n).length = n := by
  simp [planned]

theorem plan_addrs {ω : Type} (p : Producer ω) (round : ℕ) (targets : List RoundTarget) :
    ((p.plan round targets).map (·.1)).Sublist (targets.map (·.1)) := by
  induction targets with
  | nil => exact .refl _
  | cons target rest ih =>
      obtain ⟨addr, keys⟩ := target
      by_cases h : (keys.filter fun tp => round < (p.queue tp).length) = []
      · rw [plan_cons_of_nil h]
        exact ih.trans (List.sublist_cons_self ..)
      · rw [plan_cons_of_ne h]
        exact ih.cons_cons addr

theorem nodup_planned {ω : Type} {p : Producer ω} {targets : List RoundTarget}
    (hnodup : (targets.map (·.1)).Nodup) (n : ℕ) :
    ∀ round ∈ p.planned targets n, (round.map (·.1)).Nodup := by
  intro round hround
  obtain ⟨i, -, rfl⟩ := List.mem_map.mp hround
  exact (plan_addrs p i targets).nodup hnodup

theorem nodup_addrs (byBroker : ByBroker) : (byBroker.toList.map (·.1)).Nodup := by
  rw [Std.TreeMap.map_fst_toList_eq_keys]
  exact Std.TreeMap.nodup_keys

section Writing

variable (codec : Codec) (hI : Lasting I W) (hW : ∀ f : Frame, f.request.isHandshake → W f)

include hI hW

/-- Writing a window: all of its rounds went out, or a write failed and nothing is
outstanding any more. -/
theorem sendWindow_cases {p : Producer World} (byBroker : ByBroker) (left done : ℕ)
    (hask : ∀ keys, ∀ round < done + left, ∀ f : Frame, f.request = p.ask keys round → W f)
    {c : Cluster World} (hsound : Cluster.Sound c)
    (htrails : Trails c (p.asks 0 (p.planned byBroker.toList done))) :
    (∃ n c', sendWindow (World.transport codec) byBroker left done
          (p.planned byBroker.toList done) { p with cluster := c } =
        (.ok (p.planned byBroker.toList n), { p with cluster := c' }) ∧
      Cluster.Renewed c c' ∧ (I c.wire.env → I c'.wire.env) ∧
      Trails c' (p.asks 0 (p.planned byBroker.toList n))) ∨
    ∃ e c' offsets, sendWindow (World.transport codec) byBroker left done
          (p.planned byBroker.toList done) { p with cluster := c } =
        (.error e, { p with cluster := c', offsets }) ∧
      Cluster.Resting c' ∧ (I c.wire.env → I c'.wire.env) := by
  induction left generalizing done c with
  | zero => exact .inl ⟨done, c, rfl, .refl hsound, id, htrails⟩
  | succ left ih =>
      have hstart : Trails c fun a =>
          p.asks 0 (p.planned byBroker.toList done) a ++ p.asked done [] a := by
        intro a
        beta_reduce
        rw [show p.asked done [] a = [] from rfl, List.append_nil]
        exact htrails a
      obtain ⟨new, err, c₁, hround, hrenewed₁, hlasting₁, htrails₁, hsub, hplan⟩ :=
        sendRound_cases codec hI hW done (fun keys => hask keys done (by omega)) byBroker.toList []
          hsound hstart
      rw [List.nil_append] at hround htrails₁
      have hdue : ∀ a, p.asks 0 (p.planned byBroker.toList done ++ [new]) a =
          p.asks 0 (p.planned byBroker.toList done) a ++ p.asked done new a := by
        intro a
        rw [asks_concat, length_planned, Nat.zero_add]
      rw [sendWindow, bind_of_ok hround]
      cases err with
      | some e =>
          have hcollect : Trails c₁ (p.asks 0 (p.planned byBroker.toList done ++ [new])) := by
            intro a
            rw [hdue]
            exact htrails₁ a
          have hnames : ∀ targets ∈ p.planned byBroker.toList done ++ [new],
              (targets.map (·.1)).Nodup := by
            intro targets htargets
            rcases List.mem_append.mp htargets with h | h
            · exact nodup_planned (nodup_addrs byBroker) done targets h
            · rw [List.mem_singleton.mp h]
              exact hsub.nodup (nodup_addrs byBroker)
          obtain ⟨codes, failure, c', offsets', hcollected, hresting, hlasting, -⟩ :=
            collectWindow_cases codec hI p 0 _ p.offsets hrenewed₁.sound hcollect hnames
          refine .inr ⟨e, c', offsets', ?_, hresting, hlasting ∘ hlasting₁⟩
          exact bind_of_ok hcollected
      | none =>
          obtain rfl := hplan rfl
          dsimp only
          split
          · next hempty =>
              refine .inl ⟨done, c₁, rfl, hrenewed₁, hlasting₁, fun a => ?_⟩
              have hdone := htrails₁ a
              rw [hempty] at hdone
              beta_reduce at hdone
              rwa [show p.asked done [] a = [] from rfl, List.append_nil] at hdone
          · have hnext : Trails c₁ (p.asks 0 (p.planned byBroker.toList (done + 1))) := by
              intro a
              rw [planned_succ, hdue]
              exact htrails₁ a
            rw [← planned_succ]
            rcases ih (done + 1) (fun keys round hround => hask keys round (by omega))
                hrenewed₁.sound hnext with
              ⟨n, c', heq, hrenewed, hlasting, htrails'⟩ | ⟨e, c', offsets', heq, hrest, hlasting⟩
            · exact .inl ⟨n, c', heq, hrenewed₁.trans hrenewed, hlasting ∘ hlasting₁, htrails'⟩
            · exact .inr ⟨e, c', offsets', heq, hrest, hlasting ∘ hlasting₁⟩

end Writing

/-! ### Each partition has one leader -/

/-- The partitions of the brokers, one after the other. -/
def routed (byBroker : ByBroker) : List TopicPartition := byBroker.toList.flatMap (·.2)

theorem routed_eq_gathered (byBroker : ByBroker) :
    routed byBroker = gathered (fun _ tp => tp) byBroker := by
  simp [routed, gathered]

theorem routed_insert_perm (byBroker : ByBroker) (addr : String) (tp : TopicPartition) :
    (routed (byBroker.insert addr (byBroker.getD addr [] ++ [tp]))).Perm
      (routed byBroker ++ [tp]) := by
  rw [routed_eq_gathered, routed_eq_gathered]
  exact gathered_insert_perm _ byBroker addr tp

theorem route_nodup {T : Transport World} {tps : List TopicPartition} {routes routes' : ByBroker × Bool}
    {p p' : Producer World} (h : route T tps routes p = (.ok routes', p'))
    (hnodup : (routed routes.1 ++ tps).Nodup) : (routed routes'.1).Nodup := by
  induction tps generalizing routes p with
  | nil =>
      cases h
      rwa [List.append_nil] at hnodup
  | cons tp rest ih =>
      obtain ⟨byBroker, unroutable⟩ := routes
      obtain ⟨outcome, p₁, -, hrest⟩ := bind_eq_ok h
      cases outcome with
      | ok addr =>
          refine ih hrest ?_
          have hperm := (routed_insert_perm byBroker addr tp).append_right rest
          rw [List.append_assoc] at hperm
          exact hperm.nodup_iff.mpr hnodup
      | error e =>
          cases e with
          | noLeader _ _ =>
              refine ih hrest ?_
              exact (List.sublist_cons_self tp rest).append_left _ |>.nodup hnodup
          | _ => cases hrest

/-! ### What the answers say of one partition -/

section Partition

variable {p : Producer World} {tp : TopicPartition}

/-- The entry of a partition in a list made for distinct partitions. -/
theorem filter_filterMap_key {β : Type} {keys : List TopicPartition} (hnodup : keys.Nodup)
    (f : TopicPartition → Option β) (tp : TopicPartition) :
    ((keys.filterMap fun key => (f key).map (key, ·)).filter fun e => e.1 = tp) =
      if tp ∈ keys then (f tp).toList.map (tp, ·) else [] := by
  induction keys with
  | nil => rfl
  | cons key rest ih =>
      obtain ⟨hnew, hrest⟩ := List.nodup_cons.mp hnodup
      have hhere : ((key :: rest).filterMap fun key => (f key).map (key, ·)) =
          (f key).toList.map (key, ·) ++ rest.filterMap fun key => (f key).map (key, ·) := by
        cases hf : f key <;> simp [hf]
      rw [hhere, List.filter_append, ih hrest]
      by_cases hkey : key = tp
      · subst hkey
        rw [if_pos List.mem_cons_self, if_neg hnew, List.append_nil, List.filter_eq_self]
        simp
      · have hnone : (((f key).toList.map (key, ·)).filter fun e => e.1 = tp) = [] := by
          rw [List.filter_eq_nil_iff]
          simp [hkey]
        rw [hnone, List.nil_append]
        simp [Ne.symm hkey]

/-- The codes of an answer, as pairs of partition and code. -/
theorem answerCodes_ok (target : RoundTarget) (resp : ProduceResponse) :
    answerCodes (target, .ok resp) =
      (partitionsOf resp).map fun e => (e.1, ⟨e.2.errorCode⟩) := by
  simp [answerCodes, partitionsOf, List.map_flatMap, Function.comp_def]

/-- An answer speaks of a partition once if its request carried a batch for it. -/
theorem Exchange.codes_filter {x : Exchange}
    (hasked : x.answer.frame.request = p.ask x.target.2 x.round) (hnodup : x.target.2.Nodup)
    (tp : TopicPartition) : (x.codes.filter fun e => e.2.1 = tp) =
      if tp ∈ x.target.2 then ((p.queue tp)[x.round]?).toList.map fun batch =>
        (x.round, tp, ⟨(x.answer.outcome tp batch).1.1⟩) else [] := by
  have hresponse : x.response =
      x.answer.reply.arrange (x.answer.response (p.produceRequest x.target.2 x.round)) := by
    rw [Exchange.response, body_of_ask hasked]
    rfl
  have hcodes : x.codes.Perm ((x.target.2.filterMap fun key =>
      ((p.queue key)[x.round]?).map (key, ·)).map fun e =>
        (x.round, e.1, ⟨(x.answer.outcome e.1 e.2).1.1⟩)) := by
    rw [Exchange.codes, answerCodes_ok, List.map_map, hresponse]
    refine ((x.answer.reply.arrange_perm _).map _).trans ?_
    rw [Answer.partitionsOf_response, List.map_map]
    exact (batchesOf_produceRequest p x.target.2 x.round).map _
  have hfiltered := hcodes.filter fun e => e.2.1 = tp
  rw [List.filter_map] at hfiltered
  have hkeys := filter_filterMap_key hnodup (fun key => (p.queue key)[x.round]?) tp
  have hcomp : ((fun e : ℕ × TopicPartition × ErrorCode => decide (e.2.1 = tp)) ∘
      fun e : TopicPartition × Batch =>
        (x.round, e.1, (⟨(x.answer.outcome e.1 e.2).1.1⟩ : ErrorCode))) =
      fun e => decide (e.1 = tp) := rfl
  rw [hcomp, hkeys] at hfiltered
  by_cases hmem : tp ∈ x.target.2
  · rw [if_pos hmem] at hfiltered ⊢
    rw [List.map_map] at hfiltered
    cases hbatch : (p.queue tp)[x.round]? with
    | none =>
        rw [hbatch] at hfiltered
        exact hfiltered.eq_nil
    | some batch =>
        rw [hbatch] at hfiltered
        exact List.perm_singleton.mp hfiltered
  · rw [if_neg hmem] at hfiltered ⊢
    exact hfiltered.eq_nil

theorem inRounds_planned (p : Producer World) (targets : List RoundTarget) (n : ℕ) :
    inRounds 0 (p.planned targets n) =
      (List.range n).flatMap fun round => (p.plan round targets).map (round, ·) := by
  induction n with
  | zero => rfl
  | succ n ih =>
      rw [inRounds] at ih
      rw [inRounds, planned_succ, List.zipIdx_append, List.flatMap_append, ih, List.range_succ,
        List.flatMap_append, length_planned]
      simp

/-- The rounds in which a request of the plan carries a batch for the partition. -/
theorem plan_rounds (p : Producer World) {targets : List RoundTarget}
    (hnodup : (targets.flatMap (·.2)).Nodup) (round : ℕ) (tp : TopicPartition) :
    ((p.plan round targets).flatMap fun target =>
      if tp ∈ target.2 then ((p.queue tp)[round]?).toList.map fun _ => round else []) =
        if tp ∈ targets.flatMap (·.2) ∧ round < (p.queue tp).length then [round] else [] := by
  induction targets with
  | nil => rfl
  | cons target rest ih =>
      obtain ⟨addr, keys⟩ := target
      rw [List.flatMap_cons, List.nodup_append'] at hnodup
      obtain ⟨-, hrest, hdisjoint⟩ := hnodup
      have hhere : p.plan round ((addr, keys) :: rest) =
          (if (keys.filter fun tp => round < (p.queue tp).length) = [] then []
            else [(addr, keys.filter fun tp => round < (p.queue tp).length)]) ++
              p.plan round rest := by
        split
        · next h => rw [plan_cons_of_nil h, List.nil_append]
        · next h => rw [plan_cons_of_ne h, List.singleton_append]
      rw [hhere, List.flatMap_append, ih hrest, List.flatMap_cons]
      by_cases hlt : round < (p.queue tp).length
      · have hget : ((p.queue tp)[round]?).toList.map (fun _ => round) = [round] := by
          rw [List.getElem?_eq_getElem hlt]
          rfl
        by_cases hkey : tp ∈ keys
        · have htaking : tp ∈ keys.filter fun tp => round < (p.queue tp).length := by
            simp [hkey, hlt]
          have hnone : tp ∉ rest.flatMap (·.2) := hdisjoint hkey
          rw [if_neg (List.ne_nil_of_mem htaking), if_neg fun h => hnone h.1,
            if_pos ⟨List.mem_append_left _ hkey, hlt⟩, List.append_nil, List.flatMap_singleton,
            if_pos htaking, hget]
        · have hout : tp ∉ keys.filter fun tp => round < (p.queue tp).length := by
            simp [hkey]
          have hempty : ((if (keys.filter fun tp => round < (p.queue tp).length) = [] then []
              else [(addr, keys.filter fun tp => round < (p.queue tp).length)]) :
                List RoundTarget).flatMap (fun target => if tp ∈ target.2 then
                  ((p.queue tp)[round]?).toList.map fun _ => round else []) = [] := by
            split
            · rfl
            · rw [List.flatMap_singleton, if_neg hout]
          have hmem : tp ∈ keys ++ rest.flatMap (·.2) ↔ tp ∈ rest.flatMap (·.2) := by
            rw [List.mem_append]
            exact or_iff_right hkey
          rw [hempty, List.nil_append]
          simp only [hmem]
      · have hempty : ((if (keys.filter fun tp => round < (p.queue tp).length) = [] then []
            else [(addr, keys.filter fun tp => round < (p.queue tp).length)]) :
              List RoundTarget).flatMap (fun target => if tp ∈ target.2 then
                ((p.queue tp)[round]?).toList.map fun _ => round else []) = [] := by
          have hget : (p.queue tp)[round]? = none := List.getElem?_eq_none (by omega)
          rw [hget]
          simp
        rw [hempty, List.nil_append, if_neg fun h => hlt h.2, if_neg fun h => hlt h.2]

theorem filter_range_lt (n m : ℕ) :
    ((List.range n).filter fun round => decide (round < m)) = List.range (min n m) := by
  induction n with
  | zero => simp
  | succ n ih =>
      rw [List.range_succ, List.filter_append, ih]
      by_cases h : n < m
      · have hmin : min (n + 1) m = min n m + 1 := by omega
        have hn : min n m = n := by omega
        rw [hmin, List.range_succ, hn]
        simp [h]
      · have hmin : min (n + 1) m = min n m := by omega
        rw [hmin]
        simp [h]

theorem range_filter_lt (n m : ℕ) :
    ((List.range n).flatMap fun round => if round < m then [round] else []) =
      List.range (min n m) := by
  induction n with
  | zero => simp
  | succ n ih =>
      rw [List.range_succ, List.flatMap_append, ih]
      by_cases h : n < m
      · have hmin : min (n + 1) m = min n m + 1 := by omega
        have hn : min n m = n := by omega
        rw [hmin, List.range_succ, hn]
        simp [h]
      · have hmin : min (n + 1) m = min n m := by omega
        rw [hmin]
        simp [h]

/-- A list numbered from zero on. -/
theorem eq_map_range {β : Type} {L : List (ℕ × β)} {m : ℕ} (default : β)
    (h : L.map (·.1) = List.range m) :
    ∃ f : ℕ → β, L = (List.range m).map fun i => (i, f i) := by
  have hlength : L.length = m := by
    have := congrArg List.length h
    simpa using this
  refine ⟨fun i => (L[i]?.map (·.2)).getD default, List.ext_getElem (by simp [hlength]) ?_⟩
  intro i hi hi'
  have hget : (L.map (·.1))[i]? = some i := by
    rw [h]
    exact List.getElem?_range (hlength ▸ hi)
  rw [List.getElem?_map, List.getElem?_eq_getElem hi] at hget
  rw [List.getElem_map, List.getElem_range]
  beta_reduce
  rw [List.getElem?_eq_getElem hi]
  exact Prod.fst_eq_iff.mp (Option.some.inj hget)

/-- The rounds in which the requests of a window carry a batch for a partition are its
first ones, once each. -/
theorem carried_rounds {byBroker : ByBroker} (hnodup : (routed byBroker).Nodup) {n : ℕ}
    {c c' : Cluster World} {codes : List (List (TopicPartition × ErrorCode))}
    {offsets offsets' : List ((TopicPartition × ℕ) × ℤ)} {exchanges : List Exchange}
    (h : Collected p 0 (p.planned byBroker.toList n) c c' codes offsets offsets' exchanges)
    (tp : TopicPartition) :
    (exchanges.flatMap fun x => if tp ∈ x.target.2 then
        ((p.queue tp)[x.round]?).toList.map fun _ => x.round else []) =
      List.range (if tp ∈ routed byBroker then min n (p.queue tp).length else 0) := by
  let carries : ℕ × RoundTarget → List ℕ := fun e =>
    if tp ∈ e.2.2 then ((p.queue tp)[e.1]?).toList.map fun _ => e.1 else []
  have heach : (exchanges.flatMap fun x => if tp ∈ x.target.2 then
      ((p.queue tp)[x.round]?).toList.map fun _ => x.round else []) =
        (exchanges.map fun x => (x.round, x.target)).flatMap carries := by
    rw [List.flatMap_map]
  have hplan : ∀ round, ((p.plan round byBroker.toList).map (round, ·)).flatMap carries =
      if tp ∈ routed byBroker ∧ round < (p.queue tp).length then [round] else [] := by
    intro round
    rw [List.flatMap_map]
    exact plan_rounds p hnodup round tp
  rw [heach, h.targets, inRounds_planned, List.flatMap_assoc]
  simp only [hplan]
  by_cases hrouted : tp ∈ routed byBroker
  · simp only [hrouted, true_and, if_true]
    exact range_filter_lt n _
  · simp [hrouted]

/-- No request of a window names a partition twice. -/
theorem nodup_target {byBroker : ByBroker} (hnodup : (routed byBroker).Nodup) {n : ℕ}
    {c c' : Cluster World} {codes : List (List (TopicPartition × ErrorCode))}
    {offsets offsets' : List ((TopicPartition × ℕ) × ℤ)} {exchanges : List Exchange}
    (h : Collected p 0 (p.planned byBroker.toList n) c c' codes offsets offsets' exchanges)
    {x : Exchange} (hx : x ∈ exchanges) : x.target.2.Nodup := by
  have hmem : (x.round, x.target) ∈ inRounds 0 (p.planned byBroker.toList n) :=
    h.targets ▸ List.mem_map_of_mem hx
  rw [inRounds_planned] at hmem
  obtain ⟨round, -, hmem⟩ := List.mem_flatMap.mp hmem
  obtain ⟨target, htarget, heq⟩ := List.mem_map.mp hmem
  obtain ⟨-, rfl⟩ := Prod.mk.inj heq
  obtain ⟨⟨addr, keys⟩, hkeys, hplan⟩ := List.mem_filterMap.mp htarget
  dsimp only at hplan
  split at hplan
  · cases hplan
  · have hsub : keys.Sublist (routed byBroker) := by
      rw [routed, List.flatMap_def]
      exact List.sublist_flatten_of_mem (List.mem_map_of_mem hkeys)
    rw [← Option.some.inj hplan]
    exact (hsub.nodup hnodup).filter _

/-- The answers of a window about one partition: one for each of its first rounds, in
order, and each the outcome of the batch that the round carried. -/
theorem partition_answers {byBroker : ByBroker} (hnodup : (routed byBroker).Nodup) {n : ℕ}
    {c c' : Cluster World} {codes : List (List (TopicPartition × ErrorCode))}
    {offsets offsets' : List ((TopicPartition × ℕ) × ℤ)} {exchanges : List Exchange}
    (h : Collected p 0 (p.planned byBroker.toList n) c c' codes offsets offsets' exchanges)
    (tp : TopicPartition) : ∃ m ≤ (p.queue tp).length, ∃ codeAt : ℕ → ErrorCode,
      ((inOrder codes).filter fun e => e.2.1 = tp) =
          (List.range m).map (fun round => (round, tp, codeAt round)) ∧
        ∀ round < m, ∀ batch, (p.queue tp)[round]? = some batch → ∃ x ∈ exchanges,
          x.round = round ∧ tp ∈ x.target.2 ∧
            codeAt round = ⟨(x.answer.outcome tp batch).1.1⟩ := by
  have hfilter : ((inOrder codes).filter fun e => e.2.1 = tp) =
      exchanges.flatMap fun x => if tp ∈ x.target.2 then ((p.queue tp)[x.round]?).toList.map
        fun batch => (x.round, tp, ⟨(x.answer.outcome tp batch).1.1⟩) else [] := by
    have hcodes : inOrder codes = exchanges.flatMap Exchange.codes := h.codes
    rw [hcodes, List.filter_flatMap]
    exact List.flatMap_congr fun x hx =>
      x.codes_filter (h.asked x hx) (nodup_target hnodup h hx) tp
  have hrounds : (((inOrder codes).filter fun e => e.2.1 = tp).map (·.1)) = List.range
      (if tp ∈ routed byBroker then min n (p.queue tp).length else 0) := by
    rw [← carried_rounds hnodup h tp, hfilter, List.map_flatMap]
    refine List.flatMap_congr fun x _ => ?_
    split
    · rw [List.map_map]
      rfl
    · rfl
  generalize hm : (if tp ∈ routed byBroker then min n (p.queue tp).length else 0) = m at hrounds
  generalize hL : ((inOrder codes).filter fun e => e.2.1 = tp) = L at hfilter hrounds
  obtain ⟨f, hf⟩ := eq_map_range (tp, ErrorCode.none) hrounds
  have hentry : ∀ round < m, (round, f round) ∈ L := by
    intro round hround
    rw [hf]
    exact List.mem_map.mpr ⟨round, List.mem_range.mpr hround, rfl⟩
  refine ⟨m, ?_, fun round => (f round).2, ?_, fun round hround batch hbatch => ?_⟩
  · rw [← hm]
    split
    · exact min_le_right ..
    · exact Nat.zero_le _
  · rw [hf]
    refine List.map_congr_left fun round hround => ?_
    have hmem := hentry round (List.mem_range.mp hround)
    rw [← hL] at hmem
    have htp : (f round).1 = tp := by simpa using (List.mem_filter.mp hmem).2
    rw [← htp]
  · have hmem := hentry round hround
    rw [hfilter] at hmem
    obtain ⟨x, hx, hmem⟩ := List.mem_flatMap.mp hmem
    split at hmem
    · next htarget =>
        obtain ⟨batch', hbatch', heq⟩ := List.mem_map.mp hmem
        obtain ⟨rfl, hcode⟩ := Prod.mk.inj heq
        rw [hbatch] at hbatch'
        obtain rfl : batch' = batch := by simpa using hbatch'
        exact ⟨x, hx, rfl, htarget, (congrArg Prod.snd hcode).symm⟩
    · cases hmem

end Partition

/-! ### Judging and retiring -/

/-- The round of a partition's first failure. -/
def firstFailed (answers : List (ℕ × TopicPartition × ErrorCode)) (tp : TopicPartition) :
    Option ℕ :=
  ((answers.filter fun e => e.2.1 = tp).find? fun e => !e.2.2.isOk).map (·.1)

theorem firstFailed_cons_of_ok {code : ErrorCode} (h : code.isOk) (round : ℕ)
    (tp : TopicPartition) (rest : List (ℕ × TopicPartition × ErrorCode)) :
    firstFailed ((round, tp, code) :: rest) = firstFailed rest := by
  funext tp'
  rw [firstFailed, firstFailed, List.filter_cons]
  split
  · rw [List.find?_cons_of_neg (by simp [h])]
  · rfl

theorem firstFailed_cons_of_ne {tp tp' : TopicPartition} (h : tp ≠ tp') (round : ℕ)
    (code : ErrorCode) (rest : List (ℕ × TopicPartition × ErrorCode)) :
    firstFailed ((round, tp, code) :: rest) tp' = firstFailed rest tp' := by
  rw [firstFailed, firstFailed, List.filter_cons_of_neg (by simpa using h)]

theorem firstFailed_cons_self {code : ErrorCode} (h : ¬code.isOk) (round : ℕ)
    (tp : TopicPartition) (rest : List (ℕ × TopicPartition × ErrorCode)) :
    firstFailed ((round, tp, code) :: rest) tp = some round := by
  rw [firstFailed, List.filter_cons_of_pos (by simp), List.find?_cons_of_pos]
  · rfl
  · rw [Bool.not_eq_true] at h
    dsimp only
    rw [h]
    rfl

/-- Judging a window records each partition's first failure, and forgets leaders;
or the producer is fenced. -/
theorem judge_cases {ω : Type} (answers : List (ℕ × TopicPartition × ErrorCode))
    (verdict : Verdict) (p : Producer ω) :
    (∃ verdict' metadata, judge answers verdict p =
        (.ok verdict', { p with cluster := { p.cluster with metadata } }) ∧
      ∀ tp : TopicPartition,
        verdict'.failedAt[tp]? = (verdict.failedAt[tp]?).or (firstFailed answers tp)) ∨
    ∃ e metadata, judge answers verdict p = (.error e, { p with
      cluster := { p.cluster with metadata }, state := p.state.fence }) := by
  induction answers generalizing verdict p with
  | nil => exact .inl ⟨verdict, p.cluster.metadata, rfl, fun tp => by simp [firstFailed]⟩
  | cons answer rest ih =>
      obtain ⟨round, tp, code⟩ := answer
      rw [judge]
      by_cases hok : code.isOk
      · rw [if_pos hok, firstFailed_cons_of_ok hok]
        exact ih verdict p
      · rw [if_neg hok]
        have hinsert : ∀ (failedAt : PartitionMap ℕ) (tp' : TopicPartition),
            failedAt[tp]? = none →
            ((failedAt.insert tp round)[tp']?).or (firstFailed rest tp') =
              (failedAt[tp']?).or (firstFailed ((round, tp, code) :: rest) tp') := by
          intro failedAt tp' hnone
          rw [Std.TreeMap.getElem?_insert]
          by_cases htp : tp = tp'
          · subst htp
            rw [hnone, firstFailed_cons_self hok]
            simp
          · rw [if_neg (by simpa using htp), firstFailed_cons_of_ne htp]
        by_cases hknown : verdict.failedAt.contains tp
        · rw [if_pos hknown]
          obtain ⟨first, hfirst⟩ : ∃ first, verdict.failedAt[tp]? = some first := by
            rw [Std.TreeMap.contains_eq_isSome_getElem?] at hknown
            exact Option.isSome_iff_exists.mp hknown
          rcases ih verdict p with ⟨verdict', metadata, heq, hfailed⟩ | herror
          · refine .inl ⟨verdict', metadata, heq, fun tp' => ?_⟩
            rw [hfailed tp']
            by_cases htp : tp = tp'
            · subst htp
              rw [hfirst]
              rfl
            · rw [firstFailed_cons_of_ne htp]
          · exact .inr herror
        · rw [if_neg hknown]
          have hnone : verdict.failedAt[tp]? = none := by
            rw [Std.TreeMap.contains_eq_isSome_getElem?] at hknown
            simpa using hknown
          cases code.disposition with
          | refreshMetadata =>
              rcases ih ⟨verdict.failedAt.insert tp round, true⟩
                  { p with cluster := p.cluster.invalidate tp } with
                ⟨verdict', metadata, heq, hfailed⟩ | ⟨e, metadata, heq⟩
              · refine .inl ⟨verdict', metadata, heq, fun tp' => ?_⟩
                rw [hfailed tp', hinsert verdict.failedAt tp' hnone]
              · exact .inr ⟨e, metadata, heq⟩
          | retry =>
              rcases ih ⟨verdict.failedAt.insert tp round, verdict.needsRefresh⟩ p with
                ⟨verdict', metadata, heq, hfailed⟩ | herror
              · refine .inl ⟨verdict', metadata, heq, fun tp' => ?_⟩
                rw [hfailed tp', hinsert verdict.failedAt tp' hnone]
              · exact .inr herror
          | _ => exact .inr ⟨_, p.cluster.metadata, rfl⟩

/-- The answers to a partition that retire a batch. -/
def retiring (failedAt : PartitionMap ℕ) (answers : List (ℕ × TopicPartition × ErrorCode))
    (tp : TopicPartition) : List (ℕ × TopicPartition × ErrorCode) :=
  (answers.filter fun e => e.2.1 = tp).filter fun e => !((failedAt[tp]?).any (· ≤ e.1))

section Retiring

variable {failedAt : PartitionMap ℕ} {answers : List (ℕ × TopicPartition × ErrorCode)}
  {tp tp' : TopicPartition} {round : ℕ} {code : ErrorCode}

theorem retiring_cons_ne (htp : tp' ≠ tp) :
    retiring failedAt ((round, tp', code) :: answers) tp = retiring failedAt answers tp := by
  rw [retiring, List.filter_cons_of_neg (by simpa using htp), retiring]

/-- From the first failure on nothing is retired. -/
theorem retiring_cons_failed (hfailed : (failedAt[tp]?).any (· ≤ round)) :
    retiring failedAt ((round, tp, code) :: answers) tp = retiring failedAt answers tp := by
  rw [retiring, List.filter_cons_of_pos (by simp), List.filter_cons_of_neg (by simp [hfailed]),
    retiring]

theorem retiring_cons_kept (hfailed : ¬(failedAt[tp]?).any (· ≤ round)) :
    retiring failedAt ((round, tp, code) :: answers) tp =
      (round, tp, code) :: retiring failedAt answers tp := by
  rw [retiring, List.filter_cons_of_pos (by simp),
    List.filter_cons_of_pos (by simpa using hfailed), retiring]

end Retiring

/-- Retiring takes one batch for each of them, from the front. -/
theorem queue_retire (failedAt : PartitionMap ℕ) (offsets : List ((TopicPartition × ℕ) × ℤ))
    (answers : List (ℕ × TopicPartition × ErrorCode))
    (state : PartitionMap (List Batch) × List (TopicPartition × ℤ)) (tp : TopicPartition) :
    (answers.foldl (retireOne failedAt offsets) state).1.getD tp [] =
      (state.1.getD tp []).drop (retiring failedAt answers tp).length := by
  induction answers generalizing state with
  | nil => rfl
  | cons answer rest ih =>
      obtain ⟨round, tp', code⟩ := answer
      obtain ⟨pending, written⟩ := state
      rw [List.foldl_cons, ih]
      have hother : tp' ≠ tp → (retireOne failedAt offsets (pending, written)
          (round, tp', code)).1.getD tp [] = pending.getD tp [] := by
        intro hne
        rw [retireOne]
        split
        · rfl
        · split
          · rw [Std.TreeMap.getD_insert, if_neg (by simpa using hne)]
          · rfl
      by_cases htp : tp' = tp
      · subst htp
        by_cases hfailed : (failedAt[tp']?).any (· ≤ round)
        · have hsame : retireOne failedAt offsets (pending, written) (round, tp', code) =
              (pending, written) := by
            rw [retireOne, if_pos hfailed]
          rw [hsame, retiring_cons_failed hfailed]
        · have hpops : (retireOne failedAt offsets (pending, written) (round, tp', code)).1.getD tp'
              [] = (pending.getD tp' []).drop 1 := by
            rw [retireOne, if_neg hfailed, Std.TreeMap.getD_eq_getD_getElem?]
            cases hget : pending[tp']? with
            | none => simp [Std.TreeMap.getD_eq_getD_getElem?, hget]
            | some queue =>
                cases queue with
                | nil => simp [Std.TreeMap.getD_eq_getD_getElem?, hget]
                | cons batch queue => simp [Std.TreeMap.getD_eq_getD_getElem?, hget]
          rw [hpops, List.drop_drop, retiring_cons_kept hfailed, List.length_cons, Nat.add_comm]
      · rw [hother htp, retiring_cons_ne htp]

/-- If the answers of a partition are those of its first rounds, the batches retired
are those before the first failure. -/
theorem retiring_of_rounds {answers : List (ℕ × TopicPartition × ErrorCode)} {tp : TopicPartition}
    {m : ℕ} {codeAt : ℕ → ErrorCode} {failedAt : PartitionMap ℕ}
    (hanswers : (answers.filter fun e => e.2.1 = tp) =
      (List.range m).map fun round => (round, tp, codeAt round))
    (hfailed : failedAt[tp]? = firstFailed answers tp) :
    (retiring failedAt answers tp).length ≤ m ∧
      ∀ round < (retiring failedAt answers tp).length, (codeAt round).isOk := by
  have hfind : failedAt[tp]? = (List.range m).find? fun round => !(codeAt round).isOk := by
    rw [hfailed, firstFailed, hanswers, List.find?_map, Option.map_map]
    exact Option.map_id'
  have hlength : (retiring failedAt answers tp).length =
      ((List.range m).filter fun round => !((failedAt[tp]?).any (· ≤ round))).length := by
    rw [retiring, hanswers, List.filter_map, List.length_map]
    rfl
  rw [hlength]
  cases hfirst : failedAt[tp]? with
  | none =>
      rw [hfirst, eq_comm, List.find?_eq_none] at hfind
      have hall : ((List.range m).filter fun round => !((none : Option ℕ).any (· ≤ round))) =
          List.range m := List.filter_eq_self.mpr fun _ _ => rfl
      rw [hall, List.length_range]
      refine ⟨le_refl m, fun round hround => ?_⟩
      simpa using hfind round (List.mem_range.mpr hround)
  | some first =>
      rw [hfirst, eq_comm, List.find?_range_eq_some] at hfind
      obtain ⟨-, hfirst, hbefore⟩ := hfind
      have hcut : ((List.range m).filter fun round => !((some first).any (· ≤ round))) =
          List.range first := by
        have hlt : ∀ round, (!((some first).any (· ≤ round))) = decide (round < first) := by
          intro round
          by_cases h : round < first
          · simp [h]
          · simp [h, Nat.le_of_not_lt h]
        simp only [hlt]
        rw [filter_range_lt, Nat.min_eq_right (List.mem_range.mp hfirst).le]
      rw [hcut, List.length_range]
      refine ⟨(List.mem_range.mp hfirst).le, fun round hround => ?_⟩
      simpa using hbefore round hround

end Producer

/-! ### What lasts -/

/-- What was read stays read, and what held still does. -/
structure Since (I : World → Prop) (w w' : World) : Prop where
  lasting : I w → I w'
  read : ∀ s, (w.streams s).read <+: (w'.streams s).read

theorem Since.refl {I : World → Prop} (w : World) : Since I w w := ⟨id, fun _ => List.prefix_rfl⟩

theorem Since.trans {I : World → Prop} {w w' w'' : World} (h : Since I w w')
    (h' : Since I w' w'') : Since I w w'' :=
  ⟨h'.lasting ∘ h.lasting, fun s => (h.read s).trans (h'.read s)⟩

theorem lasting_since {I : World → Prop} {W : Frame → Prop} (hI : Lasting I W) (w : World) :
    Lasting (Since I w) W where
  serveOne w' served hserved h := by
    refine ⟨fun hw => hI.serveOne w' served hserved (h.lasting hw), fun s => ?_⟩
    rw [(sameView_serveOne w' served).read]
    exact h.read s
  turn w' turn h := ⟨fun hw => hI.turn w' turn (h.lasting hw), h.read⟩
  opened w' h := ⟨fun hw => hI.opened w' (h.lasting hw), h.read⟩
  post w' stream frame hframe h := by
    refine ⟨fun hw => hI.post w' stream frame hframe (h.lasting hw), fun s => ?_⟩
    rw [read_post]
    exact h.read s
  deliver w' stream h := by
    refine ⟨fun hw => hI.deliver w' stream (h.lasting hw), fun s => ?_⟩
    by_cases hs : s = stream
    · subst hs
      rcases hunread : (w'.streams s).unread with _ | ⟨a, rest⟩
      · rw [deliver_of_nil hunread]
        exact h.read s
      · rw [deliver_of_cons hunread]
        simpa using (h.read s).trans (List.prefix_append _ [a])
    · rw [streams_deliver_of_ne w' hs]
      exact h.read s

/-- An operation that begins and ends with nothing outstanding, and what it leaves of
the world. -/
def Cluster.Calls (I : World → Prop) (c c' : Cluster World) : Prop :=
  Cluster.Resting c → Cluster.Resting c' ∧ Since I c.wire.env c'.wire.env

instance {I : World → Prop} : IsPreorder (Cluster World) (Cluster.Calls I) where
  refl c h := ⟨h, .refl _⟩
  trans _ _ _ h h' hc := ⟨(h' (h hc).1).1, (h hc).2.trans (h' (h hc).1).2⟩

theorem Cluster.permits_calls {I : World → Prop} {W : Frame → Prop} (codec : Codec)
    (hI : Lasting I W) (hW : ∀ f : Frame, f.request.isPlumbing → W f) :
    Cluster.Permits (World.transport codec) (Cluster.Calls I) W where
  plumbing := hW
  pick c hc := (permits_rests codec (lasting_since hI c.wire.env) hW).pick c hc (.refl _)
  now c hc := (permits_rests codec (lasting_since hI c.wire.env) hW).now c hc (.refl _)
  systemTime c hc := (permits_rests codec (lasting_since hI c.wire.env) hW).systemTime c hc (.refl _)
  sleep duration c hc :=
    (permits_rests codec (lasting_since hI c.wire.env) hW).sleep duration c hc (.refl _)
  bootstrap addrs lastErr c hkeys hc :=
    (permits_rests codec (lasting_since hI c.wire.env) hW).bootstrap addrs lastErr c hkeys hc (.refl _)
  call as addr _ _ hreq c hc :=
    (permits_rests codec (lasting_since hI c.wire.env) hW).call as addr hreq c hc (.refl _)
  update _ _ hc := ⟨hc, .refl _⟩
  invalidate _ _ hc := ⟨hc, .refl _⟩
  refreshedAt _ _ hc := ⟨hc, .refl _⟩

namespace Producer

variable {I : World → Prop} {W : Frame → Prop}

/-- The network code in between: nothing outstanding, and the queues as they were. -/
structure Quiet (I : World → Prop) (p p' : Producer World) : Prop where
  calls : Cluster.Calls I p.cluster p'.cluster
  same : SameQueues p p'

instance : IsPreorder (Producer World) (Quiet I) where
  refl p := ⟨IsPreorder.toRefl.refl _, IsPreorder.toRefl.refl _⟩
  trans _ _ _ h h' := ⟨IsTrans.trans _ _ _ h.calls h'.calls, IsTrans.trans _ _ _ h.same h'.same⟩

theorem tolerates_quiet (codec : Codec) (hI : Lasting I W)
    (hW : ∀ f : Frame, f.request.isPlumbing → W f) :
    Tolerates (World.transport codec) (Cluster.Calls I) (Quiet I) W where
  permits := Cluster.permits_calls codec hI hW
  cluster _ _ h := ⟨h, ⟨rfl, rfl, rfl, rfl, rfl⟩⟩
  coordinator _ _ := ⟨refl_of _ _, ⟨rfl, rfl, rfl, rfl, rfl⟩⟩
  state _ _ _ _ := ⟨refl_of _ _, ⟨rfl, rfl, rfl, rfl, rfl⟩⟩
  offsets _ _ := ⟨refl_of _ _, ⟨rfl, rfl, rfl, rfl, rfl⟩⟩
  roundRobin _ _ := ⟨refl_of _ _, ⟨rfl, rfl, rfl, rfl, rfl⟩⟩

/-- The batch was accepted, by an answer the client has read. -/
def Confirmed (w : World) (tp : TopicPartition) (batch : Batch) : Prop :=
  ∃ s, ∃ a ∈ (w.streams s).read, ∃ req, a.frame.request = .produce req ∧
    (tp, batch) ∈ batchesOf req ∧ (a.outcome tp batch).1.1 = 0

theorem Confirmed.since {w w' : World} {tp : TopicPartition} {batch : Batch}
    (h : Confirmed w tp batch) (hw : Since I w w') : Confirmed w' tp batch := by
  obtain ⟨s, a, ha, hreq⟩ := h
  exact ⟨s, a, (hw.read s).subset ha, hreq⟩

/-- What a flush does from a producer with nothing outstanding: the stage stays as it
is, and each queue loses batches from its front, all of them confirmed. -/
structure Flushed (I : World → Prop) (p p' : Producer World) : Prop where
  resting : Cluster.Resting p'.cluster
  since : Since I p.cluster.wire.env p'.cluster.wire.env
  staged : p'.staged = p.staged
  dropped : p'.dropped = p.dropped
  queue : ∀ tp, ∃ k, p'.queue tp = (p.queue tp).drop k ∧
    ∀ batch ∈ (p.queue tp).take k, Confirmed p'.cluster.wire.env tp batch

def Flushing (I : World → Prop) (p p' : Producer World) : Prop :=
  Cluster.Resting p.cluster → Flushed I p p'

theorem Flushed.trans {p p' p'' : Producer World} (h : Flushed I p p') (h' : Flushed I p' p'') :
    Flushed I p p'' := by
  refine ⟨h'.resting, h.since.trans h'.since, h'.staged.trans h.staged,
    h'.dropped.trans h.dropped, fun tp => ?_⟩
  obtain ⟨k, hqueue, hconfirmed⟩ := h.queue tp
  obtain ⟨k', hqueue', hconfirmed'⟩ := h'.queue tp
  refine ⟨k + k', by rw [hqueue', hqueue, List.drop_drop], fun batch hbatch => ?_⟩
  rw [List.take_add, List.mem_append] at hbatch
  rcases hbatch with hbatch | hbatch
  · exact (hconfirmed batch hbatch).since h'.since
  · rw [← hqueue] at hbatch
    exact hconfirmed' batch hbatch

instance : IsPreorder (Producer World) (Flushing I) where
  refl p h := ⟨h, .refl _, rfl, rfl, fun tp => ⟨0, rfl, by simp⟩⟩
  trans _ _ _ h h' hp := (h hp).trans (h' (h hp).resting)

theorem Quiet.flushing {p p' : Producer World} (h : Quiet I p p') : Flushing I p p' := by
  intro hp
  refine ⟨(h.calls hp).1, (h.calls hp).2, h.same.staged, h.same.dropped, fun tp => ⟨0, ?_, by simp⟩⟩
  rw [queue, queue, h.same.pending]
  rfl

theorem queue_retain {ω : Type} (p : Producer ω) (tp : TopicPartition) :
    (p.pending.filter fun _ queue => !queue.isEmpty).getD tp [] = p.queue tp := by
  rw [queue, Std.TreeMap.getD_eq_getD_getElem?, Std.TreeMap.getD_eq_getD_getElem?,
    Std.TreeMap.getElem?_filter']
  cases p.pending[tp]? with
  | none => rfl
  | some queue =>
      rw [Option.filter_some]
      cases queue with
      | nil => rfl
      | cons batch rest => rfl

theorem flushing_retainQueued :
    Moves (Flushing I) (retainQueued : Act (Producer World) Error Unit) :=
  Moves.modify fun p hp => ⟨hp, .refl _, rfl, rfl, fun tp => ⟨0, queue_retain p tp, by simp⟩⟩

/-- The answer of an exchange has been read. -/
theorem Collected.mem_read {p : Producer World} {round : ℕ} {rounds : Window}
    {c c' : Cluster World} {codes : List (List (TopicPartition × ErrorCode))}
    {offsets offsets' : List ((TopicPartition × ℕ) × ℤ)} {exchanges : List Exchange}
    (h : Collected p round rounds c c' codes offsets offsets' exchanges) {x : Exchange}
    (hx : x ∈ exchanges) : ∃ s, x.answer ∈ (c'.wire.env.streams s).read := by
  obtain ⟨b, hb⟩ := h.connected x hx
  refine ⟨b.stream, ?_⟩
  rw [h.read x.target.1 b hb]
  refine List.mem_append_right _ (List.mem_map.mpr ⟨x, ?_, rfl⟩)
  exact List.mem_filter.mpr ⟨hx, by simp⟩

/-- What a window retires from a queue was confirmed. -/
theorem confirmed_of_retiring {p : Producer World} {byBroker : ByBroker}
    (hnodup : (routed byBroker).Nodup) {n : ℕ} {c c' : Cluster World}
    {codes : List (List (TopicPartition × ErrorCode))}
    {offsets offsets' : List ((TopicPartition × ℕ) × ℤ)} {exchanges : List Exchange}
    (h : Collected p 0 (p.planned byBroker.toList n) c c' codes offsets offsets' exchanges)
    {failedAt : PartitionMap ℕ} {tp : TopicPartition}
    (hfailed : failedAt[tp]? = firstFailed (inOrder codes) tp) {batch : Batch}
    (hbatch : batch ∈ (p.queue tp).take (retiring failedAt (inOrder codes) tp).length) :
    Confirmed c'.wire.env tp batch := by
  obtain ⟨m, hm, codeAt, hanswers, hcodes⟩ := partition_answers hnodup h tp
  obtain ⟨hle, hok⟩ := retiring_of_rounds hanswers hfailed
  obtain ⟨i, hi, hget⟩ := List.getElem_of_mem hbatch
  rw [List.length_take] at hi
  rw [List.getElem_take] at hget
  have hround : i < (retiring failedAt (inOrder codes) tp).length := by omega
  have hbatchAt : (p.queue tp)[i]? = some batch := by
    rw [List.getElem?_eq_getElem (by omega), hget]
  obtain ⟨x, hx, rfl, htarget, hcode⟩ := hcodes i (by omega) batch hbatchAt
  obtain ⟨s, hread⟩ := h.mem_read hx
  refine ⟨s, x.answer, hread, _, h.asked x hx, ?_, ?_⟩
  · rw [(batchesOf_produceRequest p x.target.2 x.round).mem_iff]
    exact List.mem_filterMap.mpr ⟨tp, htarget, by rw [hbatchAt]; rfl⟩
  · have hzero := hok x.round hround
    rw [hcode, ErrorCode.isOk_iff] at hzero
    exact congrArg ErrorCode.code hzero

section Flush

variable (codec : Codec) (hI : Lasting I W) (hW : ∀ f : Frame, f.request.isPlumbing → W f)

include hI hW

theorem flushing_settleWindow {p : Producer World} {byBroker : ByBroker}
    (hnodup : (routed byBroker).Nodup) {n : ℕ} {c c' : Cluster World}
    {codes : List (List (TopicPartition × ErrorCode))}
    {offsets offsets' : List ((TopicPartition × ℕ) × ℤ)} {exchanges : List Exchange}
    (h : Collected p 0 (p.planned byBroker.toList n) c c' codes offsets offsets' exchanges)
    (attempt : ℕ) (written : List (TopicPartition × ℤ)) :
    Flushing I { p with cluster := c', offsets := offsets' }
      (settleWindow (World.transport codec) attempt written codes
        { p with cluster := c', offsets := offsets' }).2 := by
  have hquiet := tolerates_quiet codec hI hW
  rcases judge_cases (inOrder codes) ⟨∅, false⟩
      { p with cluster := c', offsets := offsets' } with
    ⟨verdict, metadata, heq, hfailed⟩ | ⟨e, metadata, heq⟩
  · have hfailed : ∀ tp : TopicPartition,
        verdict.failedAt[tp]? = firstFailed (inOrder codes) tp := by
      intro tp
      rw [hfailed tp]
      simp
    rw [settleWindow, bind_of_ok heq]
    let p₁ : Producer World :=
      { p with cluster := { c' with metadata }, offsets := offsets' }
    let p₂ : Producer World := (retire verdict.failedAt (inOrder codes) p₁).2
    have hretired : Flushing I { p with cluster := c', offsets := offsets' } p₂ := by
      intro hp
      refine ⟨hp, .refl _, rfl, rfl, fun tp => ⟨(retiring verdict.failedAt (inOrder codes) tp).length,
        queue_retire verdict.failedAt offsets' (inOrder codes) (p.pending, []) tp,
        fun batch hbatch => ?_⟩⟩
      exact confirmed_of_retiring hnodup h (hfailed tp) hbatch
    refine trans_of (Flushing I) hretired ?_
    have hrest : Moves (Flushing I) (do
        retainQueued
        let p ← get
        if p.pending.isEmpty then
          pure (.inr (sortWritten (written ++ (retire verdict.failedAt (inOrder codes) p₁).1)))
        else do
          refreshTopics (World.transport codec) (if verdict.needsRefresh then p.pendingTopics else [])
          backoff (World.transport codec) attempt
          pure (.inl (written ++ (retire verdict.failedAt (inOrder codes) p₁).1)) :
        Act (Producer World) Error (List (TopicPartition × ℤ) ⊕ List (TopicPartition × ℤ))) := by
      refine .bind flushing_retainQueued fun _ => .bind .get fun p => .ite (.pure _) ?_
      refine .bind ((hquiet.refreshTopics _).mono fun _ _ => Quiet.flushing) fun _ => ?_
      exact .bind ((hquiet.backoff attempt).mono fun _ _ => Quiet.flushing) fun _ => .pure _
    exact hrest p₂
  · rw [settleWindow, bind_of_error heq]
    exact fun hp => ⟨hp, .refl _, rfl, rfl, fun tp => ⟨0, rfl, by simp⟩⟩

omit hI hW in
/-- The requests a producer with these queues, or what is left of them, may write. -/
def MayAsk (W : Frame → Prop) (p : Producer World) : Prop :=
  ∀ p' : Producer World, (∀ tp, p'.queue tp <:+ p.queue tp) →
    ∀ keys round (f : Frame), f.request = p'.ask keys round → W f

omit hI hW in
theorem MayAsk.mono {p p' : Producer World} (h : p.MayAsk W) (hp : Flushed I p p') :
    p'.MayAsk W := by
  intro p'' hqueue
  refine h p'' fun tp => (hqueue tp).trans ?_
  obtain ⟨k, hk, -⟩ := hp.queue tp
  rw [hk]
  exact List.drop_suffix k _

/-- A window is written and collected, or its writing fails. Both ways the cluster is at rest
again. -/
theorem window_cases {p : Producer World} {byBroker : ByBroker} (depth : ℕ)
    (hask : ∀ keys, ∀ round < depth, ∀ f : Frame, f.request = p.ask keys round → W f)
    (hp : Cluster.Resting p.cluster) :
    (∃ n codes failure c c' offsets',
      sendWindow (World.transport codec) byBroker depth 0 [] p =
        (.ok (p.planned byBroker.toList n), { p with cluster := c }) ∧
      collectWindow (World.transport codec) 0 (p.planned byBroker.toList n) { p with cluster := c } =
        (.ok (codes, failure), { p with cluster := c', offsets := offsets' }) ∧
      Cluster.Renewed p.cluster c ∧ Cluster.Resting c' ∧
      Since I p.cluster.wire.env c.wire.env ∧ Since I p.cluster.wire.env c'.wire.env ∧
      (failure = none → ∃ exchanges, Collected p 0 (p.planned byBroker.toList n) c c' codes
        p.offsets offsets' exchanges)) ∨
    ∃ e c offsets, sendWindow (World.transport codec) byBroker depth 0 [] p =
        (.error e, { p with cluster := c, offsets }) ∧
      Cluster.Resting c ∧ Since I p.cluster.wire.env c.wire.env := by
  have hshake : ∀ f : Frame, f.request.isHandshake → W f := fun f hf =>
    hW f (Request.isPlumbing_of_isHandshake hf)
  have hS := lasting_since hI p.cluster.wire.env
  have hstart : Trails p.cluster (p.asks 0 (p.planned byBroker.toList 0)) := by
    intro addr
    rw [hp.2 addr]
    exact List.nil_suffix
  rcases sendWindow_cases codec hS hshake byBroker depth 0
      (fun keys round hround => hask keys round (by omega)) hp.1 hstart with
    ⟨n, c, hsend, hrenewed, hlasting, htrails⟩ | ⟨e, c, offsets, hsend, hresting, hlasting⟩
  · obtain ⟨codes, failure, c', offsets', hcollect, hresting, hlasting', hcollected⟩ :=
      collectWindow_cases codec hS p 0 (p.planned byBroker.toList n) p.offsets hrenewed.sound htrails
        (nodup_planned (nodup_addrs byBroker) n)
    left
    exact ⟨n, codes, failure, c, c', offsets', hsend, hcollect, hrenewed, hresting,
      hlasting (.refl _), hlasting' (hlasting (.refl _)), hcollected⟩
  · exact .inr ⟨e, c, offsets, hsend, hresting, hlasting (.refl _)⟩

/-- From the writing of a window on. -/
theorem flushing_window {p : Producer World} {byBroker : ByBroker}
    (hask : ∀ keys round (f : Frame), f.request = p.ask keys round → W f)
    (hnodup : (routed byBroker).Nodup) (depth attempt : ℕ) (written : List (TopicPartition × ℤ)) :
    Flushing I p ((do
      let rounds ← sendWindow (World.transport codec) byBroker depth 0 []
      match ← collectWindow (World.transport codec) 0 rounds with
      | (_, some e) => abandonWindow (World.transport codec) attempt written e
      | (outcomes, none) => settleWindow (World.transport codec) attempt written outcomes :
        Act (Producer World) Error _) p).2 := by
  intro hp
  rcases window_cases codec hI hW depth (fun keys round _ => hask keys round) hp with
    ⟨n, codes, failure, c, c', offsets', hsend, hcollect, -, hresting, -, hsince, hcollected⟩ |
      ⟨e, c, offsets, hsend, hresting, hsince⟩
  · have hbetween : Flushed I p { p with cluster := c', offsets := offsets' } :=
      ⟨hresting, hsince, rfl, rfl, fun tp => ⟨0, rfl, by simp⟩⟩
    refine hbetween.trans ?_
    rw [bind_of_ok hsend, bind_of_ok hcollect]
    cases failure with
    | some e =>
        exact ((tolerates_quiet codec hI hW).abandonWindow attempt written e _).flushing hresting
    | none =>
        obtain ⟨exchanges, hcol⟩ := hcollected rfl
        exact flushing_settleWindow codec hI hW hnodup hcol attempt written hresting
  · rw [bind_of_error hsend]
    exact ⟨hresting, hsince, rfl, rfl, fun tp => ⟨0, rfl, by simp⟩⟩

theorem flushing_flushOnce {p : Producer World} (hask : p.MayAsk W) (attempt : ℕ)
    (written : List (TopicPartition × ℤ)) :
    Flushing I p (flushOnce (World.transport codec) attempt written p).2 := by
  have hquiet := tolerates_quiet codec hI hW
  refine moves_bind_at (flushing_retainQueued p) fun _ p₁ hretain => ?_
  cases hretain
  rw [bind_of_ok (get_apply _)]
  split
  · exact refl_of (Flushing I) _
  · refine moves_bind_at ((hquiet.route _ _ _).flushing) fun routes p₂ hroute => ?_
    obtain ⟨byBroker, unroutable⟩ := routes
    have hnodup : (routed byBroker).Nodup := by
      refine route_nodup hroute ?_
      exact Std.TreeMap.nodup_keys
    have hsame := hquiet.route (p.pending.filter fun _ queue => !queue.isEmpty).keys (∅, false)
      { p with pending := p.pending.filter fun _ queue => !queue.isEmpty }
    rw [hroute] at hsame
    have hask₂ : ∀ keys round (f : Frame), f.request = p₂.ask keys round → W f := by
      refine hask p₂ fun tp => ?_
      rw [queue, hsame.same.pending, ← queue_retain p tp]
    dsimp only
    split
    · split
      · exact refl_of (Flushing I) p₂
      · exact Moves.bind ((hquiet.backoff attempt).mono fun _ _ => Quiet.flushing)
          (fun _ => Moves.pure _) p₂
    · exact flushing_window codec hI hW hask₂ hnodup _ attempt written

theorem flushing_attempts {p : Producer World} (hask : p.MayAsk W) (left i : ℕ)
    (written : List (TopicPartition × ℤ)) :
    Flushing I p (attempts (flushOnce (World.transport codec))
      (fun _ => do throw (← get).stillPending) left i written p).2 := by
  induction left generalizing p i written with
  | zero => exact refl_of (Flushing I) p
  | succ left ih =>
      intro hp
      have hfirst := flushing_flushOnce codec hI hW hask i written hp
      rw [attempts, andThen]
      rcases honce : flushOnce (World.transport codec) i written p with ⟨_ | outcome, p₁⟩
      · rw [honce] at hfirst
        exact hfirst
      · rw [honce] at hfirst
        cases outcome with
        | inr result => exact hfirst
        | inl more => exact hfirst.trans (ih (hask.mono hfirst) (i + 1) more hfirst.resting)

end Flush

end Producer

end Barnabas.Client
