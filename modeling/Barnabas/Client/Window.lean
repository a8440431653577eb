import Barnabas.Client.Accounting
import Barnabas.Client.Wiring

/-!
A window of pipelined `Produce` requests.

The rounds of a window are written without waiting and answered in the order they
were written. If a connection is replaced on the way, its new stream owes fewer
answers than the client will ask it for, so that some read fails and the window is
abandoned; if no read fails, every answer belongs to the round it was read for.
From there on the partitions can be looked at one by one: each was answered once
in every round it took part in, and what is retired is its leading run of
successes.
-/

namespace Barnabas.Client

open Barnabas.Lib Barnabas.Core Barnabas.Lib.Act World

/-! ### A request names every partition once -/

/-- What an answer says of each batch of its request. -/
theorem Answer.partitionsOf_response (a : Answer) (req : ProduceRequest) :
    partitionsOf (a.response req) = (batchesOf req).map fun (tp, batch) =>
      (tp, ⟨tp.partition, (a.outcome tp batch).1.1, (a.outcome tp batch).1.2⟩) := by
  simp [partitionsOf, batchesOf, Answer.response, List.flatMap_map, List.map_flatMap, Function.comp_def]

namespace Producer

variable {I : World → Prop} {W : Frame → Prop}

/-- The batches waiting for a partition. -/
def queue {ω : Type} (p : Producer ω) (tp : TopicPartition) : List Batch := p.pending.getD tp []

/-- The request for a round of some partitions. -/
def ask {ω : Type} (p : Producer ω) (keys : List TopicPartition) (round : ℕ) : Request :=
  .produce (p.produceRequest keys round)

/-- The batches of a request, in the order of the partitions it was made for. -/
theorem batchesOf_produceRequest {ω : Type} (p : Producer ω) (keys : List TopicPartition)
    (round : ℕ) : (batchesOf (p.produceRequest keys round)).Perm
      (keys.filterMap fun tp => ((p.queue tp)[round]?).map fun batch => (tp, batch)) :=
  flatten_byTopic_perm _

/-! ### Writing the window -/

/-- The requests of a round that go to one broker. -/
def asked {ω : Type} (p : Producer ω) (round : ℕ) (targets : List RoundTarget) (addr : String) :
    List Request :=
  (targets.filter fun target => target.1 = addr).map fun target => p.ask target.2 round

/-- The requests of the rounds from `round` on that go to one broker. -/
def asks {ω : Type} (p : Producer ω) : ℕ → Window → String → List Request
  | _, [], _ => []
  | round, targets :: rest, addr => p.asked round targets addr ++ p.asks (round + 1) rest addr

/-- Every broker owes at most the last of the answers it will be asked for. -/
def Trails (c : Cluster World) (due : String → List Request) : Prop :=
  ∀ addr, (Cluster.owed c addr).map (·.request) <:+ due addr

/-- What a round takes from each broker's partitions. -/
def plan {ω : Type} (p : Producer ω) (round : ℕ) (targets : List RoundTarget) : List RoundTarget :=
  targets.filterMap fun (addr, keys) =>
    let taking := keys.filter fun tp => round < (p.queue tp).length
    if taking = [] then none else some (addr, taking)

section SendRound

variable {ω : Type} {T : Transport ω} {p : Producer ω} {c c' : Cluster ω} {round : ℕ} {addr : String}
  {keys : List TopicPartition} {rest sent : List RoundTarget}

/-- A broker with nothing in this round is passed over. -/
theorem sendRound_skips (h : (keys.filter fun tp => round < (p.queue tp).length) = []) :
    sendRound T round ((addr, keys) :: rest) sent { p with cluster := c } =
      sendRound T round rest sent { p with cluster := c } := by
  rw [sendRound, bind_of_ok (get_apply _)]
  exact congrFun (if_pos h) _

theorem attempt_sendAt {outcome : Except Error Unit} {req : Request}
    (hsend : Cluster.sendAt T addr 9 req c = (outcome, c')) :
    (attempt (onCluster (Cluster.sendAt T addr 9 req)) : Act (Producer ω) Error _)
      { p with cluster := c } = (.ok outcome, { p with cluster := c' }) := by
  rw [attempt_apply, onCluster, zoom_apply]
  dsimp only
  rw [hsend]

/-- A request that is written is noted down, and the round goes on. -/
theorem sendRound_sends (h : (keys.filter fun tp => round < (p.queue tp).length) ≠ [])
    (hsend : Cluster.sendAt T addr 9
      (p.ask (keys.filter fun tp => round < (p.queue tp).length) round) c = (.ok (), c')) :
    sendRound T round ((addr, keys) :: rest) sent { p with cluster := c } =
      sendRound T round rest (sent ++ [(addr, keys.filter fun tp => round < (p.queue tp).length)])
        { p with cluster := c' } := by
  rw [sendRound, bind_of_ok (get_apply _)]
  exact (congrFun (if_neg h) _).trans (bind_of_ok (attempt_sendAt hsend))

/-- A write that fails ends it. -/
theorem sendRound_fails (h : (keys.filter fun tp => round < (p.queue tp).length) ≠ []) {e : Error}
    (hsend : Cluster.sendAt T addr 9
      (p.ask (keys.filter fun tp => round < (p.queue tp).length) round) c = (.error e, c')) :
    sendRound T round ((addr, keys) :: rest) sent { p with cluster := c } =
      (.ok (sent, some e), { p with cluster := c' }) := by
  rw [sendRound, bind_of_ok (get_apply _)]
  exact (congrFun (if_neg h) _).trans (bind_of_ok (attempt_sendAt hsend))

end SendRound

theorem plan_cons_of_nil {ω : Type} {p : Producer ω} {round : ℕ} {addr : String}
    {keys : List TopicPartition} (h : (keys.filter fun tp => round < (p.queue tp).length) = [])
    (rest : List RoundTarget) : p.plan round ((addr, keys) :: rest) = p.plan round rest := by
  rw [plan, List.filterMap_cons]
  dsimp only
  rw [if_pos h]
  rfl

theorem plan_cons_of_ne {ω : Type} {p : Producer ω} {round : ℕ} {addr : String}
    {keys : List TopicPartition} (h : (keys.filter fun tp => round < (p.queue tp).length) ≠ [])
    (rest : List RoundTarget) : p.plan round ((addr, keys) :: rest) =
      (addr, keys.filter fun tp => round < (p.queue tp).length) :: p.plan round rest := by
  rw [plan, List.filterMap_cons]
  dsimp only
  rw [if_neg h]
  rfl

theorem asked_append {ω : Type} (p : Producer ω) (round : ℕ) (targets more : List RoundTarget)
    (addr : String) :
    p.asked round (targets ++ more) addr = p.asked round targets addr ++ p.asked round more addr := by
  simp [asked]

theorem asks_concat {ω : Type} (p : Producer ω) (round : ℕ) (rounds : Window)
    (targets : List RoundTarget) (addr : String) :
    p.asks round (rounds ++ [targets]) addr =
      p.asks round rounds addr ++ p.asked (round + rounds.length) targets addr := by
  induction rounds generalizing round with
  | nil => simp [asks]
  | cons first rest ih =>
      rw [List.cons_append, asks, ih, asks, List.append_assoc, List.length_cons]
      congr 3
      omega

/-- Writing one more request keeps the brokers behind. -/
theorem Trails.sent {p : Producer World} {c c' : Cluster World} {due : String → List Request}
    {addr : String} {keys : List TopicPartition} {round : ℕ} {f : Frame} (h : Trails c due)
    (hwith : Cluster.With I addr c c') (hf : f.request = p.ask keys round)
    (howed : Cluster.owed c' addr = Cluster.owed c addr ++ [f] ∨ Cluster.owed c' addr = [f]) :
    Trails c' fun a => due a ++ p.asked round [(addr, keys)] a := by
  intro a
  by_cases ha : addr = a
  · subst ha
    have hasked : p.asked round [(addr, keys)] addr = [p.ask keys round] := by simp [asked]
    beta_reduce
    rw [hasked]
    rcases howed with howed | howed
    · rw [howed, List.map_append, List.map_singleton, hf]
      exact List.suffix_append_self_iff.mpr (h addr)
    · rw [howed, List.map_singleton, hf]
      exact List.suffix_append _ _
  · have hasked : p.asked round [(addr, keys)] a = [] := by simp [asked, ha]
    beta_reduce
    rw [hasked, List.append_nil, Cluster.owed, hwith.aside.outs a (Ne.symm ha)]
    exact h a

theorem Trails.lost {c c' : Cluster World} {due : String → List Request} {addr : String}
    (h : Trails c due) (hwith : Cluster.With I addr c c')
    (howed : Cluster.owed c' addr = [] ∨ Cluster.owed c' addr = Cluster.owed c addr) :
    Trails c' due := by
  intro a
  by_cases ha : a = addr
  · rcases howed with howed | howed
    · rw [ha, howed]
      exact List.nil_suffix
    · rw [ha, howed]
      exact h addr
  · rw [Cluster.owed, hwith.aside.outs a ha]
    exact h a

variable (codec : Codec)
  (hI : Lasting I W) (hW : ∀ f : Frame, f.request.isHandshake → W f)

include hI hW

/-- Writing a round: what was written is a part of the plan, all of it if no write
failed. -/
theorem sendRound_cases {p : Producer World} (round : ℕ)
    (hask : ∀ keys (f : Frame), f.request = p.ask keys round → W f)
    (targets sent : List RoundTarget) {c : Cluster World} (hsound : Cluster.Sound c)
    {due : String → List Request} (htrails : Trails c fun a => due a ++ p.asked round sent a) :
    ∃ new err c', sendRound (World.transport codec) round targets sent
          { p with cluster := c } = (.ok (sent ++ new, err), { p with cluster := c' }) ∧
      Cluster.Renewed c c' ∧ (I c.wire.env → I c'.wire.env) ∧
      Trails c' (fun a => due a ++ p.asked round (sent ++ new) a) ∧
      (new.map (·.1)).Sublist (targets.map (·.1)) ∧ (err = none → new = p.plan round targets) := by
  induction targets generalizing sent c with
  | nil =>
      refine ⟨[], none, c, by rw [List.append_nil]; rfl, .refl hsound, id, ?_, .refl _, fun _ => rfl⟩
      rwa [List.append_nil]
  | cons target rest ih =>
      obtain ⟨addr, keys⟩ := target
      by_cases htaking : (keys.filter fun tp => round < (p.queue tp).length) = []
      · obtain ⟨new, err, c', heq, hsound', hlasting, htrails', hsub, hplan⟩ :=
          ih sent hsound htrails
        refine ⟨new, err, c', ?_, hsound', hlasting, htrails', hsub.trans (List.sublist_cons_self ..),
          fun herr => ?_⟩
        · rw [sendRound_skips htaking, heq]
        · rw [hplan herr, plan_cons_of_nil htaking]
      · let taking := keys.filter fun tp => round < (p.queue tp).length
        rcases Cluster.sendAt_cases codec hI hW 9 (hask taking) hsound addr with
          ⟨f, c₁, hsend, hf, hwith, howed⟩ | ⟨e, c₁, hsend, hwith, howed⟩
        · have htrails₁ : Trails c₁ fun a =>
              due a ++ p.asked round (sent ++ [(addr, taking)]) a := by
            intro a
            beta_reduce
            rw [asked_append, ← List.append_assoc]
            exact htrails.sent hwith hf howed a
          obtain ⟨new, err, c', heq, hrenewed, hlasting, htrails', hsub, hplan⟩ :=
            ih (sent ++ [(addr, taking)]) hwith.sound htrails₁
          have happend : sent ++ (addr, taking) :: new = sent ++ [(addr, taking)] ++ new :=
            List.append_cons ..
          refine ⟨(addr, taking) :: new, err, c', ?_, hwith.renewed.trans hrenewed,
            hlasting ∘ hwith.aside.lasting, ?_, hsub.cons_cons _, fun herr => ?_⟩
          · rw [sendRound_sends htaking hsend, heq, happend]
          · rw [happend]
            exact htrails'
          · rw [hplan herr, plan_cons_of_ne htaking]
        · refine ⟨[], some e, c₁, ?_, hwith.renewed, hwith.aside.lasting, ?_, List.nil_sublist _,
            fun herr => by cases herr⟩
          · rw [sendRound_fails htaking hsend, List.append_nil]
          · rw [List.append_nil]
            exact htrails.lost hwith howed

/-! ### Collecting the window -/

omit hI hW

/-- A request of a window with its answer. -/
structure Exchange where
  round : ℕ
  target : RoundTarget
  answer : Answer

namespace Exchange

def response (x : Exchange) : ProduceResponse := (Body.asProduce x.answer.body).getD []

/-- The codes of the answer, with the round they belong to. -/
def codes (x : Exchange) : List (ℕ × TopicPartition × ErrorCode) :=
  (answerCodes (x.target, .ok x.response)).map (x.round, ·)

def offsets (x : Exchange) : List ((TopicPartition × ℕ) × ℤ) :=
  answerOffsets x.round (x.target, .ok x.response)

end Exchange

/-- The requests of a window in the order their answers are read. -/
def inRounds (round : ℕ) (rounds : Window) : List (ℕ × RoundTarget) :=
  (rounds.zipIdx round).flatMap fun (targets, r) => targets.map (r, ·)

theorem tail_suffix {α : Type} {a b : α} {l m : List α} (h : a :: l <:+ b :: m) : l <:+ m := by
  rcases List.suffix_cons_iff.mp h with heq | hsuffix
  · rw [List.cons.injEq] at heq
    exact heq.2 ▸ List.suffix_rfl
  · exact (List.suffix_cons a l).trans hsuffix

theorem filter_singleton {β : Type} {l : List β} {key : β → String} (hnodup : (l.map key).Nodup)
    {x : β} (hx : x ∈ l) : (l.filter fun y => key y = key x) = [x] := by
  induction l with
  | nil => cases hx
  | cons first rest ih =>
      rw [List.map_cons, List.nodup_cons] at hnodup
      rcases List.mem_cons.mp hx with rfl | hx
      · have hrest : (rest.filter fun y => key y = key x) = [] := by
          rw [List.filter_eq_nil_iff]
          intro y hy
          simpa using fun heq : key y = key x => hnodup.1 (heq ▸ List.mem_map_of_mem hy)
        rw [List.filter_cons_of_pos (by simp), hrest]
      · have hne : ¬key first = key x := fun heq => hnodup.1 (heq ▸ List.mem_map_of_mem hx)
        rw [List.filter_cons_of_neg (by simpa using hne)]
        exact ih hnodup.2 hx

theorem asked_of_mem {ω : Type} (p : Producer ω) (round : ℕ) {targets : List RoundTarget}
    (hnodup : (targets.map (·.1)).Nodup) {target : RoundTarget} (h : target ∈ targets) :
    p.asked round targets target.1 = [p.ask target.2 round] := by
  rw [asked, filter_singleton hnodup h]
  rfl

theorem asked_of_not_mem {ω : Type} (p : Producer ω) (round : ℕ) {targets : List RoundTarget}
    {addr : String} (h : addr ∉ targets.map (·.1)) : p.asked round targets addr = [] := by
  rw [asked, List.filter_eq_nil_iff.mpr, List.map_nil]
  intro t ht
  simpa using fun heq : t.1 = addr => h (heq ▸ List.mem_map_of_mem ht)

/-- A round of reads keeps the brokers behind. -/
theorem Trails.heard {p : Producer World} {c c' : Cluster World} {round : ℕ}
    {targets : List RoundTarget} {rest : Window} {rs : List (Except Error ProduceResponse)}
    (h : Trails c (p.asks round (targets :: rest))) (hnodup : (targets.map (·.1)).Nodup)
    (hheard : List.Forall₂ (Cluster.Heard Body.asProduce (Cluster.looks c) c.wire.env
      (Cluster.looks c') c'.wire.env) (targets.map (·.1)) rs)
    (hothers : ∀ a ∉ targets.map (·.1), Cluster.owed c' a = Cluster.owed c a) :
    Trails c' (p.asks (round + 1) rest) := by
  intro addr
  have hdue := h addr
  rw [asks] at hdue
  by_cases haddr : addr ∈ targets.map (·.1)
  · obtain ⟨target, htarget, rfl⟩ := List.mem_map.mp haddr
    rw [asked_of_mem p round hnodup htarget] at hdue
    obtain ⟨i, hi, hget⟩ := List.getElem_of_mem haddr
    have hone := (List.forall₂_iff_get.mp hheard).2 i hi (hheard.length_eq ▸ hi)
    rw [List.get_eq_getElem, hget] at hone
    rcases hone with ⟨a, b, b', _, _, _, hpop, _⟩ | ⟨e, _, hnone⟩
    · rw [Cluster.owed, hpop, List.map_cons] at hdue
      exact tail_suffix hdue
    · rw [Cluster.owed, hnone]
      exact List.nil_suffix
  · rw [asked_of_not_mem p round haddr, List.nil_append] at hdue
    rw [hothers addr haddr]
    exact hdue

/-- A round in which every read brought an answer. -/
theorem exchanges_of_round (round : ℕ) {Q : RoundTarget → Answer → Prop}
    {targets : List RoundTarget} {rs : List (Except Error ProduceResponse)}
    (h : List.Forall₂ (fun t r => ∃ a : Answer, Q t a ∧ r = .ok ((Body.asProduce a.body).getD []))
      targets rs) :
    ∃ xs : List Exchange, xs.map (fun x => (x.round, x.target)) = targets.map (round, ·) ∧
      (∀ x ∈ xs, Q x.target x.answer) ∧
      ((targets.zip rs).flatMap answerCodes).map (round, ·) = xs.flatMap Exchange.codes ∧
      (targets.zip rs).flatMap (answerOffsets round) = xs.flatMap Exchange.offsets := by
  induction h with
  | nil => exact ⟨[], rfl, by simp, rfl, rfl⟩
  | @cons t r targets rs hone _ ih =>
      obtain ⟨a, hQ, rfl⟩ := hone
      obtain ⟨xs, htargets, hxs, hcodes, hoffsets⟩ := ih
      refine ⟨⟨round, t, a⟩ :: xs, ?_, ?_, ?_, ?_⟩
      · rw [List.map_cons, List.map_cons, htargets]
      · intro x hx
        rcases List.mem_cons.mp hx with rfl | hx
        · exact hQ
        · exact hxs x hx
      · rw [List.zip_cons_cons, List.flatMap_cons, List.map_append, hcodes, List.flatMap_cons]
        rfl
      · rw [List.zip_cons_cons, List.flatMap_cons, hoffsets, List.flatMap_cons]
        rfl

theorem body_of_ask {p : Producer World} {a : Answer} {keys : List TopicPartition} {round : ℕ}
    (h : a.frame.request = p.ask keys round) :
    a.body = .produce (a.reply.arrange (a.response (p.produceRequest keys round))) := by
  rw [Answer.body, h, ask]

/-- The answer to a request of a round, read from the connection it was written
to. -/
structure Answers (p : Producer World) (round : ℕ) (window : Window) (c c' : Cluster World)
    (target : RoundTarget) (a : Answer) : Prop where
  asked : a.frame.request = p.ask target.2 round
  owed : (Cluster.owed c target.1).map (·.request) = p.asks round window target.1
  read : ∃ b b', Cluster.looks c target.1 = some b ∧ Cluster.looks c' target.1 = some b' ∧
    b'.stream = b.stream ∧
    (c'.wire.env.streams b.stream).read = (c.wire.env.streams b.stream).read ++ [a]

/-- If no read of a round failed and the brokers still owe all that follows, then
they owed all of the round, and each answer is the one to its request. -/
theorem answers_of_heard {p : Producer World} {c c' : Cluster World} {round : ℕ}
    {targets : List RoundTarget} {rest : Window} {rs : List (Except Error ProduceResponse)}
    (htrails : Trails c (p.asks round (targets :: rest))) (hnodup : (targets.map (·.1)).Nodup)
    (hheard : List.Forall₂ (Cluster.Heard Body.asProduce (Cluster.looks c) c.wire.env
      (Cluster.looks c') c'.wire.env) (targets.map (·.1)) rs)
    (hnone : (targets.zip rs).findSome? answerError = none)
    (howed : ∀ addr, (Cluster.owed c' addr).map (·.request) = p.asks (round + 1) rest addr) :
    List.Forall₂ (fun target r => ∃ a, Answers p round (targets :: rest) c c' target a ∧
      r = .ok ((Body.asProduce a.body).getD [])) targets rs := by
  rw [List.forall₂_map_left_iff, List.forall₂_iff_get] at hheard
  refine List.forall₂_iff_get.mpr ⟨hheard.1, fun i hi hi' => ?_⟩
  have hone := hheard.2 i hi hi'
  have herror : answerError (targets.get ⟨i, hi⟩, rs.get ⟨i, hi'⟩) = none := by
    refine List.findSome?_eq_none_iff.mp hnone _ (List.mem_iff_getElem.mpr ⟨i, ?_, ?_⟩)
    · rw [List.length_zip]
      exact lt_min hi hi'
    · exact List.getElem_zip
  have hmem : targets.get ⟨i, hi⟩ ∈ targets := List.get_mem _ _
  generalize targets.get ⟨i, hi⟩ = target at hone herror hmem
  generalize rs.get ⟨i, hi'⟩ = r at hone herror
  rcases hone with ⟨a, b, b', hb, hb', hstream, hpop, hread, hok⟩ | ⟨e, rfl, _⟩
  · have hdue : p.asks round (targets :: rest) target.1 =
        p.ask target.2 round :: p.asks (round + 1) rest target.1 := by
      rw [asks, asked_of_mem p round hnodup hmem]
      rfl
    have hwhole : (Cluster.owed c target.1).map (·.request) = p.asks round (targets :: rest) target.1 := by
      refine (htrails target.1).eq_of_length ?_
      have hlen := congrArg List.length (howed target.1)
      rw [List.length_map] at hlen
      rw [hdue, List.length_map, Cluster.owed, hpop, List.length_cons, List.length_cons, ← hlen]
      rfl
    have hasked : a.frame.request = p.ask target.2 round := by
      have hhead := hwhole
      rw [hdue, Cluster.owed, hpop, List.map_cons, List.cons.injEq] at hhead
      exact hhead.1
    cases r with
    | error e => cases herror
    | ok message =>
        refine ⟨a, ⟨hasked, hwhole, b, b', hb, hb', hstream, hread⟩, ?_⟩
        rw [hok message rfl]
        rfl
  · cases herror

/-- What a window that was collected without a failure consists of. -/
structure Collected (p : Producer World) (round : ℕ) (rounds : Window) (c c' : Cluster World)
    (codes : List (List (TopicPartition × ErrorCode))) (offsets offsets' : List ((TopicPartition × ℕ) × ℤ))
    (exchanges : List Exchange) : Prop where
  targets : exchanges.map (fun x => (x.round, x.target)) = inRounds round rounds
  asked : ∀ x ∈ exchanges, x.answer.frame.request = p.ask x.target.2 x.round
  codes : ((codes.zipIdx round).flatMap fun (results, r) => results.map (r, ·)) =
    exchanges.flatMap Exchange.codes
  offsets : offsets' = (exchanges.flatMap Exchange.offsets).reverse ++ offsets
  owed : ∀ addr, (Cluster.owed c addr).map (·.request) = p.asks round rounds addr
  read : ∀ addr b, Cluster.looks c addr = some b → (c'.wire.env.streams b.stream).read =
    (c.wire.env.streams b.stream).read ++
      (exchanges.filter fun x => x.target.1 = addr).map Exchange.answer
  connected : ∀ x ∈ exchanges, ∃ b, Cluster.looks c x.target.1 = some b

include hI in
/-- Collecting a window leaves nothing outstanding, and if no read failed, every
answer is the one to the request it was read for. -/
theorem collectWindow_cases (p : Producer World) (round : ℕ) (rounds : Window) {c : Cluster World}
    (offsets : List ((TopicPartition × ℕ) × ℤ)) (hsound : Cluster.Sound c)
    (htrails : Trails c (p.asks round rounds))
    (hnodup : ∀ targets ∈ rounds, (targets.map (·.1)).Nodup) :
    ∃ codes failure c' offsets', collectWindow (World.transport codec) round rounds
          { p with cluster := c, offsets } =
        (.ok (codes, failure), { p with cluster := c', offsets := offsets' }) ∧
      Cluster.Resting c' ∧ (I c.wire.env → I c'.wire.env) ∧
      (failure = none → ∃ exchanges, Collected p round rounds c c' codes offsets offsets' exchanges) := by
  induction rounds generalizing round c offsets with
  | nil =>
      have howed : ∀ addr, Cluster.owed c addr = [] := fun addr =>
        List.map_eq_nil_iff.mp (List.suffix_nil.mp (htrails addr))
      refine ⟨[], none, c, offsets, rfl, ⟨hsound, howed⟩, id, fun _ => ⟨[], rfl, by simp, rfl, rfl, ?_,
        by simp, by simp⟩⟩
      intro addr
      rw [howed]
      rfl
  | cons targets rest ih =>
      have hnames := hnodup targets List.mem_cons_self
      obtain ⟨rs, c₁, hrecv, hsound₁, hlasting₁, hheard, hothers⟩ :=
        Cluster.recvMany_cases codec hI .produce Body.asProduce hnames hsound
      have htrails₁ := htrails.heard hnames hheard fun a ha => (hothers a ha).2.1
      let offsets₁ := ((targets.zip rs).flatMap (answerOffsets round)).reverse ++ offsets
      obtain ⟨codes, failure, c', offsets', hrest, hresting, hlasting, hcollected⟩ :=
        ih (round + 1) offsets₁ hsound₁ htrails₁
          fun t ht => hnodup t (List.mem_cons_of_mem _ ht)
      have honCluster : (onCluster (Cluster.recvMany (World.transport codec) .produce
          Body.asProduce (targets.map (·.1))) : Act (Producer World) Error _)
            { p with cluster := c, offsets } = (.ok rs, { p with cluster := c₁, offsets }) := by
        rw [onCluster, zoom_apply]
        dsimp only
        rw [hrecv]
      refine ⟨(targets.zip rs).flatMap answerCodes :: codes,
        ((targets.zip rs).findSome? answerError).or failure, c', offsets', ?_, hresting,
        hlasting ∘ hlasting₁, fun hnone => ?_⟩
      · rw [collectWindow, bind_of_ok honCluster, bind_of_ok (modify_apply _ _), bind_of_ok hrest]
        rfl
      · obtain ⟨hround, hfail⟩ := Option.or_eq_none_iff.mp hnone
        obtain ⟨xs', hcol⟩ := hcollected hfail
        obtain ⟨xs, htargets, hxs, hcodes, hoffsets⟩ := exchanges_of_round round
          (answers_of_heard htrails hnames hheard hround hcol.owed)
        have hnames' : xs.map (fun x => x.target.1) = targets.map (·.1) := by
          have hmap := congrArg (List.map fun e : ℕ × RoundTarget => e.2.1) htargets
          rwa [List.map_map, List.map_map] at hmap
        have hall : ∀ x ∈ xs, p.ask x.target.2 x.round = p.ask x.target.2 round := fun x hx => by
          have hmem : (x.round, x.target) ∈ targets.map (round, ·) :=
            htargets ▸ List.mem_map_of_mem hx
          obtain ⟨t, _, ht⟩ := List.mem_map.mp hmem
          rw [(Prod.mk.inj ht).1]
        -- the answers of one connection are those of its round's request, if any, and
        -- those of the rounds that follow
        have hsame : ∀ addr ∉ targets.map (·.1), (xs.filter fun x => x.target.1 = addr) = [] := by
          intro addr haddr
          rw [List.filter_eq_nil_iff]
          intro x hx
          simpa using fun heq : x.target.1 = addr =>
            haddr (hnames' ▸ heq ▸ List.mem_map.mpr ⟨x, hx, rfl⟩)
        have hfind : ∀ addr ∈ targets.map (·.1), ∃ x ∈ xs, x.target.1 = addr := by
          intro addr haddr
          rw [← hnames'] at haddr
          exact List.mem_map.mp haddr
        refine ⟨xs ++ xs', ?_, ?_, ?_, ?_, ?_, ?_, ?_⟩
        · rw [List.map_append, htargets, hcol.targets, inRounds, inRounds, List.zipIdx_cons,
            List.flatMap_cons]
        · intro x hx
          rcases List.mem_append.mp hx with hx | hx
          · rw [(hxs x hx).asked, hall x hx]
          · exact hcol.asked x hx
        · rw [List.zipIdx_cons, List.flatMap_cons, hcol.codes, List.flatMap_append, ← hcodes]
        · rw [hcol.offsets, List.flatMap_append, List.reverse_append, List.append_assoc, ← hoffsets]
        · intro addr
          by_cases haddr : addr ∈ targets.map (·.1)
          · obtain ⟨x, hx, rfl⟩ := hfind addr haddr
            exact (hxs x hx).owed
          · rw [asks, asked_of_not_mem p round haddr, List.nil_append, ← hcol.owed addr,
              (hothers addr haddr).2.1]
        · intro addr b hb
          by_cases haddr : addr ∈ targets.map (·.1)
          · obtain ⟨x, hx, rfl⟩ := hfind addr haddr
            obtain ⟨b₀, b', hb₀, hb', hstream, hread⟩ := (hxs x hx).read
            obtain rfl : b = b₀ := Option.some.inj (hb.symm.trans hb₀)
            rw [List.filter_append, filter_singleton (hnames' ▸ hnames) hx, ← hstream,
              hcol.read x.target.1 b' hb', hstream, hread]
            simp
          · obtain ⟨hlook, _, hread⟩ := hothers addr haddr
            rw [List.filter_append, hsame addr haddr, List.nil_append,
              hcol.read addr b (hlook.trans hb), hread b hb]
        · intro x hx
          rcases List.mem_append.mp hx with hx | hx
          · obtain ⟨b, _, hb, _⟩ := (hxs x hx).read
            exact ⟨b, hb⟩
          · obtain ⟨b', hb'⟩ := hcol.connected x hx
            by_cases haddr : x.target.1 ∈ targets.map (·.1)
            · obtain ⟨y, hy, heq⟩ := hfind _ haddr
              obtain ⟨b, _, hb, _⟩ := (hxs y hy).read
              exact ⟨b, heq ▸ hb⟩
            · exact ⟨b', (hothers _ haddr).1 ▸ hb'⟩

end Producer

end Barnabas.Client
