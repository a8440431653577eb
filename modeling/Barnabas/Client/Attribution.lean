import Barnabas.Client.Ledger

/-!
To which round an answer is counted.

The rounds of a window are written one behind the other, and an answer is counted for a
round by its place among those read from the connection. That is right as long as a
connection owes the answers to the first of the requests counted for it. A write that finds
its connection broken opens another one; what was outstanding is not answered there, the
answer to the later round comes first, and is counted for the earlier one.
-/

namespace Barnabas.Client

open Barnabas.Lib Barnabas.Core Barnabas.Lib.Act World

namespace Producer

variable (codec : Codec)

/-! ### What is recorded -/

/-- What is recorded of a request of a round: a failure, or the response to this very
request, read from the connection it was written to. -/
def Right (p : Producer World) (round : ℕ) (c c' : Cluster World) (target : RoundTarget) :
    Except Error ProduceResponse → Prop
  | .error _ => True
  | .ok resp => ∃ a b b', Cluster.looks c target.1 = some b ∧ Cluster.looks c' target.1 = some b' ∧
      b'.stream = b.stream ∧
      (c'.wire.env.streams b.stream).read = (c.wire.env.streams b.stream).read ++ [a] ∧
      a.frame.request = p.ask target.2 round ∧ Body.asProduce a.body = some resp

/-- The codes and offsets recorded of a window are those of its rounds, each from what is
right to record of it. -/
inductive Attributed (p : Producer World) : ℕ → Window → Cluster World →
    List (List (TopicPartition × ErrorCode)) → List ((TopicPartition × ℕ) × ℤ) → Cluster World → Prop
  | nil (round : ℕ) (c : Cluster World) : Attributed p round [] c [] [] c
  | cons {round : ℕ} {targets : List RoundTarget} {rest : Window} {c c₁ c' : Cluster World}
      {rs : List (Except Error ProduceResponse)} {codes : List (List (TopicPartition × ErrorCode))}
      {offsets : List ((TopicPartition × ℕ) × ℤ)}
      (hrecv : (Cluster.recvMany (World.transport codec) .produce Body.asProduce (targets.map (·.1)) :
        Act (Cluster World) Error _) c = (.ok rs, c₁))
      (hright : List.Forall₂ (Right p round c c₁) targets rs)
      (hrest : Attributed p (round + 1) rest c₁ codes offsets c') :
      Attributed p round (targets :: rest) c ((targets.zip rs).flatMap answerCodes :: codes)
        (offsets ++ ((targets.zip rs).flatMap (answerOffsets round)).reverse) c'

/-! ### Reading -/

/-- Every broker owes the answers to the first of these requests. -/
def OwesFirst (c : Cluster World) (due : String → List Request) : Prop :=
  ∀ addr, (Cluster.owed c addr).map (·.request) <+: due addr

variable {p : Producer World}

/-- A read takes the first answer owed and the first request counted. -/
theorem right_of_heard {c c' : Cluster World} {round : ℕ} {targets : List RoundTarget} {rest : Window}
    (h : OwesFirst c (p.asks round (targets :: rest))) (hnodup : (targets.map (·.1)).Nodup)
    {target : RoundTarget} (htarget : target ∈ targets) {r : Except Error ProduceResponse}
    (hheard : Cluster.Heard Body.asProduce (Cluster.looks c) c.wire.env (Cluster.looks c')
      c'.wire.env target.1 r) :
    Right p round c c' target r ∧
      (Cluster.owed c' target.1).map (·.request) <+: p.asks (round + 1) rest target.1 := by
  have hdue := h target.1
  rw [asks, asked_of_mem p round hnodup htarget, List.singleton_append] at hdue
  rcases hheard with ⟨a, b, b', hb, hb', hstream, hpop, hread, hok⟩ | ⟨e, rfl, hnone⟩
  · rw [Cluster.owed, hpop, List.map_cons, List.cons_prefix_cons] at hdue
    obtain ⟨hfirst, hrest⟩ := hdue
    refine ⟨?_, hrest⟩
    cases r with
    | error _ => trivial
    | ok resp => exact ⟨a, b, b', hb, hb', hstream, hread, hfirst, hok resp rfl⟩
  · rw [Cluster.owed, hnone]
    exact ⟨trivial, List.nil_prefix⟩

/-- Where every connection owes the first of what is counted for it, everything recorded is
right. -/
theorem collectWindow_attributed (round : ℕ) (rounds : Window) {c : Cluster World}
    (offsets : List ((TopicPartition × ℕ) × ℤ)) (hsound : Cluster.Sound c)
    (hfirst : OwesFirst c (p.asks round rounds)) (hnodup : ∀ targets ∈ rounds, (targets.map (·.1)).Nodup) :
    ∃ codes failure new c', collectWindow (World.transport codec) round rounds
          { p with cluster := c, offsets } =
        (.ok (codes, failure), { p with cluster := c', offsets := new ++ offsets }) ∧
      Attributed codec p round rounds c codes new c' := by
  induction rounds generalizing round c offsets with
  | nil => exact ⟨[], none, [], c, rfl, .nil round c⟩
  | cons targets rest ih =>
      have hnames := hnodup targets List.mem_cons_self
      obtain ⟨rs, c₁, hrecv, hsound₁, -, hheard, hothers⟩ :=
        Cluster.recvMany_cases codec lasting_true .produce Body.asProduce hnames hsound
      rw [List.forall₂_map_left_iff] at hheard
      have heach : ∀ target r, (target, r) ∈ targets.zip rs → Right p round c c₁ target r ∧
          (Cluster.owed c₁ target.1).map (·.request) <+: p.asks (round + 1) rest target.1 := by
        intro target r hmem
        exact right_of_heard hfirst hnames (List.of_mem_zip hmem).1
          (List.forall₂_iff_zip.mp hheard |>.2 hmem)
      have hfirst₁ : OwesFirst c₁ (p.asks (round + 1) rest) := by
        intro addr
        by_cases haddr : addr ∈ targets.map (·.1)
        · obtain ⟨target, htarget, rfl⟩ := List.mem_map.mp haddr
          obtain ⟨i, hi, hget⟩ := List.getElem_of_mem htarget
          have hi' : i < rs.length := hheard.length_eq ▸ hi
          have hmem : (target, rs[i]) ∈ targets.zip rs := by
            rw [← hget, List.mem_iff_getElem]
            exact ⟨i, by rw [List.length_zip]; exact lt_min hi hi', List.getElem_zip⟩
          exact (heach target _ hmem).2
        · have hdue := hfirst addr
          rw [asks, asked_of_not_mem p round haddr, List.nil_append] at hdue
          rw [(hothers addr haddr).2.1]
          exact hdue
      obtain ⟨codes, failure, new, c', hrest, hattributed⟩ :=
        ih (round + 1) (((targets.zip rs).flatMap (answerOffsets round)).reverse ++ offsets) hsound₁
          hfirst₁ fun t ht => hnodup t (List.mem_cons_of_mem _ ht)
      have honCluster : (onCluster (Cluster.recvMany (World.transport codec) .produce
          Body.asProduce (targets.map (·.1))) : Act (Producer World) Error _)
            { p with cluster := c, offsets } = (.ok rs, { p with cluster := c₁, offsets }) := by
        rw [onCluster, zoom_apply]
        dsimp only
        rw [hrecv]
      refine ⟨_, ((targets.zip rs).findSome? answerError).or failure, _, c', ?_,
        .cons hrecv ?_ hattributed⟩
      · rw [collectWindow, bind_of_ok honCluster, bind_of_ok (modify_apply _ _), bind_of_ok hrest,
          List.append_assoc]
        rfl
      · exact List.forall₂_iff_zip.mpr ⟨hheard.length_eq, fun hmem => (heach _ _ hmem).1⟩

/-! ### Writing -/

end Producer

namespace Cluster

variable (codec : Codec)

/-- If answers are outstanding on the connection a request goes to, the connection takes
it. -/
def Takes (addr : String) (version : ℤ) (req : Request) (c : Cluster World) : Prop :=
  ∀ b, looks c addr = some b → owed c addr ≠ [] → ∀ e, (Broker.send (World.transport codec)
    (World.transport codec).unhurried version req ⟨c.wire, b⟩).1 ≠ .error (.io e)

/-- An attempt on a connection that takes the request is the only one. -/
theorem sendOnce_takes {addr : String} {version : ℤ} {req : Request} {c : Cluster World} {b : Broker}
    (hb : looks c addr = some b) (htakes : ∀ e, (Broker.send (World.transport codec)
      (World.transport codec).unhurried version req ⟨c.wire, b⟩).1 ≠ .error (.io e))
    (retry retry' : IoError → Act (Cluster World) Error Unit) :
    sendOnce (World.transport codec) addr version req retry c =
      sendOnce (World.transport codec) addr version req retry' c := by
  have hbroker : brokerAt (World.transport codec) addr c = (.ok b, c) := by
    have hpool : (c.pool .data)[addr]? = some b := hb
    rw [brokerAt, brokerIn, bind_of_ok (get_apply c), hpool]
    rfl
  rw [sendOnce, sendOnce, bind_of_ok hbroker, bind_of_ok hbroker]
  rcases hsend : Broker.send (World.transport codec) (World.transport codec).unhurried version req
    ⟨c.wire, b⟩ with ⟨outcome, l'⟩
  have hon : (onBroker .data addr b (Broker.send (World.transport codec)
      (World.transport codec).unhurried version req) : Act (Cluster World) Error _) c =
        (.ok outcome, { c with wire := l'.wire }.keep .data addr l'.broker) := onBroker_eq hsend
  rw [bind_of_ok hon, bind_of_ok hon]
  rcases outcome with e | _
  · cases e with
    | io e => exact absurd (congrArg Prod.fst hsend) (htakes e)
    | _ => rfl
  · rfl

/-- A request that its connection takes is written behind what is outstanding, or not at
all. -/
theorem sendAt_takes {I : World → Prop} {W : Frame → Prop} (hI : Lasting I W)
    (hW : ∀ f : Frame, f.request.isHandshake → W f) {version : ℤ} {req : Request}
    (hreq : ∀ f : Frame, f.request = req → W f) {c : Cluster World} (h : Sound c) {addr : String}
    (htakes : Takes codec addr version req c) :
    (∃ f c', sendAt (World.transport codec) addr version req c = (.ok (), c') ∧
        f.request = req ∧ With I addr c c' ∧ owed c' addr = owed c addr ++ [f]) ∨
      ∃ e c', sendAt (World.transport codec) addr version req c = (.error e, c') ∧
        With I addr c c' ∧ (owed c' addr = [] ∨ owed c' addr = owed c addr) := by
  by_cases howed : owed c addr = []
  · rcases sendAt_cases codec hI hW version hreq h addr with
      ⟨f, c', hsend, hf, hwith, hlast⟩ | hfailed
    · refine .inl ⟨f, c', hsend, hf, hwith, ?_⟩
      rw [howed, List.nil_append] at hlast ⊢
      exact hlast.elim id id
    · exact .inr hfailed
  · rcases hlook : looks c addr with _ | b
    · exact absurd (outs_of_none hlook) howed
    · have honce : sendAt (World.transport codec) addr version req c =
          sendOnce (World.transport codec) addr version req (fun e => throw (.io e)) c :=
        sendOnce_takes codec hlook (htakes b hlook howed) _ _
      rw [honce]
      rcases sendOnce_cases codec hI hW version hreq h addr (fun e => throw (.io e)) with
        hwritten | ⟨e, c', hsend, hwith, hnone⟩ | hfailed
      · exact .inl hwritten
      · exact .inr ⟨.io e, c', hsend, hwith, .inl hnone⟩
      · exact .inr hfailed

end Cluster

namespace Producer

variable (codec : Codec) (p : Producer World)

/-- Every write of a round finds its connection alive, if answers are outstanding on it. -/
def RoundUnbroken (round : ℕ) : List RoundTarget → Cluster World → Prop
  | [], _ => True
  | (addr, keys) :: rest, c =>
      let taking := keys.filter fun tp => round < (p.queue tp).length
      if taking = [] then RoundUnbroken round rest c
      else Cluster.Takes codec addr 9 (p.ask taking round) c ∧
        ∀ c', Cluster.sendAt (World.transport codec) addr 9 (p.ask taking round) c = (.ok (), c') →
          RoundUnbroken round rest c'

/-- Every write of a window finds its connection alive, if answers are outstanding on it. -/
def Unbroken (targets : List RoundTarget) : ℕ → ℕ → Cluster World → Prop
  | 0, _, _ => True
  | left + 1, round, c => RoundUnbroken codec p round targets c ∧
      ∀ sent c', sendRound (World.transport codec) round targets [] { p with cluster := c } =
        (.ok (sent, none), { p with cluster := c' }) → Unbroken targets left (round + 1) c'

/-- Every broker owes the answers to these requests. -/
def Owes (c : Cluster World) (due : String → List Request) : Prop :=
  ∀ addr, (Cluster.owed c addr).map (·.request) = due addr

variable {p}

theorem Owes.sent {I : World → Prop} {c c' : Cluster World} {due : String → List Request}
    {addr : String} {keys : List TopicPartition} {round : ℕ} {f : Frame} (h : Owes c due)
    (hwith : Cluster.With I addr c c') (hf : f.request = p.ask keys round)
    (howed : Cluster.owed c' addr = Cluster.owed c addr ++ [f]) :
    Owes c' fun a => due a ++ p.asked round [(addr, keys)] a := by
  intro a
  by_cases ha : addr = a
  · subst ha
    have hasked : p.asked round [(addr, keys)] addr = [p.ask keys round] := by simp [asked]
    beta_reduce
    rw [hasked, howed, List.map_append, h addr, List.map_singleton, hf]
  · have hasked : p.asked round [(addr, keys)] a = [] := by simp [asked, ha]
    beta_reduce
    rw [hasked, List.append_nil, Cluster.owed, hwith.aside.outs a (Ne.symm ha)]
    exact h a

theorem Owes.lost {I : World → Prop} {c c' : Cluster World} {due : String → List Request}
    {addr : String} (h : Owes c due) (hwith : Cluster.With I addr c c')
    (howed : Cluster.owed c' addr = [] ∨ Cluster.owed c' addr = Cluster.owed c addr) :
    OwesFirst c' due := by
  intro a
  by_cases ha : a = addr
  · rcases howed with howed | howed
    · rw [ha, howed]
      exact List.nil_prefix
    · rw [ha, howed, h addr]
  · rw [Cluster.owed, hwith.aside.outs a ha]
    exact (h a).symm ▸ List.prefix_refl _

/-- An unbroken round leaves every broker with all that was written to it, or ends with a
connection that owes nothing. -/
theorem sendRound_owes (round : ℕ) (targets sent : List RoundTarget) {c : Cluster World}
    (hsound : Cluster.Sound c) {due : String → List Request}
    (howes : Owes c fun a => due a ++ p.asked round sent a)
    (hunbroken : RoundUnbroken codec p round targets c) :
    ∃ new err c', sendRound (World.transport codec) round targets sent
          { p with cluster := c } = (.ok (sent ++ new, err), { p with cluster := c' }) ∧
      Cluster.Sound c' ∧ (new.map (·.1)).Sublist (targets.map (·.1)) ∧
      (err = none → Owes c' fun a => due a ++ p.asked round (sent ++ new) a) ∧
      OwesFirst c' fun a => due a ++ p.asked round (sent ++ new) a := by
  induction targets generalizing sent c with
  | nil =>
      refine ⟨[], none, c, by rw [List.append_nil]; rfl, hsound, .refl _, fun _ => ?_, fun a => ?_⟩
      · rwa [List.append_nil]
      · rw [List.append_nil, howes a]
  | cons target rest ih =>
      obtain ⟨addr, keys⟩ := target
      by_cases htaking : (keys.filter fun tp => round < (p.queue tp).length) = []
      · rw [RoundUnbroken, if_pos htaking] at hunbroken
        obtain ⟨new, err, c', heq, hsound', hsub, hall, hfirst⟩ := ih sent hsound howes hunbroken
        refine ⟨new, err, c', ?_, hsound', hsub.trans (List.sublist_cons_self ..), hall, hfirst⟩
        rw [sendRound_skips htaking, heq]
      · rw [RoundUnbroken, if_neg htaking] at hunbroken
        obtain ⟨htakes, hrest⟩ := hunbroken
        let taking := keys.filter fun tp => round < (p.queue tp).length
        rcases Cluster.sendAt_takes codec lasting_true (fun _ _ => trivial) (fun _ _ => trivial) hsound
            htakes with
          ⟨f, c₁, hsend, hf, hwith, howed⟩ | ⟨e, c₁, hsend, hwith, howed⟩
        · have howes₁ : Owes c₁ fun a => due a ++ p.asked round (sent ++ [(addr, taking)]) a := by
            intro a
            beta_reduce
            rw [asked_append, ← List.append_assoc]
            exact howes.sent hwith hf howed a
          obtain ⟨new, err, c', heq, hsound', hsub, hall, hfirst⟩ :=
            ih (sent ++ [(addr, taking)]) hwith.sound howes₁ (hrest c₁ hsend)
          have happend : sent ++ (addr, taking) :: new = sent ++ [(addr, taking)] ++ new :=
            List.append_cons ..
          refine ⟨(addr, taking) :: new, err, c', ?_, hsound', hsub.cons_cons _, ?_, ?_⟩
          · rw [sendRound_sends htaking hsend, heq, happend]
          · rw [happend]
            exact hall
          · rw [happend]
            exact hfirst
        · refine ⟨[], some e, c₁, ?_, hwith.sound, List.nil_sublist _, by simp, ?_⟩
          · rw [sendRound_fails htaking hsend, List.append_nil]
          · rw [List.append_nil]
            exact howes.lost hwith howed

/-- An unbroken window is collected from brokers that owe the first of what it asks, whether
it went out whole or was cut short by a failure. -/
theorem sendWindow_owes (byBroker : ByBroker) (left : ℕ) (rounds : Window) {c : Cluster World}
    (hsound : Cluster.Sound c) (howes : Owes c (p.asks 0 rounds))
    (hnodup : ∀ targets ∈ rounds, (targets.map (·.1)).Nodup)
    (hunbroken : Unbroken codec p byBroker.toList left rounds.length c) :
    ∃ rounds' c', (sendWindow (World.transport codec) byBroker left rounds.length rounds
            { p with cluster := c } = (.ok rounds', { p with cluster := c' }) ∨
          ∃ e, sendWindow (World.transport codec) byBroker left rounds.length rounds
              { p with cluster := c } =
            (collectWindow (World.transport codec) 0 rounds' >>= fun _ => throw e)
              { p with cluster := c' }) ∧
      Cluster.Sound c' ∧ (∀ targets ∈ rounds', (targets.map (·.1)).Nodup) ∧
      OwesFirst c' (p.asks 0 rounds') := by
  induction left generalizing rounds c with
  | zero => exact ⟨rounds, c, .inl rfl, hsound, hnodup, fun a => (howes a).symm ▸ List.prefix_refl _⟩
  | succ left ih =>
      obtain ⟨hround, hnext⟩ := hunbroken
      have hstart : Owes c fun a => p.asks 0 rounds a ++ p.asked rounds.length [] a := by
        intro a
        beta_reduce
        rw [show p.asked rounds.length [] a = [] from rfl, List.append_nil]
        exact howes a
      obtain ⟨new, err, c₁, hsend, hsound₁, hsub, hall, hfirst⟩ :=
        sendRound_owes codec rounds.length byBroker.toList [] hsound hstart hround
      rw [List.nil_append] at hsend hall hfirst
      have hdue : ∀ a, p.asks 0 (rounds ++ [new]) a =
          p.asks 0 rounds a ++ p.asked rounds.length new a := by
        intro a
        rw [asks_concat, Nat.zero_add]
      have hnames : ∀ targets ∈ rounds ++ [new], (targets.map (·.1)).Nodup := by
        intro targets htargets
        rcases List.mem_append.mp htargets with h | h
        · exact hnodup targets h
        · rw [List.mem_singleton.mp h]
          exact hsub.nodup (nodup_addrs byBroker)
      rw [sendWindow, bind_of_ok hsend]
      cases err with
      | some e =>
          refine ⟨rounds ++ [new], c₁, .inr ⟨e, rfl⟩, hsound₁, hnames, fun a => ?_⟩
          rw [hdue]
          exact hfirst a
      | none =>
          dsimp only
          split
          · next hempty =>
              refine ⟨rounds, c₁, .inl rfl, hsound₁, hnodup, fun a => ?_⟩
              have hdone := hfirst a
              rw [hempty] at hdone
              beta_reduce at hdone
              rwa [show p.asked rounds.length [] a = [] from rfl, List.append_nil] at hdone
          · have howes₁ : Owes c₁ (p.asks 0 (rounds ++ [new])) := by
              intro a
              rw [hdue]
              exact hall rfl a
            have hlength : (rounds ++ [new]).length = rounds.length + 1 := by simp
            have hlater := hnext new c₁ hsend
            rw [← hlength] at hlater ⊢
            exact ih (rounds ++ [new]) hsound₁ howes₁ hnames hlater

/-- What is recorded of a window is right: of one that went out whole as of one that was
cut short and is collected before its failure is returned. -/
def WindowRight (p : Producer World) (byBroker : ByBroker) (depth : ℕ) : Prop :=
  ∃ rounds c codes failure new c',
    (sendWindow (World.transport codec) byBroker depth 0 [] p =
        (.ok rounds, { p with cluster := c }) ∨
      ∃ e, sendWindow (World.transport codec) byBroker depth 0 [] p =
        (collectWindow (World.transport codec) 0 rounds >>= fun _ => throw e)
          { p with cluster := c }) ∧
    collectWindow (World.transport codec) 0 rounds { p with cluster := c } =
      (.ok (codes, failure), { p with cluster := c', offsets := new ++ p.offsets }) ∧
    Attributed codec p 0 rounds c codes new c'

/-- Whatever fails while a window is sent and collected, what is recorded of it is right, as
long as no write finds a connection broken on which answers are outstanding. -/
theorem window_attributed (p : Producer World) (byBroker : ByBroker) (depth : ℕ)
    (hrest : Cluster.Resting p.cluster)
    (hunbroken : Unbroken codec p byBroker.toList depth 0 p.cluster) :
    WindowRight codec p byBroker depth := by
  have howes : Owes p.cluster (p.asks 0 []) := fun addr => congrArg (List.map _) (hrest.2 addr)
  obtain ⟨rounds, c, hsent, hsound, hnodup, hfirst⟩ :=
    sendWindow_owes codec byBroker depth [] hrest.1 howes (by simp) hunbroken
  obtain ⟨codes, failure, new, c', hcollect, hattributed⟩ :=
    collectWindow_attributed codec 0 rounds p.offsets hsound hfirst hnodup
  exact ⟨rounds, c, codes, failure, new, c', hsent, hcollect, hattributed⟩

/-! ### A window whose connection is replaced -/

def queuing : List Call := [.enqueue ⟨"t", 0⟩ [sampleRecord], .enqueue ⟨"t", 0⟩ [sampleRecord]]

/-- A producer over this script, fresh from its constructor. -/
def bootedOver (rest : List Choice) : Producer World :=
  (Producer.idempotent (World.transport Tape.codec)
    (.start (scripted (idempotentScript.take 9 ++ rest))) ["b:1"] "c").2

/-- The producer with two batches queued for one partition. -/
def queuedTwice (rest : List Choice) : Producer World :=
  (Ledger.after (World.transport Tape.codec) (bootedOver rest) queuing).producer

/-- Between its calls a producer has nothing outstanding. -/
theorem resting_after {p : Producer World} (hbooted : Booted codec p) (calls : List Call) :
    Cluster.Resting (Ledger.after (World.transport codec) p calls).producer.cluster := by
  have hkept : (Ledger.after (World.transport codec) p calls).Kept :=
    run_induction (Ledger.Kept.start hbooted).1 (fun _ call h => h.step codec call) calls
  exact hkept.resting

theorem resting_queuedTwice {rest : List Choice} (h : (Producer.idempotent (World.transport Tape.codec)
    (.start (scripted (idempotentScript.take 9 ++ rest))) ["b:1"] "c").1 = .ok ()) :
    Cluster.Resting (queuedTwice rest).cluster := by
  have hbooted : Booted Tape.codec (bootedOver rest) := ⟨_, _, _, .inl (by rw [bootedOver, ← h])⟩
  rw [queuedTwice]
  exact resting_after Tape.codec hbooted queuing

def oneBroker : ByBroker := (∅ : ByBroker).insert "b:1" [⟨"t", 0⟩]

/-- Both writes go through, and both answers arrive. -/
def whole : List Choice :=
  [.done, .done, .serving 0 (.apiVersions ⟨0, []⟩), .serving 0 (.apiVersions ⟨0, []⟩)]

/-- The connection is broken when the second round is written, and the answer to it on the
new connection is all that arrives. -/
def replaced : List Choice :=
  [.done, .down, .done, .done, .serving 1 (.apiVersions ⟨0, []⟩), .done,
    .serving 1 (.apiVersions ⟨0, []⟩)]

def twoRounds : Window := [[("b:1", [⟨"t", 0⟩])], [("b:1", [⟨"t", 0⟩])]]

theorem toList_oneBroker : oneBroker.toList = [("b:1", [⟨"t", 0⟩])] := by decide

/-- The cluster when the first round has been written. -/
def firstSent (rest : List Choice) : Cluster World :=
  (sendRound (World.transport Tape.codec) 0 [("b:1", [⟨"t", 0⟩])] [] (queuedTwice rest)).2.cluster

theorem unbroken_whole :
    Unbroken Tape.codec (queuedTwice whole) oneBroker.toList 2 0 (queuedTwice whole).cluster := by
  have hround (round : ℕ) {c : Cluster World} (htakes : Cluster.Takes Tape.codec "b:1" 9
      ((queuedTwice whole).ask ([⟨"t", 0⟩].filter fun tp =>
        round < ((queuedTwice whole).queue tp).length) round) c) :
      RoundUnbroken Tape.codec (queuedTwice whole) round [("b:1", [⟨"t", 0⟩])] c := by
    rw [RoundUnbroken]
    split
    · trivial
    · exact ⟨htakes, fun _ _ => trivial⟩
  rw [toList_oneBroker]
  refine ⟨hround 0 fun b _ howed => absurd ?_ howed, fun sent c₁ hsent => ⟨hround 1 ?_, fun _ _ _ => trivial⟩⟩
  · exact (resting_queuedTwice (by decide)).2 "b:1"
  · obtain rfl : firstSent whole = c₁ := congrArg (fun outcome => outcome.2.cluster) hsent
    intro b hb _ e hlost
    have hwritten : (Cluster.looks (firstSent whole) "b:1").map (fun b => (Broker.send
        (World.transport Tape.codec) (World.transport Tape.codec).unhurried 9
        ((queuedTwice whole).ask ([⟨"t", 0⟩].filter fun tp =>
          1 < ((queuedTwice whole).queue tp).length) 1) ⟨(firstSent whole).wire, b⟩).1.isOk) =
        some true := by
      decide
    rw [hb, Option.map_some, hlost] at hwritten
    cases hwritten

theorem window_attributed_whole : WindowRight Tape.codec (queuedTwice whole) oneBroker 2 :=
  window_attributed Tape.codec _ oneBroker 2 (resting_queuedTwice (by decide)) unbroken_whole

/-- The cluster when both rounds have been written. -/
def sentOver (rest : List Choice) : Cluster World :=
  (sendWindow (World.transport Tape.codec) oneBroker 2 0 [] (queuedTwice rest)).2.cluster

/-- The first answers of a window of one broker. -/
def firstHeard (c : Cluster World) : Except Error (List (Except Error ProduceResponse)) × Cluster World :=
  Cluster.recvMany (World.transport Tape.codec) .produce Body.asProduce ["b:1"] c

/-- The first round is recorded with the code that the second was answered with. -/
theorem answer_to_another_round :
    (collectWindow (World.transport Tape.codec) 0 twoRounds
        { queuedTwice replaced with cluster := sentOver replaced }).1 =
      .ok ([[(⟨"t", 0⟩, ⟨45⟩)], [(⟨"t", 0⟩, ⟨7⟩)]], some (.io ⟨.other, "down"⟩)) ∧
      ¬ WindowRight Tape.codec (queuedTwice replaced) oneBroker 2 := by
  refine ⟨by decide +kernel, ?_⟩
  rintro ⟨rounds, c, codes, failure, new, c', hsent, -, hattributed⟩
  have hok : (sendWindow (World.transport Tape.codec) oneBroker 2 0 [] (queuedTwice replaced)).1 =
      .ok twoRounds := by decide
  obtain ⟨rfl, rfl⟩ : rounds = twoRounds ∧ c = sentOver replaced := by
    rcases hsent with hsent | ⟨e, hsent⟩
    · have hrounds := congrArg Prod.fst hsent
      rw [hok] at hrounds
      exact ⟨(Except.ok.inj hrounds).symm, (congrArg (fun outcome => outcome.2.cluster) hsent).symm⟩
    · rw [hsent] at hok
      rcases hcollect : collectWindow (World.transport Tape.codec) 0 rounds
        { queuedTwice replaced with cluster := c } with ⟨e' | _, p'⟩
      · rw [bind_of_error hcollect] at hok
        cases hok
      · rw [bind_of_ok hcollect] at hok
        cases hok
  rw [twoRounds] at hattributed
  rcases hattributed with _ | @⟨_, _, _, _, c₁, _, rs, _, _, hrecv, hright, -⟩
  have hheard : firstHeard (sentOver replaced) = (.ok rs, c₁) := hrecv
  rcases hright with _ | @⟨_, r, _, _, hone, hnone⟩
  cases hnone
  -- what was heard is an answer, read on the new connection, to the second request
  have hanswered : (firstHeard (sentOver replaced)).1.toOption.map (List.map Except.isOk) =
      some [true] := by decide
  have hstreams : (Cluster.looks (sentOver replaced) "b:1").map (·.stream) = some 1 := by
    decide
  have hlast : (((firstHeard (sentOver replaced)).2.wire.env.streams 1).read.getLast?.map
      (·.frame.request)) ≠ some ((queuedTwice replaced).ask [⟨"t", 0⟩] 0) := by decide
  rw [hheard] at hanswered hlast
  cases r with
  | error e => cases hanswered
  | ok resp =>
      obtain ⟨a, b, b', hb, -, -, hread, hasked, -⟩ := hone
      rw [hb] at hstreams
      have hstream : b.stream = 1 := Option.some.inj hstreams
      rw [hstream] at hread
      apply hlast
      change ((c₁.wire.env.streams 1).read.getLast?.map (·.frame.request)) = _
      rw [hread, List.getLast?_append_of_ne_nil _ (List.cons_ne_nil a []), List.getLast?_singleton,
        Option.map_some, hasked]

end Producer

end Barnabas.Client
