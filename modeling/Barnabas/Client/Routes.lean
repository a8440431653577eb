import Barnabas.Client.ProducerRules
import Barnabas.Client.ConsumerRules

/-!
What a transport failure does to the routes.

A client remembers which broker leads a partition and which one coordinates, and sends
there until it learns better. It learns from answers. An attempt that gets none, because
the broker cannot be reached, or hangs up, or does not answer in time, leaves what is
remembered as it was, and the next attempt goes to the same address.
-/

namespace Barnabas.Client

open Barnabas.Lib Barnabas.Core Barnabas.Lib.Act

namespace Cluster

variable {ω : Type} (T : Transport ω)

/-- Every leader that was known is still where the next request goes, and nobody is asked
for it. -/
def Unmoved (c c' : Cluster ω) : Prop :=
  ∀ tp broker, c.metadata.leaderFor tp = some broker → leaderAddr T tp c' = (.ok broker.addr, c')

theorem leaderAddr_of_known {c : Cluster ω} {tp : TopicPartition} {broker : BrokerAddr}
    (h : c.metadata.leaderFor tp = some broker) : leaderAddr T tp c = (.ok broker.addr, c) := by
  rw [leaderAddr, bind_of_ok (get_apply c), h]
  rfl

theorem unmoved_of_metadata {c c' : Cluster ω} (h : c'.metadata = c.metadata) : Unmoved T c c' :=
  fun _ _ hknown => leaderAddr_of_known T (h ▸ hknown)

end Cluster

/-! ### The producer -/

namespace Producer

variable {ω : Type} (T : Transport ω)

/-- The cluster map of a producer. -/
def map (p : Producer ω) : Metadata := p.cluster.metadata

theorem map_onCluster {ε α : Type} {m : Act (Cluster ω) ε α} (hm : Moves (Act.Keeps Cluster.metadata) m) :
    Moves (Act.Keeps map) (onCluster m) :=
  Moves.zoom hm fun _ _ h => h

theorem map_collectWindow (round : ℕ) (rounds : Window) :
    Moves (Act.Keeps map) (collectWindow T round rounds) := by
  induction rounds generalizing round with
  | nil => exact Moves.pure _
  | cons sent rest ih =>
      refine Moves.bind (map_onCluster (Cluster.carries_metadata.recvMany T _ _ _)) fun responses => ?_
      refine Moves.bind (Moves.modify fun _ => rfl) fun _ => ?_
      exact Moves.bind (ih _) fun _ => Moves.pure _

theorem map_sendRound (round : ℕ) (targets sent : List RoundTarget) :
    Moves (Act.Keeps map) (sendRound T round targets sent) := by
  induction targets generalizing sent with
  | nil => exact Moves.pure _
  | cons target rest ih =>
      refine Moves.bind Moves.get fun p => Moves.ite (ih sent) ?_
      refine Moves.bind (Moves.attempt (map_onCluster
        (Cluster.carries_metadata.sendAt T (fun _ _ => trivial) _))) fun outcome => ?_
      cases outcome with
      | ok _ => exact ih _
      | error e => exact Moves.pure _

theorem map_sendWindow (byBroker : ByBroker) (left round : ℕ) (rounds : Window) :
    Moves (Act.Keeps map) (sendWindow T byBroker left round rounds) := by
  induction left generalizing round rounds with
  | zero => exact Moves.pure _
  | succ left ih =>
      refine Moves.bind (map_sendRound T round _ _) fun outcome => ?_
      obtain ⟨sent, _ | e⟩ := outcome
      · exact Moves.ite (Moves.pure _) (ih _ _)
      · exact Moves.bind (map_collectWindow T _ _) fun _ => Moves.throw _

theorem map_abandonWindow (attempt : ℕ) (written : List (TopicPartition × ℤ)) (e : Error) :
    Moves (Act.Keeps map) (abandonWindow T attempt written e) := by
  refine Moves.bind (Moves.modify fun _ => rfl) fun _ => ?_
  cases e with
  | io e =>
      refine Moves.ite (Moves.bind ?_ fun _ => Moves.pure _) (Moves.throw _)
      exact map_onCluster fun _ => rfl
  | _ => exact Moves.throw _

/-- An attempt of `flush` has found out where its batches go, and they go somewhere. -/
structure Routed (p : Producer ω) (p₀ p₁ : Producer ω) (byBroker : ByBroker) : Prop where
  retained : retainQueued p = (.ok (), p₀)
  pending : p₀.pending.isEmpty = false
  routes : ∃ unroutable, route T p₀.pending.keys (∅, false) p₀ = (.ok (byBroker, unroutable), p₁)
  targets : byBroker.isEmpty = false

/-- A window of these batches cannot be written, or an answer to it does not come. -/
def WindowFails (p₀ p₁ : Producer ω) (byBroker : ByBroker) (e : Error) : Prop :=
  (throughWindow T byBroker (p₀.windowDepth byBroker) p₁).1 = .error e ∨
    ∃ outcomes, (throughWindow T byBroker (p₀.windowDepth byBroker) p₁).1 = .ok (outcomes, some e)

/-- A window that fails leaves the map as it was when the window was sent. -/
theorem flushOnce_map {p p₀ p₁ : Producer ω} {byBroker : ByBroker} {e : Error}
    (hrouted : Routed T p p₀ p₁ byBroker) (hfails : WindowFails T p₀ p₁ byBroker e) (attempt : ℕ)
    (written : List (TopicPartition × ℤ)) : (flushOnce T attempt written p).2.map = p₁.map := by
  obtain ⟨hretained, hpending, ⟨unroutable, hroutes⟩, htargets⟩ := hrouted
  rw [flushOnce, bind_of_ok hretained, bind_of_ok (get_apply p₀), if_neg (by simp [hpending]),
    bind_of_ok hroutes]
  dsimp only
  rw [if_neg (by simp [htargets])]
  have hsent := map_sendWindow T byBroker (p₀.windowDepth byBroker) 0 [] p₁
  rcases hsend : sendWindow T byBroker (p₀.windowDepth byBroker) 0 [] p₁ with ⟨e' | rounds, p₂⟩
  · rw [hsend] at hsent
    rw [bind_of_error hsend]
    exact hsent
  · rw [hsend] at hsent
    have hthrough : throughWindow T byBroker (p₀.windowDepth byBroker) p₁ = collectWindow T 0 rounds p₂ :=
      bind_of_ok hsend
    have hread := map_collectWindow T 0 rounds p₂
    rw [bind_of_ok hsend]
    rcases hcollect : collectWindow T 0 rounds p₂ with ⟨e' | ⟨outcomes, failure⟩, p₃⟩
    · rw [hcollect] at hread
      rw [bind_of_error hcollect]
      exact hread.trans hsent
    · rw [hcollect] at hread
      rw [WindowFails, hthrough, hcollect] at hfails
      rcases hfails with herror | ⟨_, hfailure⟩
      · cases herror
      · cases hfailure
        rw [bind_of_ok hcollect]
        exact (map_abandonWindow T attempt written e p₃).trans (hread.trans hsent)

/-- An attempt at a coordinator request that fails leaves the coordinator known. -/
theorem coordinatorCallOnce_coordinator {α : Type} (op : String) (as : Body → Option α) (version : ℤ)
    (req : Request) (errorOf : α → ℤ) (attempt : ℕ) {p : Producer ω} {addr : String}
    (hknown : p.coordinator = some addr) {e : Error}
    (hfails : (coordinatorCallOnce T op as version req errorOf attempt () p).1 = .error e) :
    (coordinatorCallOnce T op as version req errorOf attempt () p).2.coordinator = some addr := by
  have hcached : coordinatorAddr T p = (.ok addr, p) := by
    rw [coordinatorAddr, bind_of_ok (get_apply p), hknown]
    rfl
  have hkept : ∀ m : Act (Cluster ω) Error α, (onCluster m p).2.coordinator = p.coordinator :=
    fun _ => rfl
  have hcall : (callCoordinatorAt T as addr version req p).2.coordinator = some addr := by
    rw [callCoordinatorAt]
    split
    · exact (hkept _).trans hknown
    · exact (hkept _).trans hknown
  rw [coordinatorCallOnce, bind_of_ok hcached] at hfails ⊢
  rcases hanswer : callCoordinatorAt T as addr version req p with ⟨e' | resp, p'⟩
  · rw [hanswer] at hcall
    rw [bind_of_error hanswer]
    exact hcall
  · rw [hanswer] at hcall
    rw [bind_of_ok hanswer] at hfails ⊢
    split
    · exact hcall
    · next hcode =>
        rw [if_neg hcode] at hfails
        cases hdisposition : (ErrorCode.mk (errorOf resp)).disposition with
        | findCoordinator =>
            -- here it is forgotten, but the attempt does not fail
            rw [hdisposition] at hfails
            cases hfails
        | _ => exact hcall

end Producer

/-! ### The consumer -/

namespace Consumer

variable {ω : Type} (T : Transport ω)

/-- The cluster map of a consumer. -/
def map (c : Consumer ω) : Metadata := c.cluster.metadata

theorem map_onCluster {ε α : Type} {m : Act (Cluster ω) ε α} (hm : Moves (Act.Keeps Cluster.metadata) m) :
    Moves (Act.Keeps map) (onCluster m) :=
  Moves.zoom hm fun _ _ h => h

/-- A call that is not answered leaves the map as it was. -/
theorem callAt_fails {α : Type} {as : Body → Option α} {addr : String} {version : ℤ} {req : Request}
    {c : Consumer ω} {e : Error} (h : (Cluster.callAt T as addr version req c.cluster).1 = .error e) :
    ∃ cluster : Cluster ω, cluster.metadata = c.cluster.metadata ∧
      (onCluster (Cluster.callAt T as addr version req) : Act (Consumer ω) Error α) c =
        (.error e, { c with cluster }) := by
  refine ⟨(Cluster.callAt T as addr version req c.cluster).2, ?_, ?_⟩
  · exact Cluster.carries_metadata.callAt T (fun _ _ => trivial) as addr c.cluster
  · rw [onCluster, zoom_apply, h]

/-- A lookup that the leader does not answer fails, and leaves the map as it was. -/
theorem listOffsetOnce_map {c : Consumer ω} {tp : TopicPartition} {broker : BrokerAddr} {e : Error}
    {timestamp : ℤ} (hknown : c.cluster.metadata.leaderFor tp = some broker)
    (hfails : (Cluster.callAt T Body.asListOffsets broker.addr 7 (.listOffsets ⟨-1, c.isolation.asI8,
      [(tp.topic, [(tp.partition, timestamp)])]⟩) c.cluster).1 = .error e) (attempt : ℕ) :
    (listOffsetOnce T tp timestamp attempt () c).1 = .error e ∧
      (listOffsetOnce T tp timestamp attempt () c).2.map = c.map := by
  have hleader : (Act.attempt (onCluster (Cluster.leaderAddr T tp)) : Act (Consumer ω) Error _) c =
      (.ok (.ok broker.addr), c) := by
    rw [attempt_apply, onCluster, zoom_apply, Cluster.leaderAddr_of_known T hknown]
  obtain ⟨cluster, hkept, hcall⟩ := callAt_fails T hfails
  have hattempt : listOffsetOnce T tp timestamp attempt () c = (.error e, { c with cluster }) := by
    rw [listOffsetOnce, bind_of_ok (get_apply c), bind_of_ok hleader]
    exact bind_of_error hcall
  rw [hattempt]
  exact ⟨rfl, hkept⟩

/-- A leader that does not answer ends a lookup of many offsets, and the map is as it
was. -/
theorem askLeaders_map {c : Consumer ω} {addr : String} {asked : List (TopicPartition × ℤ)} {e : Error}
    (hfails : (Cluster.callAt T Body.asListOffsets addr 7 (.listOffsets ⟨-1, c.isolation.asI8,
      Producer.byTopic asked⟩) c.cluster).1 = .error e)
    (rest : List (String × List (TopicPartition × ℤ))) (lookup : Lookup) :
    (askLeaders T ((addr, asked) :: rest) lookup c).1 = .error e ∧
      (askLeaders T ((addr, asked) :: rest) lookup c).2.map = c.map := by
  obtain ⟨cluster, hkept, hcall⟩ := callAt_fails T hfails
  have hasked : askLeaders T ((addr, asked) :: rest) lookup c = (.error e, { c with cluster }) := by
    rw [askLeaders, bind_of_ok (get_apply c)]
    exact bind_of_error hcall
  rw [hasked]
  exact ⟨rfl, hkept⟩

/-- Sending fetches keeps the map. -/
theorem map_sendFetches (planned : List (String × List TopicPartition × FetchRequest))
    (sent : List (String × List TopicPartition)) : Moves (Act.Keeps map) (sendFetches T planned sent) := by
  induction planned generalizing sent with
  | nil => exact Moves.pure _
  | cons first rest ih =>
      refine Moves.bind (Moves.attempt (map_onCluster
        (Cluster.carries_metadata.sendAt T (fun _ _ => trivial) _))) fun outcome => ?_
      cases outcome with
      | ok _ => exact ih _
      | error e => exact Moves.pure _

end Consumer

/-! ### The group -/

namespace ClassicProtocol

variable {ω α : Type} (T : Transport ω)

/-- Whatever a call comes to, a coordinator that was known is known. -/
def Holds (g g' : Grouped ω) : Prop :=
  ∀ addr, g.group.coordinator = some addr → g'.group.coordinator = some addr

instance : IsPreorder (Grouped ω) Holds where
  refl _ _ h := h
  trans _ _ _ h h' addr := h' addr ∘ h addr

theorem holds_coordinatorAddr : Moves Holds (coordinatorAddr T) := by
  intro g addr hknown
  rw [coordinatorAddr, bind_of_ok (get_apply g), hknown]
  exact hknown

theorem holds_callCoordinator (as : Body → Option α) (version : ℤ) (timeout : ℕ)
    (request : ClassicProtocol → Except Error Request) :
    Moves Holds (callCoordinator T as version timeout request) := by
  refine Moves.bind (holds_coordinatorAddr T) fun addr => Moves.bind Moves.get fun g => ?_
  exact Moves.bind (Moves.ofExcept _) fun req => fun g addr h => h

theorem holds_commit (offsets : PartitionMap ℤ) : Moves Holds (commit T offsets) := by
  refine Moves.bind Moves.get fun g => Moves.ite (Moves.pure _) (Moves.ite (Moves.throw _) ?_)
  exact Moves.bind (holds_callCoordinator T _ _ _ _) fun _ => Moves.ofExcept _

theorem holds_committed (partitions : List TopicPartition) : Moves Holds (committed T partitions) := by
  refine Moves.ite (Moves.pure _) (Moves.bind (holds_callCoordinator T _ _ _ _) fun _ => ?_)
  exact Moves.bind (Moves.ofExcept _) fun _ => Moves.ofExcept _

theorem holds_leave : Moves Holds (leave T) := by
  refine Moves.bind Moves.get fun g => Moves.ite (Moves.pure _) ?_
  refine Moves.bind (holds_coordinatorAddr T) fun addr => Moves.bind Moves.get fun g => ?_
  refine Moves.bind (Moves.ofExcept _) fun req => ?_
  refine Moves.bind (Moves.attempt fun g addr h => h) fun _ => ?_
  exact Moves.modify fun g addr h => h

theorem holds_hear (e : GroupMember.Event) : Moves Holds (hear e : Act (Grouped ω) Error Step) :=
  fun _ _ h => h

theorem holds_syncAnswer (assignments : List (String × Bytes)) :
    Moves Holds (syncAnswer T assignments) := by
  refine Moves.bind (holds_callCoordinator T _ _ _ _) fun resp => ?_
  exact Moves.bind (Moves.ofExcept _) fun _ => Moves.pure _

theorem holds_countPartitions (topics : List String) (counts : PartitionCounts) :
    Moves Holds (countPartitions T topics counts) := by
  induction topics generalizing counts with
  | nil => exact Moves.pure _
  | cons topic rest ih =>
      exact Moves.ite (ih _) (Moves.bind (fun g addr h => h) fun _ => ih _)

/-- A step that fails leaves the coordinator known. -/
theorem perform_holds {g : Grouped ω} {step : Step} {e : Error}
    (hfails : (perform T step g).1 = .error e) : Holds g (perform T step g).2 := by
  cases step with
  | join memberId =>
      refine (Moves.bind ?_ holds_hear : Moves Holds (join T)) g
      refine Moves.bind Moves.get fun g => Moves.bind (holds_callCoordinator T _ _ _ _) fun resp => ?_
      exact Moves.bind (Moves.ofExcept _) fun _ => Moves.pure _
  | assignAndSync members =>
      refine (Moves.bind ?_ holds_hear : Moves Holds (assignAndSync T members)) g
      refine Moves.bind (holds_countPartitions T _ _) fun counts => Moves.bind Moves.get fun g => ?_
      exact Moves.bind (Moves.ofExcept _) fun _ => holds_syncAnswer T _
  | sync => exact (Moves.bind (holds_syncAnswer T _) holds_hear : Moves Holds (sync T [])) g
  | heartbeat =>
      refine (Moves.bind ?_ holds_hear : Moves Holds (heartbeat T)) g
      exact Moves.bind (holds_callCoordinator T _ _ _ _) fun _ => Moves.pure _
  | findCoordinator => cases hfails

theorem advance_holds {g : Grouped ω} {e : Error} (hfails : (advance T g).1 = .error e) :
    Holds g (advance T g).2 := by
  rw [advance, bind_of_ok (get_apply g)] at hfails ⊢
  rcases hperform : perform T g.group.member.step g with ⟨e' | outcome, g₁⟩
  · have hheld := perform_holds (e := e') T (by rw [hperform])
    rw [hperform] at hheld
    rw [bind_of_error hperform]
    exact hheld
  · -- a step that was taken is followed by nothing that can fail
    rw [bind_of_ok hperform] at hfails
    by_cases houtcome : outcome = .findCoordinator
    · rw [if_pos houtcome] at hfails
      cases hfails
    · rw [if_neg houtcome] at hfails
      cases hfails

end ClassicProtocol

variable {ω : Type}

open Cluster (Unmoved unmoved_of_metadata)

/-- **A transport failure changes no route.** A producer's window that cannot be written or
is not answered, a lookup or a fetch of a consumer, and a request of a producer or a group
to the coordinator: what was known of leaders and coordinator before is known after. -/
theorem routes_outlive_failures (T : Transport ω) (D : Decoders) :
    (∀ p p₀ p₁ byBroker e attempt written, Producer.Routed T p p₀ p₁ byBroker →
        Producer.WindowFails T p₀ p₁ byBroker e →
        Unmoved T p₁.cluster (Producer.flushOnce T attempt written p).2.cluster) ∧
      (∀ (α : Type) op (as : Body → Option α) version req errorOf attempt (p : Producer ω) addr e,
        p.coordinator = some addr →
        (Producer.coordinatorCallOnce T op as version req errorOf attempt () p).1 = .error e →
        (Producer.coordinatorCallOnce T op as version req errorOf attempt () p).2.coordinator =
          some addr) ∧
      (∀ (c : Consumer ω) tp broker timestamp attempt e,
        c.cluster.metadata.leaderFor tp = some broker →
        (Cluster.callAt T Body.asListOffsets broker.addr 7 (.listOffsets ⟨-1, c.isolation.asI8,
          [(tp.topic, [(tp.partition, timestamp)])]⟩) c.cluster).1 = .error e →
        (Consumer.listOffsetOnce T tp timestamp attempt () c).1 = .error e ∧
          Unmoved T c.cluster (Consumer.listOffsetOnce T tp timestamp attempt () c).2.cluster) ∧
      (∀ (c : Consumer ω) addr asked rest lookup e,
        (Cluster.callAt T Body.asListOffsets addr 7 (.listOffsets ⟨-1, c.isolation.asI8,
          Producer.byTopic asked⟩) c.cluster).1 = .error e →
        (Consumer.askLeaders T ((addr, asked) :: rest) lookup c).1 = .error e ∧
          Unmoved T c.cluster (Consumer.askLeaders T ((addr, asked) :: rest) lookup c).2.cluster) ∧
      (∀ (c : Consumer ω) planned sent,
        Unmoved T c.cluster (Consumer.sendFetches T planned sent c).2.cluster) ∧
      (∀ (c : Cluster ω) addrs, Unmoved T c ((Cluster.recvMany T .fetch Body.asFetch addrs :
        Act (Cluster ω) Error _) c).2) ∧
      (∀ (c : Consumer ω) answers out,
        Unmoved T c.cluster (Consumer.absorb D answers out c).2.cluster) ∧
      (∀ g e, (ClassicProtocol.advance T g).1 = .error e →
        ClassicProtocol.Holds g (ClassicProtocol.advance T g).2) ∧
      (∀ g offsets, ClassicProtocol.Holds g (ClassicProtocol.commit T offsets g).2) ∧
      (∀ g partitions, ClassicProtocol.Holds g (ClassicProtocol.committed T partitions g).2) ∧
      ∀ g, ClassicProtocol.Holds g (ClassicProtocol.leave T g).2 := by
  refine ⟨?_, ?_, ?_, ?_, ?_, ?_, ?_, ?_, ?_, ?_, ?_⟩
  · intro p p₀ p₁ byBroker e attempt written hrouted hfails
    exact unmoved_of_metadata T (Producer.flushOnce_map T hrouted hfails attempt written)
  · intro α op as version req errorOf attempt p addr e hknown hfails
    exact Producer.coordinatorCallOnce_coordinator T op as version req errorOf attempt hknown hfails
  · intro c tp broker timestamp attempt e hknown hfails
    obtain ⟨herror, hmap⟩ := Consumer.listOffsetOnce_map T hknown hfails attempt
    exact ⟨herror, unmoved_of_metadata T hmap⟩
  · intro c addr asked rest lookup e hfails
    obtain ⟨herror, hmap⟩ := Consumer.askLeaders_map T hfails rest lookup
    exact ⟨herror, unmoved_of_metadata T hmap⟩
  · intro c planned sent
    exact unmoved_of_metadata T (Consumer.map_sendFetches T planned sent c)
  · intro c addrs
    exact unmoved_of_metadata T (Cluster.carries_metadata.recvMany T .fetch Body.asFetch addrs c)
  · intro c answers out
    have hkept : Moves (Act.Keeps Consumer.map) (Consumer.absorb D answers out : Act (Consumer ω) Error _) :=
      Consumer.moves_absorb D (fun _ _ _ => rfl) (fun _ _ => rfl) answers out
    exact unmoved_of_metadata T (hkept c)
  · exact fun g e hfails => ClassicProtocol.advance_holds T hfails
  · exact fun g offsets => ClassicProtocol.holds_commit T offsets g
  · exact fun g partitions => ClassicProtocol.holds_committed T partitions g
  · exact fun g => ClassicProtocol.holds_leave T g

/-- Nobody is at the address of the leader. -/
def Tape.stranding : Transport Tape :=
  { Tape.transport with
    connect := fun addr =>
      if addr = "l:1" then fun tape => (.error ⟨.other, "refused"⟩, tape)
      else Tape.transport.connect addr }

/-- A producer that has learned who leads its partition, and could not reach it. -/
def stranded : Except Error ℤ × Producer Tape :=
  Producer.send Tape.stranding ⟨"t", 0⟩ [⟨none, some [1], none, 0⟩]
    (Producer.idempotent Tape.stranding (.of [.apiVersions ⟨0, []⟩, .initProducerId ⟨0, 7, 0⟩,
      .metadata ⟨[⟨1, "l", 1⟩], 0, [⟨0, some "t", [⟨0, 0, 1⟩]⟩]⟩]) ["b:1"] "client").2

/-- It tries the same address again, and has asked nobody in between. -/
theorem leader_tried_again :
    stranded.1 = .error (.connect "l:1" ⟨.other, "refused"⟩) ∧
      (stranded.2.cluster.metadata.leaderFor ⟨"t", 0⟩).map (·.addr) = some "l:1" ∧
      (Producer.flush Tape.stranding stranded.2).1 = .error (.connect "l:1" ⟨.other, "refused"⟩) ∧
      (Producer.flush Tape.stranding stranded.2).2.cluster.wire.sent =
        stranded.2.cluster.wire.sent := by
  refine ⟨?_, ?_, ?_, ?_⟩ <;> decide +kernel

/-- What the next attempt of the stranded producer has to write, and where. -/
def strandedRoutes : Except Error (ByBroker × Bool) × Producer Tape :=
  Producer.route Tape.stranding (Producer.retainQueued stranded.2).2.pending.keys (∅, false)
    (Producer.retainQueued stranded.2).2

theorem routes_outlive_failures_stranded :
    ∃ byBroker, Producer.Routed Tape.stranding stranded.2 (Producer.retainQueued stranded.2).2
        strandedRoutes.2 byBroker ∧
      Unmoved Tape.stranding strandedRoutes.2.cluster
        (Producer.flushOnce Tape.stranding 0 [] stranded.2).2.cluster := by
  have hok : strandedRoutes.1.toOption.isSome = true := by decide +kernel
  have hsome : (strandedRoutes.1.toOption.map (·.1.isEmpty)) = some false := by decide +kernel
  have hfails : (strandedRoutes.1.toOption.map fun routes =>
      (Producer.throughWindow Tape.stranding routes.1
        ((Producer.retainQueued stranded.2).2.windowDepth routes.1) strandedRoutes.2).1.toOption.isNone) =
        some true := by decide +kernel
  rcases hroutes : strandedRoutes.1 with e | ⟨byBroker, unroutable⟩
  · rw [hroutes] at hok
    cases hok
  · rw [hroutes] at hsome hfails
    have hrouted : Producer.Routed Tape.stranding stranded.2 (Producer.retainQueued stranded.2).2
        strandedRoutes.2 byBroker := {
      retained := rfl
      pending := by decide +kernel
      routes := ⟨unroutable, Prod.fst_eq_iff.mp hroutes⟩
      targets := Option.some.inj hsome }
    refine ⟨byBroker, hrouted, ?_⟩
    rcases hwindow : (Producer.throughWindow Tape.stranding byBroker
        ((Producer.retainQueued stranded.2).2.windowDepth byBroker) strandedRoutes.2).1 with e | outcome
    · apply (routes_outlive_failures Tape.stranding Consumer.plainDecoders).1 _ _ _ _ e 0 [] hrouted
      exact Or.inl hwindow
    · have hnone : (Producer.throughWindow Tape.stranding byBroker
          ((Producer.retainQueued stranded.2).2.windowDepth byBroker)
          strandedRoutes.2).1.toOption.isNone = true := Option.some.inj hfails
      rw [hwindow] at hnone
      cases hnone

end Barnabas.Client
