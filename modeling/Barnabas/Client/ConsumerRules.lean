import Barnabas.Client.Consumer
import Barnabas.Client.Requests
import Barnabas.Client.Tape
import Barnabas.Core.Delivery
import Barnabas.Lib.Run

/-!
Runs of public calls on a consumer, and the rules for what a call can change.

Most of what the consumer does goes to the cluster, and touches of its own state
only the fetch in flight and the sessions. A relation between consumers that such
steps keep to is carried through every operation by the shape of the program; what
moves positions or takes the group out is left to the statements about it.
-/

namespace Barnabas.Client

open Barnabas.Lib Barnabas.Core Barnabas.Lib.Act

/-! ### Runs -/

namespace Consumer

/-- A public call on a consumer. -/
inductive Call
  | assign (tp : TopicPartition) (offset : ℤ)
  | remove (tp : TopicPartition)
  | pause (partitions : List TopicPartition)
  | resume (partitions : List TopicPartition)
  | seekTo (tp : TopicPartition) (offset : ℤ)
  | subscribe (groupId : String) (topics : List String) (assignor : Assignor) (reset : ℤ)
  | unsubscribe
  | commit
  | heartbeat
  | poll
  | partitionCount (topic : String)
  | listOffset (tp : TopicPartition) (timestamp : ℤ)
  | endOffsets (partitions : List TopicPartition)
  | beginningOffsets (partitions : List TopicPartition)
  | offsetsForTimes (want : List (TopicPartition × ℤ))
  | lag
  | committed (partitions : List TopicPartition)
  | takeExpansions
  | setIncrementalFetch (incremental : Bool)
  | setPrefetch (prefetch : Bool)
  | setMaxWait (maxWait : ℕ)
  | setAutoCommit (interval : Option ℕ)
  | setGroupTimeouts (session rebalance : ℕ)
  | setMetadataMaxAge (age : ℕ)

namespace Call

variable {ω : Type}

/-- Make a call, keeping of its result only whether there is one. -/
def exec (T : Transport ω) (D : Decoders) : Call → Act (Consumer ω) Error Unit
  | assign tp offset => Consumer.assign T tp offset
  | remove tp => modify (Consumer.remove tp)
  | pause partitions => modify (Consumer.pause partitions)
  | resume partitions => modify (Consumer.resume partitions)
  | seekTo tp offset => modify (Consumer.seekTo tp offset)
  | subscribe groupId topics assignor reset => Consumer.subscribe T groupId topics assignor reset
  | unsubscribe => Consumer.unsubscribe T
  | commit => Consumer.commit T
  | heartbeat => do
      let _ ← Consumer.heartbeat T
  | poll => do
      let _ ← Consumer.poll T D
  | partitionCount topic => do
      let _ ← Consumer.partitionCount T topic
  | listOffset tp timestamp => do
      let _ ← Consumer.listOffset T tp timestamp
  | endOffsets partitions => do
      let _ ← Consumer.endOffsets T partitions
  | beginningOffsets partitions => do
      let _ ← Consumer.beginningOffsets T partitions
  | offsetsForTimes want => do
      let _ ← Consumer.offsetsForTimes T want
  | lag => do
      let _ ← Consumer.lag T
  | committed partitions => do
      let _ ← Consumer.committed T partitions
  | takeExpansions => modify fun c => c.takeExpansions.2
  | setIncrementalFetch incremental => modify (Consumer.setIncrementalFetch incremental)
  | setPrefetch prefetch => modify (Consumer.setPrefetch prefetch)
  | setMaxWait maxWait => modify (Consumer.setMaxWait maxWait)
  | setAutoCommit interval => modify (Consumer.setAutoCommit interval)
  | setGroupTimeouts session rebalance => modify (Consumer.setGroupTimeouts session rebalance)
  | setMetadataMaxAge age => modify (Consumer.setMetadataMaxAge age)

/-- The consumer after a call. -/
def step (T : Transport ω) (D : Decoders) (c : Consumer ω) (call : Call) : Consumer ω :=
  (call.exec T D c).2

end Call

/-- A consumer fresh from `new`, or from the builder, which sets credentials on the
cluster it has connected. -/
def Started {ω : Type} (T : Transport ω) (c : Consumer ω) : Prop :=
  ∃ env bootstrap clientId isolation credentials cluster,
    Cluster.connect T (.new env bootstrap clientId) = (.ok (), cluster) ∧
      c = fromCluster { cluster with credentials } isolation

end Consumer

/-! ### The group's exchanges -/

/-- The requests of a group's member, but for its commits. -/
def Request.isMembership : Request → Bool
  | .joinGroup .. | .syncGroup .. | .heartbeat .. | .leaveGroup .. | .offsetFetch .. => true
  | _ => false

namespace Cluster

variable {ω : Type} (T : Transport ω)

/-- `C` holds across calls on the coordinator connections too. -/
structure Coordinates (C : Cluster ω → Cluster ω → Prop) (W : Frame → Prop) : Prop
    extends Permits T C W where
  coordinator : ∀ {α : Type} (as : Body → Option α) (addr : String) {version : ℤ} {req : Request}
    (timeout : ℕ), (∀ f : Frame, f.request = req → W f) →
    Moves C (callCoordinator T as addr version req timeout)

theorem coordinates_appends {W : Frame → Prop} (hW : ∀ f : Frame, f.request.isPlumbing → W f) :
    Coordinates T (Appends sent W) W where
  toPermits := permits_appends T hW
  coordinator as addr _ _ timeout hreq := (carries_appends hW).callCoordinator T hreq as addr timeout

/-- Nothing is said about the cluster. -/
def Anyhow (_ _ : Cluster ω) : Prop := True

instance : IsPreorder (Cluster ω) Anyhow where
  refl _ := trivial
  trans _ _ _ _ _ := trivial

theorem coordinates_anyhow : Coordinates T Anyhow fun _ => True where
  plumbing _ _ := trivial
  pick _ := trivial
  now _ := trivial
  systemTime _ := trivial
  sleep _ _ := trivial
  bootstrap _ _ _ _ := trivial
  call _ _ _ _ _ _ := trivial
  update _ _ := trivial
  invalidate _ _ := trivial
  refreshedAt _ _ := trivial
  coordinator _ _ _ _ _ _ _ := trivial

end Cluster

namespace ClassicProtocol

variable {ω α ε : Type} {T : Transport ω} {C : Cluster ω → Cluster ω → Prop} {W : Frame → Prop}

/-- A relation between clusters, whatever becomes of the group. -/
def Via (C : Cluster ω → Cluster ω → Prop) (g g' : Grouped ω) : Prop := C g.cluster g'.cluster

variable [IsPreorder (Cluster ω) C]

instance : IsPreorder (Grouped ω) (Via C) where
  refl g := refl_of C g.cluster
  trans _ _ _ h h' := trans_of C h h'

omit [IsPreorder (Cluster ω) C] in
theorem via_onCluster {m : Act (Cluster ω) ε α} (hm : Moves C m) : Moves (Via C) (onCluster m) :=
  Moves.zoom hm fun _ _ h => h

theorem via_setCoordinator (coordinator : Option String) :
    Moves (Via C) (setCoordinator coordinator : Act (Grouped ω) ε Unit) :=
  Moves.modify fun g => refl_of C g.cluster

theorem via_hear (e : GroupMember.Event) : Moves (Via C) (hear e : Act (Grouped ω) Error Step) :=
  fun g => refl_of C g.cluster

section Coordinates

variable (h : Cluster.Coordinates T C W)

include h

theorem via_coordinatorAddr : Moves (Via C) (coordinatorAddr T) := by
  refine Moves.bind Moves.get fun g => ?_
  split
  · exact Moves.pure _
  · refine Moves.attempts (fun _ _ => ?_) (fun _ => Moves.throw _) _ _ _
    refine Moves.bind (via_onCluster (h.callAny_plumbing rfl _)) fun resp => ?_
    refine Moves.ite ?_ (Moves.ite ?_ ?_)
    · exact Moves.bind (via_setCoordinator _) fun _ => Moves.pure _
    · exact Moves.bind (via_onCluster (h.sleep _)) fun _ => Moves.pure _
    · exact Moves.bind (Moves.ofExcept _) fun _ => Moves.pure _

theorem via_callCoordinator (as : Body → Option α) (version : ℤ) (timeout : ℕ)
    {request : ClassicProtocol → Except Error Request}
    (hreq : ∀ g req, request g = .ok req → ∀ f : Frame, f.request = req → W f) :
    Moves (Via C) (callCoordinator T as version timeout request) := by
  refine Moves.bind (via_coordinatorAddr h) fun addr => Moves.bind Moves.get fun g => ?_
  refine Moves.bind_of (Moves.ofExcept _) (Q := fun req => request g.group = .ok req) ?_ ?_
  · intro g' req g'' hok
    exact congrArg Prod.fst hok
  · exact fun req hok => via_onCluster (h.coordinator as addr timeout (hreq _ _ hok))

variable (hW : ∀ f : Frame, f.request.isMembership → W f)

include hW

theorem via_joinAnswer : Moves (Via C) (joinAnswer T) := by
  refine Moves.bind Moves.get fun g => ?_
  refine Moves.bind (via_callCoordinator h _ _ _ fun g req hreq f hf => hW f ?_) fun resp => ?_
  · rw [joinRequest] at hreq
    split at hreq
    · cases hreq
    · cases hreq
      rw [hf]
      rfl
  · exact Moves.bind (Moves.ofExcept _) fun _ => Moves.pure _

theorem via_syncAnswer (assignments : List (String × Bytes)) :
    Moves (Via C) (syncAnswer T assignments) := by
  refine Moves.bind (via_callCoordinator h _ _ _ fun g req hreq f hf => hW f ?_) fun resp => ?_
  · cases hreq
    rw [hf]
    rfl
  · exact Moves.bind (Moves.ofExcept _) fun _ => Moves.pure _

omit hW in
theorem via_countPartitions (topics : List String) (counts : PartitionCounts) :
    Moves (Via C) (countPartitions T topics counts) := by
  induction topics generalizing counts with
  | nil => exact Moves.pure _
  | cons topic rest ih =>
      refine Moves.ite (ih counts) ?_
      exact Moves.bind (via_onCluster (h.partitionCount topic)) fun _ => ih _

theorem via_assignAndSyncAnswer (members : List Subscription) :
    Moves (Via C) (assignAndSyncAnswer T members) := by
  refine Moves.bind (via_countPartitions h _ _) fun counts => Moves.bind Moves.get fun g => ?_
  exact Moves.bind (Moves.ofExcept _) fun encoded => via_syncAnswer h hW encoded

theorem via_heartbeatAnswer : Moves (Via C) (heartbeatAnswer T) := by
  refine Moves.bind (via_callCoordinator h _ _ _ fun g req hreq f hf => hW f ?_) fun _ =>
    Moves.pure _
  cases hreq
  rw [hf]
  rfl

theorem via_perform (step : Step) : Moves (Via C) (perform T step) := by
  cases step with
  | join memberId => exact Moves.bind (via_joinAnswer h hW) via_hear
  | assignAndSync members => exact Moves.bind (via_assignAndSyncAnswer h hW members) via_hear
  | sync => exact Moves.bind (via_syncAnswer h hW []) via_hear
  | heartbeat => exact Moves.bind (via_heartbeatAnswer h hW) via_hear
  | findCoordinator =>
      exact Moves.bind (via_setCoordinator none) fun _ => Moves.bind Moves.get fun _ => Moves.pure _

theorem via_advance : Moves (Via C) (advance T) := by
  refine Moves.bind Moves.get fun g => Moves.bind (via_perform h hW _) fun outcome => ?_
  have hannounce : Moves (Via C) (modifyGet fun g : Grouped ω =>
      ((announce g.group).1, { g with group := (announce g.group).2 }) :
        Act (Grouped ω) Error Membership) := fun g => refl_of C g.cluster
  exact Moves.ite (Moves.bind (via_setCoordinator none) fun _ => hannounce) hannounce

theorem via_leave : Moves (Via C) (leave T) := by
  refine Moves.bind Moves.get fun g => Moves.ite (Moves.pure _) ?_
  refine Moves.bind (via_coordinatorAddr h) fun addr => Moves.bind Moves.get fun g => ?_
  refine Moves.bind_of (Moves.ofExcept _) (Q := fun req => leaveRequest g.group = .ok req) ?_ ?_
  · intro g' req g'' hok
    exact congrArg Prod.fst hok
  · intro req hreq
    refine Moves.bind (Moves.attempt (via_onCluster (h.coordinator _ addr _ fun f hf => hW f ?_)))
      fun _ => Moves.modify fun g => refl_of C g.cluster
    cases hreq
    rw [hf]
    rfl

theorem via_committed (partitions : List TopicPartition) : Moves (Via C) (committed T partitions) := by
  refine Moves.ite (Moves.pure _) ?_
  refine Moves.bind (via_callCoordinator h _ _ _ fun g req hreq f hf => hW f ?_) fun resp => ?_
  · cases hreq
    rw [hf]
    rfl
  · exact Moves.bind (Moves.ofExcept _) fun _ => Moves.ofExcept _

omit hW in
theorem via_commit {offsets : PartitionMap ℤ}
    (hcommit : ∀ g req, commitRequest offsets g = .ok req → ∀ f : Frame, f.request = req → W f) :
    Moves (Via C) (commit T offsets) := by
  refine Moves.bind Moves.get fun g => Moves.ite (Moves.pure _) (Moves.ite (Moves.throw _) ?_)
  exact Moves.bind (via_callCoordinator h _ _ _ hcommit) fun _ => Moves.ofExcept _

end Coordinates

end ClassicProtocol

/-! ### What a call can change -/

namespace Consumer

variable {ω α : Type} (T : Transport ω)

/-- Reading a fetch away touches the connections, the fetch in flight and the sessions. -/
theorem moves_discardOutstanding {R : Consumer ω → Consumer ω → Prop} [IsPreorder (Consumer ω) R]
    (hfetch : ∀ c outstanding sessions, R c { c with outstanding, sessions })
    (hrecv : ∀ addrs, Moves R (onCluster (Cluster.recvMany T .fetch Body.asFetch addrs) :
      Act (Consumer ω) Error _)) :
    Moves R (discardOutstanding T) := by
  unfold Consumer.discardOutstanding
  refine Moves.bind_get fun c => ?_
  cases c.outstanding with
  | none => exact refl_of R c
  | some outstanding =>
      refine moves_bind_at (hfetch c none c.sessions) fun _ c' _ => ?_
      refine Moves.bind (hrecv _) (fun _ => ?_) c'
      exact Moves.modify fun c => hfetch c c.outstanding _

/-- Reading a fetch away cannot fail. -/
theorem discardOutstanding_ok (c : Consumer ω) :
    discardOutstanding T c = (.ok (), (discardOutstanding T c).2) := by
  rw [discardOutstanding, bind_of_ok (get_apply c)]
  cases c.outstanding with
  | none => rfl
  | some outstanding => rfl

/-- `R` holds between consumers across everything that goes to the cluster, but for the
group and the fetches. -/
structure Consults (C : Cluster ω → Cluster ω → Prop) (W : Frame → Prop)
    (R : Consumer ω → Consumer ω → Prop) : Prop where
  calls : Cluster.Permits T C W
  listOffsets : ∀ (f : Frame) req, f.request = .listOffsets req → W f
  cluster : ∀ c cluster, C c.cluster cluster → R c { c with cluster }
  discardOutstanding : Moves R (discardOutstanding T)

namespace Consults

variable {T} {C : Cluster ω → Cluster ω → Prop} {W : Frame → Prop}
  {R : Consumer ω → Consumer ω → Prop} [IsPreorder (Cluster ω) C] [IsPreorder (Consumer ω) R]
  (h : Consults T C W R)

include h

omit [IsPreorder (Cluster ω) C] [IsPreorder (Consumer ω) R] in
theorem onCluster {m : Act (Cluster ω) Error α} (hm : Moves C m) : Moves R (onCluster m) :=
  Moves.zoom hm fun c cluster => h.cluster c cluster

theorem listOffset (tp : TopicPartition) (timestamp : ℤ) : Moves R (listOffset T tp timestamp) := by
  refine Moves.bind h.discardOutstanding fun _ => ?_
  refine Moves.attempts (fun attempt _ => ?_) (fun _ => Moves.throw _) _ _ _
  refine Moves.bind Moves.get fun c => ?_
  refine Moves.bind (Moves.attempt (h.onCluster (h.calls.leaderAddr tp))) fun outcome => ?_
  split
  · refine Moves.ite (Moves.throw _) ?_
    exact Moves.bind (h.onCluster (h.calls.sleep _)) fun _ => Moves.pure _
  · exact Moves.throw _
  · refine Moves.bind (h.onCluster (h.calls.call _ _ fun f hf => h.listOffsets f _ hf)) fun topics => ?_
    split
    · exact Moves.throw _
    · refine Moves.ite ?_ (Moves.bind (Moves.ofExcept _) fun _ => Moves.pure _)
      refine Moves.bind (Moves.modify fun c => h.cluster c _ (h.calls.invalidate _ _)) fun _ => ?_
      refine Moves.ite (Moves.throw _) ?_
      refine Moves.bind (h.onCluster (h.calls.refreshMetadata _)) fun _ => ?_
      exact Moves.bind (h.onCluster (h.calls.sleep _)) fun _ => Moves.pure _

theorem leadersFor (want : List (TopicPartition × ℤ))
    (byLeader : Std.TreeMap String (List (TopicPartition × ℤ))) (noLeader : Option Error) :
    Moves R (leadersFor T want byLeader noLeader) := by
  induction want generalizing byLeader noLeader with
  | nil => exact Moves.pure _
  | cons first rest ih =>
      refine Moves.bind (Moves.attempt (h.onCluster (h.calls.leaderAddr first.1))) fun outcome => ?_
      split
      · exact ih _ _
      · exact ih _ _
      · exact Moves.throw _

omit [IsPreorder (Cluster ω) C] in
theorem readOffsets (asked : List (TopicPartition × ℤ))
    (answers : List (TopicPartition × ListOffsetsPartitionResponse)) (lookup : Lookup) :
    Moves R (readOffsets asked answers lookup) := by
  induction answers generalizing lookup with
  | nil => exact Moves.pure _
  | cons first rest ih =>
      refine Moves.ite (ih _) (Moves.ite ?_ ?_)
      · refine Moves.bind (Moves.modify fun c => h.cluster c _ (h.calls.invalidate _ _)) fun _ => ?_
        exact ih _
      · exact Moves.bind (Moves.ofExcept _) fun _ => ih _

theorem askLeaders (asked : List (String × List (TopicPartition × ℤ))) (lookup : Lookup) :
    Moves R (askLeaders T asked lookup) := by
  induction asked generalizing lookup with
  | nil => exact Moves.pure _
  | cons first rest ih =>
      refine Moves.bind Moves.get fun c => ?_
      refine Moves.bind (h.onCluster (h.calls.call _ _ fun f hf => h.listOffsets f _ hf)) fun topics => ?_
      exact Moves.bind (h.readOffsets _ _ _) fun lookup => ih lookup

theorem refreshTopics (topics : List String) : Moves R (refreshTopics T topics) := by
  induction topics with
  | nil => exact Moves.pure _
  | cons topic rest ih => exact Moves.bind (h.onCluster (h.calls.refreshMetadata topic)) fun _ => ih

theorem listOffsetsMany (want : List (TopicPartition × ℤ)) :
    Moves R (listOffsetsMany T want) := by
  refine Moves.bind h.discardOutstanding fun _ => Moves.ite (Moves.pure _) ?_
  refine Moves.attempts (fun attempt carried => ?_) (fun _ => Moves.throw _) _ _ _
  refine Moves.bind (h.leadersFor _ _ _) fun leaders => Moves.bind (h.askLeaders _ _) fun lookup => ?_
  have hrest : ∀ retry, Moves R (if retry = [] then pure (.inr lookup.found)
      else if attempt = maxLeaderRetries then
        throw (.broker "ListOffsets" ErrorCode.notLeaderOrFollower.code .refreshMetadata)
      else do
        Consumer.refreshTopics T (Std.TreeSet.ofList lookup.refresh).toList
        Consumer.onCluster (Cluster.sleep T leaderBackoff)
        pure (.inl (lookup.found, retry)) : Act (Consumer ω) Error
          ((PartitionMap (ℤ × ℤ) × List (TopicPartition × ℤ)) ⊕ PartitionMap (ℤ × ℤ))) := by
    intro retry
    refine Moves.ite (Moves.pure _) (Moves.ite (Moves.throw _) ?_)
    refine Moves.bind (h.refreshTopics _) fun _ => ?_
    exact Moves.bind (h.onCluster (h.calls.sleep _)) fun _ => Moves.pure _
  cases leaders.2 with
  | none => exact hrest _
  | some e => exact Moves.ite (Moves.throw _) (hrest _)

theorem endOffsets (partitions : List TopicPartition) : Moves R (endOffsets T partitions) :=
  Moves.bind (h.listOffsetsMany _) fun _ => Moves.pure _

theorem beginningOffsets (partitions : List TopicPartition) :
    Moves R (beginningOffsets T partitions) :=
  Moves.bind (h.listOffsetsMany _) fun _ => Moves.pure _

theorem lag : Moves R (lag T) :=
  Moves.bind Moves.get fun _ => Moves.bind (h.endOffsets _) fun _ => Moves.pure _

omit [IsPreorder (Consumer ω) R] in
theorem partitionCount (topic : String) : Moves R (partitionCount T topic) :=
  h.onCluster (h.calls.partitionCount topic)

theorem staleTopics (topics : List String) : Moves R (staleTopics T topics) := by
  induction topics with
  | nil => exact Moves.pure _
  | cons topic rest ih =>
      refine Moves.bind (h.onCluster (h.calls.isMetadataStale topic)) fun _ => ?_
      exact Moves.bind ih fun _ => Moves.pure _

theorem route (partitions : List TopicPartition)
    (byBroker : Std.TreeMap String (List TopicPartition)) : Moves R (route T partitions byBroker) := by
  induction partitions generalizing byBroker with
  | nil => exact Moves.pure _
  | cons tp rest ih => exact Moves.bind (h.onCluster (h.calls.leaderAddr tp)) fun _ => ih _

end Consults

/-- The end of `collect`: the answers to what is outstanding are read. -/
def takeAnswers : Act (Consumer ω) Error (List Answered) := do
  let c ← get
  let groups := (c.outstanding.map (·.groups)).getD []
  set { c with outstanding := none }
  let responses ← onCluster (Cluster.recvMany T .fetch Body.asFetch (groups.map (·.1)))
  pure (groups.zip responses)

/-- `collect` once nothing stale is outstanding. -/
def askAndTake : Act (Consumer ω) Error (List Answered) := do
  let c ← get
  if c.outstanding.isNone then issueFetch T else pure ()
  takeAnswers T

theorem collect_eq :
    collect T = (do
      let c ← get
      if c.outstanding.any (·.generation ≠ c.generation) then discardOutstanding T else pure ()
      askAndTake T : Act (Consumer ω) Error (List Answered)) := rfl

/-- `R` holds across changes of the fetch in flight and the sessions, too. -/
structure Asks (C : Cluster ω → Cluster ω → Prop) (W : Frame → Prop)
    (R : Consumer ω → Consumer ω → Prop) : Prop extends Consults T C W R where
  recv : ∀ addrs, Moves C (Cluster.recvMany T .fetch Body.asFetch addrs :
    Act (Cluster ω) Error _)
  fetch : ∀ c outstanding sessions, R c { c with outstanding, sessions }

namespace Asks

variable {T} {C : Cluster ω → Cluster ω → Prop} {W : Frame → Prop}
  {R : Consumer ω → Consumer ω → Prop} [IsPreorder (Cluster ω) C] [IsPreorder (Consumer ω) R]
  (h : Asks T C W R)

include h

omit [IsPreorder (Cluster ω) C] in
theorem sendFetches {planned : List (String × List TopicPartition × FetchRequest)}
    (hsend : ∀ entry ∈ planned, Moves C (Cluster.sendAt T entry.1 12 (.fetch entry.2.2)))
    (sent : List (String × List TopicPartition)) : Moves R (sendFetches T planned sent) := by
  induction planned generalizing sent with
  | nil => exact Moves.pure _
  | cons first rest ih =>
      obtain ⟨hfirst, hrest⟩ := List.forall_mem_cons.mp hsend
      refine Moves.bind (Moves.attempt (h.onCluster hfirst)) fun outcome => ?_
      split
      · exact ih hrest _
      · exact Moves.pure _

theorem issueFetch
    (hsend : ∀ c byBroker, R c (Consumer.sendFetches T (c.planned byBroker) [] c).2) :
    Moves R (issueFetch T) := by
  refine Moves.bind Moves.get fun c => Moves.bind (h.route _ _) fun byBroker => ?_
  refine Moves.bind_get fun c => moves_bind_at (hsend c byBroker) fun outcome c' _ => ?_
  obtain ⟨sent, failure⟩ := outcome
  have hrecord : Moves R (modify fun c => { c with outstanding := some ⟨sent, c.generation⟩ } :
      Act (Consumer ω) Error Unit) := Moves.modify fun c => h.fetch c _ c.sessions
  cases failure with
  | none => exact Moves.ite (Moves.pure _) (Moves.bind hrecord fun _ => Moves.pure _) c'
  | some e => exact Moves.ite (Moves.throw e) (Moves.bind hrecord fun _ => Moves.throw e) c'

theorem startPrefetch
    (hsend : ∀ c byBroker, R c (Consumer.sendFetches T (c.planned byBroker) [] c).2) :
    Moves R (startPrefetch T) := by
  refine Moves.bind Moves.get fun c => Moves.ite ?_ (Moves.pure _)
  exact Moves.bind (Moves.attempt (h.issueFetch hsend)) fun _ => Moves.pure _

theorem collect
    (hsend : ∀ c byBroker, R c (Consumer.sendFetches T (c.planned byBroker) [] c).2) :
    Moves R (collect T) := by
  have htake : Moves R (takeAnswers T) := by
    refine Moves.bind_get fun c => moves_bind_at (h.fetch c none c.sessions) fun _ c' _ => ?_
    exact Moves.bind (h.onCluster (h.recv _)) (fun _ => Moves.pure _) c'
  have hask : Moves R (askAndTake T) := by
    refine Moves.bind Moves.get fun c => Moves.ite ?_ htake
    exact Moves.bind (h.issueFetch hsend) fun _ => htake
  rw [collect_eq]
  refine Moves.bind Moves.get fun c => Moves.ite ?_ hask
  exact Moves.bind h.discardOutstanding fun _ => hask

end Asks

/-- `R` holds across what the group does and what is noted down, too. -/
structure Attends (C : Cluster ω → Cluster ω → Prop) (W : Frame → Prop)
    (R : Consumer ω → Consumer ω → Prop) : Prop extends Consults T C W R where
  coordinates : Cluster.Coordinates T C W
  membership : ∀ f : Frame, f.request.isMembership → W f
  group : ∀ c group group' cluster, c.group = some group → C c.cluster cluster →
    R c { c with group := some group', cluster }
  books : ∀ c expansions lastAutoCommit, R c { c with expansions, lastAutoCommit }

/-- `R` holds across all of this. -/
structure Permits (C : Cluster ω → Cluster ω → Prop) (W : Frame → Prop)
    (R : Consumer ω → Consumer ω → Prop) : Prop extends Asks T C W R, Attends T C W R

namespace Attends

variable {T} {C : Cluster ω → Cluster ω → Prop} {W : Frame → Prop}
  {R : Consumer ω → Consumer ω → Prop} [IsPreorder (Cluster ω) C] [IsPreorder (Consumer ω) R]
  (h : Attends T C W R)

include h

omit [IsPreorder (Cluster ω) C] in
theorem onGroup (what : String) {m : Act (Grouped ω) Error α}
    (hm : Moves (ClassicProtocol.Via C) m) : Moves R (onGroup what m) := by
  intro c
  rw [Consumer.onGroup]
  split
  · exact refl_of R c
  · next group hgroup => exact h.group c group _ _ hgroup (hm ⟨group, c.cluster⟩)

theorem committed (partitions : List TopicPartition) : Moves R (committed T partitions) :=
  Moves.bind h.discardOutstanding fun _ =>
    h.onGroup _ (ClassicProtocol.via_committed h.coordinates h.membership partitions)

theorem refreshStale (topics : List String) (grew : Bool) :
    Moves R (refreshStale T topics grew) := by
  induction topics generalizing grew with
  | nil => exact Moves.pure _
  | cons topic rest ih =>
      refine Moves.bind (Moves.attempt (h.onCluster (h.calls.refreshIfStale topic))) fun outcome => ?_
      split
      · refine Moves.bind_get fun c => ?_
        split
        · exact ih true c
        · exact moves_bind_at (h.books c _ _) fun _ c' _ => ih grew c'
      · exact ih grew

theorem checkForExpansion : Moves R (checkForExpansion T) := by
  refine Moves.bind Moves.get fun c => Moves.bind (h.staleTopics _) fun topics => ?_
  refine Moves.ite (Moves.pure _) ?_
  refine Moves.bind h.discardOutstanding fun _ => Moves.bind (h.refreshStale _ _) fun grew => ?_
  refine Moves.ite (Moves.modify fun c => ?_) (Moves.pure _)
  cases hgroup : c.group with
  | none =>
      rw [Option.map_none, ← hgroup]
      exact refl_of R c
  | some group => exact h.group c group _ _ hgroup (refl_of C _)

omit [IsPreorder (Cluster ω) C] in
theorem maybeAutoCommit (hcommit : Moves R (commit T)) : Moves R (maybeAutoCommit T) := by
  refine Moves.bind Moves.get fun c => ?_
  split
  · exact Moves.pure _
  · next interval _ =>
      have hdue : Moves R (autoCommitDue T interval) := by
        refine Moves.bind Moves.get fun c => ?_
        split
        · exact Moves.pure _
        · exact Moves.bind (h.onCluster h.calls.now) fun _ => Moves.pure _
      refine Moves.bind hdue fun due => Moves.ite (Moves.pure _) ?_
      refine Moves.bind (Moves.attempt hcommit) fun outcome => ?_
      refine Moves.bind (Moves.ofExcept _) fun _ => Moves.bind (h.onCluster h.calls.now) fun _ => ?_
      exact Moves.modify fun c => h.books c _ _

end Attends

/-- Nothing that goes to the cluster touches positions, pauses or the isolation level, or
what was read and returned. -/
theorem permits_aside {R : Consumer ω → Consumer ω → Prop} [IsPreorder (Consumer ω) R]
    (hR : ∀ c c', c'.positions = c.positions → c'.paused = c.paused → c'.isolation = c.isolation →
      c'.readings = c.readings → c'.returned = c.returned → R c c') :
    Permits T Cluster.Anyhow (fun _ => True) R where
  calls := (Cluster.coordinates_anyhow T).toPermits
  coordinates := Cluster.coordinates_anyhow T
  recv _ _ := trivial
  membership _ _ := trivial
  listOffsets _ _ _ := trivial
  cluster c _ _ := hR c _ rfl rfl rfl rfl rfl
  discardOutstanding := moves_discardOutstanding T (fun c _ _ => hR c _ rfl rfl rfl rfl rfl)
    fun _ c => hR c _ rfl rfl rfl rfl rfl
  fetch c _ _ := hR c _ rfl rfl rfl rfl rfl
  group c _ _ _ _ _ := hR c _ rfl rfl rfl rfl rfl
  books c _ _ := hR c _ rfl rfl rfl rfl rfl

/-! ### Rounds of the membership -/

/-- A round, from the point where the group has made its step. -/
theorem advanceOnce_eq {c : Consumer ω} {group : ClassicProtocol} {outcome : Except Error Membership}
    {g : Grouped ω} (hgroup : c.group = some group)
    (hadvance : ClassicProtocol.advance T ⟨group, c.cluster⟩ = (outcome, g)) (i : ℕ)
    (changed : Bool) : advanceOnce T i changed c =
      follow T changed g.group outcome { c with group := none, cluster := g.cluster } := by
  have htaken : (onTaken group (ClassicProtocol.advance T) : Act (Consumer ω) Error _)
      { c with group := none } =
        (.ok (outcome, g.group), { c with group := none, cluster := g.cluster }) := by
    rw [onTaken, hadvance]
  rw [advanceOnce, bind_of_ok (get_apply c), hgroup]
  dsimp only
  rw [bind_of_ok (set_apply _ _), bind_of_ok htaken]

theorem follow_held {c : Consumer ω} {partitions : List TopicPartition}
    (hholds : c.holds partitions) (changed : Bool) (group : ClassicProtocol) :
    follow T changed group (.ok (.assigned partitions)) c =
      (.ok (.inr (.settled changed)), { c with group := some group }) := by
  rw [follow, bind_of_ok (get_apply c), if_pos hholds]
  rfl

theorem follow_assigned {c : Consumer ω} {partitions : List TopicPartition}
    (hholds : c.holds partitions = false) {group : ClassicProtocol} {g : Grouped ω}
    {found : PartitionMap ℤ}
    (hcommitted : ClassicProtocol.committed T partitions ⟨group, c.cluster⟩ = (.ok found, g))
    (changed : Bool) : follow T changed group (.ok (.assigned partitions)) c =
      (.ok (.inr (.settled true)), { takeAssignment partitions found c with
        group := some g.group, cluster := g.cluster }) := by
  have htaken : (onTaken group (ClassicProtocol.committed T partitions) :
      Act (Consumer ω) Error _) c = (.ok (.ok found, g.group), { c with cluster := g.cluster }) := by
    rw [onTaken, hcommitted]
  rw [follow, bind_of_ok (get_apply c), if_neg (by simp [hholds]), bind_of_ok htaken]
  rfl

theorem follow_unread {c : Consumer ω} {partitions : List TopicPartition}
    (hholds : c.holds partitions = false) {group : ClassicProtocol} {g : Grouped ω} {e : Error}
    (hcommitted : ClassicProtocol.committed T partitions ⟨group, c.cluster⟩ = (.error e, g))
    (changed : Bool) : follow T changed group (.ok (.assigned partitions)) c =
      (.error e, { c with cluster := g.cluster }) := by
  have htaken : (onTaken group (ClassicProtocol.committed T partitions) :
      Act (Consumer ω) Error _) c = (.ok (.error e, g.group), { c with cluster := g.cluster }) := by
    rw [onTaken, hcommitted]
  rw [follow, bind_of_ok (get_apply c), if_neg (by simp [hholds]), bind_of_ok htaken]
  rfl

/-! ### The result loop -/

variable (D : Decoders)

/-- One partition of a response is refused, yields nothing, or is read and moves the
position. -/
theorem absorbPartition_cases (tp : TopicPartition) (part : PartitionData)
    (out : List ConsumerRecords) (c : Consumer ω) :
    (∃ e, absorbPartition D tp part out c = (.error e, c)) ∨
      absorbPartition D tp part out c = (.ok out, c) ∨
      ∃ fetchOffset bytes records nextOffset, c.positions[tp]? = some fetchOffset ∧
        part.records = some bytes ∧
        readPartition D c.isolation fetchOffset tp part bytes = .ok (records, nextOffset) ∧
        absorbPartition D tp part out c =
          (.ok (if records.batches = [] ∧ records.fallback = [] then out else out ++ [records]),
            c.moveAlong ⟨tp, c.isolation, fetchOffset, part, bytes, nextOffset⟩) := by
  unfold absorbPartition
  rcases hcheck : check "Fetch partition" part.errorCode with e | _
  · exact .inl ⟨e, rfl⟩
  · rw [bind_of_ok (ofExcept_apply _ c), bind_of_ok (get_apply c)]
    rcases hposition : c.positions[tp]? with _ | fetchOffset
    · exact .inr (.inl rfl)
    · rcases hrecords : part.records with _ | bytes
      · exact .inr (.inl rfl)
      · dsimp only
        split
        · exact .inr (.inl rfl)
        · rcases hread : readPartition D c.isolation fetchOffset tp part bytes with e | ⟨records, next⟩
          · exact .inl ⟨e, rfl⟩
          · exact .inr (.inr ⟨fetchOffset, bytes, records, next, rfl, rfl, hread, rfl⟩)

section Absorb

variable {R : Consumer ω → Consumer ω → Prop} [IsPreorder (Consumer ω) R]
  (hmoved : ∀ c reading, c.positions[reading.tp]? = some reading.fetchOffset →
    R c (moveAlong reading c))
  (hsessions : ∀ c sessions, R c { c with sessions })

include hmoved

theorem moves_absorbPartitions (parts : List (TopicPartition × PartitionData))
    (out : List ConsumerRecords) : Moves R (absorbPartitions D parts out : Act (Consumer ω) Error _) := by
  induction parts generalizing out with
  | nil => exact Moves.pure _
  | cons first rest ih =>
      refine Moves.bind (fun c => ?_) fun out => ih out
      rcases absorbPartition_cases D first.1 first.2 out c with
        ⟨e, heq⟩ | heq | ⟨fetchOffset, bytes, records, next, hposition, -, -, heq⟩
      · rw [heq]
        exact refl_of R c
      · rw [heq]
        exact refl_of R c
      · rw [heq]
        exact hmoved c _ hposition

include hsessions

/-- The result loop writes positions and sessions, and nothing else. -/
theorem moves_absorb (answers : List Answered) (out : List ConsumerRecords) :
    Moves R (absorb D answers out : Act (Consumer ω) Error _) := by
  induction answers generalizing out with
  | nil => exact Moves.pure _
  | cons answer rest ih =>
      refine Moves.bind ?_ fun out => ih out
      refine Moves.bind (Moves.ofExcept _) fun resp => Moves.ite ?_ ?_
      · exact Moves.bind (Moves.modify fun c => hsessions c _) fun _ => Moves.pure _
      · refine Moves.bind (Moves.ofExcept _) fun _ => Moves.bind (Moves.modify fun c => ?_) fun _ =>
          moves_absorbPartitions D hmoved _ _
        rw [acceptSession]
        split
        · exact hsessions c _
        · exact refl_of R c

end Absorb

/-! ### Every call -/

/-- What `poll` does once the membership is settled and there is something to fetch. -/
def fetching : Act (Consumer ω) Error (List ConsumerRecords) := do
  let answers ← collect T
  let out ← absorb D answers []
  startPrefetch T
  handOver out

/-- `R` is about the connections and the fetch in flight, and what was read and returned, and
every frame written is in `W`; it holds across what the group does. -/
structure Oversees (C : Cluster ω → Cluster ω → Prop) (W : Frame → Prop)
    (R : Consumer ω → Consumer ω → Prop) : Prop extends Attends T C W R where
  within : ∀ c c', c'.cluster = c.cluster → c'.outstanding = c.outstanding →
    c'.readings = c.readings → c'.returned = c.returned → R c c'

/-- `R` is about the connections and the fetch in flight, and what was read and returned; it
holds across what the group does. -/
structure Manages (C : Cluster ω → Cluster ω → Prop) (R : Consumer ω → Consumer ω → Prop) : Prop
    extends Attends T C (fun _ => True) R where
  within : ∀ c c', c'.cluster = c.cluster → c'.outstanding = c.outstanding →
    c'.readings = c.readings → c'.returned = c.returned → R c c'

/-- `R` is about the connections and the fetch in flight, and holds across what is done
with them. -/
structure Confined (C : Cluster ω → Cluster ω → Prop) (R : Consumer ω → Consumer ω → Prop) : Prop
    extends Attends T C (fun _ => True) R where
  inner : ∀ c c', c'.cluster = c.cluster → c'.outstanding = c.outstanding → R c c'
  fetching : ∀ D, Moves R (fetching T D)

namespace Oversees

variable {T} {C : Cluster ω → Cluster ω → Prop} {W : Frame → Prop}
  {R : Consumer ω → Consumer ω → Prop} [IsPreorder (Cluster ω) C] [IsPreorder (Consumer ω) R]
  (h : Oversees T C W R)

include h

omit [IsPreorder (Cluster ω) C] [IsPreorder (Consumer ω) R] in
theorem modify {f : Consumer ω → Consumer ω} (hcluster : ∀ c, (f c).cluster = c.cluster)
    (houtstanding : ∀ c, (f c).outstanding = c.outstanding)
    (hreadings : ∀ c, (f c).readings = c.readings) (hreturned : ∀ c, (f c).returned = c.returned) :
    Moves R (modify f : Act (Consumer ω) Error PUnit) :=
  fun c => h.within c _ (hcluster c) (houtstanding c) (hreadings c) (hreturned c)

omit [IsPreorder (Cluster ω) C] [IsPreorder (Consumer ω) R] in
theorem onTaken {ε : Type} (group : ClassicProtocol) {m : Act (Grouped ω) Error α}
    (hm : Moves (ClassicProtocol.Via C) m) :
    Moves R (onTaken group m : Act (Consumer ω) ε _) :=
  fun c => h.cluster c _ (hm ⟨group, c.cluster⟩)

theorem assign (tp : TopicPartition) (offset : ℤ) : Moves R (assign T tp offset) := by
  refine Moves.bind h.discardOutstanding fun _ => ?_
  refine Moves.bind (h.onCluster (h.calls.refreshMetadata _)) fun _ => ?_
  refine Moves.bind (h.modify (fun _ => rfl) (fun _ => rfl) (fun _ => rfl) fun _ => rfl) fun _ => ?_
  have hlast : Moves R (MonadStateOf.modifyGet fun c => ((), onFetchSetChanged c) :
      Act (Consumer ω) Error PUnit) := h.modify (fun _ => rfl) (fun _ => rfl) (fun _ => rfl) fun _ => rfl
  refine Moves.ite ?_ hlast
  exact Moves.bind (h.listOffset _ _) fun _ =>
    Moves.bind (h.modify (fun _ => rfl) (fun _ => rfl) (fun _ => rfl) fun _ => rfl) fun _ => hlast

omit [IsPreorder (Cluster ω) C] in
theorem subscribe (groupId : String) (topics : List String) (assignor : Assignor) (reset : ℤ) :
    Moves R (subscribe T groupId topics assignor reset) :=
  Moves.bind h.discardOutstanding fun _ => h.modify (fun _ => rfl) (fun _ => rfl) (fun _ => rfl) fun _ => rfl

theorem unsubscribe : Moves R (unsubscribe T) := by
  refine Moves.bind h.discardOutstanding fun _ => ?_
  refine Moves.bind (h.modify (fun _ => rfl) (fun _ => rfl) (fun _ => rfl) fun _ => rfl) fun _ => Moves.bind_get fun c => ?_
  cases c.group with
  | none => exact refl_of R c
  | some group =>
      refine moves_bind_at (h.within c _ rfl rfl rfl rfl) fun _ c' _ => ?_
      exact Moves.bind (h.onTaken group (ClassicProtocol.via_leave h.coordinates h.membership))
        (fun _ => Moves.ofExcept _) c'

omit [IsPreorder (Cluster ω) C] [IsPreorder (Consumer ω) R] in
theorem putGroup (group : ClassicProtocol) : Moves R (putGroup group) :=
  h.modify (fun _ => rfl) (fun _ => rfl) (fun _ => rfl) fun _ => rfl

theorem follow (changed : Bool) (group : ClassicProtocol) (outcome : Except Error Membership) :
    Moves R (follow T changed group outcome) := by
  unfold Consumer.follow
  split
  · exact Moves.bind (h.putGroup group) fun _ => Moves.throw _
  · refine Moves.bind Moves.get fun c => Moves.ite ?_ ?_
    · exact Moves.bind (h.putGroup group) fun _ => Moves.pure _
    · refine Moves.bind (h.onTaken group
        (ClassicProtocol.via_committed h.coordinates h.membership _)) fun _ => ?_
      refine Moves.bind (Moves.ofExcept _) fun _ => ?_
      refine Moves.bind (h.modify (fun _ => rfl) (fun _ => rfl) (fun _ => rfl) fun _ => rfl) fun _ => ?_
      exact Moves.bind (h.putGroup _) fun _ => Moves.pure _
  · refine Moves.bind (h.modify (fun _ => rfl) (fun _ => rfl) (fun _ => rfl) fun _ => rfl) fun _ => ?_
    exact Moves.bind (h.putGroup group) fun _ => Moves.pure _
  · exact Moves.bind (h.putGroup group) fun _ => Moves.pure _

theorem advanceOnce (i : ℕ) (changed : Bool) : Moves R (advanceOnce T i changed) := by
  refine Moves.bind_get fun c => ?_
  cases c.group with
  | none => exact refl_of R c
  | some group =>
      refine moves_bind_at (h.within c _ rfl rfl rfl rfl) fun _ c' _ => ?_
      exact Moves.bind (h.onTaken group (ClassicProtocol.via_advance h.coordinates h.membership))
        (fun _ => h.follow _ _ _) c'

theorem resolve (unresolved : List (TopicPartition × ℤ)) : Moves R (resolve T unresolved) := by
  induction unresolved with
  | nil => exact Moves.pure _
  | cons first rest ih =>
      refine Moves.bind (h.listOffset _ _) fun _ => ?_
      exact Moves.bind (h.modify (fun _ => rfl) (fun _ => rfl) (fun _ => rfl) fun _ => rfl) fun _ => ih

theorem advanceGroup : Moves R (advanceGroup T) := by
  refine Moves.bind (Moves.attempts h.advanceOnce (fun _ => Moves.pure _) _ _ _) fun result => ?_
  split
  · exact Moves.pure _
  · exact Moves.pure _
  · refine Moves.bind (h.modify (fun _ => rfl) (fun _ => rfl) (fun _ => rfl) fun _ => rfl) fun _ => ?_
    refine Moves.bind Moves.get fun c => ?_
    exact Moves.bind (h.resolve _) fun _ => Moves.pure _

theorem heartbeat : Moves R (heartbeat T) :=
  Moves.bind Moves.get fun _ => Moves.ite (Moves.pure _) h.advanceGroup

/-- Every public call, as long as commits and polls are. -/
theorem exec (hage : ∀ c age, R c { c with cluster := { c.cluster with metadataMaxAge := age } })
    (call : Call) (hcommit : call = .commit → Moves R (Consumer.commit T))
    (hpoll : call = .poll → Moves R (poll T D)) : Moves R (call.exec T D) := by
  cases call with
  | assign tp offset => exact h.assign tp offset
  | subscribe groupId topics assignor reset => exact h.subscribe groupId topics assignor reset
  | unsubscribe => exact h.unsubscribe
  | commit => exact hcommit rfl
  | heartbeat => exact Moves.bind h.heartbeat fun _ => Moves.pure _
  | poll => exact Moves.bind (hpoll rfl) fun _ => Moves.pure _
  | partitionCount topic => exact Moves.bind (h.partitionCount topic) fun _ => Moves.pure _
  | listOffset tp timestamp => exact Moves.bind (h.listOffset tp timestamp) fun _ => Moves.pure _
  | endOffsets partitions => exact Moves.bind (h.endOffsets partitions) fun _ => Moves.pure _
  | beginningOffsets partitions =>
      exact Moves.bind (h.beginningOffsets partitions) fun _ => Moves.pure _
  | offsetsForTimes want => exact Moves.bind (h.listOffsetsMany want) fun _ => Moves.pure _
  | lag => exact Moves.bind h.lag fun _ => Moves.pure _
  | committed partitions => exact Moves.bind (h.committed partitions) fun _ => Moves.pure _
  | setMetadataMaxAge age => exact fun c => hage c age
  | _ => exact h.modify (fun _ => rfl) (fun _ => rfl) (fun _ => rfl) fun _ => rfl

end Oversees

namespace Manages

variable {T} {C : Cluster ω → Cluster ω → Prop} {R : Consumer ω → Consumer ω → Prop}
  [IsPreorder (Cluster ω) C] [IsPreorder (Consumer ω) R] (h : Manages T C R)

include h

omit [IsPreorder (Cluster ω) C] [IsPreorder (Consumer ω) R] in
theorem oversees : Oversees T C (fun _ => True) R where
  toAttends := h.toAttends
  within := h.within

theorem commit : Moves R (commit T) := by
  refine Moves.bind h.discardOutstanding fun _ => Moves.bind Moves.get fun c => ?_
  exact h.onGroup _ (ClassicProtocol.via_commit h.coordinates fun _ _ _ _ _ => trivial)

theorem assign (tp : TopicPartition) (offset : ℤ) : Moves R (assign T tp offset) :=
  h.oversees.assign tp offset

theorem keepMembership : Moves R (keepMembership T) := by
  refine Moves.bind h.checkForExpansion fun _ => Moves.bind Moves.get fun c => ?_
  refine Moves.ite ?_ (Moves.pure _)
  refine Moves.bind (h.maybeAutoCommit h.commit) fun _ => ?_
  refine Moves.bind h.oversees.advanceGroup fun changed => ?_
  exact Moves.ite h.discardOutstanding (Moves.pure _)

/-- Every public call, as long as `poll` is one. -/
theorem exec (hage : ∀ c age, R c { c with cluster := { c.cluster with metadataMaxAge := age } })
    (call : Call) (hpoll : call = .poll → Moves R (poll T D)) : Moves R (call.exec T D) :=
  h.oversees.exec D hage call (fun _ => h.commit) hpoll

end Manages

namespace Confined

variable {T} {C : Cluster ω → Cluster ω → Prop} {R : Consumer ω → Consumer ω → Prop}
  [IsPreorder (Cluster ω) C] [IsPreorder (Consumer ω) R] (h : Confined T C R)

include h

omit [IsPreorder (Cluster ω) C] [IsPreorder (Consumer ω) R] in
theorem manages : Manages T C R where
  toAttends := h.toAttends
  within c c' hcluster houtstanding _ _ := h.inner c c' hcluster houtstanding

theorem poll : Moves R (poll T D) := by
  refine Moves.bind h.manages.keepMembership fun _ => Moves.bind Moves.get fun c => ?_
  exact Moves.ite (Moves.pure _) (h.fetching D)

/-- Every public call. -/
theorem exec (hage : ∀ c age, R c { c with cluster := { c.cluster with metadataMaxAge := age } })
    (call : Call) : Moves R (call.exec T D) :=
  h.manages.exec D hage call fun _ => h.poll D

end Confined

/-- The decoders for logs of the current format that use no compression. -/
def plainDecoders : Decoders where
  toCodecs := plainCodecs
  recordBatchDecoder _ := .error "not of an old format"

/-- A consumer that has connected to a broker which answers so. -/
def connected (answers : List Body) : Consumer Tape :=
  fromCluster { (Cluster.connect Tape.transport (.new (.of (.apiVersions ⟨0, []⟩ :: answers))
    ["b:1"] "client")).2 with credentials := none } .readCommitted

theorem started_connected (answers : List Body) : Started Tape.transport (connected answers) := by
  refine ⟨.of (.apiVersions ⟨0, []⟩ :: answers), ["b:1"], "client", .readCommitted, none, _, ?_, rfl⟩
  exact Prod.fst_eq_iff.mp rfl

end Consumer

end Barnabas.Client
