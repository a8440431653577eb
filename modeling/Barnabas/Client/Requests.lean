import Barnabas.Client.Cluster

/-!
Which requests an operation of the cluster can write.

`Wire.sent` holds every frame handed to the transport. Each lemma here says that
an operation only appends to it, and that what it appends is either the request
it was given or plumbing: the handshake of a new connection, and the lookups of
metadata and of a coordinator that any operation may have to make. Nothing is
assumed of the transport.
-/

namespace Barnabas.Client

open Barnabas.Lib Barnabas.Core Barnabas.Lib.Act

/-- The requests that open a connection. -/
def Request.isHandshake : Request → Bool
  | .apiVersions .. | .saslHandshake .. | .saslAuthenticate .. => true
  | _ => false

/-- The requests any operation may make on the way: a handshake, or a lookup of
metadata or of a coordinator. -/
def Request.isPlumbing : Request → Bool
  | .apiVersions .. | .saslHandshake .. | .saslAuthenticate .. => true
  | .metadata .. | .findCoordinator .. => true
  | _ => false

theorem Request.isPlumbing_of_isHandshake {req : Request} (h : req.isHandshake) :
    req.isPlumbing := by
  cases req <;> simp_all [isHandshake, isPlumbing]

namespace Connection

/-- What a successful `request` returns and leaves behind. -/
theorem request_eq_ok {codec : Codec} {version : ℤ} {req : Request} {conn conn' : Connection}
    {frame : Frame} (h : request codec version req conn = (.ok frame, conn')) :
    frame = ⟨version, wrap 32 (conn.nextCorrelationId + 1), conn.clientId, req⟩ ∧
      conn' = ⟨conn.clientId, wrap 32 (conn.nextCorrelationId + 1),
        conn.inFlight ++ [⟨req.apiKey, version, wrap 32 (conn.nextCorrelationId + 1)⟩]⟩ := by
  simp only [request, bind_apply, get_apply, set_apply] at h
  rcases hheader : codec.encodeHeader
    ⟨version, wrap 32 (conn.nextCorrelationId + 1), conn.clientId, req⟩ with _ | header
  · simp [hheader] at h
  · rcases hbody : codec.encodeBody
      ⟨version, wrap 32 (conn.nextCorrelationId + 1), conn.clientId, req⟩ with _ | body
    · simp [hheader, hbody] at h
    · simp only [hheader, hbody, bind_apply, modify_apply] at h
      by_cases hlen : i32Max < (header : ℤ) + body
      · simp [hlen] at h
      · simp only [hlen, if_false, pure_apply, Prod.mk.injEq, Except.ok.injEq] at h
        exact ⟨h.1.symm, h.2.symm⟩

end Connection

namespace Broker

variable {ω ε α : Type} (T : Transport ω) (P : Patience ω ε)

/-- A relation `L` between a link before and after holds across every primitive,
as long as what is written is in `W`. -/
structure Permits (L : Link ω → Link ω → Prop) (W : Frame → Prop) : Prop where
  conn : ∀ l conn, L l { l with broker := { l.broker with conn } }
  write : ∀ l frame, W frame → L l { l with wire :=
    ⟨(P.write l.broker.stream frame l.wire.env).2, l.wire.sent ++ [frame]⟩ }
  read : ∀ l, L l { l with wire := { l.wire with env := (P.read l.broker.stream l.wire.env).2 } }

section Permits

variable {P} {L : Link ω → Link ω → Prop} {W : Frame → Prop} (h : Permits P L W)

include h

theorem Permits.onConn (m : Act Connection Core.Error α) : Moves L (onConn P m) :=
  fun l => h.conn l _

variable [IsPreorder (Link ω) L]

theorem Permits.recv (as : Body → Option α) : Moves L (recv P as) := by
  unfold Broker.recv
  refine Moves.bind_get fun l => moves_bind_at (h.read l) fun incoming l' _ => ?_
  cases incoming with
  | closed => exact Moves.throw _ l'
  | tooLarge len => exact Moves.bind (h.onConn _) (fun _ => h.onConn _) l'
  | frame header body => exact Moves.bind (h.onConn _) (fun _ => h.onConn _) l'

theorem Permits.send (version : ℤ) {req : Request} (hW : ∀ f : Frame, f.request = req → W f) :
    Moves L (send T P version req) := by
  unfold Broker.send
  refine Moves.bind_get fun l => ?_
  refine moves_bind_at (h.onConn _ l) fun frame l' hl' => ?_
  rcases hreq : Connection.request T.codec (l.broker.negotiated req.apiKey version) req
    l.broker.conn with ⟨_ | frame', conn'⟩
  · rw [Broker.onConn, mapError_apply, zoom_apply, hreq] at hl'
    simp [Except.mapError] at hl'
  · rw [Broker.onConn, mapError_apply, zoom_apply, hreq] at hl'
    simp only [Except.mapError, Prod.mk.injEq, Except.ok.injEq] at hl'
    obtain ⟨rfl, rfl⟩ := hl'
    exact h.write { l with broker := { l.broker with conn := conn' } } frame'
      (hW frame' (by rw [(Connection.request_eq_ok hreq).1]))

theorem Permits.call (as : Body → Option α) (version : ℤ) {req : Request}
    (hW : ∀ f : Frame, f.request = req → W f) : Moves L (call T P as version req) := by
  unfold Broker.call
  refine Moves.bind Moves.get fun link => Moves.ite (Moves.throw _) ?_
  exact Moves.bind (h.send T version hW) fun _ => h.recv as

end Permits

section Handshake

variable {L : Link ω → Link ω → Prop} {W : Frame → Prop} [IsPreorder (Link ω) L]
  (h : Permits T.unhurried L W) (hW : ∀ f : Frame, f.request.isHandshake → W f)

include h hW

theorem Permits.saslExchange (bytes : Bytes) : Moves L (saslExchange T bytes) := by
  refine Moves.bind (h.call T _ _ fun f hf => hW f ?_) fun resp => ?_
  · simp [hf, Request.isHandshake]
  · exact Moves.ite (Moves.throw _) (Moves.pure _)

variable (hnonce : ∀ l : Link ω, L l { l with wire := { l.wire with env := (T.nonce l.wire.env).2 } })

include hnonce

theorem Permits.exchange (credentials : Credentials) : Moves L (exchange T credentials) := by
  unfold Broker.exchange
  split
  · exact Moves.bind (h.saslExchange T hW _) fun _ => Moves.pure _
  all_goals
    refine Moves.bind (Moves.lift hnonce) fun nonce => ?_
    refine Moves.bind (h.saslExchange T hW _) fun serverFirst => ?_
    split
    · exact Moves.throw _
    · refine Moves.bind (h.saslExchange T hW _) fun serverFinal => ?_
      split
      · exact Moves.throw _
      · exact Moves.pure _

theorem Permits.authenticate (credentials : Credentials) :
    Moves L (authenticate T credentials) := by
  refine Moves.bind (h.call T _ _ fun f hf => hW f ?_) fun resp => ?_
  · simp [hf, Request.isHandshake]
  · exact Moves.ite (Moves.throw _) (h.exchange T hW hnonce credentials)

theorem Permits.handshake
    (hversions : ∀ (l : Link ω) versions, L l { l with broker := { l.broker with versions } })
    (clientId : String) (credentials : Option Credentials) :
    Moves L (handshake T clientId credentials) := by
  refine Moves.bind (h.call T _ _ fun f hf => hW f ?_) fun resp => ?_
  · simp [hf, Request.isHandshake]
  · refine Moves.bind (Moves.ofExcept _) fun _ => ?_
    refine Moves.bind (Moves.modify fun l => hversions l _) fun _ => ?_
    cases credentials with
    | none => exact Moves.pure _
    | some credentials => exact h.authenticate T hW hnonce credentials

end Handshake

/-! ### Opening a connection

The same programs, where only what holds after an answer is asked about: a connection
that could not be opened is nobody's. -/

/-- `I` is left by every call of a handshake that is answered. -/
structure Survives (I : Link ω → Prop) : Prop where
  call : ∀ {α : Type} (as : Body → Option α) (version : ℤ) (req : Request),
    Triple I (call T T.unhurried as version req) (fun _ => I) (fun _ _ => True)
  nonce : ∀ l, I l → I { l with wire := { l.wire with env := (T.nonce l.wire.env).2 } }
  versions : ∀ l versions, I l → I { l with broker := { l.broker with versions } }

namespace Survives

variable {T} {I : Link ω → Prop} (h : Survives T I)

include h

theorem saslExchange (bytes : Bytes) :
    Triple I (saslExchange T bytes) (fun _ => I) (fun _ _ => True) := by
  refine Triple.bind (h.call _ _ _) fun resp => ?_
  exact Triple.ite (fun _ => Triple.throw fun _ _ => trivial) fun _ => Triple.pure fun _ => id

theorem exchange (credentials : Credentials) :
    Triple I (exchange T credentials) (fun _ => I) (fun _ _ => True) := by
  unfold Broker.exchange
  split
  · exact Triple.bind (h.saslExchange _) fun _ => Triple.pure fun _ => id
  all_goals
    refine Triple.bind (Q := fun _ => I) (Triple.lift h.nonce) fun nonce => ?_
    refine Triple.bind (h.saslExchange _) fun serverFirst => ?_
    split
    · exact Triple.throw fun _ _ => trivial
    · refine Triple.bind (h.saslExchange _) fun serverFinal => ?_
      split
      · exact Triple.throw fun _ _ => trivial
      · exact Triple.pure fun _ => id

theorem authenticate (credentials : Credentials) :
    Triple I (authenticate T credentials) (fun _ => I) (fun _ _ => True) := by
  refine Triple.bind (h.call _ _ _) fun resp => ?_
  exact Triple.ite (fun _ => Triple.throw fun _ _ => trivial) fun _ => h.exchange credentials

theorem handshake (clientId : String) (credentials : Option Credentials) :
    Triple I (handshake T clientId credentials) (fun _ => I) (fun _ _ => True) := by
  refine Triple.bind (h.call _ _ _) fun resp => ?_
  refine Triple.bind (Q := fun _ => I) ?_ fun _ => ?_
  · exact Triple.ofExcept (fun _ _ _ => id) fun _ _ _ _ => trivial
  · refine Triple.bind (Q := fun _ => I) (Triple.modify fun l => h.versions l _) fun _ => ?_
    cases credentials with
    | none => exact Triple.pure fun _ => id
    | some credentials => exact h.authenticate credentials

end Survives

/-! The frames a connection's wire has taken. -/

def sentOf (l : Link ω) : List Frame := l.wire.sent

variable {W : Frame → Prop}

theorem permits_appends : Permits P (Appends sentOf W) W where
  conn _ _ := .of_eq rfl
  write _ _ hframe := .one rfl hframe
  read _ := .of_eq rfl

theorem moves_connect (hW : ∀ f : Frame, f.request.isHandshake → W f) (addr clientId : String)
    (credentials : Option Credentials) :
    Moves (Appends Wire.sent W) (connect T addr clientId credentials) := by
  unfold connect
  refine Moves.bind (fun _ => .of_eq rfl) fun stream => ?_
  intro wire
  have h := (permits_appends T.unhurried).handshake T hW (fun _ => .of_eq rfl)
    (fun _ _ => .of_eq rfl) clientId credentials ⟨wire, ⟨stream, .new clientId, ∅⟩⟩
  rw [bind_of_ok (get_apply wire)]
  rcases hh : handshake T clientId credentials ⟨wire, ⟨stream, .new clientId, ∅⟩⟩ with
    ⟨outcome, link⟩
  rw [hh] at h
  cases outcome with
  | ok _ => exact h
  | error _ => exact h

end Broker

namespace Cluster

variable {ω ε α : Type} (T : Transport ω) {W : Frame → Prop}

/-- Every frame the cluster has handed to the transport. -/
def sent (c : Cluster ω) : List Frame := c.wire.sent

@[simp] theorem wire_setPool (c : Cluster ω) (pool : Pool) (brokers : Std.TreeMap String Broker) :
    (c.setPool pool brokers).wire = c.wire := by
  cases pool <;> rfl

@[simp] theorem wire_keep (c : Cluster ω) (pool : Pool) (addr : String) (broker : Broker) :
    (c.keep pool addr broker).wire = c.wire := wire_setPool ..

@[simp] theorem wire_drop (c : Cluster ω) (pool : Pool) (addr : String) :
    (c.drop pool addr).wire = c.wire := wire_setPool ..

/-- `C` holds across whatever becomes of the pools, and across changes of the wire
whose new frames are in `W`. -/
structure Carries (C : Cluster ω → Cluster ω → Prop) (W : Frame → Prop) : Prop where
  plumbing : ∀ f : Frame, f.request.isPlumbing → W f
  wire : ∀ c wire, Appends Wire.sent W c.wire wire → C c { c with wire }
  keep : ∀ c pool addr broker, C c (c.keep pool addr broker)
  drop : ∀ c pool addr, C c (c.drop pool addr)

theorem carries_appends (hW : ∀ f : Frame, f.request.isPlumbing → W f) :
    Carries (Appends (sent : Cluster ω → List Frame) W) W where
  plumbing := hW
  wire _ _ h := h
  keep _ _ _ _ := .of_eq (by simp [sent])
  drop _ _ _ := .of_eq (by simp [sent])

/-- An exchange touches nothing but the wire and the pools. -/
theorem carries_metadata : Carries (Keeps (Cluster.metadata : Cluster ω → Metadata)) fun _ => True where
  plumbing _ _ := trivial
  wire _ _ _ := rfl
  keep _ pool _ _ := by cases pool <;> rfl
  drop _ pool _ := by cases pool <;> rfl

namespace Carries

variable {C : Cluster ω → Cluster ω → Prop} (h : Carries C W)

include h

theorem onEnv (f : ω → α × ω) : Moves C (onEnv f : Act (Cluster ω) ε α) :=
  fun c => h.wire c _ (.of_eq rfl)

theorem onWire {m : Act (Wire ω) ε α} (hm : Moves (Appends Wire.sent W) m) : Moves C (onWire m) :=
  Moves.zoom hm h.wire

variable [IsPreorder (Cluster ω) C]

theorem onBroker {ε' : Type} {pool : Pool} {addr : String} {broker : Broker}
    {m : Act (Link ω) ε' α} (hm : Moves (Appends Broker.sentOf W) m) :
    Moves C (onBroker pool addr broker m : Act (Cluster ω) ε (Except ε' α)) := by
  intro c
  apply trans_of C (h.wire c (m ⟨c.wire, broker⟩).2.wire (hm ⟨c.wire, broker⟩))
  exact h.keep _ _ _ _

theorem settle {pool : Pool} {op : ApiKey} {addr : String}
    {retry : IoError → Act (Cluster ω) Error α} (hretry : ∀ e, Moves C (retry e))
    (outcome : Except (Option Error) α) : Moves C (settle pool op addr retry outcome) := by
  unfold Cluster.settle
  split
  · exact Moves.pure _
  · exact Moves.bind (Moves.modify fun c => h.drop c _ _) fun _ => hretry _
  · exact Moves.throw _
  · exact Moves.bind (Moves.modify fun c => h.drop c _ _) fun _ => Moves.throw _

theorem takeConns (addrs : List String) (c : Cluster ω) : C c (takeConns addrs c).2 := by
  induction addrs generalizing c with
  | nil => exact refl_of C c
  | cons addr addrs ih => exact trans_of C (h.drop c .data addr) (ih _)

theorem recvOne (op : ApiKey) (as : Body → Option α) (taken : String × Option Broker)
    (c : Cluster ω) : C c (recvOne T op as taken c).2 := by
  rcases taken with ⟨addr, _ | broker⟩
  · exact refl_of C c
  · have hread := (Broker.permits_appends (W := W) (T.within c.requestTimeout)).recv as
      ⟨c.wire, broker⟩
    rw [Cluster.recvOne]
    rcases hrecv : Broker.recv (T.within c.requestTimeout) as ⟨c.wire, broker⟩ with ⟨outcome, link⟩
    rw [hrecv] at hread
    have hwire : C c { c with wire := link.wire } := h.wire c link.wire hread
    have hkept := trans_of C hwire (h.keep _ .data addr link.broker)
    rcases outcome with (_ | e) | _
    · exact hwire
    · cases e with
      | io e => exact hwire
      | _ => exact hkept
    · exact hkept

theorem recvTaken (op : ApiKey) (as : Body → Option α) (taken : List (String × Option Broker))
    (c : Cluster ω) : C c (recvTaken T op as taken c).2 := by
  induction taken generalizing c with
  | nil => exact refl_of C c
  | cons first rest ih => exact trans_of C (h.recvOne T op as first c) (ih _)

theorem recvMany (op : ApiKey) (as : Body → Option α) (addrs : List String) :
    Moves C (recvMany T op as addrs : Act (Cluster ω) ε _) :=
  fun c => trans_of C (h.takeConns addrs c) (h.recvTaken T op as _ _)

omit [IsPreorder (Cluster ω) C] in
theorem connectBroker (addr clientId : String) (credentials : Option Credentials) :
    Moves C (Cluster.onWire (Broker.connect T addr clientId credentials)) :=
  h.onWire (Broker.moves_connect T
    (fun f hf => h.plumbing f (Request.isPlumbing_of_isHandshake hf)) addr clientId credentials)

theorem brokerIn (pool : Pool) (addr : String) : Moves C (brokerIn T pool addr) := by
  unfold Cluster.brokerIn
  refine Moves.bind Moves.get fun c => ?_
  split
  · exact Moves.pure _
  · refine Moves.bind (h.connectBroker T _ _ _) fun broker => ?_
    exact Moves.bind (Moves.modify fun c => h.keep c _ _ _) fun _ => Moves.pure _

section Request

variable {version : ℤ} {req : Request} (hreq : ∀ f : Frame, f.request = req → W f)

include hreq

theorem callOnce (as : Body → Option α) (addr : String) (timeout : ℕ)
    {retry : IoError → Act (Cluster ω) Error α} (hretry : ∀ e, Moves C (retry e)) :
    Moves C (callOnce T as addr version req timeout retry) := by
  refine Moves.bind (h.brokerIn T .data addr) fun broker => ?_
  refine Moves.ite (Moves.throw _) ?_
  refine Moves.bind (h.onBroker ((Broker.permits_appends _).call T _ _ hreq)) fun outcome => ?_
  exact h.settle hretry outcome

theorem callAt (as : Body → Option α) (addr : String) :
    Moves C (callAt T as addr version req) := by
  refine Moves.bind Moves.get fun c => ?_
  exact h.callOnce T hreq as addr _ fun _ => h.callOnce T hreq as addr _ fun _ => Moves.throw _

theorem callCoordinatorOnce (as : Body → Option α) (addr : String) (timeout : ℕ)
    {retry : IoError → Act (Cluster ω) Error α} (hretry : ∀ e, Moves C (retry e)) :
    Moves C (callCoordinatorOnce T as addr version req timeout retry) := by
  refine Moves.bind (h.brokerIn T .coordinator addr) fun broker => ?_
  refine Moves.bind (h.onBroker ((Broker.permits_appends _).call T _ _ hreq)) fun outcome => ?_
  exact h.settle hretry outcome

theorem callCoordinator (as : Body → Option α) (addr : String) (timeout : ℕ) :
    Moves C (callCoordinator T as addr version req timeout) :=
  h.callCoordinatorOnce T hreq as addr timeout fun _ =>
    h.callCoordinatorOnce T hreq as addr timeout fun _ => Moves.throw _

theorem sendOnce (addr : String) {retry : IoError → Act (Cluster ω) Error Unit}
    (hretry : ∀ e, Moves C (retry e)) : Moves C (sendOnce T addr version req retry) := by
  refine Moves.bind (h.brokerIn T .data addr) fun broker => ?_
  refine Moves.bind (h.onBroker ((Broker.permits_appends _).send T _ hreq)) fun outcome => ?_
  split
  · exact Moves.pure _
  · exact Moves.bind (Moves.modify fun c => h.drop c _ _) fun _ => hretry _
  · exact Moves.throw _

theorem sendAt (addr : String) : Moves C (sendAt T addr version req) :=
  h.sendOnce T hreq addr fun _ => h.sendOnce T hreq addr fun _ => Moves.throw _

end Request

theorem connectBootstrap (addrs : List String) (lastErr : Option Error) :
    Moves C (connectBootstrap T addrs lastErr) := by
  induction addrs generalizing lastErr with
  | nil => exact Moves.throw _
  | cons addr addrs ih =>
      refine Moves.bind Moves.get fun c => ?_
      refine Moves.bind (Moves.attempt (h.connectBroker T _ _ _)) fun outcome => ?_
      cases outcome with
      | ok broker => exact Moves.bind (Moves.modify fun c => h.keep c _ _ _) fun _ => Moves.pure _
      | error e => exact ih (some e)

end Carries

/-! ### Relations between clusters

What the code above a connection does is the same for every relation that its
primitives keep to. The primitives are a reading of the environment, the search
for a bootstrap address where nothing is connected, and one call on a connection. -/

/-- `C` holds across every exchange with a broker, as long as what is written is in
`W`. -/
structure Talks (C : Cluster ω → Cluster ω → Prop) (W : Frame → Prop) : Prop where
  plumbing : ∀ f : Frame, f.request.isPlumbing → W f
  pick : Moves C (onEnv T.pick : Act (Cluster ω) Error ℕ)
  now : Moves C (now T : Act (Cluster ω) Error ℕ)
  systemTime : Moves C (onEnv T.systemTime : Act (Cluster ω) Error ℤ)
  sleep : ∀ duration, Moves C (sleep T duration : Act (Cluster ω) Error Unit)
  bootstrap : ∀ addrs lastErr c, c.conns.keys = [] → C c (connectBootstrap T addrs lastErr c).2
  call : ∀ {α : Type} (as : Body → Option α) (addr : String) {version : ℤ} {req : Request},
    (∀ f : Frame, f.request = req → W f) → Moves C (callAt T as addr version req)

/-- `C` holds across what is done with the metadata, too. -/
structure Permits (C : Cluster ω → Cluster ω → Prop) (W : Frame → Prop) : Prop
    extends Talks T C W where
  update : ∀ c resp, C c { c with metadata := c.metadata.update resp }
  invalidate : ∀ c tp, C c (c.invalidate tp)
  refreshedAt : ∀ c refreshedAt, C c { c with refreshedAt }

theorem Carries.talks {C : Cluster ω → Cluster ω → Prop} [IsPreorder (Cluster ω) C]
    (h : Carries C W) : Talks T C W where
  plumbing := h.plumbing
  pick := h.onEnv _
  now := h.onEnv _
  systemTime := h.onEnv _
  sleep _ := h.onEnv _
  bootstrap addrs lastErr c _ := h.connectBootstrap T addrs lastErr c
  call as addr _ _ hreq := h.callAt T hreq as addr

theorem permits_appends (hW : ∀ f : Frame, f.request.isPlumbing → W f) :
    Permits T (Appends sent W) W where
  toTalks := (carries_appends hW).talks T
  update _ _ := .of_eq rfl
  invalidate _ _ := .of_eq rfl
  refreshedAt _ _ := .of_eq rfl

namespace Talks

variable {T} {C : Cluster ω → Cluster ω → Prop} [IsPreorder (Cluster ω) C] (h : Talks T C W)

include h

theorem anyBrokerAddr : Moves C (anyBrokerAddr T) := by
  unfold Cluster.anyBrokerAddr
  refine Moves.bind_get fun c => moves_bind_at (h.pick c) fun n c' hpick => ?_
  cases hkey : c.conns.keys[n % c.conns.keys.length]? with
  | some addr => exact Moves.pure addr c'
  | none =>
      have hkeys : c.conns.keys = [] := by
        by_contra hne
        have hlt := Nat.mod_lt n (List.length_pos_iff.mpr hne)
        rw [List.getElem?_eq_getElem hlt] at hkey
        cases hkey
      cases hpick
      exact h.bootstrap _ _ _ hkeys

theorem connect : Moves C (connect T) :=
  Moves.bind h.anyBrokerAddr fun _ => Moves.pure _

theorem callAny {version : ℤ} {req : Request} (hreq : ∀ f : Frame, f.request = req → W f)
    (as : Body → Option α) : Moves C (callAny T as version req) :=
  Moves.bind h.anyBrokerAddr fun addr => h.call as addr hreq

/-- A request that is itself plumbing needs no leave of its own. -/
theorem callAny_plumbing {version : ℤ} {req : Request} (hreq : req.isPlumbing)
    (as : Body → Option α) : Moves C (Cluster.callAny T as version req) :=
  h.callAny (fun f hf => h.plumbing f (hf ▸ hreq)) as

theorem isMetadataStale (topic : String) : Moves C (isMetadataStale T topic) := by
  unfold Cluster.isMetadataStale
  refine Moves.bind Moves.get fun c => ?_
  split
  · exact Moves.pure _
  · exact Moves.bind h.now fun _ => Moves.pure _

end Talks

namespace Permits

variable {T} {C : Cluster ω → Cluster ω → Prop} [IsPreorder (Cluster ω) C] (h : Permits T C W)

include h

theorem refreshMetadata (topic : String) : Moves C (refreshMetadata T topic) := by
  refine Moves.bind Moves.get fun c => ?_
  refine Moves.bind (h.callAny_plumbing rfl _) fun resp => ?_
  refine Moves.bind (Moves.ofExcept _) fun _ => ?_
  refine Moves.bind (Moves.modify fun c => h.update c _) fun _ => ?_
  exact Moves.bind h.now fun _ => Moves.modify fun c => h.refreshedAt c _

theorem refreshIfStale (topic : String) : Moves C (refreshIfStale T topic) := by
  refine Moves.bind (h.isMetadataStale topic) fun stale => Moves.ite ?_ (Moves.pure _)
  refine Moves.bind Moves.get fun _ => Moves.bind (h.refreshMetadata topic) fun _ => ?_
  exact Moves.bind Moves.get fun _ => Moves.pure _

theorem leaderAddr (tp : TopicPartition) : Moves C (leaderAddr T tp) := by
  unfold Cluster.leaderAddr
  refine Moves.bind Moves.get fun c => ?_
  split
  · exact Moves.pure _
  · refine Moves.bind (h.refreshMetadata _) fun _ => Moves.bind Moves.get fun c => ?_
    split
    · exact Moves.pure _
    · exact Moves.throw _

theorem countIsStale (topic : String) : Moves C (countIsStale T topic) :=
  Moves.bind Moves.get fun _ => Moves.ite (Moves.pure _) (h.isMetadataStale topic)

omit h in
theorem knownCount (topic : String) : Moves C (knownCount topic : Act (Cluster ω) Error ℤ) :=
  Moves.bind Moves.get fun _ => Moves.ite (Moves.throw _) (Moves.pure _)

theorem partitionCount (topic : String) : Moves C (partitionCount T topic) := by
  refine Moves.bind (h.countIsStale topic) fun stale => ?_
  refine Moves.ite ?_ (knownCount topic)
  exact Moves.bind (h.refreshMetadata topic) fun _ => knownCount topic

end Permits

end Cluster

end Barnabas.Client
