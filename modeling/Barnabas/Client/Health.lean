import Barnabas.Client.Pools
import Barnabas.Client.Tape
import Barnabas.Client.Window

/-!
A cluster in good health.

Its brokers can be reached, no operation on a stream fails, and a `Produce` is answered
in its turn with every batch accepted. Over such a transport writing a request and
reading the answers of a round succeed, and what every connection is waiting for stays
what was written to it and not answered yet.
-/

namespace Barnabas.Client

open Barnabas.Lib Barnabas.Core Barnabas.Lib.Act

variable {ω : Type}

/-- The streams that are open, and the requests each has still to answer. -/
structure Backlog where
  opened : ℕ → Prop
  owed : ℕ → List Frame

namespace Backlog

def set (k : Backlog) (stream : ℕ) (frames : List Frame) : Backlog :=
  ⟨k.opened, Function.update k.owed stream frames⟩

def add (k : Backlog) (stream : ℕ) : Backlog :=
  ⟨fun s => s = stream ∨ k.opened s, Function.update k.owed stream []⟩

@[simp] theorem set_owed_self (k : Backlog) (stream : ℕ) (frames : List Frame) :
    (k.set stream frames).owed stream = frames := Function.update_self ..

theorem set_owed_of_ne (k : Backlog) {stream s : ℕ} (h : s ≠ stream) (frames : List Frame) :
    (k.set stream frames).owed s = k.owed s := Function.update_of_ne h _ _

@[simp] theorem add_owed_self (k : Backlog) (stream : ℕ) : (k.add stream).owed stream = [] :=
  Function.update_self ..

theorem add_owed_of_ne (k : Backlog) {stream s : ℕ} (h : s ≠ stream) :
    (k.add stream).owed s = k.owed s := Function.update_of_ne h _ _

end Backlog

/-- The answer names the partitions of the request and accepts each. -/
def Accepts (req : ProduceRequest) (resp : ProduceResponse) : Prop :=
  ((partitionsOf resp).map (·.1)).Perm ((batchesOf req).map (·.1)) ∧
    ∀ e ∈ partitionsOf resp, e.2.errorCode = 0

/-- What a healthy cluster does. `Good env k` says that in the world `env` all is well and
the streams owe the answers of `k`; every operation leaves it so. A connection can be
opened, with these credentials, whenever it is needed. -/
structure Healthy (T : Transport ω) (Good : ω → Backlog → Prop) (clientId : String)
    (credentials : Option Credentials) : Prop where
  connect : ∀ addr env sent k, Good env k → ∃ b wire,
    Broker.connect T addr clientId credentials ⟨env, sent⟩ = (.ok b, wire) ∧
      b.conn.inFlight = [] ∧ ¬k.opened b.stream ∧ Good wire.env (k.add b.stream)
  write : ∀ stream (frame : Frame) req env k, frame.request = .produce req → k.opened stream →
    Good env k → ∃ env', T.write stream frame env = (.ok (), env') ∧
      Good env' (k.set stream (k.owed stream ++ [frame]))
  read : ∀ timeout stream (frame : Frame) rest req env k, frame.request = .produce req →
    k.opened stream → k.owed stream = frame :: rest → Good env k → ∃ resp env',
      T.readWithin timeout stream env =
        (.ok (.frame (.ok frame.correlationId) (.produce resp)), env') ∧
      Accepts req resp ∧ Good env' (k.set stream rest)
  sleep : ∀ duration env k, Good env k → Good (T.sleep duration env) k

/-- The request can be encoded and fits a frame. -/
def Sendable (codec : Codec) (req : Request) : Prop :=
  ∀ f : Frame, f.request = req → ∃ header body, codec.encodeHeader f = .ok header ∧
    codec.encodeBody f = .ok body ∧ (header : ℤ) + body ≤ i32Max

/-- What a connection remembers of a request it wrote. -/
def flight (f : Frame) : Pending := ⟨f.request.apiKey, f.apiVersion, f.correlationId⟩

variable {T : Transport ω} {Good : ω → Backlog → Prop} {clientId : String}
  {credentials : Option Credentials}

/-! ### One connection -/

theorem Connection.request_of_sendable {codec : Codec} {req : Request} (h : Sendable codec req)
    (version : ℤ) (conn : Connection) :
    ∃ f conn', Connection.request codec version req conn = (.ok f, conn') ∧ f.request = req ∧
      conn'.inFlight = conn.inFlight ++ [flight f] := by
  obtain ⟨header, body, hheader, hbody, hfits⟩ :=
    h ⟨version, wrap 32 (conn.nextCorrelationId + 1), conn.clientId, req⟩ rfl
  let correlationId := wrap 32 (conn.nextCorrelationId + 1)
  refine ⟨⟨version, correlationId, conn.clientId, req⟩, ⟨conn.clientId, correlationId,
    conn.inFlight ++ [⟨req.apiKey, version, correlationId⟩]⟩, ?_, rfl, rfl⟩
  unfold Connection.request
  simp only [bind_apply, get_apply, set_apply, hheader, hbody, modify_apply,
    if_neg (not_lt.mpr hfits), pure_apply]
  rfl

namespace Broker

variable (hT : Healthy T Good clientId credentials)

include hT

theorem send_of_healthy {req : ProduceRequest} (hreq : Sendable T.codec (.produce req))
    (version : ℤ) {l : Link ω} {k : Backlog} (hgood : Good l.wire.env k)
    (hopened : k.opened l.broker.stream) :
    ∃ f l', Broker.send T T.unhurried version (.produce req) l = (.ok (), l') ∧
      f.request = .produce req ∧ l'.broker.stream = l.broker.stream ∧
      l'.broker.conn.inFlight = l.broker.conn.inFlight ++ [flight f] ∧
      Good l'.wire.env (k.set l.broker.stream (k.owed l.broker.stream ++ [f])) := by
  obtain ⟨f, conn, hrequest, hf, hflight⟩ :=
    Connection.request_of_sendable hreq (l.broker.negotiated (Request.produce req).apiKey version)
      l.broker.conn
  obtain ⟨env, hwrite, hgood'⟩ := hT.write l.broker.stream f req l.wire.env k hf hopened hgood
  have honConn : onConn T.unhurried (Connection.request T.codec
      (l.broker.negotiated (Request.produce req).apiKey version) (.produce req)) l =
        (.ok f, { l with broker := { l.broker with conn } }) := by
    rw [onConn, mapError_apply, zoom_apply, hrequest]
    rfl
  refine ⟨f, ⟨⟨env, l.wire.sent ++ [f]⟩, { l.broker with conn }⟩, ?_, hf, rfl, hflight, hgood'⟩
  rw [send, bind_of_ok (get_apply l)]
  dsimp only
  rw [bind_of_ok honConn, bind_of_ok (modify_apply _ _), onEnv, zoom_apply]
  simp only [Transport.unhurried, mapError_apply, hwrite]
  rfl

theorem recv_of_healthy (timeout : ℕ) {req : ProduceRequest} {l : Link ω} {k : Backlog}
    (hgood : Good l.wire.env k) (hopened : k.opened l.broker.stream) {f : Frame}
    {rest : List Frame} (howed : k.owed l.broker.stream = f :: rest)
    (hf : f.request = .produce req) (hflight : l.broker.conn.inFlight = (f :: rest).map flight) :
    ∃ resp l', Broker.recv (T.within timeout) Body.asProduce l = (.ok resp, l') ∧
      Accepts req resp ∧ l'.broker.stream = l.broker.stream ∧
      l'.broker.conn.inFlight = rest.map flight ∧
      Good l'.wire.env (k.set l.broker.stream rest) := by
  obtain ⟨resp, env, hread, haccepts, hgood'⟩ :=
    hT.read timeout l.broker.stream f rest req l.wire.env k hf hopened howed hgood
  let l₁ : Link ω := { l with wire := { l.wire with env } }
  let conn : Connection := { l.broker.conn with inFlight := rest.map flight }
  have honEnv : onEnv ((T.within timeout).read l.broker.stream) l =
      (.ok (.frame (.ok f.correlationId) (.produce resp)), l₁) := by
    rw [onEnv, zoom_apply]
    simp only [Transport.within, mapError_apply, hread]
    rfl
  have hnext : onConn (T.within timeout) (Connection.nextResponse
      (.ok (.ok f.correlationId, .produce resp))) l₁ =
        (.ok ⟨f.request.apiKey, f.apiVersion, f.correlationId, .produce resp⟩,
          { l₁ with broker := { l.broker with conn } }) := by
    rw [List.map_cons] at hflight
    simp [onConn, Connection.nextResponse, bind_apply, hflight, flight, Except.mapError, l₁, conn]
  refine ⟨resp, { l₁ with broker := { l.broker with conn } }, ?_, haccepts, rfl, rfl, hgood'⟩
  rw [recv, bind_of_ok (get_apply l), bind_of_ok honEnv]
  dsimp only
  rw [bind_of_ok hnext]
  rfl

end Broker

namespace Cluster

/-! ### The data connections -/

/-- What a connection is waiting for is what its stream owes, and these are the requests
that `due` lists for its broker. Where there is no connection nothing is due. -/
structure Matched (k : Backlog) (look : Slot → Option Broker) (due : String → List Request) :
    Prop where
  opened : ∀ addr b, look (.data, addr) = some b → k.opened b.stream
  apart : ∀ addr addr' b b', look (.data, addr) = some b → look (.data, addr') = some b' →
    b.stream = b'.stream → addr = addr'
  flight : ∀ addr b, look (.data, addr) = some b → b.conn.inFlight = (k.owed b.stream).map flight
  owed : ∀ addr b, look (.data, addr) = some b → (k.owed b.stream).map (·.request) = due addr
  idle : ∀ addr, look (.data, addr) = none → due addr = []

/-- All is well, and `due` are the requests whose answers have not been read. -/
def Serving (Good : ω → Backlog → Prop) (env : ω) (look : Slot → Option Broker)
    (due : String → List Request) : Prop :=
  ∃ k, Good env k ∧ Matched k look due

section Matched

variable {k : Backlog} {look : Slot → Option Broker} {due : String → List Request}
  {addr : String} {b b' : Broker}

theorem update_data_of_ne {addr a : String} (h : a ≠ addr) (look : Slot → Option Broker)
    (o : Option Broker) : Function.update look (.data, addr) o (.data, a) = look (.data, a) :=
  Function.update_of_ne (fun heq => h (Prod.mk.inj heq).2) _ _

/-- An operation on one connection. -/
theorem Matched.step (h : Matched k look due) (hb : look (.data, addr) = some b)
    {frames : List Frame} (hstream : b'.stream = b.stream)
    (hflight : b'.conn.inFlight = frames.map Barnabas.Client.flight) :
    Matched (k.set b.stream frames) (Function.update look (.data, addr) (some b'))
      (Function.update due addr (frames.map (·.request))) := by
  have hother : ∀ a b₁, a ≠ addr → look (.data, a) = some b₁ → b₁.stream ≠ b.stream :=
    fun a b₁ ha hb₁ heq => ha (h.apart a addr b₁ b hb₁ hb heq)
  -- the connection that was found is the new one, or one of the others
  have hcases : ∀ a b₁, Function.update look (.data, addr) (some b') (.data, a) = some b₁ →
      a = addr ∧ b₁ = b' ∨ a ≠ addr ∧ look (.data, a) = some b₁ := by
    intro a b₁ hb₁
    by_cases ha : a = addr
    · subst ha
      rw [Function.update_self] at hb₁
      exact .inl ⟨rfl, (Option.some.inj hb₁).symm⟩
    · rw [update_data_of_ne ha] at hb₁
      exact .inr ⟨ha, hb₁⟩
  constructor
  case opened =>
    intro a b₁ hb₁
    rcases hcases a b₁ hb₁ with ⟨rfl, rfl⟩ | ⟨-, hb₁⟩
    · exact hstream ▸ h.opened a b hb
    · exact h.opened a b₁ hb₁
  case apart =>
    intro a a' b₁ b₁' hat hat' heq
    rcases hcases a b₁ hat with ⟨rfl, rfl⟩ | ⟨ha, hb₁⟩ <;>
      rcases hcases a' b₁' hat' with ⟨rfl, rfl⟩ | ⟨ha', hb₁'⟩
    · rfl
    · exact absurd (heq.symm.trans hstream) (hother a' b₁' ha' hb₁')
    · exact absurd (heq.trans hstream) (hother a b₁ ha hb₁)
    · exact h.apart a a' b₁ b₁' hb₁ hb₁' heq
  case flight =>
    intro a b₁ hb₁
    rcases hcases a b₁ hb₁ with ⟨rfl, rfl⟩ | ⟨ha, hb₁⟩
    · rw [hstream, Backlog.set_owed_self, hflight]
    · rw [Backlog.set_owed_of_ne _ (hother a b₁ ha hb₁), h.flight a b₁ hb₁]
  case owed =>
    intro a b₁ hb₁
    rcases hcases a b₁ hb₁ with ⟨rfl, rfl⟩ | ⟨ha, hb₁⟩
    · rw [hstream, Backlog.set_owed_self, Function.update_self]
    · rw [Backlog.set_owed_of_ne _ (hother a b₁ ha hb₁), Function.update_of_ne ha, h.owed a b₁ hb₁]
  case idle =>
    intro a ha
    by_cases haddr : a = addr
    · rw [haddr, Function.update_self] at ha
      cases ha
    · rw [update_data_of_ne haddr] at ha
      rw [Function.update_of_ne haddr]
      exact h.idle a ha

/-- A new connection. -/
theorem Matched.add (h : Matched k look due) (hempty : look (.data, addr) = none)
    (hnew : ¬k.opened b.stream) (hflight : b.conn.inFlight = []) :
    Matched (k.add b.stream) (Function.update look (.data, addr) (some b)) due := by
  have hother : ∀ a b₁, look (.data, a) = some b₁ → b₁.stream ≠ b.stream :=
    fun a b₁ hb₁ heq => hnew (heq ▸ h.opened a b₁ hb₁)
  have hcases : ∀ a b₁, Function.update look (.data, addr) (some b) (.data, a) = some b₁ →
      a = addr ∧ b₁ = b ∨ look (.data, a) = some b₁ := by
    intro a b₁ hb₁
    by_cases ha : a = addr
    · subst ha
      rw [Function.update_self] at hb₁
      exact .inl ⟨rfl, (Option.some.inj hb₁).symm⟩
    · rw [update_data_of_ne ha] at hb₁
      exact .inr hb₁
  constructor
  case opened =>
    intro a b₁ hb₁
    rcases hcases a b₁ hb₁ with ⟨rfl, rfl⟩ | hb₁
    · exact .inl rfl
    · exact .inr (h.opened a b₁ hb₁)
  case apart =>
    intro a a' b₁ b₁' hat hat' heq
    rcases hcases a b₁ hat with ⟨rfl, rfl⟩ | hb₁ <;>
      rcases hcases a' b₁' hat' with ⟨rfl, rfl⟩ | hb₁'
    · rfl
    · exact absurd heq.symm (hother a' b₁' hb₁')
    · exact absurd heq (hother a b₁ hb₁)
    · exact h.apart a a' b₁ b₁' hb₁ hb₁' heq
  case flight =>
    intro a b₁ hb₁
    rcases hcases a b₁ hb₁ with ⟨rfl, rfl⟩ | hb₁
    · rw [Backlog.add_owed_self, hflight]
      rfl
    · rw [Backlog.add_owed_of_ne _ (hother a b₁ hb₁), h.flight a b₁ hb₁]
  case owed =>
    intro a b₁ hb₁
    rcases hcases a b₁ hb₁ with ⟨rfl, rfl⟩ | hb₁
    · rw [Backlog.add_owed_self, h.idle a hempty]
      rfl
    · rw [Backlog.add_owed_of_ne _ (hother a b₁ hb₁), h.owed a b₁ hb₁]
  case idle =>
    intro a ha
    by_cases haddr : a = addr
    · rw [haddr, Function.update_self] at ha
      cases ha
    · rw [update_data_of_ne haddr] at ha
      exact h.idle a ha

end Matched

/-- What an operation of a healthy cluster leaves as it is: the settings a connection is
opened with, and the metadata. -/
structure Alike (c c' : Cluster ω) : Prop where
  clientId : c'.clientId = c.clientId
  credentials : c'.credentials = c.credentials
  metadata : c'.metadata = c.metadata

theorem Alike.refl (c : Cluster ω) : Alike c c := ⟨rfl, rfl, rfl⟩

theorem Alike.trans {c c' c'' : Cluster ω} (h : Alike c c') (h' : Alike c' c'') : Alike c c'' :=
  ⟨h'.clientId.trans h.clientId, h'.credentials.trans h.credentials,
    h'.metadata.trans h.metadata⟩

theorem alike_keep (c : Cluster ω) (wire : Wire ω) (pool : Pool) (addr : String) (b : Broker) :
    Alike c ({ c with wire }.keep pool addr b) := by
  cases pool <;> exact ⟨rfl, rfl, rfl⟩

theorem alike_takeConns (addrs : List String) (c : Cluster ω) :
    Alike c (takeConns addrs c).2 := by
  induction addrs generalizing c with
  | nil => exact .refl c
  | cons addr addrs ih =>
      have hdrop : Alike c (c.drop .data addr) := ⟨rfl, rfl, rfl⟩
      exact hdrop.trans (ih _)

section Operations

variable (hT : Healthy T Good clientId credentials)

include hT

/-- The connection to a broker is there, or can be opened. -/
theorem brokerAt_of_healthy {c : Cluster ω} {due : String → List Request}
    (hid : c.clientId = clientId) (hcredentials : c.credentials = credentials)
    (hc : Serving Good c.wire.env c.look due) (addr : String) :
    ∃ b c', brokerAt T addr c = (.ok b, c') ∧ c'.look (.data, addr) = some b ∧
      Serving Good c'.wire.env c'.look due ∧ Alike c c' := by
  rw [brokerAt, brokerIn, bind_of_ok (get_apply c)]
  cases hlook : (c.pool .data)[addr]? with
  | some b => exact ⟨b, c, rfl, hlook, hc, .refl c⟩
  | none =>
      obtain ⟨k, hgood, hmatched⟩ := hc
      obtain ⟨b, wire, hconnect, hflight, hnew, hgood'⟩ :=
        hT.connect addr c.wire.env c.wire.sent k hgood
      have honWire : onWire (Broker.connect T addr c.clientId c.credentials) c =
          (.ok b, { c with wire }) := by
        rw [onWire, zoom_apply, hid, hcredentials, hconnect]
      dsimp only
      rw [bind_of_ok honWire, bind_of_ok (modify_apply _ _)]
      refine ⟨b, _, rfl, ?_, ⟨k.add b.stream, ?_, ?_⟩, alike_keep c wire .data addr b⟩
      · rw [look_keep]
        exact Function.update_self ..
      · rw [wire_keep]
        exact hgood'
      · rw [look_keep, look_wire]
        exact hmatched.add hlook hnew hflight

/-- Writing a request succeeds, and its answer is due after those that already were. -/
theorem sendAt_of_healthy {req : ProduceRequest} (hreq : Sendable T.codec (.produce req))
    {c : Cluster ω} {due : String → List Request} (hid : c.clientId = clientId)
    (hcredentials : c.credentials = credentials) (hc : Serving Good c.wire.env c.look due)
    (version : ℤ) (addr : String) :
    ∃ c', sendAt T addr version (.produce req) c = (.ok (), c') ∧
      Serving Good c'.wire.env c'.look
        (Function.update due addr (due addr ++ [.produce req])) ∧ Alike c c' := by
  obtain ⟨b, c₁, hbroker, hlook, ⟨k, hgood, hmatched⟩, halike⟩ :=
    brokerAt_of_healthy hT hid hcredentials hc addr
  let l : Link ω := ⟨c₁.wire, b⟩
  obtain ⟨f, l', hsend, hf, hstream, hflight, hgood'⟩ :=
    Broker.send_of_healthy hT hreq version (l := l) hgood (hmatched.opened addr b hlook)
  rw [sendAt, sendOnce, bind_of_ok hbroker, bind_of_ok (onBroker_apply hsend)]
  refine ⟨{ c₁ with wire := l'.wire }.keep .data addr l'.broker, rfl,
    ⟨k.set b.stream (k.owed b.stream ++ [f]), ?_, ?_⟩,
    halike.trans (alike_keep c₁ l'.wire .data addr l'.broker)⟩
  · rw [wire_keep]
    exact hgood'
  · have hframes : l'.broker.conn.inFlight = (k.owed b.stream ++ [f]).map flight := by
      rw [hflight, List.map_append, ← hmatched.flight addr b hlook]
      rfl
    have hstep := hmatched.step hlook hstream hframes
    rw [List.map_append, hmatched.owed addr b hlook, List.map_singleton, hf] at hstep
    rw [look_keep, look_wire]
    exact hstep

/-- Reading from one connection that was taken out of the pool. -/
theorem recvOne_of_healthy {req : ProduceRequest} {rest : List Request} {c : Cluster ω}
    {look : Slot → Option Broker} {due : String → List Request}
    (hc : Serving Good c.wire.env look due) {addr : String}
    (hdue : due addr = .produce req :: rest) (op : ApiKey) :
    ∃ resp b' c', recvOne T op Body.asProduce (addr, look (.data, addr)) c = (.ok resp, c') ∧
      Accepts req resp ∧ c'.look = Function.update c.look (.data, addr) (some b') ∧
      Serving Good c'.wire.env (Function.update look (.data, addr) (some b'))
        (Function.update due addr rest) ∧ Alike c c' := by
  obtain ⟨k, hgood, hmatched⟩ := hc
  cases hlook : look (.data, addr) with
  | none =>
      rw [hmatched.idle addr hlook] at hdue
      cases hdue
  | some b =>
      have howed := hmatched.owed addr b hlook
      rw [hdue] at howed
      obtain ⟨f, frames, hframes, hf, hrest⟩ := List.map_eq_cons_iff.mp howed
      let l : Link ω := ⟨c.wire, b⟩
      have hinFlight := hmatched.flight addr b hlook
      rw [hframes] at hinFlight
      obtain ⟨resp, l', hrecv, haccepts, hstream, hflight, hgood'⟩ :=
        Broker.recv_of_healthy hT c.requestTimeout (l := l) hgood
          (hmatched.opened addr b hlook) hframes hf hinFlight
      refine ⟨resp, l'.broker, { c with wire := l'.wire }.keep .data addr l'.broker, ?_, haccepts, ?_,
        ⟨k.set b.stream frames, ?_, ?_⟩, alike_keep c l'.wire .data addr l'.broker⟩
      · rw [recvOne]
        dsimp only
        rw [hrecv]
      · rw [look_keep, look_wire]
      · rw [wire_keep]
        exact hgood'
      · rw [← hrest]
        exact hmatched.step hlook hstream hflight

omit hT in
/-- What is due after one answer was read from each of these brokers. -/
def heardFrom (addrs : List String) (due : String → List Request) (addr : String) : List Request :=
  if addr ∈ addrs then (due addr).tail else due addr

theorem recvTaken_of_healthy {asked : List (String × ProduceRequest)}
    {taken : List (String × Option Broker)} {c : Cluster ω} {due : String → List Request}
    (hnames : taken.map (·.1) = asked.map (·.1)) (hnodup : (asked.map (·.1)).Nodup)
    (hdue : ∀ e ∈ asked, ∃ rest, due e.1 = .produce e.2 :: rest)
    (hc : Serving Good c.wire.env (held taken c) due) (op : ApiKey) :
    ∃ rs c', recvTaken T op Body.asProduce taken c = (rs, c') ∧
      List.Forall₂ (fun e r => ∃ resp, r = .ok resp ∧ Accepts e.2 resp) asked rs ∧
      Serving Good c'.wire.env c'.look (heardFrom (asked.map (·.1)) due) ∧ Alike c c' := by
  induction asked generalizing taken c due with
  | nil =>
      obtain rfl := List.map_eq_nil_iff.mp hnames
      rw [held_nil] at hc
      refine ⟨[], c, rfl, .nil, ?_, .refl c⟩
      have hsame : heardFrom [] due = due := by
        funext addr
        simp [heardFrom]
      rw [List.map_nil, hsame]
      exact hc
  | cons e asked ih =>
      obtain ⟨addr, req⟩ := e
      rw [List.map_cons] at hnames hnodup
      obtain ⟨⟨addr', t⟩, taken, rfl, haddr, htaken⟩ := List.map_eq_cons_iff.mp hnames
      obtain rfl : addr' = addr := haddr
      obtain ⟨hnew, hnodup⟩ := List.nodup_cons.mp hnodup
      have hself : held ((addr', t) :: taken) c (.data, addr') = t := by simp [held]
      obtain ⟨rest, hrest⟩ := hdue (addr', req) List.mem_cons_self
      obtain ⟨resp, b', c₁, hrecv, haccepts, hlook, hserving, halike⟩ :=
        recvOne_of_healthy hT hc hrest op
      rw [hself] at hrecv
      rw [← held_cons (htaken ▸ hnew) hlook] at hserving
      have hdue' : ∀ e ∈ asked, ∃ rest', Function.update due addr' rest e.1 = .produce e.2 :: rest' := by
        intro e he
        have hne : e.1 ≠ addr' := fun h => hnew (h ▸ List.mem_map.mpr ⟨e, he, rfl⟩)
        rw [Function.update_of_ne hne]
        exact hdue e (List.mem_cons_of_mem _ he)
      obtain ⟨rs, c', hrest', hforall, hserving', halike'⟩ := ih htaken hnodup hdue' hserving
      refine ⟨.ok resp :: rs, c', ?_, .cons ⟨resp, rfl, haccepts⟩ hforall, ?_, halike.trans halike'⟩
      · rw [recvTaken, hrecv]
        dsimp only
        rw [hrest']
      · have hsame : heardFrom (asked.map (·.1)) (Function.update due addr' rest) =
            heardFrom (addr' :: asked.map (·.1)) due := by
          funext a
          by_cases ha : a = addr'
          · subst ha
            rw [heardFrom, if_neg hnew, Function.update_self, heardFrom, if_pos List.mem_cons_self, hrest]
            rfl
          · simp only [heardFrom, List.mem_cons, ha, false_or, Function.update_of_ne ha]
        rw [List.map_cons, ← hsame]
        exact hserving'

/-- Reading an answer from each of several brokers. -/
theorem recvMany_of_healthy {ε : Type} {asked : List (String × ProduceRequest)} {c : Cluster ω}
    {due : String → List Request} (hnodup : (asked.map (·.1)).Nodup)
    (hdue : ∀ e ∈ asked, ∃ rest, due e.1 = .produce e.2 :: rest)
    (hc : Serving Good c.wire.env c.look due) (op : ApiKey) :
    ∃ rs c', (recvMany T op Body.asProduce (asked.map (·.1)) : Act (Cluster ω) ε _) c =
        (.ok rs, c') ∧
      List.Forall₂ (fun e r => ∃ resp, r = .ok resp ∧ Accepts e.2 resp) asked rs ∧
      Serving Good c'.wire.env c'.look (heardFrom (asked.map (·.1)) due) ∧ Alike c c' := by
  obtain ⟨hheld, hwire, hnames, -⟩ := takeConns_held hnodup c
  rw [← hheld, ← hwire] at hc
  obtain ⟨rs, c', htaken, hforall, hserving, halike⟩ :=
    recvTaken_of_healthy hT hnames hnodup hdue hc op
  refine ⟨rs, c', ?_, hforall, hserving, (alike_takeConns _ c).trans halike⟩
  rw [recvMany]
  dsimp only
  rw [htaken]

end Operations

end Cluster

/-! ### A cluster in which all is well -/

/-- The streams opened so far, what each owes, and the offset the next answer gives. -/
structure Ideal where
  streams : ℕ
  owed : ℕ → List Frame
  offset : ℤ

namespace Ideal

def start : Ideal := ⟨0, fun _ => [], 0⟩

/-- One broker, one topic, and no batch that is not accepted. -/
def answer (offset : ℤ) : Request → Body
  | .produce req => .produce (req.topicData.map fun (topic, parts) =>
      (topic, parts.map fun (index, _) => ⟨index, 0, offset⟩))
  | .metadata _ _ => .metadata ⟨[⟨1, "b", 1⟩], 1, [⟨0, some "t", [⟨0, 0, 1⟩]⟩]⟩
  | .initProducerId _ => .initProducerId ⟨0, 1, 0⟩
  | _ => .apiVersions ⟨0, []⟩

def next (stream : ℕ) (env : Ideal) : Incoming × Ideal :=
  match env.owed stream with
  | [] => (.closed, env)
  | frame :: rest => (.frame (.ok frame.correlationId) (answer env.offset frame.request),
      { env with owed := Function.update env.owed stream rest, offset := env.offset + 1 })

def post (stream : ℕ) (frame : Frame) (env : Ideal) : Ideal :=
  { env with owed := Function.update env.owed stream (env.owed stream ++ [frame]) }

def transport : Transport Ideal where
  codec := Tape.codec
  connect _ := fun env => (.ok env.streams,
    { env with streams := env.streams + 1, owed := Function.update env.owed env.streams [] })
  write stream frame := fun env => (.ok (), env.post stream frame)
  read stream := fun env => (.ok (env.next stream).1, (env.next stream).2)
  writeWithin _ stream frame := fun env => (.ok (), env.post stream frame)
  readWithin _ stream := fun env => (.ok (env.next stream).1, (env.next stream).2)
  sleep _ := id
  now := fun env => (0, env)
  systemTime := fun env => (0, env)
  pick := fun env => (0, env)
  nonce := fun env => ("", env)

/-- What the streams owe is what is written down. -/
structure Tallies (env : Ideal) (k : Backlog) : Prop where
  opened : ∀ s, k.opened s ↔ s < env.streams
  owed : ∀ s, k.opened s → k.owed s = env.owed s

theorem tallies_start : Tallies start ⟨fun _ => False, fun _ => []⟩ :=
  ⟨fun _ => ⟨nofun, nofun⟩, nofun⟩

theorem Tallies.set {env : Ideal} {k : Backlog} (h : Tallies env k) (stream : ℕ) (frames : List Frame)
    (offset : ℤ) : Tallies { env with owed := Function.update env.owed stream frames, offset }
      (k.set stream frames) := by
  refine ⟨h.opened, fun s hs => ?_⟩
  by_cases heq : s = stream
  · subst heq
    rw [Backlog.set_owed_self]
    exact (Function.update_self s frames env.owed).symm
  · rw [Backlog.set_owed_of_ne _ heq, h.owed s hs]
    exact (Function.update_of_ne heq frames env.owed).symm

theorem Tallies.add {env : Ideal} {k : Backlog} (h : Tallies env k) {offset : ℤ} :
    Tallies ⟨env.streams + 1, Function.update env.owed env.streams [], offset⟩
      (k.add env.streams) := by
  constructor
  · intro s
    have hold := h.opened s
    change s = env.streams ∨ k.opened s ↔ s < env.streams + 1
    rw [hold]
    omega
  · intro s hs
    by_cases heq : s = env.streams
    · rw [heq, Backlog.add_owed_self]
      exact (Function.update_self env.streams [] env.owed).symm
    · rw [Backlog.add_owed_of_ne _ heq, h.owed s (hs.resolve_left heq)]
      exact (Function.update_of_ne heq [] env.owed).symm

theorem accepts_answer (offset : ℤ) (req : ProduceRequest) {resp : ProduceResponse}
    (h : answer offset (.produce req) = .produce resp) : Accepts req resp := by
  obtain rfl := Body.produce.inj h
  constructor
  · simp [partitionsOf, batchesOf, List.flatMap_map, List.map_flatMap, Function.comp_def]
  · intro e he
    simp only [partitionsOf, List.flatMap_map, List.map_map, List.mem_flatMap, List.mem_map] at he
    obtain ⟨_, _, _, _, rfl⟩ := he
    rfl

/-- Opening a connection leaves nothing owed on it. -/
theorem connect_apply (addr clientId : String) (env : Ideal) (sent : List Frame) : ∃ wire,
    Broker.connect transport addr clientId none ⟨env, sent⟩ =
        (.ok ⟨env.streams, ⟨clientId, 1, []⟩, ∅⟩, wire) ∧
      wire.env = { env with
        streams := env.streams + 1
        owed := Function.update env.owed env.streams []
        offset := env.offset + 1 } := by
  let env₁ : Ideal := { env with
    streams := env.streams + 1
    owed := Function.update env.owed env.streams [] }
  let f : Frame := ⟨3, 1, clientId, .apiVersions clientId "0.0.1"⟩
  let link : Link Ideal := ⟨⟨env₁, sent⟩, ⟨env.streams, .new clientId, ∅⟩⟩
  let link₁ : Link Ideal := ⟨⟨env₁.post env.streams f, sent ++ [f]⟩,
    ⟨env.streams, ⟨clientId, 1, [flight f]⟩, ∅⟩⟩
  let link₂ : Link Ideal := ⟨⟨((env₁.post env.streams f).next env.streams).2, sent ++ [f]⟩,
    ⟨env.streams, ⟨clientId, 1, []⟩, ∅⟩⟩
  have hnext : (env₁.post env.streams f).next env.streams =
      (.frame (.ok 1) (.apiVersions ⟨0, []⟩),
        { env₁ with offset := env.offset + 1 }) := by
    simp [next, post, env₁, f, answer, Function.update_idem]
  have hsend : Broker.send transport transport.unhurried 3 f.request link = (.ok (), link₁) := rfl
  have hrecv : Broker.recv transport.unhurried Body.asApiVersions link₁ = (.ok ⟨0, []⟩, link₂) := by
    have honEnv : Broker.onEnv (transport.unhurried.read env.streams) link₁ =
        (.ok (.frame (.ok 1) (.apiVersions ⟨0, []⟩)),
          { link₁ with wire := ⟨((env₁.post env.streams f).next env.streams).2, sent ++ [f]⟩ }) := by
      change (Except.ok ((env₁.post env.streams f).next env.streams).1, ({ link₁ with
        wire := ⟨((env₁.post env.streams f).next env.streams).2, sent ++ [f]⟩ } : Link Ideal)) = _
      rw [hnext]
    rw [Broker.recv, bind_of_ok (get_apply link₁), bind_of_ok honEnv]
    rfl
  refine ⟨link₂.wire, ?_, by rw [show link₂.wire.env = _ from congrArg Prod.snd hnext]⟩
  have hhandshake : Broker.handshake transport clientId none link = (.ok (), link₂) := by
    have hcall : Broker.call transport transport.unhurried Body.asApiVersions 3 f.request link =
        (.ok ⟨0, []⟩, link₂) := by
      rw [Broker.call, bind_of_ok (get_apply link)]
      exact (bind_of_ok hsend).trans hrecv
    rw [Broker.handshake, bind_of_ok hcall]
    rfl
  have hopen : (mapError (Error.connect addr) (zoom (·.env) (fun wire env => { wire with env })
      (transport.connect addr)) : Act (Wire Ideal) Error ℕ) ⟨env, sent⟩ =
        (.ok env.streams, ⟨env₁, sent⟩) := rfl
  rw [Broker.connect, bind_of_ok hopen, bind_of_ok (get_apply _)]
  dsimp only
  rw [hhandshake]
  rfl

theorem healthy (clientId : String) : Healthy transport Tallies clientId none where
  connect addr env sent k hgood := by
    obtain ⟨wire, hconnect, henv⟩ := connect_apply addr clientId env sent
    refine ⟨_, wire, hconnect, rfl, ?_, ?_⟩
    · rw [hgood.opened]
      exact Nat.lt_irrefl _
    · rw [henv]
      exact hgood.add
  write stream frame req env k _ hopened hgood := by
    refine ⟨env.post stream frame, rfl, ?_⟩
    rw [hgood.owed stream hopened]
    exact hgood.set stream _ env.offset
  read timeout stream frame rest req env k hreq hopened howed hgood := by
    rw [hgood.owed stream hopened] at howed
    have hnext : env.next stream = (.frame (.ok frame.correlationId) (answer env.offset (.produce req)),
        { env with owed := Function.update env.owed stream rest, offset := env.offset + 1 }) := by
      rw [next, howed]
      dsimp only
      rw [hreq]
    refine ⟨_, _, ?_, accepts_answer env.offset req rfl, hgood.set stream rest (env.offset + 1)⟩
    change (Except.ok (env.next stream).1, (env.next stream).2) = _
    rw [hnext]
    rfl
  sleep _ _ _ hgood := hgood

end Ideal

end Barnabas.Client
