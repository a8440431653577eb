import Barnabas.Client.Requests

/-!
A transport with a journal of what happens on each connection.

The connections are numbered in the order in which they are opened, whatever the
transport underneath calls them, and everything it takes or hands over on one is noted
under its number. What is asked of a SASL exchange is said of the journal: which frames
went out on a connection, and what came back.
-/

namespace Barnabas.Client

open Barnabas.Lib Barnabas.Core Barnabas.Lib.Act

/-- A frame that the transport took, or what it handed over. -/
inductive Traffic
  | wrote (frame : Frame)
  | read (incoming : Incoming)

/-- All that happened, and on which connection. -/
abbrev Journal := List (ℕ × Traffic)

/-- What happened on one connection. -/
def Journal.on (journal : Journal) (stream : ℕ) : List Traffic :=
  (journal.filter (·.1 = stream)).map (·.2)

/-- A world with a journal; `streams` has the transport's own names of the connections. -/
structure Journaled (ω : Type) where
  env : ω
  streams : List ℕ
  journal : Journal

namespace Journaled

variable {ω ε α : Type}

def start (env : ω) : Journaled ω := ⟨env, [], []⟩

/-- Run a step of the world underneath. -/
def step (f : ω → α × ω) (r : Journaled ω) : α × Journaled ω :=
  ((f r.env).1, { r with env := (f r.env).2 })

/-- Run an operation on a connection, and note what it did unless it failed. -/
def noting (m : ℕ → Act ω ε α) (note : α → Traffic) (stream : ℕ) : Act (Journaled ω) ε α := fun r =>
  match m (r.streams.getD stream 0) r.env with
  | (.ok a, env) => (.ok a, { r with env, journal := r.journal ++ [(stream, note a)] })
  | (.error e, env) => (.error e, { r with env })

end Journaled

/-- The same transport, with a journal. -/
def Transport.recording {ω : Type} (T : Transport ω) : Transport (Journaled ω) where
  codec := T.codec
  connect addr := fun r =>
    match T.connect addr r.env with
    | (.ok stream, env) => (.ok r.streams.length, { r with env, streams := r.streams ++ [stream] })
    | (.error e, env) => (.error e, { r with env })
  write stream frame := Journaled.noting (fun s => T.write s frame) (fun _ => .wrote frame) stream
  read := Journaled.noting T.read .read
  writeWithin timeout stream frame :=
    Journaled.noting (fun s => T.writeWithin timeout s frame) (fun _ => .wrote frame) stream
  readWithin timeout := Journaled.noting (T.readWithin timeout) .read
  sleep duration := fun r => { r with env := T.sleep duration r.env }
  now := Journaled.step T.now
  systemTime := Journaled.step T.systemTime
  pick := Journaled.step T.pick
  nonce := Journaled.step T.nonce

namespace Journal

theorem on_append (journal more : Journal) (stream : ℕ) :
    on (journal ++ more) stream = on journal stream ++ on more stream := by
  simp [on]

end Journal

/-! ### SASL -/

/-- One request, and the answer to it. -/
def Trip (req : Request) (body : Body) (traffic : List Traffic) : Prop :=
  ∃ frame : Frame, frame.request = req ∧
    traffic = [.wrote frame, .read (.frame (.ok frame.correlationId) body)]

/-- The round trips in which the broker accepts these credentials. With SCRAM it proves
that it knows them too. -/
inductive SaslExchange (codec : Codec) (credentials : Credentials) : List Traffic → Prop
  | plain {resp : SaslAuthenticateResponse} {traffic : List Traffic}
      (hmechanism : credentials.mechanism = .plain)
      (htrip : Trip (.saslAuthenticate (codec.plainMessage credentials)) (.saslAuthenticate resp) traffic)
      (hresp : resp.errorCode = 0) : SaslExchange codec credentials traffic
  | scram {nonce : String} {clientFinal : Bytes} {first last : SaslAuthenticateResponse}
      {opening closing : List Traffic}
      (hmechanism : credentials.mechanism ≠ .plain)
      (hopening : Trip (.saslAuthenticate (codec.scramStart credentials nonce)) (.saslAuthenticate first)
        opening)
      (hfirst : first.errorCode = 0)
      (hfinal : codec.scramClientFinal credentials nonce first.authBytes = .ok clientFinal)
      (hclosing : Trip (.saslAuthenticate clientFinal) (.saslAuthenticate last) closing)
      (hlast : last.errorCode = 0)
      (hverify : codec.scramVerify credentials nonce first.authBytes last.authBytes = .ok ()) :
      SaslExchange codec credentials (opening ++ closing)

/-- The whole of an authentication is among this: the broker accepts the mechanism, and
then the credentials. -/
def Authenticated (codec : Codec) (credentials : Credentials) (traffic : List Traffic) : Prop :=
  ∃ before shake resp exchange after, traffic = before ++ (shake ++ exchange) ++ after ∧
    Trip (.saslHandshake credentials.mechanism.asStr) (.saslHandshake resp) shake ∧
    resp.errorCode = 0 ∧ SaslExchange codec credentials exchange

/-- Once authenticated, a connection remains so. -/
theorem Authenticated.append {codec : Codec} {credentials : Credentials} {traffic : List Traffic}
    (h : Authenticated codec credentials traffic) (more : List Traffic) :
    Authenticated codec credentials (traffic ++ more) := by
  obtain ⟨before, shake, resp, exchange, after, htraffic, hshake, hresp, hexchange⟩ := h
  refine ⟨before, shake, resp, exchange, after ++ more, ?_, hshake, hresp, hexchange⟩
  rw [htraffic, List.append_assoc _ after more]

/-- Every request but those that open a connection went out on one that had authenticated
before, or that is exempt. -/
def Guarded (codec : Codec) (credentials : Credentials) (exempt : ℕ → Prop) (journal : Journal) :
    Prop :=
  ∀ before stream frame after, journal = before ++ (stream, .wrote frame) :: after →
    frame.request.isHandshake = false →
    exempt stream ∨ Authenticated codec credentials (Journal.on before stream)

/-! ### One connection -/

/-- How waiting for a peer shows in the journal: a write that succeeds is in it, and so is
what a read brings. -/
structure Patience.Noted {ω ε : Type} (P : Patience (Journaled ω) ε) : Prop where
  write : ∀ stream frame r,
    (∃ e r', P.write stream frame r = (.error e, r') ∧ r'.streams = r.streams ∧
        r'.journal = r.journal) ∨
      ∃ (a : Unit) (r' : _), P.write stream frame r = (.ok a, r') ∧ r'.streams = r.streams ∧
        r'.journal = r.journal ++ [(stream, .wrote frame)]
  read : ∀ stream r,
    (∃ e r', P.read stream r = (.error e, r') ∧ r'.streams = r.streams ∧ r'.journal = r.journal) ∨
      ∃ incoming r', P.read stream r = (.ok incoming, r') ∧ r'.streams = r.streams ∧
        r'.journal = r.journal ++ [(stream, .read incoming)]

/-- A frame that is accepted answers the oldest request in flight. -/
theorem Connection.nextResponse_eq_ok {conn conn' : Connection} {pending : Pending}
    {rest : List Pending} (hinFlight : conn.inFlight = pending :: rest) {header : Except String ℤ}
    {body : Body} {resp : PendingResponse}
    (h : nextResponse (.ok (header, body)) conn = (.ok resp, conn')) :
    header = .ok pending.correlationId ∧ resp.body = body := by
  simp only [nextResponse, bind_apply, get_apply, hinFlight] at h
  cases header with
  | error e => cases h
  | ok correlationId =>
      by_cases hid : correlationId = pending.correlationId
      · simp only [hid, ne_eq, not_true_eq_false, if_false, bind_apply, set_apply] at h
        cases h
        exact ⟨by rw [hid], rfl⟩
      · simp only [hid, ne_eq, not_false_eq_true, if_true] at h
        cases h

namespace Broker

variable {ω ε α : Type} (T : Transport ω)

theorem noting_cases {ε' : Type} (f : ε → ε') (m : ℕ → Act ω ε α) (note : α → Traffic) (stream : ℕ)
    (r : Journaled ω) :
    (∃ e r', mapError f (Journaled.noting m note stream) r = (.error e, r') ∧
        r'.streams = r.streams ∧ r'.journal = r.journal) ∨
      ∃ a r', mapError f (Journaled.noting m note stream) r = (.ok a, r') ∧
        r'.streams = r.streams ∧ r'.journal = r.journal ++ [(stream, note a)] := by
  rw [mapError_apply, Journaled.noting]
  rcases m (r.streams.getD stream 0) r.env with ⟨e | a, env⟩
  · exact .inl ⟨f e, _, rfl, rfl, rfl⟩
  · exact .inr ⟨a, _, rfl, rfl, rfl⟩

theorem noted_unhurried : T.recording.unhurried.Noted where
  write stream frame r := noting_cases Error.io (fun s => T.write s frame) (fun _ => .wrote frame) stream r
  read stream r := noting_cases Error.io T.read .read stream r

theorem noted_within (timeout : ℕ) : (T.recording.within timeout).Noted where
  write stream frame r := noting_cases (Option.map Error.io) (fun s => T.writeWithin timeout s frame)
    (fun _ => .wrote frame) stream r
  read stream r := noting_cases (Option.map Error.io) (T.readWithin timeout) .read stream r

/-- What was done on one connection: all that is new in the journal is on it, and what
was written is in `W`. -/
structure Notes (W : Frame → Prop) (l l' : Link (Journaled ω)) : Prop where
  stream : l'.broker.stream = l.broker.stream
  streams : l'.wire.env.streams = l.wire.env.streams
  journal : ∃ more : Journal, l'.wire.env.journal = l.wire.env.journal ++ more ∧
    ∀ e ∈ more, e.1 = l.broker.stream ∧ ∀ frame, e.2 = .wrote frame → W frame

theorem Notes.of_eq {W : Frame → Prop} {l l' : Link (Journaled ω)}
    (hstream : l'.broker.stream = l.broker.stream)
    (hstreams : l'.wire.env.streams = l.wire.env.streams)
    (hjournal : l'.wire.env.journal = l.wire.env.journal) : Notes W l l' :=
  ⟨hstream, hstreams, [], by simpa using hjournal, by simp⟩

instance {W : Frame → Prop} : IsPreorder (Link (Journaled ω)) (Notes W) where
  refl _ := .of_eq rfl rfl rfl
  trans l l' l'' h h' := by
    obtain ⟨hstream, hstreams, more, hmore, hnew⟩ := h
    obtain ⟨hstream', hstreams', more', hmore', hnew'⟩ := h'
    refine ⟨hstream'.trans hstream, hstreams'.trans hstreams, more ++ more', by rw [hmore', hmore, List.append_assoc], ?_⟩
    intro e he
    rcases List.mem_append.mp he with he | he
    · exact hnew e he
    · rw [← hstream]
      exact hnew' e he

variable {P : Patience (Journaled ω) ε} {W : Frame → Prop}

theorem permits_notes (hP : P.Noted) : Permits P (Notes W) W where
  conn _ _ := .of_eq rfl rfl rfl
  write l frame hframe := by
    rcases hP.write l.broker.stream frame l.wire.env with ⟨e, r', heq, hstreams, hjournal⟩ | ⟨_, r', heq, hstreams, hjournal⟩
    · rw [heq]
      exact .of_eq rfl hstreams hjournal
    · rw [heq]
      refine ⟨rfl, hstreams, [(l.broker.stream, .wrote frame)], hjournal, fun e he => ?_⟩
      rw [List.mem_singleton.mp he]
      refine ⟨rfl, fun frame' hframe' => ?_⟩
      cases hframe'
      exact hframe
  read l := by
    rcases hP.read l.broker.stream l.wire.env with
      ⟨e, r', heq, hstreams, hjournal⟩ | ⟨incoming, r', heq, hstreams, hjournal⟩
    · rw [heq]
      exact .of_eq rfl hstreams hjournal
    · rw [heq]
      refine ⟨rfl, hstreams, [(l.broker.stream, .read incoming)], hjournal, fun e he => ?_⟩
      rw [List.mem_singleton.mp he]
      exact ⟨rfl, fun frame hframe => by cases hframe⟩

/-- What is new on the connection of a link. -/
def Leaves (l l' : Link (Journaled ω)) (more : List Traffic) : Prop :=
  l'.broker.stream = l.broker.stream ∧
    Journal.on l'.wire.env.journal l.broker.stream =
      Journal.on l.wire.env.journal l.broker.stream ++ more

theorem Leaves.trans {l l' l'' : Link (Journaled ω)} {more more' : List Traffic}
    (h : Leaves l l' more) (h' : Leaves l' l'' more') : Leaves l l'' (more ++ more') := by
  refine ⟨h'.1.trans h.1, ?_⟩
  have hlater := h'.2
  rw [h.1] at hlater
  rw [hlater, h.2, List.append_assoc]

theorem Leaves.one {l l' : Link (Journaled ω)} (hstream : l'.broker.stream = l.broker.stream)
    {traffic : Traffic}
    (hjournal : l'.wire.env.journal = l.wire.env.journal ++ [(l.broker.stream, traffic)]) :
    Leaves l l' [traffic] := by
  refine ⟨hstream, ?_⟩
  rw [hjournal, Journal.on_append]
  congr 1
  simp [Journal.on]

/-- A request that was written. -/
theorem send_leaves (hP : P.Noted) {version : ℤ} {req : Request} {l l' : Link (Journaled ω)}
    (h : send T.recording P version req l = (.ok (), l')) :
    ∃ frame : Frame, frame.request = req ∧ Leaves l l' [.wrote frame] ∧
      ∃ key version', l'.broker.conn.inFlight =
        l.broker.conn.inFlight ++ [⟨key, version', frame.correlationId⟩] := by
  rw [send, bind_of_ok (get_apply l)] at h
  obtain ⟨frame, l₁, hrequest, h⟩ := bind_eq_ok h
  rw [bind_of_ok (modify_apply _ _)] at h
  rw [onConn, mapError_apply, zoom_apply] at hrequest
  rcases hencoded : Connection.request T.recording.codec (l.broker.negotiated req.apiKey version) req
    l.broker.conn with ⟨e | frame', conn⟩
  · rw [hencoded] at hrequest
    cases hrequest
  · rw [hencoded] at hrequest
    cases hrequest
    obtain ⟨rfl, rfl⟩ := Connection.request_eq_ok hencoded
    rw [onEnv, zoom_apply] at h
    dsimp only at h
    rcases hP.write l.broker.stream _ l.wire.env with ⟨e, r', heq, -, hjournal⟩ | ⟨_, r', heq, -, hjournal⟩
    · rw [heq] at h
      cases h
    · rw [heq] at h
      cases h
      refine ⟨⟨l.broker.negotiated req.apiKey version, wrap 32 (l.broker.conn.nextCorrelationId + 1),
        l.broker.conn.clientId, req⟩, rfl, ?_, req.apiKey, _, rfl⟩
      apply Leaves.one
      · rfl
      · exact hjournal

/-- An answer that was read belongs to the oldest request in flight. -/
theorem recv_leaves (hP : P.Noted) {as : Body → Option α} {message : α} {l l' : Link (Journaled ω)}
    {pending : Pending} {rest : List Pending} (hinFlight : l.broker.conn.inFlight = pending :: rest)
    (h : recv P as l = (.ok message, l')) :
    ∃ body, as body = some message ∧
      Leaves l l' [.read (.frame (.ok pending.correlationId) body)] := by
  rw [recv, bind_of_ok (get_apply l)] at h
  obtain ⟨incoming, l₁, hread, h⟩ := bind_eq_ok h
  rw [onEnv, zoom_apply] at hread
  rcases hP.read l.broker.stream l.wire.env with ⟨e, r', heq, -, hjournal⟩ | ⟨incoming', r', heq, -, hjournal⟩
  · rw [heq] at hread
    cases hread
  · rw [heq] at hread
    cases hread
    cases incoming with
    | closed => cases h
    | tooLarge len =>
        obtain ⟨resp, l₂, hnext, -⟩ := bind_eq_ok h
        cases hnext
    | frame header body =>
        obtain ⟨resp, l₂, hnext, hdecode⟩ := bind_eq_ok h
        rw [onConn, mapError_apply, zoom_apply] at hnext
        rcases hmatched : Connection.nextResponse (.ok (header, body)) l.broker.conn with ⟨e | resp', conn⟩
        · rw [hmatched] at hnext
          cases hnext
        · rw [hmatched] at hnext
          cases hnext
          obtain ⟨rfl, hbody⟩ := Connection.nextResponse_eq_ok hinFlight hmatched
          rw [onConn, mapError_apply, zoom_apply, ofExcept_apply, Connection.decode, hbody] at hdecode
          rcases hmessage : as body with _ | message'
          · rw [hmessage] at hdecode
            cases hdecode
          · rw [hmessage] at hdecode
            cases hdecode
            refine ⟨body, hmessage, ?_⟩
            apply Leaves.one
            · rfl
            · exact hjournal

/-- A call that was answered. -/
theorem call_leaves (hP : P.Noted) {as : Body → Option α} {version : ℤ} {req : Request} {message : α}
    {l l' : Link (Journaled ω)} (h : call T.recording P as version req l = (.ok message, l')) :
    ∃ body traffic, as body = some message ∧ Trip req body traffic ∧ Leaves l l' traffic := by
  rw [call, bind_of_ok (get_apply l)] at h
  split at h
  · cases h
  · next hidle =>
      have hempty : l.broker.conn.inFlight = [] :=
        List.length_eq_zero_iff.mp (Decidable.not_not.mp hidle)
      obtain ⟨_, l₁, hsend, hrecv⟩ := bind_eq_ok h
      obtain ⟨frame, hrequest, hwrote, key, version', hinFlight⟩ := send_leaves T hP hsend
      rw [hempty, List.nil_append] at hinFlight
      obtain ⟨body, hbody, hread⟩ := recv_leaves hP hinFlight hrecv
      exact ⟨body, _, hbody, ⟨frame, hrequest, rfl⟩, hwrote.trans hread⟩

theorem saslExchange_leaves {bytes answer : Bytes} {l l' : Link (Journaled ω)}
    (h : saslExchange T.recording bytes l = (.ok answer, l')) :
    ∃ resp traffic, resp.errorCode = 0 ∧ resp.authBytes = answer ∧
      Trip (.saslAuthenticate bytes) (.saslAuthenticate resp) traffic ∧ Leaves l l' traffic := by
  obtain ⟨resp, l₁, hcall, h⟩ := bind_eq_ok h
  obtain ⟨body, traffic, hbody, htrip, hleaves⟩ := call_leaves T (noted_unhurried T) hcall
  split at h
  · cases h
  · next hcode =>
      cases h
      cases body with
      | saslAuthenticate resp' =>
          cases hbody
          exact ⟨resp, traffic, Decidable.not_not.mp hcode, rfl, htrip, hleaves⟩
      | _ => cases hbody

theorem exchange_leaves {credentials : Credentials} {l l' : Link (Journaled ω)}
    (h : exchange T.recording credentials l = (.ok (), l')) :
    ∃ traffic, SaslExchange T.codec credentials traffic ∧ Leaves l l' traffic := by
  by_cases hmechanism : credentials.mechanism = .plain
  · rw [exchange, hmechanism] at h
    obtain ⟨answer, l₁, hexchange, h⟩ := bind_eq_ok h
    obtain ⟨resp, traffic, hresp, -, htrip, hleaves⟩ := saslExchange_leaves T hexchange
    cases h
    exact ⟨traffic, .plain hmechanism htrip hresp, hleaves⟩
  · have hcodec : T.recording.codec = T.codec := rfl
    rw [exchange_scram T.recording hmechanism, hcodec] at h
    obtain ⟨nonce, l₁, hnonce, h⟩ := bind_eq_ok h
    obtain ⟨serverFirst, l₂, hopening, h⟩ := bind_eq_ok h
    obtain ⟨first, opening, hfirst, rfl, hopen, hleaves⟩ := saslExchange_leaves T hopening
    rcases hfinal : T.codec.scramClientFinal credentials nonce first.authBytes with e | clientFinal
    · rw [hfinal] at h
      cases h
    · rw [hfinal] at h
      obtain ⟨serverFinal, l₃, hclosing, h⟩ := bind_eq_ok h
      obtain ⟨last, closing, hlast, rfl, hclose, hleaves'⟩ := saslExchange_leaves T hclosing
      rcases hverify : T.codec.scramVerify credentials nonce first.authBytes last.authBytes with e | _
      · rw [hverify] at h
        cases h
      · rw [hverify] at h
        cases h
        cases hnonce
        exact ⟨opening ++ closing, .scram hmechanism hopen hfirst hfinal hclose hlast hverify,
          Leaves.trans hleaves hleaves'⟩

/-- A connection that could be opened with credentials has authenticated. -/
theorem handshake_authenticates {clientId : String} {credentials : Credentials}
    {l l' : Link (Journaled ω)}
    (h : handshake T.recording clientId (some credentials) l = (.ok (), l')) :
    l'.broker.stream = l.broker.stream ∧
      Authenticated T.codec credentials (Journal.on l'.wire.env.journal l.broker.stream) := by
  obtain ⟨resp, l₁, hversions, h⟩ := bind_eq_ok h
  obtain ⟨-, asked, -, -, hasked⟩ := call_leaves T (noted_unhurried T) hversions
  obtain ⟨_, l₂, hcheck, h⟩ := bind_eq_ok h
  cases (Prod.mk.inj hcheck).2
  rw [bind_of_ok (modify_apply _ _)] at h
  obtain ⟨resp', l₃, hmechanism, h⟩ := bind_eq_ok h
  obtain ⟨body, shake, hbody, hshake, hshaken⟩ := call_leaves T (noted_unhurried T) hmechanism
  split at h
  · cases h
  · next hcode =>
      obtain ⟨traffic, hexchange, hexchanged⟩ := exchange_leaves T h
      cases body with
      | saslHandshake resp'' =>
          cases hbody
          have hleaves : Leaves l₁ l' (shake ++ traffic) := Leaves.trans hshaken hexchanged
          have hall := hasked.trans hleaves
          refine ⟨hall.1, Journal.on l.wire.env.journal l.broker.stream ++ asked, shake, resp', traffic,
            [], ?_, hshake, Decidable.not_not.mp hcode, hexchange⟩
          rw [hall.2, List.append_nil, List.append_assoc]
      | _ => cases hbody

/-- What opening a connection leaves behind: the new one has a number of its own, only
what opens connections was written, and with credentials the new one has authenticated. -/
structure Opens (codec : Codec) (credentials : Option Credentials) (wire wire' : Wire (Journaled ω))
    (outcome : Except Error Broker) : Prop where
  streams : wire.env.streams.length ≤ wire'.env.streams.length
  journal : ∃ more : Journal, wire'.env.journal = wire.env.journal ++ more ∧
    ∀ e ∈ more, ∀ frame, e.2 = .wrote frame → frame.request.isHandshake
  numbered : ∀ b, outcome = .ok b →
    wire.env.streams.length ≤ b.stream ∧ b.stream < wire'.env.streams.length
  authenticated : ∀ b given, outcome = .ok b → credentials = some given →
    Authenticated codec given (Journal.on wire'.env.journal b.stream)

theorem connect_opens (addr clientId : String) (credentials : Option Credentials)
    {wire wire' : Wire (Journaled ω)} {outcome : Except Error Broker}
    (h : connect T.recording addr clientId credentials wire = (outcome, wire')) :
    Opens T.codec credentials wire wire' outcome := by
  rw [connect] at h
  rcases hopen : T.connect addr wire.env.env with ⟨e | stream, env⟩
  · have hfails : Act.mapError (Error.connect addr) (Act.zoom (·.env) (fun wire env => { wire with env })
        (T.recording.connect addr)) wire =
          (.error (.connect addr e), { wire with env := { wire.env with env } }) := by
      rw [mapError_apply, zoom_apply]
      simp only [Transport.recording, hopen]
      rfl
    rw [bind_of_error hfails] at h
    cases h
    exact ⟨le_rfl, ⟨[], by simp, by simp⟩, by simp, by simp⟩
  · let wire₁ : Wire (Journaled ω) :=
      { wire with env := { wire.env with env, streams := wire.env.streams ++ [stream] } }
    have hopens : Act.mapError (Error.connect addr) (Act.zoom (·.env) (fun wire env => { wire with env })
        (T.recording.connect addr)) wire = (.ok wire.env.streams.length, wire₁) := by
      rw [mapError_apply, zoom_apply]
      simp only [Transport.recording, hopen]
      rfl
    let l : Link (Journaled ω) := ⟨wire₁, ⟨wire.env.streams.length, .new clientId, ∅⟩⟩
    have hnotes : Notes (fun frame => frame.request.isHandshake) l
        (handshake T.recording clientId credentials l).2 :=
      (permits_notes (noted_unhurried T)).handshake T.recording (fun _ h => h)
        (fun _ => .of_eq rfl rfl rfl) (fun _ _ => .of_eq rfl rfl rfl) clientId credentials l
    rw [bind_of_ok hopens, bind_of_ok (get_apply wire₁)] at h
    rcases hshake : handshake T.recording clientId credentials l with ⟨failed, l'⟩
    rw [hshake] at hnotes
    obtain ⟨hstream, hstreams, more, hmore, hnew⟩ := hnotes
    have hlength : l'.wire.env.streams.length = wire.env.streams.length + 1 := by
      rw [hstreams, List.length_append, List.length_singleton]
    have hgrown : wire.env.streams.length ≤ l'.wire.env.streams.length := by omega
    have hnumber : wire.env.streams.length < l'.wire.env.streams.length := by omega
    have hshake' : handshake T.recording clientId credentials
        ⟨wire₁, ⟨wire.env.streams.length, .new clientId, ∅⟩⟩ = (failed, l') := hshake
    rw [hshake'] at h
    cases failed with
    | error e =>
        cases h
        exact ⟨hgrown, ⟨more, hmore, fun e he => (hnew e he).2⟩, by simp, by simp⟩
    | ok _ =>
        cases h
        refine ⟨hgrown, ⟨more, hmore, fun e he => (hnew e he).2⟩, fun b hb => ?_,
          fun b given hb hgiven => ?_⟩
        · cases hb
          rw [hstream]
          exact ⟨le_rfl, hnumber⟩
        · cases hb
          rw [hgiven] at hshake
          rw [hstream]
          exact (handshake_authenticates T hshake).2

end Broker

end Barnabas.Client
