import Barnabas.Client.Link

/-!
Peers that keep in step.

A broker answers the requests of a connection in the order they were sent. For a
transport whose peers do, this module relates what the client believes to be in
flight on each pooled connection to what the stream behind it still owes: every
request the stream owes is in flight, in the same order. What is in flight beyond
that was never written. Connections may be lost at any time and in any way.
-/

namespace Barnabas.Client

open Barnabas.Lib Barnabas.Core Barnabas.Lib.Act

/-! ### The transport -/

/-- The streams that are open, and the correlation ids each has still to answer. -/
structure Debts where
  opened : ℕ → Prop
  owed : ℕ → List ℤ

/-- An operation on one stream leaves the others alone. -/
structure Debts.Beside (stream : ℕ) (d d' : Debts) : Prop where
  opened : d'.opened = d.opened
  owed : ∀ s ≠ stream, d'.owed s = d.owed s

theorem Debts.Beside.refl (stream : ℕ) (d : Debts) : Debts.Beside stream d d :=
  ⟨rfl, fun _ _ => rfl⟩

theorem Debts.Beside.trans {stream : ℕ} {d d' d'' : Debts} (h : Debts.Beside stream d d')
    (h' : Debts.Beside stream d' d'') : Debts.Beside stream d d'' :=
  ⟨h'.opened.trans h.opened, fun s hs => (h'.owed s hs).trans (h.owed s hs)⟩

variable {ω ε α : Type}

/-- A write: what went through is owed an answer. -/
def Debts.Posts (debts : ω → Debts) (stream : ℕ) (frame : Frame) (m : Act ω ε Unit) : Prop :=
  ∀ env, Debts.Beside stream (debts env) (debts (m env).2) ∧
    ((m env).1 = .ok () →
      (debts (m env).2).owed stream = (debts env).owed stream ++ [frame.correlationId])

/-- A read: the connection is closed, or the answer to the oldest request arrives. -/
def Debts.Delivers (debts : ω → Debts) (stream : ℕ) (m : Act ω ε Incoming) : Prop :=
  ∀ env, Debts.Beside stream (debts env) (debts (m env).2) ∧
    ∀ incoming, (m env).1 = .ok incoming → incoming = .closed ∨
      ∃ id body, incoming = .frame (.ok id) body ∧
        (debts env).owed stream = id :: (debts (m env).2).owed stream

/-- The peers answer in order, each request at most once, with a header that can be
read and within the limit on frames. A new connection is a new stream. -/
structure Transport.InStep (T : Transport ω) (debts : ω → Debts) : Prop where
  connect : ∀ addr env stream, (T.connect addr env).1 = .ok stream →
    ¬(debts env).opened stream ∧
      debts (T.connect addr env).2 =
        ⟨fun s => s = stream ∨ (debts env).opened s, Function.update (debts env).owed stream []⟩
  unconnected : ∀ addr env e, (T.connect addr env).1 = .error e →
    debts (T.connect addr env).2 = debts env
  write : ∀ stream frame, Debts.Posts debts stream frame (T.write stream frame)
  read : ∀ stream, Debts.Delivers debts stream (T.read stream)
  writeWithin : ∀ timeout stream frame,
    Debts.Posts debts stream frame (T.writeWithin timeout stream frame)
  readWithin : ∀ timeout stream, Debts.Delivers debts stream (T.readWithin timeout stream)
  sleep : ∀ duration env, debts (T.sleep duration env) = debts env
  now : ∀ env, debts (T.now env).2 = debts env
  systemTime : ∀ env, debts (T.systemTime env).2 = debts env
  pick : ∀ env, debts (T.pick env).2 = debts env
  nonce : ∀ env, debts (T.nonce env).2 = debts env

/-- A wait for such peers; `Lost` are the errors that come from the network and not
from what was received. -/
structure Patience.InStep (P : Patience ω ε) (debts : ω → Debts) (Lost : ε → Prop) : Prop where
  write : ∀ stream frame, Debts.Posts debts stream frame (P.write stream frame)
  read : ∀ stream, Debts.Delivers debts stream (P.read stream)
  writeLost : ∀ stream frame env e, (P.write stream frame env).1 = .error e → Lost e
  readLost : ∀ stream env e, (P.read stream env).1 = .error e → Lost e
  io : ∀ e, Lost (P.fail e) ↔ ∃ io, e = .io io

theorem Patience.InStep.not_lost_core {P : Patience ω ε} {debts : ω → Debts} {Lost : ε → Prop}
    (h : P.InStep debts Lost) (e : Core.Error) : ¬Lost (P.fail (.core e)) := by
  rw [h.io]
  rintro ⟨io, hio⟩
  cases hio

theorem Debts.Posts.mapError {debts : ω → Debts} {stream : ℕ} {frame : Frame} {m : Act ω ε Unit}
    (h : Debts.Posts debts stream frame m) {ε' : Type} (f : ε → ε') :
    Debts.Posts debts stream frame (mapError f m) := by
  intro env
  rw [mapError_apply]
  refine ⟨(h env).1, fun hok => (h env).2 ?_⟩
  cases hm : (m env).1 with
  | ok _ => rfl
  | error e =>
      rw [hm] at hok
      cases hok

theorem Debts.Delivers.mapError {debts : ω → Debts} {stream : ℕ} {m : Act ω ε Incoming}
    (h : Debts.Delivers debts stream m) {ε' : Type} (f : ε → ε') :
    Debts.Delivers debts stream (mapError f m) := by
  intro env
  rw [mapError_apply]
  refine ⟨(h env).1, fun incoming hok => (h env).2 incoming ?_⟩
  cases hm : (m env).1 with
  | ok _ =>
      rw [hm] at hok
      cases hok
      rfl
  | error e =>
      rw [hm] at hok
      cases hok

/-- An error after `mapError` is the image of one before. -/
theorem mapError_fst_eq_error {ε' σ : Type} {m : Act σ ε α} {f : ε → ε'} {s : σ} {e : ε'}
    (h : (mapError f m s).1 = .error e) : ∃ e', e = f e' := by
  rw [mapError_apply] at h
  cases hm : (m s).1 with
  | ok a =>
      rw [hm] at h
      cases h
  | error e' =>
      rw [hm] at h
      cases h
      exact ⟨e', rfl⟩

namespace Transport.InStep

open World (LostWithin LostUnhurried)

variable {T : Transport ω} {debts : ω → Debts} (h : T.InStep debts)

include h

theorem unhurried : T.unhurried.InStep debts LostUnhurried where
  write stream frame := (h.write stream frame).mapError _
  read stream := (h.read stream).mapError _
  writeLost stream frame env e he := by
    obtain ⟨e', rfl⟩ := mapError_fst_eq_error he
    exact ⟨e', rfl⟩
  readLost stream env e he := by
    obtain ⟨e', rfl⟩ := mapError_fst_eq_error he
    exact ⟨e', rfl⟩
  io _ := Iff.rfl

theorem within (timeout : ℕ) : (T.within timeout).InStep debts LostWithin := by
  have hlost : ∀ e : Option IoError, LostWithin (e.map Error.io) := by
    intro e
    cases e with
    | none => exact .inl rfl
    | some e => exact .inr ⟨e, rfl⟩
  refine ⟨fun stream frame => (h.writeWithin timeout stream frame).mapError _,
    fun stream => (h.readWithin timeout stream).mapError _, fun stream frame env e he => ?_,
    fun stream env e he => ?_, fun e => ⟨?_, ?_⟩⟩
  · obtain ⟨e', rfl⟩ := mapError_fst_eq_error he
    exact hlost e'
  · obtain ⟨e', rfl⟩ := mapError_fst_eq_error he
    exact hlost e'
  · rintro (hnone | ⟨io, hio⟩)
    · cases hnone
    · cases hio
      exact ⟨io, rfl⟩
  · rintro ⟨io, rfl⟩
    exact .inr ⟨io, rfl⟩

end Transport.InStep

/-! ### One connection -/

namespace Broker

variable {T : Transport ω} {debts : ω → Debts} {P : Patience ω ε} {Lost : ε → Prop}

/-- What the stream behind a connection owes. -/
def dues (debts : ω → Debts) (l : Link ω) : List ℤ := (debts l.wire.env).owed l.broker.stream

/-- Everything the stream owes is in flight, in the same order. -/
def Listed (debts : ω → Debts) (l : Link ω) : Prop :=
  (dues debts l).Sublist (l.broker.conn.inFlight.map (·.correlationId))

/-- An operation on a connection stays with its stream. -/
structure OnStream (debts : ω → Debts) (l l' : Link ω) : Prop where
  stream : l'.broker.stream = l.broker.stream
  beside : Debts.Beside l.broker.stream (debts l.wire.env) (debts l'.wire.env)

instance : IsPreorder (Link ω) (OnStream debts) where
  refl l := ⟨rfl, .refl _ _⟩
  trans _ _ _ h h' := ⟨h'.stream.trans h.stream, h.beside.trans (h.stream ▸ h'.beside)⟩

theorem permits_onStream (hP : P.InStep debts Lost) :
    Permits P (OnStream debts) fun _ => True where
  conn _ _ := ⟨rfl, .refl _ _⟩
  write l frame _ := ⟨rfl, (hP.write l.broker.stream frame l.wire.env).1⟩
  read l := ⟨rfl, (hP.read l.broker.stream l.wire.env).1⟩

/-- A request is encoded and recorded, or refused: then it is recorded or it is not. -/
theorem request_flight (codec : Codec) (version : ℤ) (req : Request) (conn : Connection) :
    (∃ (f : Frame) (conn' : Connection), Connection.request codec version req conn = (.ok f, conn') ∧
        conn'.inFlight.map (·.correlationId) =
          conn.inFlight.map (·.correlationId) ++ [f.correlationId]) ∨
      ∃ e conn', Connection.request codec version req conn = (.error e, conn') ∧
        (conn.inFlight.map (·.correlationId)).Sublist (conn'.inFlight.map (·.correlationId)) := by
  rcases hrequest : Connection.request codec version req conn with ⟨e | f, conn'⟩
  · refine .inr ⟨e, conn', rfl, ?_⟩
    simp only [Connection.request, bind_apply, get_apply, set_apply] at hrequest
    rcases hheader : codec.encodeHeader
        ⟨version, wrap 32 (conn.nextCorrelationId + 1), conn.clientId, req⟩ with _ | header
    · rw [hheader] at hrequest
      cases hrequest
      exact List.Sublist.refl _
    · rcases hbody : codec.encodeBody
          ⟨version, wrap 32 (conn.nextCorrelationId + 1), conn.clientId, req⟩ with _ | body
      · rw [hheader, hbody] at hrequest
        cases hrequest
        exact List.Sublist.refl _
      · rw [hheader, hbody] at hrequest
        simp only [bind_apply, modify_apply] at hrequest
        by_cases hlen : i32Max < (header : ℤ) + body
        · rw [if_pos hlen] at hrequest
          cases hrequest
          simp
        · rw [if_neg hlen] at hrequest
          cases hrequest
  · obtain ⟨rfl, rfl⟩ := Connection.request_eq_ok hrequest
    exact .inl ⟨_, _, rfl, by simp⟩

/-- A request goes out and is owed an answer, or it cannot be encoded and the stream
stays as it is, or the connection is lost. -/
theorem send_listed (hP : P.InStep debts Lost) (version : ℤ) (req : Request) {l : Link ω}
    (hl : Listed debts l) :
    Post (fun _ l' => Listed debts l' ∧ (dues debts l').length = (dues debts l).length + 1)
      (fun e l' => Lost e ∨ (¬Lost e ∧ Listed debts l' ∧ dues debts l' = dues debts l))
      (send T P version req l) := by
  rw [send, bind_of_ok (get_apply l)]
  dsimp only
  rcases request_flight T.codec (l.broker.negotiated req.apiKey version) req l.broker.conn with
    ⟨f, conn, hrequest, hflight⟩ | ⟨e, conn, hrequest, hflight⟩
  · have honConn : onConn P (Connection.request T.codec
        (l.broker.negotiated req.apiKey version) req) l =
          (.ok f, { l with broker := { l.broker with conn } }) := by
      rw [onConn, mapError_apply, zoom_apply, hrequest]
      rfl
    rw [bind_of_ok honConn, bind_of_ok (modify_apply _ _), onEnv, zoom_apply]
    have hpost := (hP.write l.broker.stream f l.wire.env).2
    have hlost := hP.writeLost l.broker.stream f l.wire.env
    rcases hwrite : P.write l.broker.stream f l.wire.env with ⟨e | _, env⟩
    · rw [hwrite] at hlost
      exact .inl (hlost e rfl)
    · rw [hwrite] at hpost
      have hdues : dues debts ⟨⟨env, l.wire.sent ++ [f]⟩, { l.broker with conn }⟩ =
          dues debts l ++ [f.correlationId] := hpost rfl
      refine ⟨?_, ?_⟩
      · change (dues debts ⟨⟨env, l.wire.sent ++ [f]⟩, { l.broker with conn }⟩).Sublist _
        rw [hdues, hflight]
        exact hl.append_right _
      · change (dues debts ⟨⟨env, l.wire.sent ++ [f]⟩, { l.broker with conn }⟩).length = _
        rw [hdues, List.length_append, List.length_singleton]
  · have honConn : onConn P (Connection.request T.codec
        (l.broker.negotiated req.apiKey version) req) l =
          (.error (P.fail (.core e)), { l with broker := { l.broker with conn } }) := by
      rw [onConn, mapError_apply, zoom_apply, hrequest]
      rfl
    rw [bind_of_error honConn]
    exact .inr ⟨hP.not_lost_core e, hl.trans hflight, rfl⟩

/-- The answer to the oldest request arrives, whether or not it can be used, or the
connection is lost. -/
theorem recv_listed (hP : P.InStep debts Lost) (as : Body → Option α) {l : Link ω}
    (hl : Listed debts l) :
    Post (fun _ l' => Listed debts l' ∧ (dues debts l).length = (dues debts l').length + 1)
      (fun e l' => Lost e ∨
        (¬Lost e ∧ Listed debts l' ∧ (dues debts l).length = (dues debts l').length + 1))
      (recv P as l) := by
  rw [recv, bind_of_ok (get_apply l)]
  have hdelivers := (hP.read l.broker.stream l.wire.env).2
  have hlost := hP.readLost l.broker.stream l.wire.env
  rcases hread : P.read l.broker.stream l.wire.env with ⟨e | incoming, env⟩
  · have honEnv : (onEnv (P.read l.broker.stream) : Act (Link ω) ε Incoming) l =
        (.error e, { l with wire := { l.wire with env } }) := by
      rw [onEnv, zoom_apply, hread]
    rw [bind_of_error honEnv]
    rw [hread] at hlost
    exact .inl (hlost e rfl)
  · let l₁ : Link ω := { l with wire := { l.wire with env } }
    have honEnv : (onEnv (P.read l.broker.stream) : Act (Link ω) ε Incoming) l =
        (.ok incoming, l₁) := by
      rw [onEnv, zoom_apply, hread]
    rw [bind_of_ok honEnv]
    rw [hread] at hdelivers
    rcases hdelivers incoming rfl with rfl | ⟨id, body, rfl, howed⟩
    · exact .inl ((hP.io _).mpr ⟨_, rfl⟩)
    · have hdues : dues debts l = id :: dues debts l₁ := howed
      have hlisted : (id :: dues debts l₁).Sublist (l.broker.conn.inFlight.map (·.correlationId)) :=
        hdues ▸ hl
      have hlength : (dues debts l).length = (dues debts l₁).length + 1 := by
        rw [hdues, List.length_cons]
      rcases hinFlight : l.broker.conn.inFlight with _ | ⟨pending, rest⟩
      · rw [hinFlight] at hlisted
        cases hlisted
      · rw [hinFlight, List.map_cons] at hlisted
        by_cases hid : id = pending.correlationId
        · -- the request is taken out of flight, and its answer may still not decode
          have hnext : onConn P (Connection.nextResponse (.ok (.ok id, body))) l₁ =
              (.ok ⟨pending.apiKey, pending.version, id, body⟩,
                { l₁ with broker := { l.broker with
                  conn := { l.broker.conn with inFlight := rest } } }) := by
            simp [onConn, Connection.nextResponse, bind_apply, hinFlight, hid, Except.mapError, l₁]
          have hrest : Listed debts { l₁ with broker := { l.broker with
              conn := { l.broker.conn with inFlight := rest } } } := by
            subst hid
            exact hlisted.of_cons_cons
          dsimp only
          rw [bind_of_ok hnext, onConn, mapError_apply, zoom_apply, ofExcept_apply]
          rcases Connection.decode as ⟨pending.apiKey, pending.version, id, body⟩ with e | message
          · exact .inr ⟨hP.not_lost_core e, hrest, hlength⟩
          · exact ⟨hrest, hlength⟩
        · have hnext : onConn P (Connection.nextResponse (.ok (.ok id, body))) l₁ =
              (.error (P.fail (.core (.correlation id pending.correlationId))), l₁) := by
            simp [onConn, Connection.nextResponse, bind_apply, hinFlight, hid, Except.mapError, l₁]
          dsimp only
          rw [bind_of_error hnext]
          refine .inr ⟨hP.not_lost_core _, ?_, hlength⟩
          change (dues debts l₁).Sublist (l.broker.conn.inFlight.map (·.correlationId))
          rw [hinFlight, List.map_cons]
          exact (List.sublist_cons_self id _).trans hlisted

/-- A call leaves what the stream owes as it was, or the connection is lost. It is
only lost if nothing was in flight on it. -/
theorem call_listed (hP : P.InStep debts Lost) (as : Body → Option α) (version : ℤ) (req : Request)
    {l : Link ω} (hl : Listed debts l) :
    Post (fun _ l' => Listed debts l' ∧ (dues debts l').length = (dues debts l).length)
      (fun e l' => (Lost e ∧ dues debts l = []) ∨
        (¬Lost e ∧ Listed debts l' ∧ (dues debts l').length = (dues debts l).length))
      (call T P as version req l) := by
  rw [call, bind_of_ok (get_apply l)]
  by_cases hbusy : l.broker.conn.inFlight.length ≠ 0
  · rw [if_pos hbusy]
    refine .inr ⟨?_, hl, rfl⟩
    rw [hP.io]
    rintro ⟨io, hio⟩
    cases hio
  · rw [if_neg hbusy]
    have hidle : dues debts l = [] := by
      rw [not_not, List.length_eq_zero_iff] at hbusy
      rw [Listed, hbusy] at hl
      exact List.sublist_nil.mp hl
    have hsend := send_listed (T := T) hP version req hl
    rcases hsent : send T P version req l with ⟨e | _, l₁⟩
    · rw [bind_of_error hsent]
      rw [hsent] at hsend
      rcases hsend with hlost | ⟨hkept, hlisted, hdues⟩
      · exact .inl ⟨hlost, hidle⟩
      · exact .inr ⟨hkept, hlisted, congrArg List.length hdues⟩
    · rw [bind_of_ok hsent]
      rw [hsent] at hsend
      have hrecv := recv_listed hP as hsend.1
      rcases hreceived : recv P as l₁ with ⟨e | message, l₂⟩
      · rw [hreceived] at hrecv
        rcases hrecv with hlost | ⟨hkept, hlisted, hlength⟩
        · exact .inl ⟨hlost, hidle⟩
        · exact .inr ⟨hkept, hlisted, by have := hsend.2; omega⟩
      · rw [hreceived] at hrecv
        exact ⟨hrecv.1, by have := hsend.2; have := hrecv.2; omega⟩

/-- A connection with nothing owed to it. -/
def Square (debts : ω → Debts) (l : Link ω) : Prop := Listed debts l ∧ dues debts l = []

theorem survives_square (hT : T.InStep debts) : Survives T (Square debts) where
  call as version req l hl := by
    have hcall := call_listed (T := T) hT.unhurried as version req hl.1
    rcases hcalled : call T T.unhurried as version req l with ⟨e | message, l'⟩
    · trivial
    · rw [hcalled] at hcall
      refine ⟨hcall.1, List.length_eq_zero_iff.mp ?_⟩
      rw [hcall.2, hl.2, List.length_nil]
  nonce l hl := by
    rw [Square, Listed, dues, hT.nonce]
    exact hl
  versions _ _ hl := hl

/-- The world after something was tried on a stream that was not open before. -/
structure Grows (d d' : Debts) : Prop where
  opened : ∀ s, d.opened s → d'.opened s
  owed : ∀ s, d.opened s → d'.owed s = d.owed s

theorem Grows.of_eq {d d' : Debts} (h : d' = d) : Grows d d' := by
  subst h
  exact ⟨fun _ => id, fun _ _ => rfl⟩

/-- A connection that was opened is square, on a stream of its own; an attempt that
failed leaves the streams alone that were open before. -/
theorem connect_square (hT : T.InStep debts) (addr clientId : String)
    (credentials : Option Credentials) (wire : Wire ω) :
    Grows (debts wire.env) (debts (connect T addr clientId credentials wire).2.env) ∧
      ∀ b, (connect T addr clientId credentials wire).1 = .ok b →
        ¬(debts wire.env).opened b.stream ∧
          (debts (connect T addr clientId credentials wire).2.env).opened b.stream ∧
          Square debts ⟨(connect T addr clientId credentials wire).2, b⟩ := by
  have hstream : Act.mapError (Error.connect addr) (Act.zoom (·.env) (fun wire env => { wire with env })
      (T.connect addr)) wire = ((T.connect addr wire.env).1.mapError (Error.connect addr),
        { wire with env := (T.connect addr wire.env).2 }) := by
    rw [mapError_apply, zoom_apply]
  have hopen := hT.connect addr wire.env
  have hfail := hT.unconnected addr wire.env
  rcases hconnect : T.connect addr wire.env with ⟨e | stream, env⟩
  · rw [hconnect] at hstream hfail
    rw [connect, bind_of_error hstream]
    exact ⟨.of_eq (hfail e rfl), fun b hb => by cases hb⟩
  · rw [hconnect] at hstream hopen
    obtain ⟨hnew, hdebts⟩ := hopen stream rfl
    rw [connect, bind_of_ok hstream, bind_of_ok (get_apply _)]
    dsimp only
    let l : Link ω := ⟨⟨env, wire.sent⟩, ⟨stream, .new clientId, ∅⟩⟩
    have hdues : dues debts l = [] := by
      change (debts env).owed stream = []
      rw [hdebts]
      exact Function.update_self ..
    have hsquare : Square debts l := by
      refine ⟨?_, hdues⟩
      rw [Listed, hdues]
      exact List.nil_sublist _
    have honStream := (permits_onStream hT.unhurried).handshake T (fun _ _ => trivial)
      (fun l => ⟨rfl, by rw [hT.nonce]; exact .refl _ _⟩) (fun _ _ => ⟨rfl, .refl _ _⟩)
      clientId credentials l
    have htriple := (survives_square hT).handshake clientId credentials l hsquare
    change Grows _ (debts ((set (handshake T clientId credentials l).2.wire >>= _ :
      Act (Wire ω) Error Broker) _).2.env) ∧ _
    rcases hshake : handshake T clientId credentials l with ⟨outcome, l'⟩
    rw [hshake] at honStream htriple
    have hgrows : Grows (debts wire.env) (debts l'.wire.env) := by
      refine ⟨fun s hs => ?_, fun s hs => ?_⟩
      · rw [honStream.beside.opened]
        change (debts env).opened s
        rw [hdebts]
        exact .inr hs
      · have hne : s ≠ stream := fun heq => hnew (heq ▸ hs)
        rw [honStream.beside.owed s hne]
        change (debts env).owed s = _
        rw [hdebts]
        exact Function.update_of_ne hne _ _
    cases outcome with
    | error e => exact ⟨hgrows, fun b hb => by cases hb⟩
    | ok _ =>
        refine ⟨hgrows, fun b hb => ?_⟩
        cases hb
        refine ⟨?_, ?_, htriple⟩
        · rw [honStream.stream]
          exact hnew
        · change (debts l'.wire.env).opened l'.broker.stream
          rw [honStream.beside.opened, honStream.stream]
          change (debts env).opened stream
          rw [hdebts]
          exact .inl rfl

end Broker

/-! ### The pools

A pool is looked at through the function that finds a connection by its place. -/

namespace Cluster

open Broker (Listed dues OnStream Square Grows)

/-- A place in one of the pools. -/
abbrev Slot := Pool × String

/-- The connection at a place. -/
def look (c : Cluster ω) (slot : Slot) : Option Broker := (c.pool slot.1)[slot.2]?

theorem pool_setPool_self (c : Cluster ω) (pool : Pool) (brokers : Std.TreeMap String Broker) :
    (c.setPool pool brokers).pool pool = brokers := by
  cases pool <;> rfl

theorem pool_setPool_of_ne (c : Cluster ω) {pool other : Pool} (h : other ≠ pool)
    (brokers : Std.TreeMap String Broker) : (c.setPool pool brokers).pool other = c.pool other := by
  cases pool <;> cases other <;> first | rfl | exact absurd rfl h

theorem look_keep (c : Cluster ω) (pool : Pool) (addr : String) (b : Broker) :
    look (c.keep pool addr b) = Function.update (look c) (pool, addr) (some b) := by
  funext ⟨other, a⟩
  by_cases hpool : other = pool
  · subst hpool
    rw [look, keep, pool_setPool_self, Std.TreeMap.getElem?_insert]
    by_cases ha : a = addr
    · subst ha
      simp
    · rw [Function.update_of_ne (fun h => ha (Prod.mk.inj h).2), if_neg]
      · rfl
      · rw [Std.LawfulEqCmp.compare_eq_iff_eq]
        exact fun h => ha h.symm
  · rw [look, keep, pool_setPool_of_ne _ hpool, Function.update_of_ne fun h => hpool (Prod.mk.inj h).1]
    rfl

theorem look_drop (c : Cluster ω) (pool : Pool) (addr : String) :
    look (c.drop pool addr) = Function.update (look c) (pool, addr) none := by
  funext ⟨other, a⟩
  by_cases hpool : other = pool
  · subst hpool
    rw [look, drop, pool_setPool_self, Std.TreeMap.getElem?_erase]
    by_cases ha : a = addr
    · subst ha
      simp
    · rw [Function.update_of_ne (fun h => ha (Prod.mk.inj h).2), if_neg]
      · rfl
      · rw [Std.LawfulEqCmp.compare_eq_iff_eq]
        exact fun h => ha h.symm
  · rw [look, drop, pool_setPool_of_ne _ hpool, Function.update_of_ne fun h => hpool (Prod.mk.inj h).1]
    rfl

/-- Every pooled connection has an open stream of its own, and what the stream owes
is in flight. -/
structure Booked (look : Slot → Option Broker) (d : Debts) : Prop where
  opened : ∀ slot b, look slot = some b → d.opened b.stream
  apart : ∀ slot slot' b b', look slot = some b → look slot' = some b' →
    b.stream = b'.stream → slot = slot'
  listed : ∀ slot b, look slot = some b →
    (d.owed b.stream).Sublist (b.conn.inFlight.map (·.correlationId))

/-- How many answers are owed on the connection at a place. -/
def owes (look : Slot → Option Broker) (d : Debts) (slot : Slot) : ℕ :=
  match look slot with
  | some b => (d.owed b.stream).length
  | none => 0

section Booked

variable {look : Slot → Option Broker} {d d' : Debts} {slot : Slot} {b : Broker}

theorem owes_of_some (h : look slot = some b) : owes look d slot = (d.owed b.stream).length := by
  rw [owes, h]

theorem owes_of_none (h : look slot = none) : owes look d slot = 0 := by
  rw [owes, h]

/-- Something was tried on streams that are nobody's. -/
theorem Booked.grow (h : Booked look d) (hd : Grows d d') : Booked look d' := by
  refine ⟨fun s b hb => hd.opened _ (h.opened s b hb), h.apart, fun s b hb => ?_⟩
  rw [hd.owed _ (h.opened s b hb)]
  exact h.listed s b hb

theorem Booked.owes_grow (h : Booked look d) (hd : Grows d d') (slot : Slot) :
    owes look d' slot = owes look d slot := by
  unfold owes
  split
  · next b hb => rw [hd.owed _ (h.opened slot b hb)]
  · rfl

/-- A new connection takes an empty place. -/
theorem Booked.add (h : Booked look d) (hd : Grows d d') (hempty : look slot = none)
    (hnew : ¬d.opened b.stream) (hopened : d'.opened b.stream) (howed : d'.owed b.stream = []) :
    Booked (Function.update look slot (some b)) d' ∧
      ∀ s, owes (Function.update look slot (some b)) d' s = owes look d s := by
  have hgrown := h.grow hd
  have hne : ∀ s b', look s = some b' → b'.stream ≠ b.stream := fun s b' hb' heq =>
    hnew (heq ▸ h.opened s b' hb')
  refine ⟨⟨fun s b' hb' => ?_, fun s s' b₁ b₂ h₁ h₂ heq => ?_, fun s b' hb' => ?_⟩, fun s => ?_⟩
  · by_cases hs : s = slot
    · subst hs
      rw [Function.update_self] at hb'
      cases hb'
      exact hopened
    · rw [Function.update_of_ne hs] at hb'
      exact hgrown.opened s b' hb'
  · by_cases hs : s = slot
    · by_cases hs' : s' = slot
      · rw [hs, hs']
      · subst hs
        rw [Function.update_self] at h₁
        rw [Function.update_of_ne hs'] at h₂
        cases h₁
        exact absurd heq.symm (hne s' b₂ h₂)
    · rw [Function.update_of_ne hs] at h₁
      by_cases hs' : s' = slot
      · subst hs'
        rw [Function.update_self] at h₂
        cases h₂
        exact absurd heq (hne s b₁ h₁)
      · rw [Function.update_of_ne hs'] at h₂
        exact h.apart s s' b₁ b₂ h₁ h₂ heq
  · by_cases hs : s = slot
    · subst hs
      rw [Function.update_self] at hb'
      cases hb'
      rw [howed]
      exact List.nil_sublist _
    · rw [Function.update_of_ne hs] at hb'
      exact hgrown.listed s b' hb'
  · by_cases hs : s = slot
    · subst hs
      rw [owes_of_none hempty, owes_of_some (Function.update_self ..), howed, List.length_nil]
    · rw [owes, Function.update_of_ne hs]
      exact h.owes_grow hd s

/-- An operation on the connection at one place does not touch what the others are
owed. -/
theorem Booked.owed_of_ne (h : Booked look d) (hb : look slot = some b)
    (hd : Debts.Beside b.stream d d') {s : Slot} (hs : s ≠ slot) {b' : Broker}
    (hb' : look s = some b') : d'.owed b'.stream = d.owed b'.stream :=
  hd.owed _ fun heq => hs (h.apart s slot b' b hb' hb heq)

theorem Booked.owes_of_ne (h : Booked look d) (hb : look slot = some b)
    (hd : Debts.Beside b.stream d d') (new : Option Broker) {s : Slot} (hs : s ≠ slot) :
    owes (Function.update look slot new) d' s = owes look d s := by
  rw [owes, owes, Function.update_of_ne hs]
  cases hb' : look s with
  | none => rfl
  | some b' =>
      dsimp only
      rw [h.owed_of_ne hb hd hs hb']

/-- Giving up a connection after an operation on it. -/
theorem Booked.lose (h : Booked look d) (hb : look slot = some b)
    (hd : Debts.Beside b.stream d d') : Booked (Function.update look slot none) d' := by
  have hsome : ∀ s b', Function.update look slot none s = some b' → s ≠ slot ∧ look s = some b' := by
    intro s b' hb'
    by_cases hs : s = slot
    · subst hs
      rw [Function.update_self] at hb'
      cases hb'
    · rw [Function.update_of_ne hs] at hb'
      exact ⟨hs, hb'⟩
  refine ⟨fun s b' hb' => ?_, fun s s' b₁ b₂ h₁ h₂ => ?_, fun s b' hb' => ?_⟩
  · rw [hd.opened]
    exact h.opened s b' (hsome s b' hb').2
  · exact h.apart s s' b₁ b₂ (hsome s b₁ h₁).2 (hsome s' b₂ h₂).2
  · obtain ⟨hs, hlook⟩ := hsome s b' hb'
    rw [h.owed_of_ne hb hd hs hlook]
    exact h.listed s b' hlook

/-- Keeping a connection after an operation on it. -/
theorem Booked.step (h : Booked look d) (hb : look slot = some b)
    (hd : Debts.Beside b.stream d d') {b' : Broker} (hstream : b'.stream = b.stream)
    (hlisted : (d'.owed b'.stream).Sublist (b'.conn.inFlight.map (·.correlationId))) :
    Booked (Function.update look slot (some b')) d' := by
  have hsome : ∀ s b₁, Function.update look slot (some b') s = some b₁ →
      ∃ b₀, look s = some b₀ ∧ b₁.stream = b₀.stream := by
    intro s b₁ h₁
    by_cases hs : s = slot
    · subst hs
      rw [Function.update_self] at h₁
      cases h₁
      exact ⟨b, hb, hstream⟩
    · rw [Function.update_of_ne hs] at h₁
      exact ⟨b₁, h₁, rfl⟩
  refine ⟨fun s b₁ h₁ => ?_, fun s s' b₁ b₂ h₁ h₂ heq => ?_, fun s b₁ h₁ => ?_⟩
  · obtain ⟨b₀, hb₀, hs₀⟩ := hsome s b₁ h₁
    rw [hd.opened, hs₀]
    exact h.opened s b₀ hb₀
  · obtain ⟨c₁, hc₁, hs₁⟩ := hsome s b₁ h₁
    obtain ⟨c₂, hc₂, hs₂⟩ := hsome s' b₂ h₂
    exact h.apart s s' c₁ c₂ hc₁ hc₂ (hs₁.symm.trans (heq.trans hs₂))
  · by_cases hs : s = slot
    · subst hs
      rw [Function.update_self] at h₁
      cases h₁
      exact hlisted
    · rw [Function.update_of_ne hs] at h₁
      rw [h.owed_of_ne hb hd hs h₁]
      exact h.listed s b₁ h₁

end Booked

end Cluster

end Barnabas.Client
