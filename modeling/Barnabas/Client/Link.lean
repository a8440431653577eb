import Barnabas.Client.Requests
import Barnabas.Client.World

/-!
The client's connections and the streams behind them.

A connection remembers the requests it has not seen an answer to; a stream holds
the requests it has not delivered an answer to. On a connection that is worth
keeping the two agree, so that the next answer belongs to the oldest request. A
connection on which they might not is one whose last operation was lost or timed
out, and that is the one the client drops.
-/

namespace Barnabas.Client

open Barnabas.Lib Barnabas.Core Barnabas.Lib.Act

/-! ### Waiting for the world -/

namespace World

variable {ε : Type}

/-- A wait that ends as the script says; `Lost` are the errors that come from the
network and not from what was received. -/
structure Waits (P : Patience World ε) (Lost : ε → Prop) : Prop where
  write : ∀ stream frame w, P.write stream frame w = (.ok (), w.advance.2.post stream frame) ∨
    ∃ e landed, Lost e ∧ P.write stream frame w = (.error e, w.advance.2.postIf landed stream frame)
  read : ∀ stream w, P.read stream w =
      (.ok (w.advance.2.deliver stream).1, (w.advance.2.deliver stream).2) ∨
    ∃ e, Lost e ∧ P.read stream w = (.error e, w.advance.2)
  io : ∀ e, Lost (P.fail (.io e))

/-- The errors after which a connection is dropped. -/
def LostWithin (e : Option Error) : Prop := e = none ∨ ∃ io, e = some (.io io)

def LostUnhurried (e : Error) : Prop := ∃ io, e = .io io

variable (codec : Codec)

theorem waits_within (timeout : ℕ) :
    Waits ((transport codec).within timeout) LostWithin where
  write stream frame w := by
    simp only [Transport.within, transport, mapError_apply]
    rcases writeWithin_cases timeout stream frame w with heq | ⟨e, landed, heq⟩
    · left
      rw [heq]
      rfl
    · right
      refine ⟨e.map .io, landed, ?_, by rw [heq]; rfl⟩
      cases e with
      | none => exact .inl rfl
      | some e => exact .inr ⟨e, rfl⟩
  read stream w := by
    simp only [Transport.within, transport, mapError_apply]
    rcases readWithin_cases timeout stream w with heq | ⟨e, heq⟩
    · left
      rw [heq]
      rfl
    · right
      refine ⟨e.map .io, ?_, by rw [heq]; rfl⟩
      cases e with
      | none => exact .inl rfl
      | some e => exact .inr ⟨e, rfl⟩
  io e := .inr ⟨e, rfl⟩

theorem waits_unhurried : Waits (transport codec).unhurried LostUnhurried where
  write stream frame w := by
    simp only [Transport.unhurried, transport, unbounded, mapError_apply]
    rcases writeWithin_cases 0 stream frame w with heq | ⟨e, landed, heq⟩
    · left
      rw [heq]
      rfl
    · exact .inr ⟨_, landed, ⟨_, rfl⟩, by rw [heq]; rfl⟩
  read stream w := by
    simp only [Transport.unhurried, transport, unbounded, mapError_apply]
    rcases readWithin_cases 0 stream w with heq | ⟨e, heq⟩
    · left
      rw [heq]
      rfl
    · exact .inr ⟨_, ⟨_, rfl⟩, by rw [heq]; rfl⟩
  io e := ⟨e, rfl⟩

end World

open World

/-! ### One connection -/

namespace Broker

variable {ε α : Type} {P : Patience World ε} {Lost : ε → Prop} {I : World → Prop}
  {W : Frame → Prop}

/-- What an operation on one connection may change of the world: its own stream,
and nothing that lasts. -/
structure Beside (I : World → Prop) (l l' : Link World) : Prop where
  stream : l'.broker.stream = l.broker.stream
  opened : l'.wire.env.opened = l.wire.env.opened
  outstanding : ∀ s ≠ l.broker.stream, l'.wire.env.outstanding s = l.wire.env.outstanding s
  read : ∀ s ≠ l.broker.stream, (l'.wire.env.streams s).read = (l.wire.env.streams s).read
  lasting : I l.wire.env → I l'.wire.env

instance : IsPreorder (Link World) (Beside I) where
  refl _ := ⟨rfl, rfl, fun _ _ => rfl, fun _ _ => rfl, id⟩
  trans _ _ _ h h' := by
    refine ⟨h'.stream.trans h.stream, h'.opened.trans h.opened, fun s hs => ?_, fun s hs => ?_,
      h'.lasting ∘ h.lasting⟩
    · rw [h'.outstanding s (h.stream ▸ hs), h.outstanding s hs]
    · rw [h'.read s (h.stream ▸ hs), h.read s hs]

theorem beside_of_sameView {l : Link World} {w : World} (hw : SameView l.wire.env w)
    (hI : I l.wire.env → I w) : Beside I l { l with wire := { l.wire with env := w } } :=
  ⟨rfl, hw.opened, fun s _ => hw.outstanding s, fun s _ => hw.read s, hI⟩

theorem beside_post (hI : Lasting I W) {l : Link World} {frame : Frame} (hframe : W frame)
    {sent : List Frame} : Beside I l { l with wire :=
      ⟨l.wire.env.advance.2.post l.broker.stream frame, sent⟩ } := by
  have hview := sameView_advance l.wire.env
  refine ⟨rfl, hview.opened, fun s hs => ?_, fun s _ => ?_,
    fun hw => hI.post _ _ _ hframe (hI.advance hw)⟩
  · exact (outstanding_post_of_ne _ hs frame).trans (hview.outstanding s)
  · exact (read_post ..).trans (hview.read s)

theorem beside_deliver (hI : Lasting I W) (l : Link World) : Beside I l { l with wire :=
    { l.wire with env := (l.wire.env.advance.2.deliver l.broker.stream).2 } } := by
  have hview := sameView_advance l.wire.env
  refine ⟨rfl, (opened_deliver ..).trans hview.opened, fun s hs => ?_, fun s hs => ?_,
    fun hw => hI.deliver _ _ (hI.advance hw)⟩
  · rw [← hview.outstanding s]
    simp only [outstanding]
    rw [streams_deliver_of_ne _ hs]
  · rw [← hview.read s]
    simp only
    rw [streams_deliver_of_ne _ hs]

theorem permits_beside (hP : Waits P Lost) (hI : Lasting I W) : Permits P (Beside I) W where
  conn _ _ := ⟨rfl, rfl, fun _ _ => rfl, fun _ _ => rfl, id⟩
  write l frame hframe := by
    rcases hP.write l.broker.stream frame l.wire.env with heq | ⟨e, landed, _, heq⟩
    · rw [heq]
      exact beside_post hI hframe
    · rw [heq]
      cases landed with
      | true => exact beside_post hI hframe
      | false =>
          have hview := sameView_advance l.wire.env
          exact ⟨rfl, hview.opened, fun s _ => hview.outstanding s, fun s _ => hview.read s,
            hI.advance⟩
  read l := by
    rcases hP.read l.broker.stream l.wire.env with heq | ⟨e, _, heq⟩
    · rw [heq]
      exact beside_deliver hI l
    · rw [heq]
      exact beside_of_sameView (sameView_advance _) hI.advance

/-- The requests a connection's stream has not delivered an answer to. -/
def out (l : Link World) : List Frame := l.wire.env.outstanding l.broker.stream

/-- The connection waits for all that the stream owes it. It may wait for more: a
frame that was too long to be written was recorded as in flight all the same. -/
def Linked (l : Link World) : Prop := (out l).length ≤ l.broker.conn.inFlight.length

def Idle (l : Link World) : Prop := Linked l ∧ out l = []

variable (codec : Codec)

/-- A request is encoded and recorded, or it is refused, and what is in flight does
not get less. -/
theorem request_cases (version : ℤ) (req : Request) (conn : Connection) :
    (∃ (f : Frame) (conn' : Connection), f.request = req ∧
        Connection.request codec version req conn = (.ok f, conn') ∧
        conn'.inFlight.length = conn.inFlight.length + 1) ∨
      ∃ e conn', Connection.request codec version req conn = (.error e, conn') ∧
        conn.inFlight.length ≤ conn'.inFlight.length := by
  rcases hrequest : Connection.request codec version req conn with ⟨e | f, conn'⟩
  · refine .inr ⟨e, conn', rfl, ?_⟩
    let frame : Frame := ⟨version, wrap 32 (conn.nextCorrelationId + 1), conn.clientId, req⟩
    simp only [Connection.request, bind_apply, get_apply, set_apply] at hrequest
    rcases hheader : codec.encodeHeader frame with _ | header
    · rw [hheader] at hrequest
      cases hrequest
      exact le_rfl
    · rcases hbody : codec.encodeBody frame with _ | body
      · rw [hheader, hbody] at hrequest
        cases hrequest
        exact le_rfl
      · rw [hheader, hbody] at hrequest
        simp only [bind_apply, modify_apply] at hrequest
        by_cases hlen : i32Max < (header : ℤ) + body
        · rw [if_pos hlen] at hrequest
          cases hrequest
          simp
        · rw [if_neg hlen] at hrequest
          cases hrequest
  · obtain ⟨rfl, rfl⟩ := Connection.request_eq_ok hrequest
    exact .inl ⟨_, _, rfl, rfl, by simp⟩

/-- A request is written and outstanding, or it cannot be encoded and the stream
stays as it is, or the connection is lost. -/
theorem send_cases (hP : Waits P Lost) (version : ℤ) (req : Request) {l : Link World}
    (hl : Linked l) :
    (∃ f l', send (World.transport codec) P version req l = (.ok (), l') ∧
        f.request = req ∧ Linked l' ∧ out l' = out l ++ [f]) ∨
      (∃ e l', send (World.transport codec) P version req l = (.error (P.fail (.core e)), l') ∧
        Linked l' ∧ out l' = out l) ∨
      ∃ e l', send (World.transport codec) P version req l = (.error e, l') ∧ Lost e := by
  have honConn : ∀ {r conn}, Connection.request codec
      (l.broker.negotiated req.apiKey version) req l.broker.conn = (r, conn) →
      onConn P (Connection.request (World.transport codec).codec
        (l.broker.negotiated req.apiKey version) req) l =
          (r.mapError fun e => P.fail (.core e), { l with broker := { l.broker with conn } }) := by
    intro r conn hrequest
    rw [onConn, mapError_apply, zoom_apply]
    exact congrArg (fun o => (Except.mapError _ o.1, { l with broker := { l.broker with conn := o.2 } }))
      hrequest
  rw [send, bind_of_ok (get_apply l)]
  dsimp only
  rcases request_cases codec (l.broker.negotiated req.apiKey version) req l.broker.conn with
    ⟨f, conn, hf, hrequest, hlength⟩ | ⟨e, conn, hrequest, hlength⟩
  · let l₁ : Link World := ⟨⟨l.wire.env, l.wire.sent ++ [f]⟩, { l.broker with conn }⟩
    have hsend : (do
        let frame ← onConn P (Connection.request (World.transport codec).codec
          (l.broker.negotiated req.apiKey version) req)
        modify fun l => { l with wire := { l.wire with sent := l.wire.sent ++ [frame] } }
        onEnv (P.write l.broker.stream frame) : Act (Link World) ε Unit) l =
          onEnv (P.write l.broker.stream f) l₁ := by
      rw [bind_of_ok (honConn hrequest), bind_of_ok (modify_apply _ _)]
    rw [hsend, onEnv, zoom_apply]
    rcases hP.write l.broker.stream f l₁.wire.env with heq | ⟨e, landed, hlost, heq⟩
    · left
      have hview := sameView_advance l.wire.env
      have hout : out { l₁ with wire := { l₁.wire with
          env := l.wire.env.advance.2.post l.broker.stream f } } = out l ++ [f] := by
        simp only [out, l₁, outstanding_post_self, hview.outstanding]
      refine ⟨f, { l₁ with wire := { l₁.wire with env := l.wire.env.advance.2.post l.broker.stream f } },
        by rw [heq], hf, ?_, hout⟩
      rw [Linked, hout, List.length_append, List.length_singleton]
      exact (Nat.succ_le_succ hl).trans hlength.ge
    · right
      right
      exact ⟨e, _, by rw [heq], hlost⟩
  · right
    left
    exact ⟨e, _, bind_of_error (honConn hrequest), hl.trans hlength, rfl⟩

/-- The answer to the oldest outstanding request arrives, or the connection is
lost. What cannot be decoded, or comes for another request than the connection
expects, was received all the same. -/
theorem recv_cases (hP : Waits P Lost) (as : Body → Option α) {l : Link World} (hl : Linked l) :
    (∃ a l', (recv P as l).2 = l' ∧ out l = a.frame :: out l' ∧ Linked l' ∧
        (l'.wire.env.streams l.broker.stream).read =
          (l.wire.env.streams l.broker.stream).read ++ [a] ∧
        ∀ message, (recv P as l).1 = .ok message → as a.body = some message) ∨
      ∃ e l', recv P as l = (.error e, l') ∧ Lost e := by
  have hview := sameView_advance l.wire.env
  let w := l.wire.env.advance.2
  rcases hP.read l.broker.stream l.wire.env with heq | ⟨e, hlost, heq⟩
  · have hread : (onEnv (P.read l.broker.stream) : Act (Link World) ε Incoming) l =
        (.ok (w.deliver l.broker.stream).1,
          { l with wire := { l.wire with env := (w.deliver l.broker.stream).2 } }) := by
      rw [onEnv, zoom_apply, heq]
    rw [recv, bind_of_ok (get_apply l), bind_of_ok hread]
    rcases w.deliver_cases l.broker.stream with hclosed | ⟨a, w', hdeliver, hout, hread⟩
    · right
      rw [hclosed]
      exact ⟨_, _, rfl, hP.io _⟩
    · left
      rw [hview.outstanding] at hout
      rw [hview.read] at hread
      have hlength := hl
      rw [Linked, out, hout, List.length_cons] at hlength
      obtain ⟨pending, rest, hinFlight⟩ := List.exists_cons_of_length_pos (Nat.zero_lt_of_lt hlength)
      rw [hinFlight, List.length_cons] at hlength
      let l₁ : Link World := ⟨⟨w', l.wire.sent⟩, l.broker⟩
      rw [hdeliver]
      dsimp only
      by_cases hid : a.frame.correlationId = pending.correlationId
      · let l' : Link World := ⟨⟨w', l.wire.sent⟩, { l.broker with
          conn := { l.broker.conn with inFlight := rest } }⟩
        have hnext : onConn P (Connection.nextResponse (.ok (.ok a.frame.correlationId, a.body))) l₁ =
            (.ok ⟨pending.apiKey, pending.version, a.frame.correlationId, a.body⟩, l') := by
          simp [onConn, Connection.nextResponse, bind_apply, hinFlight, hid, Except.mapError, l', l₁]
        rw [bind_of_ok hnext]
        refine ⟨a, l', rfl, hout, Nat.le_of_succ_le_succ hlength, hread, fun message hmessage => ?_⟩
        rw [onConn, mapError_apply, zoom_apply, ofExcept_apply, Connection.decode] at hmessage
        dsimp only at hmessage
        split at hmessage
        · next heq =>
            cases hmessage
            exact heq
        · cases hmessage
      · have hnext : onConn P (Connection.nextResponse (.ok (.ok a.frame.correlationId, a.body))) l₁ =
            (.error (P.fail (.core (.correlation a.frame.correlationId pending.correlationId))), l₁) := by
          simp [onConn, Connection.nextResponse, bind_apply, hinFlight, hid, Except.mapError, l₁]
        rw [bind_of_error hnext]
        refine ⟨a, l₁, rfl, hout, ?_, hread, fun message hmessage => by cases hmessage⟩
        change (w'.outstanding l.broker.stream).length ≤ l.broker.conn.inFlight.length
        rw [hinFlight, List.length_cons]
        omega
  · right
    have hread : (onEnv (P.read l.broker.stream) : Act (Link World) ε Incoming) l =
        (.error e, { l with wire := { l.wire with env := w } }) := by
      rw [onEnv, zoom_apply, heq]
    rw [recv, bind_of_ok (get_apply l), bind_of_error hread]
    exact ⟨e, _, rfl, hlost⟩

/-- A call on an idle connection leaves it idle, or the connection is lost. -/
theorem call_cases (hP : Waits P Lost) (as : Body → Option α) (version : ℤ) (req : Request)
    {l : Link World} (hl : Idle l) :
    Idle (call (World.transport codec) P as version req l).2 ∨
      ∃ e, (call (World.transport codec) P as version req l).1 = .error e ∧ Lost e := by
  rw [call, bind_of_ok (get_apply l)]
  split
  · exact .inl hl
  · rcases send_cases codec hP version req hl.1 with
      ⟨f, l₁, hsend, _, hlinked, hout⟩ | ⟨e, l₁, hsend, hlinked, hout⟩ | ⟨e, l₁, hsend, hlost⟩
    · rw [bind_of_ok hsend]
      rw [hl.2, List.nil_append] at hout
      rcases recv_cases hP as hlinked with ⟨a, l', heq, hpop, hlinked', _⟩ | ⟨e, l', heq, hlost⟩
      · left
        rw [hout, List.cons.injEq] at hpop
        rw [heq]
        exact ⟨hlinked', hpop.2.symm⟩
      · right
        rw [heq]
        exact ⟨e, rfl, hlost⟩
    · left
      rw [bind_of_error hsend]
      exact ⟨hlinked, hout.trans hl.2⟩
    · right
      rw [bind_of_error hsend]
      exact ⟨e, rfl, hlost⟩

/-! ### Opening a connection -/

theorem triple_call (as : Body → Option α) (version : ℤ) (req : Request) :
    Triple Idle (call (World.transport codec) (World.transport codec).unhurried as
      version req) (fun _ => Idle) (fun _ _ => True) := by
  intro l hl
  have h := call_cases codec (waits_unhurried codec) as version req hl
  rcases hcall : call (World.transport codec) (World.transport codec).unhurried as
    version req l with ⟨e | message, l'⟩
  · trivial
  · rw [hcall] at h
    rcases h with h | ⟨e, h, _⟩
    · exact h
    · cases h

/-- An idle connection stays so while the world moves on. -/
theorem idle_of_sameView {l : Link World} {w : World} (h : Idle l) (hw : SameView l.wire.env w) :
    Idle { l with wire := { l.wire with env := w } } := by
  rw [Idle, Linked, out, hw.outstanding]
  exact h

theorem survives_idle : Survives (World.transport codec) Idle where
  call := triple_call codec
  nonce _ hl := idle_of_sameView hl (sameView_advance _)
  versions _ _ hl := hl

/-- The world after something was tried on streams that were not open before. -/
structure Extends (I : World → Prop) (w w' : World) : Prop where
  opened : w.opened ≤ w'.opened
  outstanding : ∀ s < w.opened, w'.outstanding s = w.outstanding s
  read : ∀ s < w.opened, (w'.streams s).read = (w.streams s).read
  fresh : (∀ s, w.opened ≤ s → w.outstanding s = []) → ∀ s, w'.opened ≤ s → w'.outstanding s = []
  lasting : I w → I w'

theorem extends_of_sameView {w w' : World} (h : SameView w w') (hI : I w → I w') :
    Extends I w w' := by
  refine ⟨h.opened.ge, fun s _ => h.outstanding s, fun s _ => h.read s, fun hfresh s hs => ?_, hI⟩
  rw [h.outstanding]
  exact hfresh s (h.opened ▸ hs)

/-- A connection that was opened is idle, on a stream of its own; an attempt that
failed leaves the streams alone that were open before. -/
theorem connect_cases (hI : Lasting I W) (hW : ∀ f : Frame, f.request.isHandshake → W f)
    (addr clientId : String) (credentials : Option Credentials) {wire : Wire World}
    (hfresh : ∀ s, wire.env.opened ≤ s → wire.env.outstanding s = []) :
    Extends I wire.env
        (connect (World.transport codec) addr clientId credentials wire).2.env ∧
      ∀ b, (connect (World.transport codec) addr clientId credentials wire).1 = .ok b →
        b.stream = wire.env.opened ∧
          wire.env.opened <
            (connect (World.transport codec) addr clientId credentials wire).2.env.opened ∧
          Idle ⟨(connect (World.transport codec) addr clientId credentials wire).2, b⟩ := by
  have hview := sameView_advance wire.env
  rcases World.connect_cases addr wire.env with hopen | ⟨e, hfail⟩
  · let w : World := { wire.env.advance.2 with opened := wire.env.advance.2.opened + 1 }
    let l : Link World := ⟨⟨w, wire.sent⟩, ⟨wire.env.advance.2.opened, .new clientId, ∅⟩⟩
    have hidle : Idle l := by
      have hout : out l = [] :=
        (hview.outstanding _).trans (hfresh _ hview.opened.ge)
      refine ⟨?_, hout⟩
      rw [Linked, hout]
      exact Nat.zero_le _
    have hbeside := (permits_beside (waits_unhurried codec) hI).handshake
      (World.transport codec) hW
      (fun l => beside_of_sameView (sameView_advance _) hI.advance)
      (fun _ _ => ⟨rfl, rfl, fun _ _ => rfl, fun _ _ => rfl, id⟩) clientId credentials l
    have htriple := (survives_idle codec).handshake clientId credentials l hidle
    have hstream : Act.mapError (Error.connect addr) (Act.zoom (·.env) (fun wire env => { wire with env })
        ((World.transport codec).connect addr)) wire =
          (.ok wire.env.advance.2.opened, ⟨w, wire.sent⟩) := by
      rw [mapError_apply, zoom_apply]
      change (Except.mapError _ (World.connect addr wire.env).1,
        { wire with env := (World.connect addr wire.env).2 }) = _
      rw [hopen]
      rfl
    rw [connect, bind_of_ok hstream, bind_of_ok (get_apply _)]
    rcases hshake : handshake (World.transport codec) clientId credentials l with
      ⟨outcome, l'⟩
    rw [hshake] at hbeside htriple
    have hextends : Extends I wire.env l'.wire.env := by
      have hopened : l'.wire.env.opened = wire.env.opened + 1 :=
        hbeside.opened.trans (congrArg (· + 1) hview.opened)
      refine ⟨by omega, fun s hs => ?_, fun s hs => ?_, fun hfresh s hs => ?_,
        fun hw => hbeside.lasting (hI.opened _ (hI.advance hw))⟩
      · have hne : s ≠ l.broker.stream := by
          simp only [l, hview.opened]
          omega
        exact (hbeside.outstanding s hne).trans (hview.outstanding s)
      · have hne : s ≠ l.broker.stream := by
          simp only [l, hview.opened]
          omega
        exact (hbeside.read s hne).trans (hview.read s)
      · have hne : s ≠ l.broker.stream := by
          simp only [l, hview.opened]
          omega
        rw [hbeside.outstanding s hne]
        exact (hview.outstanding s).trans (hfresh s (by omega))
    dsimp only
    rw [bind_of_ok (set_apply _ _)]
    cases outcome with
    | error e => exact ⟨hextends, fun b hb => by cases hb⟩
    | ok _ =>
        refine ⟨hextends, fun b hb => ?_⟩
        cases hb
        refine ⟨hbeside.stream.trans hview.opened, ?_, htriple⟩
        exact lt_of_lt_of_eq (by simp [l, w, hview.opened]) hbeside.opened.symm
  · have hconnect : connect (World.transport codec) addr clientId credentials wire =
        (.error (.connect addr e), { wire with env := wire.env.advance.2 }) := by
      refine bind_of_error ?_
      rw [mapError_apply, zoom_apply]
      change (Except.mapError _ (World.connect addr wire.env).1,
        { wire with env := (World.connect addr wire.env).2 }) = _
      rw [hfail]
      rfl
    rw [hconnect]
    exact ⟨extends_of_sameView hview hI.advance, fun b hb => by cases hb⟩

end Broker

end Barnabas.Client
