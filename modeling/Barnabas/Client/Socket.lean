import Barnabas.Client.Tape
import Barnabas.Core.Needed

/-!
Reading a response off a socket (`Broker::recv` of `barnabas-client/src/cluster.rs`).

The rest of the client is modelled with reads of whole frames. Here the receive loop is
as it is written, over a socket that hands out bytes as they arrive: it asks the
connection for a response, and as long as there is none it reads some more. How the
bytes are cut cannot be seen behind it: the loop returns what the connection would
return if everything that is still to come were there already, and leaves the rest for
the next call.
-/

namespace Barnabas.Client

open Barnabas.Lib Barnabas.Core Barnabas.Lib.Act

/-! ### Sockets -/

/-- What comes after the bytes of a stream: nothing yet, its end, or a failure. -/
inductive Ending
  | waits
  | closed
  | failed (e : IoError)
  deriving DecidableEq, Repr

/-- The bytes that will come in on a socket, in the pieces in which they arrive. -/
structure Socket where
  pieces : List Bytes
  ending : Ending
  filled : ∀ piece ∈ pieces, piece ≠ []

namespace Socket

def contents (s : Socket) : Bytes := s.pieces.flatten

/-- What the end of a stream is to a read. -/
def atEnd : Ending → Option (Except IoError Bytes)
  | .waits => none
  | .closed => some (.ok [])
  | .failed e => some (.error e)

/-- `Transport::read` into a buffer of `want` bytes; there is no result while it waits. -/
def read (want : ℕ) (s : Socket) : Option (Except IoError Bytes) × Socket :=
  match hpieces : s.pieces with
  | [] => (atEnd s.ending, s)
  | piece :: rest =>
      if hfits : piece.length ≤ want then
        (some (.ok piece), ⟨rest, s.ending, fun p hp => s.filled p (by simp [hpieces, hp])⟩)
      else
        (some (.ok (piece.take want)), ⟨piece.drop want :: rest, s.ending, by
          intro p hp
          rcases List.mem_cons.mp hp with rfl | hp
          · exact List.ne_nil_of_length_pos (by rw [List.length_drop]; omega)
          · exact s.filled p (by simp [hpieces, hp])⟩)

/-- A read finds the end of the stream, or takes some bytes off its front. -/
theorem read_cases {want : ℕ} (hwant : 0 < want) (s : Socket) :
    (s.contents = [] ∧ s.read want = (atEnd s.ending, s)) ∨
      ∃ bytes s', s.read want = (some (.ok bytes), s') ∧ bytes ≠ [] ∧ bytes.length ≤ want ∧
        s.contents = bytes ++ s'.contents ∧ s'.ending = s.ending := by
  unfold read
  split
  · next hpieces =>
      left
      exact ⟨by rw [contents, hpieces]; rfl, rfl⟩
  · next piece rest hpieces =>
      right
      have hpiece : piece ≠ [] := s.filled piece (by simp [hpieces])
      split
      · next hfits => exact ⟨piece, _, rfl, hpiece, hfits, by simp [contents, hpieces], rfl⟩
      · next hfits =>
          refine ⟨piece.take want, _, rfl, ?_, ?_, ?_, rfl⟩
          · exact List.ne_nil_of_length_pos (by rw [List.length_take]; omega)
          · exact List.length_take_le ..
          · simp only [contents, hpieces, List.flatten_cons]
            rw [← List.append_assoc, List.take_append_drop]

/-- What a read hands out is not there any more. -/
theorem read_bytes {want : ℕ} (hwant : 0 < want) {s s' : Socket} {bytes : Bytes}
    (h : s.read want = (some (.ok bytes), s')) (hbytes : bytes ≠ []) :
    s.contents = bytes ++ s'.contents ∧ s'.ending = s.ending := by
  rcases s.read_cases hwant with ⟨-, hend⟩ | ⟨bytes', s'', hread, -, -, hcontents, hending⟩
  · rw [hend] at h
    cases hending : s.ending with
    | waits => simp [hending, atEnd] at h
    | closed => exact absurd (by simpa [hending, atEnd, eq_comm] using congrArg Prod.fst h) hbytes
    | failed e => simp [hending, atEnd] at h
  · rw [hread] at h
    cases h
    exact ⟨hcontents, hending⟩

/-- A read that hands out nothing is at the end of the stream. -/
theorem read_atEnd {want : ℕ} (hwant : 0 < want) {s s' : Socket}
    {result : Option (Except IoError Bytes)} (h : s.read want = (result, s'))
    (hresult : ∀ bytes, result = some (.ok bytes) → bytes = []) :
    s.contents = [] ∧ atEnd s.ending = result ∧ s = s' := by
  rcases s.read_cases hwant with ⟨hempty, hend⟩ | ⟨bytes, s'', hread, hne, -⟩
  · rw [hend] at h
    cases h
    exact ⟨hempty, rfl, rfl⟩
  · rw [hread] at h
    exact absurd (hresult bytes (congrArg Prod.fst h).symm) hne

/-! ### The receive loop -/

variable {κ : Type} (P : Protocol κ)

def endOfFile : Error := .io ⟨.unexpectedEof, "broker closed the connection"⟩

/-- `Broker::recv`, up to the decoding of the body; there is no result while it waits. -/
def recv (conn : Core.Connection κ) (s : Socket) :
    Option (Except Error (Core.PendingResponse κ)) × Core.Connection κ × Socket :=
  match Core.Connection.nextResponse P conn with
  | (.error e, conn) => (some (.error (.core e)), conn, s)
  | (.ok (some resp), conn) => (some (.ok resp), conn, s)
  | (.ok none, conn) =>
      match hread : s.read conn.want with
      | (none, s') => (none, conn, s')
      | (some (.error e), s') => (some (.error (.io e)), conn, s')
      | (some (.ok bytes), s') =>
          if bytes = [] then (some (.error endOfFile), conn, s')
          else recv (conn.pushBytes bytes) s'
termination_by s.contents.length
decreasing_by
  have hpos := List.length_pos_of_ne_nil ‹_›
  rw [(read_bytes conn.want_pos hread ‹_›).1, List.length_append]
  omega

/-! ### More bytes behind the ones there are -/

theorem nextFrame_push {decoder decoder' : FrameDecoder} {result : Except Core.Error (Option Bytes)}
    (h : FrameDecoder.nextFrame decoder = (result, decoder')) (hresult : result ≠ .ok none)
    (more : Bytes) :
    FrameDecoder.nextFrame (decoder.push more) = (result, decoder'.push more) := by
  rw [FrameDecoder.nextFrame, bind_of_ok (get_apply _)] at h ⊢
  cases hlen : i32At decoder.buf 0 with
  | none =>
      rw [hlen] at h
      exact absurd (congrArg Prod.fst h).symm hresult
  | some len =>
      rw [hlen] at h
      rw [FrameDecoder.i32At_push hlen]
      dsimp only at h ⊢
      split at h
      · next hneg =>
          cases h
          rw [if_pos hneg]
          rfl
      · next hneg =>
          rw [if_neg hneg]
          split at h
          · next hmax =>
              cases h
              rw [if_pos (show (decoder.push more).maxFrame < len.toNat from hmax)]
              rfl
          · next hmax =>
              rw [if_neg (show ¬(decoder.push more).maxFrame < len.toNat from hmax)]
              split at h
              · exact absurd (congrArg Prod.fst h).symm hresult
              · next hlong =>
                  have hrest : (decoder.buf ++ more).drop 4 = decoder.buf.drop 4 ++ more :=
                    List.drop_append_of_le_length (by omega)
                  have hbody : len.toNat ≤ (decoder.buf.drop 4).length := by
                    rw [List.length_drop]
                    omega
                  cases h
                  rw [if_neg]
                  · simp only [FrameDecoder.push, hrest]
                    rw [bind_of_ok (set_apply _ _), List.take_append_of_le_length hbody,
                      List.drop_append_of_le_length hbody]
                    rfl
                  · rw [FrameDecoder.push, List.length_append]
                    omega

theorem matchOldest_pushBytes (frame : Bytes) (conn : Core.Connection κ) (more : Bytes) :
    Core.Connection.matchOldest P frame (conn.pushBytes more) =
      ((Core.Connection.matchOldest P frame conn).1,
        (Core.Connection.matchOldest P frame conn).2.pushBytes more) := by
  unfold Core.Connection.matchOldest
  rw [bind_of_ok (get_apply _), bind_of_ok (get_apply _)]
  rw [show (conn.pushBytes more).inFlight = conn.inFlight from rfl]
  rcases conn.inFlight with _ | ⟨pending, rest⟩
  · rfl
  · dsimp only
    rcases P.decodeResponseHeader (P.responseHeaderVersion pending.apiKey pending.version) frame
      with e | ⟨id, body⟩
    · rfl
    · dsimp only
      by_cases hid : id = pending.correlationId
      · rw [if_neg (not_not.mpr hid), if_neg (not_not.mpr hid)]
        rfl
      · rw [if_pos hid, if_pos hid]
        rfl

/-- A connection that has a response or refuses its bytes does so whatever comes behind. -/
theorem nextResponse_pushBytes {conn conn' : Core.Connection κ}
    {result : Except Core.Error (Option (Core.PendingResponse κ))}
    (h : Core.Connection.nextResponse P conn = (result, conn')) (hresult : result ≠ .ok none)
    (more : Bytes) : Core.Connection.nextResponse P (conn.pushBytes more) =
      (result, conn'.pushBytes more) := by
  rcases hnext : FrameDecoder.nextFrame conn.decoder with ⟨e | _ | frame, decoder⟩
  · rw [Core.Connection.nextResponse_error P hnext] at h
    cases h
    exact Core.Connection.nextResponse_error P (nextFrame_push hnext (by simp) more)
  · rw [Core.Connection.nextResponse_none P hnext] at h
    exact absurd (congrArg Prod.fst h).symm hresult
  · have hmore : FrameDecoder.nextFrame (conn.pushBytes more).decoder =
        (.ok (some frame), decoder.push more) := nextFrame_push hnext (by simp) more
    have hpushed := matchOldest_pushBytes P frame { conn with decoder } more
    rcases hmatch : Core.Connection.matchOldest P frame { conn with decoder } with ⟨e | resp, conn''⟩
    · rw [Core.Connection.nextResponse_unmatched P hnext hmatch] at h
      cases h
      rw [hmatch] at hpushed
      exact Core.Connection.nextResponse_unmatched P hmore hpushed
    · rw [Core.Connection.nextResponse_some P hnext hmatch] at h
      cases h
      rw [hmatch] at hpushed
      exact Core.Connection.nextResponse_some P hmore hpushed

@[simp] theorem pushBytes_nil (conn : Core.Connection κ) : conn.pushBytes [] = conn := by
  rw [Core.Connection.pushBytes, FrameDecoder.push, List.append_nil]

theorem pushBytes_append (conn : Core.Connection κ) (bytes more : Bytes) :
    conn.pushBytes (bytes ++ more) = (conn.pushBytes bytes).pushBytes more := by
  simp [Core.Connection.pushBytes, FrameDecoder.push]

/-! ### One call -/

/-- What a call returns if the connection has what `found` says. -/
def outcome (ending : Ending) : Except Core.Error (Option (Core.PendingResponse κ)) →
    Option (Except Error (Core.PendingResponse κ))
  | .ok (some resp) => some (.ok resp)
  | .error e => some (.error (.core e))
  | .ok none =>
      match ending with
      | .waits => none
      | .closed => some (.error endOfFile)
      | .failed e => some (.error (.io e))

/-- The loop returns what the connection has if everything to come is there already, and
between them the connection and the socket have the same bytes left as it then has. -/
theorem recv_eq (conn : Core.Connection κ) (s : Socket) :
    (recv P conn s).1 = outcome s.ending
        (Core.Connection.nextResponse P (conn.pushBytes s.contents)).1 ∧
      (recv P conn s).2.1.pushBytes (recv P conn s).2.2.contents =
        (Core.Connection.nextResponse P (conn.pushBytes s.contents)).2 ∧
      (recv P conn s).2.2.ending = s.ending := by
  fun_induction recv P conn s with
  | case1 conn s e conn' hnext =>
      rw [nextResponse_pushBytes P hnext (by simp)]
      exact ⟨rfl, rfl, rfl⟩
  | case2 conn s resp conn' hnext =>
      rw [nextResponse_pushBytes P hnext (by simp)]
      exact ⟨rfl, rfl, rfl⟩
  | case3 conn s conn' hnext s' hread =>
      -- nothing more has come yet
      obtain ⟨hempty, hend, hs⟩ := read_atEnd conn'.want_pos hread (fun bytes h => by cases h)
      subst hs
      rw [hempty, pushBytes_nil, pushBytes_nil, hnext]
      refine ⟨?_, rfl, rfl⟩
      cases hending : s.ending with
      | waits => rfl
      | closed => simp [hending, atEnd] at hend
      | failed e => simp [hending, atEnd] at hend
  | case4 conn s conn' hnext e s' hread =>
      -- the stream has failed
      obtain ⟨hempty, hend, hs⟩ := read_atEnd conn'.want_pos hread (fun bytes h => by cases h)
      subst hs
      rw [hempty, pushBytes_nil, pushBytes_nil, hnext]
      refine ⟨?_, rfl, rfl⟩
      cases hending : s.ending with
      | waits => simp [hending, atEnd] at hend
      | closed => simp [hending, atEnd] at hend
      | failed e' =>
          rw [hending, atEnd, Option.some.injEq, Except.error.injEq] at hend
          rw [outcome, hend]
  | case5 conn s conn' hnext s' hread =>
      -- a read of no bytes is the end of the stream
      obtain ⟨hempty, hend, hs⟩ := read_atEnd conn'.want_pos hread (fun bytes h => by
        cases h
        rfl)
      subst hs
      rw [hempty, pushBytes_nil, pushBytes_nil, hnext]
      refine ⟨?_, rfl, rfl⟩
      cases hending : s.ending with
      | waits => simp [hending, atEnd] at hend
      | closed => rfl
      | failed e => simp [hending, atEnd] at hend
  | case6 conn s conn' hnext bytes s' hread hbytes ih =>
      -- waiting has left the connection as it was, so the bytes may as well come first
      obtain ⟨hcontents, hending⟩ := read_bytes conn'.want_pos hread hbytes
      have hsame : conn' = conn := by
        have hwaits := (Core.Connection.needed_pos_of_nextResponse P (by rw [hnext])).1
        rwa [hnext] at hwaits
      subst hsame
      rw [hcontents, pushBytes_append, ← hending]
      exact ih

/-- A call that waits has lost no bytes. -/
theorem recv_waiting {conn : Core.Connection κ} {s : Socket} (h : (recv P conn s).1 = none) :
    (recv P conn s).2.1.pushBytes (recv P conn s).2.2.contents = conn.pushBytes s.contents ∧
      (recv P conn s).2.2.ending = s.ending := by
  obtain ⟨hresult, hafter, hending⟩ := recv_eq P conn s
  have hnone : (Core.Connection.nextResponse P (conn.pushBytes s.contents)).1 = .ok none := by
    rw [h] at hresult
    generalize (Core.Connection.nextResponse P (conn.pushBytes s.contents)).1 = found at *
    rcases found with e | _ | resp
    · cases hresult
    · rfl
    · cases hresult
  exact ⟨hafter.trans (Core.Connection.needed_pos_of_nextResponse P hnone).1, hending⟩

/-! ### Reads of whole frames -/

section Frames

variable (P : Protocol ApiKey) (body : ApiKey → ℤ → Bytes → Body)

/-- The state of a connection that is read a frame at a time. -/
def wholeFrames (conn : Core.Connection ApiKey) : Client.Connection :=
  ⟨conn.clientId, conn.nextCorrelationId,
    conn.inFlight.map fun pending => ⟨pending.apiKey, pending.version, pending.correlationId⟩⟩

/-- A frame as the oldest request has it read. With nothing in flight it is not looked at. -/
def frameFor (frame : Bytes) : List (Core.Pending ApiKey) → Incoming
  | [] => .frame (.error "unsolicited") (.malformed "unsolicited")
  | pending :: _ =>
      match P.decodeResponseHeader (P.responseHeaderVersion pending.apiKey pending.version)
          frame with
      | .error e => .frame (.error e) (.malformed e)
      | .ok (correlationId, bytes) =>
          .frame (.ok correlationId) (body pending.apiKey pending.version bytes)

/-- What a read of a whole frame finds, given the result of the decoder on all the bytes. -/
def incoming (conn : Core.Connection ApiKey) (ending : Ending) :
    Except Core.Error (Option Bytes) → Option (Except IoError Incoming)
  | .ok (some frame) => some (.ok (frameFor P body frame conn.inFlight))
  | .error (.frameTooLarge len _) => some (.ok (.tooLarge len))
  | .error _ => none
  | .ok none =>
      match ending with
      | .waits => none
      | .closed => some (.ok .closed)
      | .failed e => some (.error e)

/-- A response with its body decoded, as far as it can be. -/
def readBody (resp : Core.PendingResponse ApiKey) : Client.PendingResponse :=
  ⟨resp.apiKey, resp.version, resp.correlationId, body resp.apiKey resp.version resp.body⟩

/-- What `Broker::recv` returns of the response it waited for. -/
def decoded {α : Type} (as : Body → Option α) :
    Except Error (Core.PendingResponse ApiKey) → Except Error α
  | .error e => .error e
  | .ok resp => (Connection.decode as (readBody body resp)).mapError .core

theorem nextFrame_error {decoder decoder' : FrameDecoder} {e : Core.Error}
    (h : FrameDecoder.nextFrame decoder = (.error e, decoder')) :
    decoder' = decoder ∧ ∃ len, e = .frameTooLarge len decoder.maxFrame := by
  rw [FrameDecoder.nextFrame, bind_of_ok (get_apply _)] at h
  cases hlen : i32At decoder.buf 0 with
  | none =>
      rw [hlen] at h
      cases h
  | some len =>
      rw [hlen] at h
      dsimp only at h
      split at h
      · cases h
        exact ⟨rfl, _, rfl⟩
      · split at h
        · cases h
          exact ⟨rfl, _, rfl⟩
        · split at h <;> cases h

/-- A frame is matched to the same request, with the same result, whether it is handed over
as bytes or read already. -/
theorem nextResponse_frameFor (frame : Bytes) (conn : Core.Connection ApiKey) :
    ∃ header message, frameFor P body frame conn.inFlight = .frame header message ∧
      Connection.nextResponse (.ok (header, message)) (wholeFrames conn) =
        ((Core.Connection.matchOldest P frame conn).1.map (readBody body),
          wholeFrames (Core.Connection.matchOldest P frame conn).2) := by
  rcases conn with ⟨clientId, n, _ | ⟨pending, rest⟩, decoder⟩
  · exact ⟨_, _, rfl, rfl⟩
  · rw [frameFor, Core.Connection.matchOldest, bind_of_ok (get_apply _)]
    dsimp only
    rcases P.decodeResponseHeader (P.responseHeaderVersion pending.apiKey pending.version) frame
      with e | ⟨id, bytes⟩
    · exact ⟨_, _, rfl, rfl⟩
    · refine ⟨_, _, rfl, ?_⟩
      rw [Connection.nextResponse, bind_of_ok (get_apply _), wholeFrames, List.map_cons]
      dsimp only
      split
      · rfl
      · next hid =>
          rw [not_not] at hid
          subst hid
          rfl

/-- A request leaves the same behind, whether it is encoded or only measured. -/
theorem request_refines {codec : Codec} (req : Request) (version : ℤ)
    {encode : ℤ → Except String Bytes} (conn : Core.Connection ApiKey)
    (hname : P.name req.apiKey = req.apiKey.name)
    (hheader : ∀ frame : Frame, codec.encodeHeader frame = (P.encodeRequestHeader ⟨P.code
      frame.request.apiKey, frame.apiVersion, frame.correlationId, some frame.clientId⟩).map
        List.length)
    (hbody : ∀ frame : Frame, frame.request = req →
      codec.encodeBody frame = (encode frame.apiVersion).map List.length) :
    (Connection.request codec version req (wholeFrames conn)).1.map (fun _ => ()) =
        (Core.Connection.request P req.apiKey version encode conn).1.map (fun _ => ()) ∧
      (Connection.request codec version req (wholeFrames conn)).2 =
        wholeFrames (Core.Connection.request P req.apiKey version encode conn).2 := by
  rw [Connection.request, bind_of_ok (get_apply _), bind_of_ok (set_apply _ _), hheader,
    hbody _ rfl]
  rw [Core.Connection.request, bind_of_ok (get_apply _), bind_of_ok (set_apply _ _)]
  rw [show (wholeFrames conn).nextCorrelationId = conn.nextCorrelationId from rfl,
    show (wholeFrames conn).clientId = conn.clientId from rfl]
  dsimp only
  rcases P.encodeRequestHeader ⟨P.code req.apiKey, version, wrap 32 (conn.nextCorrelationId + 1),
    some conn.clientId⟩ with e | header
  · exact ⟨rfl, rfl⟩
  · rcases encode version with e | body
    · rw [hname]
      exact ⟨rfl, rfl⟩
    · have hwhole : ∀ id : ℤ, ({ wholeFrames conn with
          nextCorrelationId := id
          inFlight := (wholeFrames conn).inFlight ++ [⟨req.apiKey, version, id⟩] } : Connection) =
            wholeFrames { conn with
              nextCorrelationId := id
              inFlight := conn.inFlight ++ [⟨req.apiKey, version, id⟩] } := fun id => by
        simp [wholeFrames]
      dsimp only [Except.map]
      rw [bind_of_ok (modify_apply _ _), bind_of_ok (modify_apply _ _), frame, List.length_append]
      by_cases hlong : i32Max < (header.length : ℤ) + (body.length : ℤ)
      · rw [if_pos hlong, if_pos (by exact_mod_cast hlong)]
        exact ⟨rfl, hwhole _⟩
      · rw [if_neg hlong, if_neg (by exact_mod_cast hlong)]
        exact ⟨rfl, hwhole _⟩

theorem wholeFrames_pushBytes (conn : Core.Connection ApiKey) (bytes : Bytes) :
    wholeFrames (conn.pushBytes bytes) = wholeFrames conn := rfl

/-- **The receive loop is a read of a whole frame.** If a read of a whole frame finds what
the bytes still to come amount to, it returns what the loop returns and leaves the
connection as the loop leaves it. -/
theorem recv_refines {ω ε α : Type} (W : Patience ω ε) (as : Body → Option α)
    {conn : Core.Connection ApiKey} (s : Socket) (link : Link ω) {env : ω}
    {found : Except IoError Incoming} (hmax : conn.decoder.maxFrame = Core.defaultMaxFrame)
    (hconn : link.broker.conn = wholeFrames conn)
    (hfound : incoming P body conn s.ending
      (FrameDecoder.nextFrame (conn.pushBytes s.contents).decoder).1 = some found)
    (hread : W.read link.broker.stream link.wire.env =
      (found.mapError fun e => W.fail (.io e), env)) :
    ∃ result, (recv P conn s).1 = some result ∧
      Broker.recv W as link = ((decoded body as result).mapError W.fail,
        { wire := { link.wire with env }
          broker := { link.broker with conn := wholeFrames (recv P conn s).2.1 } }) := by
  obtain ⟨hresult, hafter, -⟩ := recv_eq P conn s
  have hafter := congrArg wholeFrames hafter
  rw [wholeFrames_pushBytes] at hafter
  rw [← wholeFrames_pushBytes conn s.contents] at hconn
  have hmax : (conn.pushBytes s.contents).decoder.maxFrame = Core.defaultMaxFrame := hmax
  have hflight : (conn.pushBytes s.contents).inFlight = conn.inFlight := rfl
  rw [hresult, hafter]
  -- the loop has read all there is in front of the frame it returns
  generalize conn.pushBytes s.contents = all at *
  have henv : Broker.onEnv (W.read link.broker.stream) link =
      (found.mapError fun e => W.fail (.io e), { link with wire := { link.wire with env } }) := by
    rw [Broker.onEnv, zoom_apply, hread]
  rw [Broker.recv, bind_of_ok (get_apply _)]
  rcases hnext : FrameDecoder.nextFrame all.decoder with ⟨e | _ | frame, decoder⟩
  · obtain ⟨rfl, len, rfl⟩ := nextFrame_error hnext
    rw [Core.Connection.nextResponse_error P hnext]
    rw [hnext] at hfound
    cases hfound
    refine ⟨_, rfl, ?_⟩
    rw [bind_of_ok henv, hmax]
    have hsame : wholeFrames { all with decoder := all.decoder } = link.broker.conn := hconn.symm
    rw [hsame]
    rfl
  · rw [Core.Connection.nextResponse_none P hnext]
    rw [hnext] at hfound
    have hsame : wholeFrames { all with decoder } = link.broker.conn := hconn.symm
    cases hending : s.ending with
    | waits =>
        rw [hending] at hfound
        cases hfound
    | closed =>
        rw [hending] at hfound
        cases hfound
        refine ⟨_, rfl, ?_⟩
        rw [bind_of_ok henv, hsame]
        rfl
    | failed e =>
        rw [hending] at hfound
        cases hfound
        refine ⟨_, rfl, ?_⟩
        rw [bind_of_error henv, hsame]
        rfl
  · rw [hnext] at hfound
    cases hfound
    have hsame : wholeFrames { all with decoder } = link.broker.conn := hconn.symm
    obtain ⟨header, message, hframe, hmatch⟩ :=
      nextResponse_frameFor P body frame { all with decoder }
    rw [← hflight, show frameFor P body frame all.inFlight = _ from hframe] at henv
    rw [bind_of_ok henv]
    rw [hsame] at hmatch
    have hmatched : Broker.onConn W (Connection.nextResponse (.ok (header, message)))
        { link with wire := { link.wire with env } } =
          (((Core.Connection.matchOldest P frame { all with decoder }).1.map (readBody body)).mapError
              fun e => W.fail (.core e), { wire := { link.wire with env }, broker := { link.broker with
            conn := wholeFrames (Core.Connection.matchOldest P frame { all with decoder }).2 } }) := by
      rw [Broker.onConn, mapError_apply, zoom_apply, hmatch]
    rcases hm : Core.Connection.matchOldest P frame { all with decoder } with ⟨e | resp, conn'⟩
    · rw [Core.Connection.nextResponse_unmatched P hnext hm]
      rw [hm] at hmatched
      exact ⟨_, rfl, bind_of_error hmatched⟩
    · rw [Core.Connection.nextResponse_some P hnext hm]
      rw [hm] at hmatched
      refine ⟨_, rfl, (bind_of_ok hmatched).trans ?_⟩
      rw [Broker.onConn, mapError_apply, zoom_apply, ofExcept_apply, decoded]
      rcases Connection.decode as (readBody body resp) with e | message'
      · rfl
      · rfl

/-- Response headers that are the correlation id and nothing else. -/
def plainHeaders : Protocol ApiKey where
  name := ApiKey.name
  code := ApiKey.code
  encodeRequestHeader header := .ok (intBytes 4 header.correlationId)
  responseHeaderVersion _ _ := 0
  decodeResponseHeader _ bytes :=
    match i32At bytes 0 with
    | some id => .ok (id, bytes.drop 4)
    | none => .error "unexpected end of buffer"

/-- A connection that waits for the answer to a heartbeat and has two bytes of it. -/
def beating : Core.Connection ApiKey :=
  ⟨"t", 1, [⟨.heartbeat, 4, 1⟩], ⟨[0, 0], Core.defaultMaxFrame⟩⟩

end Frames

/-! ### Runs -/

/-- What happens to a connection and its socket. -/
inductive Op (κ : Type)
  | request (apiKey : κ) (version : ℤ) (encode : ℤ → Except String Bytes)
  | arrives (piece : Bytes) (hpiece : piece ≠ [])
  | ends (ending : Ending)
  | recv

/-- A connection in use with its socket: what was written on it, and what was received. -/
structure Use (κ : Type) where
  conn : Core.Connection κ
  socket : Socket
  written : List (Except Core.Error Bytes)
  received : List (Option (Except Error (Core.PendingResponse κ)))

def start (clientId : String) : Use κ := ⟨.new clientId, ⟨[], .waits, by simp⟩, [], []⟩

def step (u : Use κ) : Op κ → Use κ
  | .request apiKey version encode =>
      let (result, conn) := Core.Connection.request P apiKey version encode u.conn
      { u with conn, written := u.written ++ [result] }
  | .arrives piece hpiece =>
      { u with socket := ⟨u.socket.pieces ++ [piece], u.socket.ending, fun p hp => by
          rcases List.mem_append.mp hp with hp | hp
          · exact u.socket.filled p hp
          · rw [List.mem_singleton.mp hp]
            exact hpiece⟩ }
  | .ends ending => { u with socket := { u.socket with ending } }
  | .recv =>
      let (result, conn, socket) := recv P u.conn u.socket
      { u with conn, socket, received := u.received ++ [result] }

/-- The same happens twice, and what arrives between two calls is cut differently. -/
inductive SameCalls : List (Op κ) → List (Op κ) → Prop
  | nil : SameCalls [] []
  | call (op : Op κ) {ops ops' : List (Op κ)} : SameCalls ops ops' → SameCalls (op :: ops) (op :: ops')
  | arrive {pieces pieces' : List Bytes} (h : pieces.flatten = pieces'.flatten)
      (hpieces : ∀ p ∈ pieces, p ≠ []) (hpieces' : ∀ p ∈ pieces', p ≠ []) {ops ops' : List (Op κ)} :
      SameCalls ops ops' →
        SameCalls (pieces.pmap .arrives hpieces ++ ops) (pieces'.pmap .arrives hpieces' ++ ops')

theorem SameCalls.refl : ∀ ops : List (Op κ), SameCalls ops ops
  | [] => .nil
  | op :: ops => .call op (refl ops)

/-- Two uses that nobody can tell apart. -/
structure Alike (u u' : Use κ) : Prop where
  conn : u.conn.pushBytes u.socket.contents = u'.conn.pushBytes u'.socket.contents
  ending : u.socket.ending = u'.socket.ending
  written : u.written = u'.written
  received : u.received = u'.received

theorem request_pushBytes (apiKey : κ) (version : ℤ) (encode : ℤ → Except String Bytes)
    (conn : Core.Connection κ) (more : Bytes) :
    Core.Connection.request P apiKey version encode (conn.pushBytes more) =
      ((Core.Connection.request P apiKey version encode conn).1,
        (Core.Connection.request P apiKey version encode conn).2.pushBytes more) := by
  unfold Core.Connection.request
  rw [bind_of_ok (get_apply _), bind_of_ok (get_apply _), bind_of_ok (set_apply _ _),
    bind_of_ok (set_apply _ _)]
  rw [show (conn.pushBytes more).nextCorrelationId = conn.nextCorrelationId from rfl,
    show (conn.pushBytes more).clientId = conn.clientId from rfl]
  rcases P.encodeRequestHeader ⟨P.code apiKey, version, wrap 32 (conn.nextCorrelationId + 1),
    some conn.clientId⟩ with e | header
  · rfl
  · dsimp only
    rcases encode version with e | body
    · rfl
    · rfl

theorem alike_step {u u' : Use κ} (h : Alike u u') (op : Op κ) :
    Alike (step P u op) (step P u' op) := by
  cases op with
  | request apiKey version encode =>
      have hsame := congrArg (Core.Connection.request P apiKey version encode) h.conn
      rw [request_pushBytes, request_pushBytes, Prod.mk.injEq] at hsame
      exact ⟨hsame.2, h.ending, congrArg₂ _ h.written (congrArg (fun r => [r]) hsame.1), h.received⟩
  | arrives piece hpiece =>
      refine ⟨?_, h.ending, h.written, h.received⟩
      simp only [step, contents, List.flatten_append, List.flatten_singleton]
      rw [pushBytes_append, pushBytes_append]
      exact congrArg _ h.conn
  | ends ending => exact ⟨h.conn, rfl, h.written, h.received⟩
  | recv =>
      obtain ⟨hresult, hconn, hending⟩ := recv_eq P u.conn u.socket
      obtain ⟨hresult', hconn', hending'⟩ := recv_eq P u'.conn u'.socket
      refine ⟨?_, ?_, h.written, ?_⟩
      · exact hconn.trans ((congrArg _ (congrArg _ h.conn)).trans hconn'.symm)
      · exact hending.trans (h.ending.trans hending'.symm)
      · refine congrArg₂ _ h.received (congrArg (fun r => [r]) ?_)
        rw [hresult, hresult', h.conn, h.ending]

/-- Pieces that arrive one after the other. -/
theorem run_arrives (u : Use κ) {pieces : List Bytes} (hpieces : ∀ p ∈ pieces, p ≠ []) :
    ∃ socket : Socket, run (step P) u (pieces.pmap .arrives hpieces) = { u with socket } ∧
      socket.contents = u.socket.contents ++ pieces.flatten ∧ socket.ending = u.socket.ending := by
  induction pieces generalizing u with
  | nil => exact ⟨u.socket, rfl, by simp, rfl⟩
  | cons piece rest ih =>
      have hrest : ∀ p ∈ rest, p ≠ [] := fun p hp => hpieces p (List.mem_cons_of_mem _ hp)
      obtain ⟨socket, hrun, hcontents, hending⟩ :=
        ih (step P u (.arrives piece (hpieces piece List.mem_cons_self))) hrest
      refine ⟨socket, hrun, ?_, hending⟩
      rw [hcontents]
      simp [step, contents]

theorem alike_sameCalls {ops ops' : List (Op κ)} (hops : SameCalls ops ops') {u u' : Use κ}
    (h : Alike u u') : Alike (run (step P) u ops) (run (step P) u' ops') := by
  induction hops generalizing u u' with
  | nil => exact h
  | call op _ ih => exact ih (alike_step P h op)
  | arrive hflat hpieces hpieces' _ ih =>
      obtain ⟨socket, hrun, hcontents, hending⟩ := run_arrives P u hpieces
      obtain ⟨socket', hrun', hcontents', hending'⟩ := run_arrives P u' hpieces'
      rw [run_append, run_append, hrun, hrun']
      refine ih ⟨?_, ?_, h.written, h.received⟩
      · rw [hcontents, hcontents', pushBytes_append, pushBytes_append, hflat]
        exact congrArg _ h.conn
      · exact hending.trans (h.ending.trans hending'.symm)

/-- **How a stream is cut cannot be seen.** Whatever is requested, received and arrives in
turn: a connection writes the same and receives the same however the bytes that arrive
between two calls are cut. -/
theorem received_of_sameCalls (clientId : String) {ops ops' : List (Op κ)} (h : SameCalls ops ops') :
    (run (step P) (start clientId) ops).received = (run (step P) (start clientId) ops').received ∧
      (run (step P) (start clientId) ops).written = (run (step P) (start clientId) ops').written := by
  have halike := alike_sameCalls P h (u := start clientId) ⟨rfl, rfl, rfl, rfl⟩
  exact ⟨halike.received, halike.written⟩

def asking : Op Unit := .request () 3 fun _ => .ok []

/-- The answer comes in at once, and cut twice inside its length and once behind it. -/
theorem received_of_sameCalls_cut :
    (run (step ConnRun.apiVersionsOnly) (start "t")
        [asking, .arrives [0, 0, 0, 5, 0, 0, 0, 1, 9] (by simp), .recv]).received =
      (run (step ConnRun.apiVersionsOnly) (start "t") [asking, .arrives [0] (by simp),
        .arrives [0, 0] (by simp), .arrives [5, 0, 0] (by simp), .arrives [0, 1, 9] (by simp),
        .recv]).received ∧
    (run (step ConnRun.apiVersionsOnly) (start "t")
        [asking, .arrives [0, 0, 0, 5, 0, 0, 0, 1, 9] (by simp), .recv]).written =
      (run (step ConnRun.apiVersionsOnly) (start "t") [asking, .arrives [0] (by simp),
        .arrives [0, 0] (by simp), .arrives [5, 0, 0] (by simp), .arrives [0, 1, 9] (by simp),
        .recv]).written :=
  received_of_sameCalls ConnRun.apiVersionsOnly "t" (.call asking (@SameCalls.arrive Unit
    [[0, 0, 0, 5, 0, 0, 0, 1, 9]] [[0], [0, 0], [5, 0, 0], [0, 1, 9]] rfl (by simp) (by simp)
    _ _ (.call .recv .nil)))

/-! ### A call that is given up -/

theorem step_received (earlier : List (Option (Except Error (Core.PendingResponse κ)))) (u : Use κ)
    (op : Op κ) : step P { u with received := earlier ++ u.received } op =
      { step P u op with received := earlier ++ (step P u op).received } := by
  cases op with
  | request apiKey version encode => rfl
  | arrives piece hpiece => rfl
  | ends ending => rfl
  | recv => simp only [step, List.append_assoc]

theorem run_received (earlier : List (Option (Except Error (Core.PendingResponse κ)))) (u : Use κ)
    (ops : List (Op κ)) : run (step P) { u with received := earlier ++ u.received } ops =
      { run (step P) u ops with received := earlier ++ (run (step P) u ops).received } := by
  induction ops generalizing u with
  | nil => rfl
  | cons op ops ih =>
      show run (step P) (step P _ op) ops = _
      rw [step_received, ih]
      rfl

/-- What a call that waits leaves cannot be told from what there was before it. -/
theorem step_recv_waiting {u : Use κ} (h : (recv P u.conn u.socket).1 = none) :
    ∃ u', Alike u' { u with received := [] } ∧
      step P u .recv = { u' with received := u.received ++ [none] ++ u'.received } := by
  obtain ⟨hafter, hending⟩ := recv_waiting P h
  refine ⟨⟨(recv P u.conn u.socket).2.1, (recv P u.conn u.socket).2.2, u.written, []⟩,
    ⟨hafter, hending, rfl, rfl⟩, ?_⟩
  rw [List.append_nil, ← h]
  rfl

/-- **A call can be given up.** If a receive is dropped while it waits, everything that
follows goes as if it had not been made. -/
theorem run_recv_waiting {u : Use κ} (h : (recv P u.conn u.socket).1 = none) (ops : List (Op κ)) :
    ∃ later, (run (step P) u ops).received = u.received ++ later ∧
      (run (step P) u (.recv :: ops)).received = u.received ++ none :: later ∧
      (run (step P) u (.recv :: ops)).written = (run (step P) u ops).written := by
  obtain ⟨u', halike, hstep⟩ := step_recv_waiting P h
  have hrun := alike_sameCalls P (SameCalls.refl ops) halike
  have hu := run_received P u.received { u with received := [] } ops
  rw [List.append_nil] at hu
  have hu' := run_received P (u.received ++ [none]) u' ops
  rw [← hstep] at hu'
  have hlater : (run (step P) u (.recv :: ops)).received =
      u.received ++ [none] ++ (run (step P) u' ops).received := congrArg Use.received hu'
  refine ⟨_, congrArg Use.received hu, ?_, ?_⟩
  · rw [hlater, hrun.received, List.append_assoc, List.singleton_append]
  · exact (congrArg Use.written hu').trans (hrun.written.trans (congrArg Use.written hu).symm)

/-- A receive is given up when half of the length has come in. -/
theorem run_recv_waiting_half :
    ∃ later, (run (step ConnRun.apiVersionsOnly)
        (run (step ConnRun.apiVersionsOnly) (start "t") [asking, .arrives [0, 0] (by simp)])
        [.arrives [0, 5, 0, 0, 0, 1, 9] (by simp), .recv]).received = [] ++ later ∧
      (run (step ConnRun.apiVersionsOnly)
        (run (step ConnRun.apiVersionsOnly) (start "t") [asking, .arrives [0, 0] (by simp)])
        [.recv, .arrives [0, 5, 0, 0, 0, 1, 9] (by simp), .recv]).received = [] ++ none :: later ∧
      (run (step ConnRun.apiVersionsOnly)
        (run (step ConnRun.apiVersionsOnly) (start "t") [asking, .arrives [0, 0] (by simp)])
        [.recv, .arrives [0, 5, 0, 0, 0, 1, 9] (by simp), .recv]).written =
      (run (step ConnRun.apiVersionsOnly)
        (run (step ConnRun.apiVersionsOnly) (start "t") [asking, .arrives [0, 0] (by simp)])
        [.arrives [0, 5, 0, 0, 0, 1, 9] (by simp), .recv]).written :=
  run_recv_waiting ConnRun.apiVersionsOnly (Option.isNone_iff_eq_none.mp (by
    rw [(recv_eq _ _ _).1]
    decide)) _

end Socket

end Barnabas.Client
