import Barnabas.Core.Frame

/-!
Request/response correlation over one broker connection
(`barnabas-core/src/conn.rs`), on the bytes themselves.

A broker answers a connection's requests in the order they were sent, so that
responses are matched by position and the correlation id is a check. The codecs
of the protocol crate are the parameter `Protocol`, over its type of API keys.
-/

namespace Barnabas.Core

open Barnabas.Lib Barnabas.Lib.Act

structure RequestHeader where
  requestApiKey : ℤ
  requestApiVersion : ℤ
  correlationId : ℤ
  clientId : Option String
  deriving DecidableEq, Repr

/-- What is used of the protocol crate: the names and codes of its API keys, and the
codecs of the headers. Decoding a header leaves the bytes after it. -/
structure Protocol (κ : Type) where
  name : κ → String
  code : κ → ℤ
  encodeRequestHeader : RequestHeader → Except String Bytes
  responseHeaderVersion : κ → ℤ → ℤ
  decodeResponseHeader : ℤ → Bytes → Except String (ℤ × Bytes)

/-- A request awaiting its response. -/
structure Pending (κ : Type) where
  apiKey : κ
  version : ℤ
  correlationId : ℤ
  deriving DecidableEq, Repr

/-- A response, matched to the request that asked for it, its header consumed. -/
structure PendingResponse (κ : Type) where
  apiKey : κ
  version : ℤ
  correlationId : ℤ
  body : Bytes
  deriving DecidableEq, Repr

/-- One broker connection's protocol state. Owns no socket. -/
structure Connection (κ : Type) where
  clientId : String
  nextCorrelationId : ℤ
  inFlight : List (Pending κ)
  decoder : FrameDecoder

namespace Connection

variable {κ : Type}

def new (clientId : String) : Connection κ := ⟨clientId, 0, [], .new defaultMaxFrame⟩

variable (P : Protocol κ)

/-- Encode a request into a framed buffer and record it as in flight. The request is
given by its encoder. -/
def request (apiKey : κ) (version : ℤ) (encode : ℤ → Except String Bytes) :
    Act (Connection κ) Error Bytes := do
  let conn ← get
  let correlationId := wrap 32 (conn.nextCorrelationId + 1)
  set { conn with nextCorrelationId := correlationId }
  match P.encodeRequestHeader ⟨P.code apiKey, version, correlationId, some conn.clientId⟩ with
  | .error e => throw (.codec ("encode header: " ++ e))
  | .ok header =>
      match encode version with
      | .error e =>
          throw (.codec ("encode " ++ P.name apiKey ++ " v" ++ toString version ++ ": " ++ e))
      | .ok body => do
          modify fun conn => { conn with
            inFlight := conn.inFlight ++ [⟨apiKey, version, correlationId⟩] }
          Act.ofExcept (frame (header ++ body))

/-- Feed bytes from the socket. -/
def pushBytes (bytes : Bytes) (conn : Connection κ) : Connection κ :=
  { conn with decoder := conn.decoder.push bytes }

/-- Match a frame to the oldest request in flight. On a mismatch the request is left in
flight. -/
def matchOldest (frame : Bytes) : Act (Connection κ) Error (PendingResponse κ) := do
  let conn ← get
  match conn.inFlight with
  | [] => throw .unsolicited
  | pending :: rest =>
      match P.decodeResponseHeader (P.responseHeaderVersion pending.apiKey pending.version)
          frame with
      | .error e => throw (.codec ("decode response header: " ++ e))
      | .ok (correlationId, body) =>
          if correlationId ≠ pending.correlationId then
            throw (.correlation correlationId pending.correlationId)
          else do
            set { conn with inFlight := rest }
            pure ⟨pending.apiKey, pending.version, correlationId, body⟩

/-- Take the next complete response, matched to its request. -/
def nextResponse : Act (Connection κ) Error (Option (PendingResponse κ)) := do
  match ← Act.zoom (·.decoder) (fun conn decoder => { conn with decoder })
      FrameDecoder.nextFrame with
  | none => pure none
  | some frame => do
      let resp ← matchOldest P frame
      pure (some resp)

/-! ### One call -/

/-- A request is refused before it is recorded, is recorded and sent, or is recorded
and turns out too long for a frame. -/
theorem request_cases (apiKey : κ) (version : ℤ) (encode : ℤ → Except String Bytes)
    (conn : Connection κ) :
    ∃ conn', conn'.decoder = conn.decoder ∧
      ((∃ e, request P apiKey version encode conn = (.error e, conn') ∧
          conn'.inFlight = conn.inFlight) ∨
        ∃ header body, P.encodeRequestHeader ⟨P.code apiKey, version,
            wrap 32 (conn.nextCorrelationId + 1), some conn.clientId⟩ = .ok header ∧
          encode version = .ok body ∧
          conn'.nextCorrelationId = wrap 32 (conn.nextCorrelationId + 1) ∧
          conn'.inFlight = conn.inFlight ++
            [⟨apiKey, version, wrap 32 (conn.nextCorrelationId + 1)⟩] ∧
          request P apiKey version encode conn = (frame (header ++ body), conn')) := by
  unfold request
  rw [bind_of_ok (get_apply conn), bind_of_ok (set_apply _ _)]
  rcases hheader : P.encodeRequestHeader ⟨P.code apiKey, version,
      wrap 32 (conn.nextCorrelationId + 1), some conn.clientId⟩ with e | header
  · exact ⟨{ conn with nextCorrelationId := wrap 32 (conn.nextCorrelationId + 1) }, rfl,
      .inl ⟨_, rfl, rfl⟩⟩
  · rcases hbody : encode version with e | body
    · exact ⟨{ conn with nextCorrelationId := wrap 32 (conn.nextCorrelationId + 1) }, rfl,
        .inl ⟨_, rfl, rfl⟩⟩
    · exact ⟨⟨conn.clientId, wrap 32 (conn.nextCorrelationId + 1), conn.inFlight ++
        [⟨apiKey, version, wrap 32 (conn.nextCorrelationId + 1)⟩], conn.decoder⟩, rfl,
        .inr ⟨header, body, rfl, rfl, rfl, rfl, rfl⟩⟩

theorem zoom_nextFrame {conn : Connection κ} {result : Except Error (Option Bytes)}
    {decoder : FrameDecoder} (hnext : FrameDecoder.nextFrame conn.decoder = (result, decoder)) :
    (Act.zoom (·.decoder) (fun conn decoder => { conn with decoder })
      FrameDecoder.nextFrame : Act (Connection κ) Error _) conn =
        (result, { conn with decoder }) := by
  rw [zoom_apply, hnext]

/-- A frame is matched to nothing, and everything is left in flight, or its header
names the oldest request. -/
theorem matchOldest_cases (frame : Bytes) (conn : Connection κ) :
    (∃ e, matchOldest P frame conn = (.error e, conn)) ∨
      ∃ pending rest body, conn.inFlight = pending :: rest ∧
        matchOldest P frame conn = (.ok ⟨pending.apiKey, pending.version, pending.correlationId,
          body⟩, { conn with inFlight := rest }) := by
  unfold matchOldest
  rw [bind_of_ok (get_apply conn)]
  rcases conn.inFlight with _ | ⟨pending, rest⟩
  · exact .inl ⟨_, rfl⟩
  · dsimp only
    rcases P.decodeResponseHeader (P.responseHeaderVersion pending.apiKey pending.version) frame
      with e | ⟨id, body⟩
    · exact .inl ⟨_, rfl⟩
    · dsimp only
      by_cases hid : id = pending.correlationId
      · rw [if_neg (not_not.mpr hid), hid]
        exact .inr ⟨pending, rest, body, rfl, rfl⟩
      · rw [if_pos hid]
        exact .inl ⟨_, rfl⟩

theorem matchOldest_answered {conn : Connection κ} {frame body : Bytes} {pending : Pending κ}
    {rest : List (Pending κ)} (hflight : conn.inFlight = pending :: rest)
    (hheader : P.decodeResponseHeader (P.responseHeaderVersion pending.apiKey pending.version)
      frame = .ok (pending.correlationId, body)) :
    matchOldest P frame conn = (.ok ⟨pending.apiKey, pending.version, pending.correlationId,
      body⟩, { conn with inFlight := rest }) := by
  rw [matchOldest, bind_of_ok (get_apply conn), hflight]
  dsimp only
  rw [hheader]
  dsimp only
  rw [if_neg (not_not.mpr rfl)]
  rfl

theorem nextResponse_some {conn conn' : Connection κ} {frame : Bytes} {decoder : FrameDecoder}
    {resp : PendingResponse κ}
    (hnext : FrameDecoder.nextFrame conn.decoder = (.ok (some frame), decoder))
    (hmatch : matchOldest P frame { conn with decoder } = (.ok resp, conn')) :
    nextResponse P conn = (.ok (some resp), conn') := by
  rw [nextResponse, bind_of_ok (zoom_nextFrame hnext)]
  exact bind_of_ok hmatch

theorem nextResponse_unmatched {conn conn' : Connection κ} {frame : Bytes}
    {decoder : FrameDecoder} {e : Error}
    (hnext : FrameDecoder.nextFrame conn.decoder = (.ok (some frame), decoder))
    (hmatch : matchOldest P frame { conn with decoder } = (.error e, conn')) :
    nextResponse P conn = (.error e, conn') := by
  rw [nextResponse, bind_of_ok (zoom_nextFrame hnext)]
  exact bind_of_error hmatch

theorem nextResponse_none {conn : Connection κ} {decoder : FrameDecoder}
    (hnext : FrameDecoder.nextFrame conn.decoder = (.ok none, decoder)) :
    nextResponse P conn = (.ok none, { conn with decoder }) := by
  rw [nextResponse, bind_of_ok (zoom_nextFrame hnext)]
  rfl

theorem nextResponse_error {conn : Connection κ} {e : Error} {decoder : FrameDecoder}
    (hnext : FrameDecoder.nextFrame conn.decoder = (.error e, decoder)) :
    nextResponse P conn = (.error e, { conn with decoder }) :=
  bind_of_error (zoom_nextFrame hnext)

/-- Whatever the bytes, a response is one to the oldest request in flight, and a call
that fails leaves what is in flight as it was. -/
theorem nextResponse_matches (conn : Connection κ) :
    (∀ resp, (nextResponse P conn).1 = .ok (some resp) → ∃ pending,
        conn.inFlight = pending :: (nextResponse P conn).2.inFlight ∧
        resp.apiKey = pending.apiKey ∧ resp.version = pending.version ∧
        resp.correlationId = pending.correlationId) ∧
      ∀ e, (nextResponse P conn).1 = .error e →
        (nextResponse P conn).2.inFlight = conn.inFlight := by
  rcases hnext : FrameDecoder.nextFrame conn.decoder with ⟨e | _ | body, decoder⟩
  · rw [nextResponse_error P hnext]
    exact ⟨fun resp h => (by cases h), fun _ _ => rfl⟩
  · rw [nextResponse_none P hnext]
    exact ⟨fun resp h => (by cases h), fun e h => (by cases h)⟩
  · rcases matchOldest_cases P body { conn with decoder } with
      ⟨e, hmatch⟩ | ⟨pending, rest, body', hflight, hmatch⟩
    · rw [nextResponse_unmatched P hnext hmatch]
      exact ⟨fun resp h => (by cases h), fun _ _ => rfl⟩
    · rw [nextResponse_some P hnext hmatch]
      refine ⟨fun resp h => ?_, fun e h => (by cases h)⟩
      cases h
      exact ⟨pending, hflight, rfl, rfl, rfl⟩

end Connection

/-! ### Runs against a broker that answers in order -/

/-- What the owner of a connection does with it. -/
inductive ConnOp (κ : Type)
  | request (apiKey : κ) (version : ℤ) (encode : ℤ → Except String Bytes)
  | pushBytes (bytes : Bytes)
  | nextResponse

/-- A connection in use: the requests that were handed out to be written, the bytes that
came in, and what reading returned. -/
structure ConnRun (κ : Type) where
  conn : Connection κ
  made : List (Pending κ)
  pushed : Bytes
  results : List (Except Error (Option (PendingResponse κ)))

namespace ConnRun

variable {κ : Type} (P : Protocol κ)

def start (clientId : String) : ConnRun κ := ⟨.new clientId, [], [], []⟩

/-- A request that failed was not written. One that did not carries the correlation id
the connection has just moved to. -/
def step (r : ConnRun κ) : ConnOp κ → ConnRun κ
  | .request apiKey version encode =>
      match Connection.request P apiKey version encode r.conn with
      | (.ok _, conn) =>
          { r with conn, made := r.made ++ [⟨apiKey, version, conn.nextCorrelationId⟩] }
      | (.error _, conn) => { r with conn }
  | .pushBytes bytes => { r with conn := r.conn.pushBytes bytes, pushed := r.pushed ++ bytes }
  | .nextResponse =>
      let (result, conn) := Connection.nextResponse P r.conn
      { r with conn, results := r.results ++ [result] }

@[simp] theorem pushed_step_pushBytes (r : ConnRun κ) (bytes : Bytes) :
    (step P r (.pushBytes bytes)).pushed = r.pushed ++ bytes := rfl

@[simp] theorem made_step_pushBytes (r : ConnRun κ) (bytes : Bytes) :
    (step P r (.pushBytes bytes)).made = r.made := rfl

@[simp] theorem pushed_step_nextResponse (r : ConnRun κ) :
    (step P r .nextResponse).pushed = r.pushed := rfl

@[simp] theorem made_step_nextResponse (r : ConnRun κ) :
    (step P r .nextResponse).made = r.made := rfl

/-- The response a call returned, if it returned one. -/
def responseOf : Except Error (Option (PendingResponse κ)) → Option (PendingResponse κ)
  | .ok found => found
  | .error _ => none

/-- The responses returned so far. -/
def returned (r : ConnRun κ) : List (PendingResponse κ) := r.results.filterMap responseOf

/-- The broker's side: a header under the version the request's own version has for
responses, and then the body. -/
def answer (encodeResponseHeader : ℤ → ℤ → Bytes) (pending : Pending κ) (body : Bytes) : Bytes :=
  encodeResponseHeader (P.responseHeaderVersion pending.apiKey pending.version)
    pending.correlationId ++ body

/-- The answers to the requests of a connection. -/
def answers (encodeResponseHeader : ℤ → ℤ → Bytes) (bodies : ℕ → Bytes)
    (made : List (Pending κ)) : List Bytes :=
  made.mapIdx fun i pending => answer P encodeResponseHeader pending (bodies i)

/-- The bytes in are so far those of a broker that answers what it was sent, in order,
and with no frame above the limit. -/
structure InOrder (encodeResponseHeader : ℤ → ℤ → Bytes) (bodies : ℕ → Bytes)
    (r : ConnRun κ) : Prop where
  stream : r.pushed <+: wire (answers P encodeResponseHeader bodies r.made)
  short : ∀ frame ∈ answers P encodeResponseHeader bodies r.made, frame.length ≤ defaultMaxFrame

/-- No request that is made next is too long for a frame. -/
def Fitting (r : ConnRun κ) : ConnOp κ → Prop
  | .request apiKey version encode => ∀ header body,
      P.encodeRequestHeader ⟨P.code apiKey, version, wrap 32 (r.conn.nextCorrelationId + 1),
        some r.conn.clientId⟩ = .ok header → encode version = .ok body →
      ((header ++ body).length : ℤ) ≤ i32Max
  | _ => True

/-- The header codec of the protocol crate reads back what its encoder wrote. -/
def Inverse (encodeResponseHeader : ℤ → ℤ → Bytes) : Prop :=
  ∀ version correlationId body, Fits 32 correlationId →
    P.decodeResponseHeader version (encodeResponseHeader version correlationId ++ body) =
      .ok (correlationId, body)

/-- The response that carries the answer to a request. -/
def response (bodies : ℕ → Bytes) (i : ℕ) (pending : Pending κ) : PendingResponse κ :=
  ⟨pending.apiKey, pending.version, pending.correlationId, bodies i⟩

variable {encodeResponseHeader : ℤ → ℤ → Bytes} {bodies : ℕ → Bytes}

/-- The requests made are those answered and those in flight, and the decoder holds the
bytes of the answers that are still to come. -/
structure Matched (encodeResponseHeader : ℤ → ℤ → Bytes) (bodies : ℕ → Bytes)
    (done : List (Pending κ)) (r : ConnRun κ) : Prop where
  made : r.made = done ++ r.conn.inFlight
  returned : r.returned = done.mapIdx (response bodies)
  buffer : wire (answers P encodeResponseHeader bodies done) ++ r.conn.decoder.buf = r.pushed
  limit : r.conn.decoder.maxFrame = defaultMaxFrame
  ids : ∀ pending ∈ r.made, Fits 32 pending.correlationId
  results : ∀ result ∈ r.results, ∃ found, result = .ok found

theorem matched_start (clientId : String) :
    Matched P encodeResponseHeader bodies [] (start (κ := κ) clientId) where
  made := rfl
  returned := rfl
  buffer := rfl
  limit := rfl
  ids := by simp [start]
  results := by simp [start]

theorem answers_append (done rest : List (Pending κ)) :
    answers P encodeResponseHeader bodies (done ++ rest) =
      answers P encodeResponseHeader bodies done ++
        answers P encodeResponseHeader (fun i => bodies (i + done.length)) rest := by
  simp [answers, List.mapIdx_append]

variable {r : ConnRun κ} {done : List (Pending κ)}

/-- The decoder's bytes are the beginning of the answers to what is in flight. -/
theorem Matched.todo (h : Matched P encodeResponseHeader bodies done r)
    (hbroker : InOrder P encodeResponseHeader bodies r) :
    r.conn.decoder.buf <+: wire (answers P encodeResponseHeader (fun i => bodies (i + done.length))
        r.conn.inFlight) ∧
      ∀ body ∈ answers P encodeResponseHeader (fun i => bodies (i + done.length)) r.conn.inFlight,
        Announced body ∧ body.length ≤ r.conn.decoder.maxFrame := by
  have hstream := hbroker.stream
  have hshort := hbroker.short
  rw [h.made, answers_append] at hstream hshort
  rw [← h.buffer, wire_append] at hstream
  refine ⟨(List.prefix_append_right_inj _).mp hstream, fun body hbody => ?_⟩
  have hlength := hshort body (List.mem_append_right _ hbody)
  rw [h.limit]
  refine ⟨?_, hlength⟩
  rw [Announced, i32Max]
  rw [defaultMaxFrame] at hlength
  omega

/-- A read finds nothing yet, or the answer to the oldest request. -/
theorem Matched.nextResponse_cases (hinverse : Inverse P encodeResponseHeader)
    (h : Matched P encodeResponseHeader bodies done r)
    (hbroker : InOrder P encodeResponseHeader bodies r) :
    (Connection.nextResponse P r.conn = (.ok none, r.conn) ∧
        ∀ body rest, Announced body → r.conn.decoder.buf ≠ framed body ++ rest) ∨
      ∃ pending rest, r.conn.inFlight = pending :: rest ∧
        ∃ tail, r.conn.decoder.buf =
            framed (answer P encodeResponseHeader pending (bodies done.length)) ++ tail ∧
          Connection.nextResponse P r.conn = (.ok (some (response bodies done.length pending)),
            { r.conn with decoder := { r.conn.decoder with buf := tail }, inFlight := rest }) := by
  obtain ⟨hbuf, hbodies⟩ := h.todo P hbroker
  rcases FrameDecoder.nextFrame_cases r.conn.decoder with
    ⟨-, hnext, hnone⟩ | ⟨hrefuses, -⟩ | ⟨-, body, tail, hbody, heq, hnext⟩
  · exact .inl ⟨Connection.nextResponse_none P hnext, hnone⟩
  · exact absurd hrefuses (FrameDecoder.not_refuses_of_prefix hbodies hbuf)
  · have hfirst : [body] <+: answers P encodeResponseHeader (fun i => bodies (i + done.length))
        r.conn.inFlight := by
      have hwire : wire [body] ++ tail <+: wire (answers P encodeResponseHeader
          (fun i => bodies (i + done.length)) r.conn.inFlight) := by
        rw [heq] at hbuf
        simpa using hbuf
      exact prefix_of_wire (by simpa using hbody) (fun b hb => (hbodies b hb).1) hwire
    cases hflight : r.conn.inFlight with
    | nil =>
        rw [hflight] at hfirst
        simp [answers] at hfirst
    | cons pending rest =>
        rw [hflight, answers, List.mapIdx_cons, List.prefix_cons_iff] at hfirst
        obtain hnil | ⟨_, hhead, -⟩ := hfirst
        · cases hnil
        · have hanswer : body = answer P encodeResponseHeader pending (bodies done.length) := by
            have hbody := (List.cons.inj hhead).1
            rw [Nat.zero_add] at hbody
            exact hbody
          have hid : Fits 32 pending.correlationId := h.ids pending (by simp [h.made, hflight])
          have hdecode := hinverse (P.responseHeaderVersion pending.apiKey pending.version)
            pending.correlationId (bodies done.length) hid
          subst hanswer
          refine .inr ⟨pending, rest, rfl, tail, heq, ?_⟩
          exact Connection.nextResponse_some P hnext
            (Connection.matchOldest_answered P hflight hdecode)

theorem Matched.request (h : Matched P encodeResponseHeader bodies done r) {apiKey : κ} {version : ℤ}
    {encode : ℤ → Except String Bytes} (hfitting : Fitting P r (.request apiKey version encode)) :
    Matched P encodeResponseHeader bodies done (step P r (.request apiKey version encode)) := by
  obtain ⟨conn', hdecoder, hcases⟩ := Connection.request_cases P apiKey version encode r.conn
  rcases hcases with ⟨e, heq, hflight⟩ | ⟨header, body, hheader, hbody, hid, hflight, heq⟩
  · have hstep : step P r (.request apiKey version encode) = { r with conn := conn' } := by
      rw [step, heq]
    rw [hstep]
    refine ⟨?_, h.returned, ?_, ?_, h.ids, h.results⟩
    · rw [hflight]
      exact h.made
    · rw [hdecoder]
      exact h.buffer
    · rw [hdecoder]
      exact h.limit
  · rw [frame_eq_ok_iff.mpr ⟨hfitting header body hheader hbody, rfl⟩] at heq
    have hstep : step P r (.request apiKey version encode) = { r with
        conn := conn', made := r.made ++ [⟨apiKey, version, conn'.nextCorrelationId⟩] } := by
      rw [step, heq]
    rw [hstep]
    refine ⟨?_, h.returned, ?_, ?_, ?_, h.results⟩
    · rw [hflight, hid, h.made, List.append_assoc]
    · rw [hdecoder]
      exact h.buffer
    · rw [hdecoder]
      exact h.limit
    · intro pending hpending
      rcases List.mem_append.mp hpending with hpending | hpending
      · exact h.ids pending hpending
      · rw [List.mem_singleton.mp hpending, hid]
        exact fits_wrap (by decide) _

theorem Matched.pushBytes (h : Matched P encodeResponseHeader bodies done r) (bytes : Bytes) :
    Matched P encodeResponseHeader bodies done (step P r (.pushBytes bytes)) := by
  refine ⟨h.made, h.returned, ?_, h.limit, h.ids, h.results⟩
  change wire _ ++ (r.conn.decoder.buf ++ bytes) = r.pushed ++ bytes
  rw [← List.append_assoc, h.buffer]

theorem Matched.nextResponse (hinverse : Inverse P encodeResponseHeader)
    (h : Matched P encodeResponseHeader bodies done r)
    (hbroker : InOrder P encodeResponseHeader bodies r) :
    ∃ done', Matched P encodeResponseHeader bodies done' (step P r .nextResponse) := by
  have hresults : ∀ result : Except Error (Option (PendingResponse κ)), (∃ found, result = .ok found) →
      ∀ result' ∈ r.results ++ [result], ∃ found, result' = .ok found := by
    intro result hresult result' hmem
    rcases List.mem_append.mp hmem with hmem | hmem
    · exact h.results result' hmem
    · rw [List.mem_singleton.mp hmem]
      exact hresult
  rcases h.nextResponse_cases P hinverse hbroker with
    ⟨heq, -⟩ | ⟨pending, rest, hflight, tail, hbuf, heq⟩
  · have hstep : step P r .nextResponse = { r with results := r.results ++ [.ok none] } := by
      rw [step, heq]
    rw [hstep]
    refine ⟨done, h.made, ?_, h.buffer, h.limit, h.ids, hresults _ ⟨none, rfl⟩⟩
    rw [← h.returned]
    simp [ConnRun.returned, responseOf]
  · have hstep : step P r .nextResponse = ⟨{ r.conn with
          decoder := { r.conn.decoder with buf := tail }, inFlight := rest }, r.made, r.pushed,
        r.results ++ [.ok (some (response bodies done.length pending))]⟩ := by
      rw [step, heq]
    rw [hstep]
    refine ⟨done ++ [pending], ?_, ?_, ?_, h.limit, h.ids, hresults _ ⟨_, rfl⟩⟩
    · rw [h.made, hflight, List.append_assoc]
      rfl
    · have hreturned : ConnRun.returned ⟨{ r.conn with
            decoder := { r.conn.decoder with buf := tail }, inFlight := rest }, r.made, r.pushed,
          r.results ++ [.ok (some (response bodies done.length pending))]⟩ =
            r.returned ++ [response bodies done.length pending] := by
        simp [ConnRun.returned, responseOf]
      rw [hreturned, h.returned, List.mapIdx_append]
      simp
    · rw [← h.buffer, hbuf, answers_append, wire_append, List.append_assoc]
      simp [answers]

/-- With all the bytes of the answers in, a read returns the next answer. -/
theorem Matched.nextResponse_eq (hinverse : Inverse P encodeResponseHeader)
    (h : Matched P encodeResponseHeader bodies done r)
    (hbroker : InOrder P encodeResponseHeader bodies r)
    (hall : r.pushed = wire (answers P encodeResponseHeader bodies r.made)) :
    (Connection.nextResponse P r.conn).1 =
      .ok (r.made[done.length]?.map (response bodies done.length)) := by
  have hnext : r.made[done.length]? = r.conn.inFlight.head? := by
    rw [h.made, List.getElem?_append_right (le_refl _), Nat.sub_self, List.head?_eq_getElem?]
  rw [hnext]
  rcases h.nextResponse_cases P hinverse hbroker with
    ⟨heq, hnone⟩ | ⟨pending, rest, hflight, tail, -, heq⟩
  · rw [heq]
    cases hflight : r.conn.inFlight with
    | nil => rfl
    | cons pending rest =>
        obtain ⟨-, hbodies⟩ := h.todo P hbroker
        rw [← h.buffer, h.made, answers_append, wire_append] at hall
        have hbuf := List.append_cancel_left hall
        rw [hflight, answers, List.mapIdx_cons] at hbuf hbodies
        exact absurd hbuf (hnone _ _ (hbodies _ (by simp)).1)
  · rw [heq, hflight]
    rfl

/-- Whatever the interleaving and however the bytes are cut, the `i`-th response is the
answer to the `i`-th request, the requests in flight are those made less those answered,
and no read fails, as long as the broker answers in order and every frame is within its
limit. With all the bytes in, the next read returns the next answer. Whatever the bytes,
a response is one to the oldest request in flight, and a read that fails leaves those in
flight as they were. -/
theorem responses_in_order (hinverse : Inverse P encodeResponseHeader) (clientId : String)
    (ops : List (ConnOp κ))
    (hbroker : ∀ pre, pre <+: ops →
      InOrder P encodeResponseHeader bodies (run (step P) (start clientId) pre))
    (hfitting : ∀ pre op, pre ++ [op] <+: ops →
      Fitting P (run (step P) (start clientId) pre) op) :
    (∀ r, r = run (step P) (start clientId) ops →
      (∃ done, r.made = done ++ r.conn.inFlight ∧
        r.returned = done.mapIdx (response bodies)) ∧
      r.conn.inFlight.length = r.made.length - r.returned.length ∧
      (∀ result ∈ r.results, ∃ found, result = .ok found) ∧
      (r.pushed = wire (answers P encodeResponseHeader bodies r.made) →
        (Connection.nextResponse P r.conn).1 =
          .ok (r.made[r.returned.length]?.map (response bodies r.returned.length)))) ∧
    ∀ conn : Connection κ,
      (∀ resp, (Connection.nextResponse P conn).1 = .ok (some resp) → ∃ pending,
        conn.inFlight = pending :: (Connection.nextResponse P conn).2.inFlight ∧
        resp.correlationId = pending.correlationId) ∧
      ∀ e, (Connection.nextResponse P conn).1 = .error e →
        (Connection.nextResponse P conn).2.inFlight = conn.inFlight := by
  refine ⟨fun r hr => ?_, fun conn => ⟨fun resp hresp => ?_,
    (Connection.nextResponse_matches P conn).2⟩⟩
  · obtain ⟨done, h⟩ : ∃ done, Matched P encodeResponseHeader bodies done r := by
      rw [hr]
      refine run_induction_of_prefix
        (I := fun _ r => ∃ done, Matched P encodeResponseHeader bodies done r)
        ⟨[], matched_start P clientId⟩ ops ?_
      rintro pre op hpre ⟨done, h⟩
      cases op with
      | request apiKey version encode => exact ⟨done, h.request P (hfitting pre _ hpre)⟩
      | pushBytes bytes => exact ⟨done, h.pushBytes P bytes⟩
      | nextResponse =>
          exact h.nextResponse P hinverse (hbroker pre ((List.prefix_append _ _).trans hpre))
    have hreturned : r.returned.length = done.length := by
      rw [h.returned, List.length_mapIdx]
    refine ⟨⟨done, h.made, h.returned⟩, ?_, h.results, fun hall => ?_⟩
    · rw [h.made, hreturned, List.length_append]
      omega
    · rw [hreturned]
      exact h.nextResponse_eq P hinverse (hr ▸ hbroker ops (List.prefix_refl _)) hall
  · obtain ⟨pending, hflight, -, -, hid⟩ := (Connection.nextResponse_matches P conn).1 resp hresp
    exact ⟨pending, hflight, hid⟩

/-- The protocol of a client with a name in ASCII that asks for `ApiVersions` only, whose
response header is the correlation id and nothing else. -/
def apiVersionsOnly : Protocol Unit where
  name _ := "ApiVersions"
  code _ := 18
  encodeRequestHeader header := .ok (intBytes 2 header.requestApiKey ++
    intBytes 2 header.requestApiVersion ++ intBytes 4 header.correlationId ++
    (match header.clientId with
      | some id => intBytes 2 id.length ++ id.toList.map fun c => UInt8.ofNat c.toNat
      | none => intBytes 2 (-1)) ++ [0])
  responseHeaderVersion _ _ := 0
  decodeResponseHeader _ bytes :=
    match i32At bytes 0 with
    | some id => .ok (id, bytes.drop 4)
    | none => .error "unexpected end of buffer"

theorem inverse_apiVersionsOnly : Inverse apiVersionsOnly fun _ id => intBytes 4 id := by
  intro version id body hid
  have hread := intAt_intBytes (show 0 < 4 by decide) hid [] body
  rw [List.nil_append, List.length_nil] at hread
  change (match i32At (intBytes 4 id ++ body) 0 with
    | some id' => (.ok (id', (intBytes 4 id ++ body).drop 4) : Except String (ℤ × Bytes))
    | none => .error "unexpected end of buffer") = _
  rw [i32At, hread]
  simp

theorem fitting_first :
    Fitting apiVersionsOnly (start "t") (.request () 3 fun _ => .ok []) := by
  rintro header body hheader hbody
  cases hheader
  cases hbody
  decide

/-- One request, and its answer cut inside the length prefix. -/
theorem responses_in_order_cut :
    (run (step apiVersionsOnly) (start "t")
      [.request () 3 (fun _ => .ok []), .pushBytes [0, 0, 0], .nextResponse,
        .pushBytes [5, 0, 0, 0, 1, 9], .nextResponse]).returned.length = 1 ∧
    ∀ result ∈ (run (step apiVersionsOnly) (start "t")
      [.request () 3 (fun _ => .ok []), .pushBytes [0, 0, 0], .nextResponse,
        .pushBytes [5, 0, 0, 0, 1, 9], .nextResponse]).results, ∃ found, result = .ok found := by
  refine ⟨by decide, ((@responses_in_order Unit apiVersionsOnly (fun _ id => intBytes 4 id)
    (fun _ => [9]) inverse_apiVersionsOnly "t" _ ?_ ?_).1 _ rfl).2.2.1⟩
  · refine forall_prefix fun i hi => ?_
    match i, hi with
    | 0, _ | 1, _ | 2, _ | 3, _ | 4, _ | 5, _ => exact ⟨by decide, by decide⟩
  · refine forall_position fun i hi => ?_
    match i, hi with
    | 0, _ => exact fitting_first
    | 1, _ | 2, _ | 3, _ | 4, _ => trivial

/-- A body as long as the longest frame leaves no room for the header. -/
theorem nextFrame_long {body : Bytes} (h : body.length = defaultMaxFrame) :
    ∃ e, FrameDecoder.nextFrame ⟨[] ++ framed (intBytes 4 1 ++ body), defaultMaxFrame⟩ =
      (.error e, ⟨[] ++ framed (intBytes 4 1 ++ body), defaultMaxFrame⟩) := by
  have hlength : (intBytes 4 1 ++ body).length = 4 + defaultMaxFrame := by
    rw [List.length_append, intBytes_length, h]
  have hannounced : Announced (intBytes 4 1 ++ body) := by
    rw [Announced, hlength]
    decide
  have hrefuses : FrameDecoder.Refuses
      ⟨[] ++ framed (intBytes 4 1 ++ body), defaultMaxFrame⟩ := by
    have hread := i32At_framed hannounced []
    rw [List.append_nil] at hread
    rw [List.nil_append]
    refine ⟨_, hread, .inr ?_⟩
    show (defaultMaxFrame : ℤ) < _
    rw [hlength]
    decide
  rcases FrameDecoder.nextFrame_cases ⟨[] ++ framed (intBytes 4 1 ++ body), defaultMaxFrame⟩
    with ⟨htakes, -⟩ | ⟨-, e, hnext⟩ | ⟨htakes, -⟩
  · exact absurd hrefuses htakes
  · exact ⟨e, hnext⟩
  · exact absurd hrefuses htakes

/-- A connection that has written its first request. -/
def asked : ConnRun Unit :=
  ⟨⟨"t", 1, [⟨(), 3, 1⟩], ⟨[], defaultMaxFrame⟩⟩, [⟨(), 3, 1⟩], [], []⟩

theorem step_request :
    step apiVersionsOnly (start "t") (.request () 3 fun _ => .ok []) = asked := rfl

theorem step_nextResponse_error {bytes : Bytes} {e : Error} {decoder : FrameDecoder}
    (h : FrameDecoder.nextFrame ⟨[] ++ bytes, defaultMaxFrame⟩ = (.error e, decoder)) :
    .error e ∈ (step apiVersionsOnly (step apiVersionsOnly asked (.pushBytes bytes))
      .nextResponse).results := by
  apply List.mem_singleton.mpr
  exact (congrArg Prod.fst (Connection.nextResponse_error apiVersionsOnly h)).symm

theorem refused_of_length {body : Bytes} (h : body.length = defaultMaxFrame) :
    ∃ ops : List (ConnOp Unit), (∀ pre, pre <+: ops →
      (run (step apiVersionsOnly) (start "t") pre).pushed <+:
        wire (answers apiVersionsOnly (fun _ id => intBytes 4 id) (fun _ => body)
          (run (step apiVersionsOnly) (start "t") pre).made)) ∧
      (∀ pre op, pre ++ [op] <+: ops →
        Fitting apiVersionsOnly (run (step apiVersionsOnly) (start "t") pre) op) ∧
      ∃ e, .error e ∈ (run (step apiVersionsOnly) (start "t") ops).results := by
  obtain ⟨e, he⟩ := nextFrame_long h
  generalize hbytes : framed (intBytes 4 1 ++ body) = bytes at he
  have hstream : bytes <+: wire (answers apiVersionsOnly (fun _ id => intBytes 4 id)
      (fun _ => body) asked.made) := by
    rw [← hbytes, answers, asked, List.mapIdx_cons, List.mapIdx_nil, wire_cons, wire_nil]
    exact List.prefix_append (framed (intBytes 4 1 ++ body)) []
  refine ⟨[.request () 3 (fun _ => .ok []), .pushBytes bytes, .nextResponse], ?_, ?_, e, ?_⟩
  · refine forall_prefix fun i hi => ?_
    rcases i with _ | _ | _ | _ | i
    · exact List.nil_prefix
    · rw [List.take_succ_cons, List.take_zero, run, List.foldl_cons, step_request, List.foldl_nil]
      exact List.nil_prefix
    · rw [List.take_succ_cons, List.take_succ_cons, List.take_zero, run, List.foldl_cons,
        step_request, List.foldl_cons, List.foldl_nil, pushed_step_pushBytes,
        made_step_pushBytes]
      exact hstream
    · rw [List.take_succ_cons, List.take_succ_cons, List.take_succ_cons, List.take_zero, run,
        List.foldl_cons, step_request, List.foldl_cons, List.foldl_cons, List.foldl_nil,
        pushed_step_nextResponse, made_step_nextResponse, pushed_step_pushBytes,
        made_step_pushBytes]
      exact hstream
    · rw [List.length_cons, List.length_cons, List.length_singleton] at hi
      omega
  · refine forall_position fun i hi => ?_
    rcases i with _ | _ | _ | i
    · exact fitting_first
    · trivial
    · trivial
    · rw [List.length_cons, List.length_cons, List.length_singleton] at hi
      omega
  · rw [run, List.foldl_cons, step_request, List.foldl_cons, List.foldl_cons, List.foldl_nil]
    exact step_nextResponse_error he

def longBody : Bytes := List.replicate defaultMaxFrame 0

/-- The broker answers one request, in order. The answer is longer than the decoder
takes, and the read fails. -/
theorem long_answer_refused :
    ∃ ops : List (ConnOp Unit), (∀ pre, pre <+: ops →
      (run (step apiVersionsOnly) (start "t") pre).pushed <+:
        wire (answers apiVersionsOnly (fun _ id => intBytes 4 id) (fun _ => longBody)
          (run (step apiVersionsOnly) (start "t") pre).made)) ∧
      (∀ pre op, pre ++ [op] <+: ops →
        Fitting apiVersionsOnly (run (step apiVersionsOnly) (start "t") pre) op) ∧
      ∃ e, .error e ∈ (run (step apiVersionsOnly) (start "t") ops).results :=
  refused_of_length List.length_replicate

end ConnRun

end Barnabas.Core
