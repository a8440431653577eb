import Barnabas.Core.Conn

/-!
A request that is not sent (`barnabas-core/src/conn.rs`).

`Connection::request` can fail at three places: it encodes the header, encodes the body,
and puts the length in front. The entry in the queue is made before the last of them, so
that a request that fails there is never written and still counts as in flight.
-/

namespace Barnabas.Core

open Barnabas.Lib Barnabas.Lib.Act

namespace Connection

variable {κ : Type} (P : Protocol κ) (apiKey : κ) (version : ℤ)
  (encode : ℤ → Except String Bytes)

/-- Header and body encode, and are together longer than a length prefix can say. -/
def TooLong (conn : Connection κ) : Prop :=
  ∃ header body, P.encodeRequestHeader ⟨P.code apiKey, version,
      wrap 32 (conn.nextCorrelationId + 1), some conn.clientId⟩ = .ok header ∧
    encode version = .ok body ∧ i32Max < (header ++ body).length

/-- If the request fails, what is in flight is what was before. -/
def LeavesNothing (conn : Connection κ) : Prop :=
  ∀ e, (request P apiKey version encode conn).1 = .error e →
    (request P apiKey version encode conn).2.inFlight = conn.inFlight

variable {P apiKey version encode}

theorem request_of_encoded {conn : Connection κ} {header body : Bytes}
    (hheader : P.encodeRequestHeader ⟨P.code apiKey, version,
      wrap 32 (conn.nextCorrelationId + 1), some conn.clientId⟩ = .ok header)
    (hbody : encode version = .ok body) :
    request P apiKey version encode conn =
      (frame (header ++ body), { conn with
        nextCorrelationId := wrap 32 (conn.nextCorrelationId + 1)
        inFlight := conn.inFlight ++
          [⟨apiKey, version, wrap 32 (conn.nextCorrelationId + 1)⟩] }) := by
  unfold request
  rw [bind_of_ok (get_apply conn), bind_of_ok (set_apply _ _), hheader]
  dsimp only
  rw [hbody]
  rfl

theorem request_of_long {conn : Connection κ} {header body : Bytes}
    (hheader : P.encodeRequestHeader ⟨P.code apiKey, version,
      wrap 32 (conn.nextCorrelationId + 1), some conn.clientId⟩ = .ok header)
    (hbody : encode version = .ok body) (hlong : i32Max < (header ++ body).length) :
    request P apiKey version encode conn =
      (.error (.frameTooLarge (header ++ body).length i32Max.toNat), { conn with
        nextCorrelationId := wrap 32 (conn.nextCorrelationId + 1)
        inFlight := conn.inFlight ++
          [⟨apiKey, version, wrap 32 (conn.nextCorrelationId + 1)⟩] }) := by
  rw [request_of_encoded hheader hbody, frame, if_pos hlong]

/-- A request that fails leaves nothing in flight, except one that is too long. -/
theorem leavesNothing_iff (conn : Connection κ) :
    LeavesNothing P apiKey version encode conn ↔ ¬TooLong P apiKey version encode conn := by
  constructor
  · rintro hleaves ⟨header, body, hheader, hbody, hlong⟩
    have hrequest := request_of_long hheader hbody hlong
    have hsame := hleaves _ (congrArg Prod.fst hrequest)
    rw [hrequest] at hsame
    simp at hsame
  · intro hfits e herror
    obtain ⟨conn', -, ⟨e', heq, hflight⟩ | ⟨header, body, hheader, hbody, -, -, heq⟩⟩ :=
      request_cases P apiKey version encode conn
    · rw [heq]
      exact hflight
    · -- The encoders succeeded and the request failed, so it was too long for a frame.
      have hlong : i32Max < (header ++ body).length := by
        by_contra hshort
        rw [heq, frame, if_neg hshort] at herror
        cases herror
      exact absurd ⟨header, body, hheader, hbody, hlong⟩ hfits

end Connection

namespace ConnRun

variable {κ : Type} (P : Protocol κ)

/-- The request a response was matched to. -/
def matchedTo (resp : PendingResponse κ) : Pending κ :=
  ⟨resp.apiKey, resp.version, resp.correlationId⟩

/-- What was sent is what was answered, in this order, and then what is in flight. -/
def Accounted (r : ConnRun κ) : Prop :=
  r.made = r.returned.map matchedTo ++ r.conn.inFlight

/-- The next operation is no request that is too long. -/
def Sendable (r : ConnRun κ) : ConnOp κ → Prop
  | .request apiKey version encode => ¬Connection.TooLong P apiKey version encode r.conn
  | _ => True

variable {P} {r : ConnRun κ}

theorem Accounted.request (h : Accounted r) {apiKey : κ} {version : ℤ}
    {encode : ℤ → Except String Bytes} (hsend : Sendable P r (.request apiKey version encode)) :
    Accounted (step P r (.request apiKey version encode)) := by
  obtain ⟨conn', -, ⟨e, heq, hflight⟩ | ⟨header, body, hheader, hbody, hid, hflight, heq⟩⟩ :=
    Connection.request_cases P apiKey version encode r.conn
  · rw [step, heq]
    show r.made = r.returned.map matchedTo ++ conn'.inFlight
    rw [hflight]
    exact h
  · have hshort : ¬i32Max < (header ++ body).length := fun hlong =>
      hsend ⟨header, body, hheader, hbody, hlong⟩
    rw [frame, if_neg hshort] at heq
    rw [step, heq]
    show r.made ++ [⟨apiKey, version, conn'.nextCorrelationId⟩] =
      r.returned.map matchedTo ++ conn'.inFlight
    rw [hid, hflight, ← List.append_assoc, ← h]

theorem accounted_start (clientId : String) : Accounted (start (κ := κ) clientId) := rfl

/-- A read that returns nothing new and takes nothing out of the queue. -/
theorem Accounted.kept (h : Accounted r) {result : Except Error (Option (PendingResponse κ))}
    {conn : Connection κ} (hnext : Connection.nextResponse P r.conn = (result, conn))
    (hresult : responseOf result = none) (hflight : conn.inFlight = r.conn.inFlight) :
    Accounted (step P r .nextResponse) := by
  have hreturned : (step P r .nextResponse).returned = r.returned := by
    rw [step, hnext]
    simp [returned, hresult]
  have hconn : (step P r .nextResponse).conn = conn := by rw [step, hnext]
  rw [Accounted, hreturned, hconn, hflight]
  exact h

theorem Accounted.nextResponse (h : Accounted r) : Accounted (step P r .nextResponse) := by
  rcases hnext : FrameDecoder.nextFrame r.conn.decoder with ⟨e | _ | frame, decoder⟩
  · exact h.kept (Connection.nextResponse_error P hnext) rfl rfl
  · exact h.kept (Connection.nextResponse_none P hnext) rfl rfl
  · obtain ⟨e, hmatch⟩ | ⟨pending, rest, body, hflight, hmatch⟩ :=
      Connection.matchOldest_cases P frame { r.conn with decoder }
    · exact h.kept (Connection.nextResponse_unmatched P hnext hmatch) rfl rfl
    · have hread := Connection.nextResponse_some P hnext hmatch
      have hreturned : (step P r .nextResponse).returned =
          r.returned ++ [⟨pending.apiKey, pending.version, pending.correlationId, body⟩] := by
        rw [step, hread]
        simp [returned, responseOf]
      have hrest : (step P r .nextResponse).conn.inFlight = rest := by rw [step, hread]
      have hmade : (step P r .nextResponse).made = r.made := made_step_nextResponse P r
      rw [Accounted, hmade, hreturned, hrest, h, List.map_append, List.append_assoc]
      exact congrArg (r.returned.map matchedTo ++ ·) hflight

/-- What is in flight are the requests that were sent and not answered, and a response
is matched to the request it is in line for, in every run with no request too long. -/
theorem accounted_run (clientId : String) (ops : List (ConnOp κ))
    (hsend : ∀ pre op, pre ++ [op] <+: ops → Sendable P (run (step P) (start clientId) pre) op) :
    Accounted (run (step P) (start clientId) ops) := by
  refine run_induction_of_prefix (I := fun _ r => Accounted r)
    (accounted_start clientId) ops ?_
  intro pre op hpre h
  cases op with
  | request apiKey version encode => exact h.request (hsend pre _ hpre)
  | pushBytes bytes => exact h
  | nextResponse => exact h.nextResponse

variable (P) in
/-- A request that fails leaves nothing in flight if and only if it is not one whose
header and body encode and are too long. In every run with no such request the
responses are matched, in order, to the requests that were sent. -/
theorem failed_requests_leave_nothing :
    (∀ (apiKey : κ) (version : ℤ) (encode : ℤ → Except String Bytes) (conn : Connection κ),
      Connection.LeavesNothing P apiKey version encode conn ↔
        ¬Connection.TooLong P apiKey version encode conn) ∧
    ∀ (clientId : String) (ops : List (ConnOp κ)),
      (∀ pre op, pre ++ [op] <+: ops → Sendable P (run (step P) (start clientId) pre) op) →
        Accounted (run (step P) (start clientId) ops) :=
  ⟨fun _ _ _ conn => Connection.leavesNothing_iff conn, accounted_run⟩

/-- A connection that has written nothing and counts a request as in flight. -/
def phantom : ConnRun Unit := ⟨asked.conn, [], [], []⟩

theorem request_long {body : Bytes} (h : body.length = 2 ^ 31) :
    ∃ e, Connection.request apiVersionsOnly () 3 (fun _ => .ok body) (.new "t") =
      (.error e, asked.conn) := by
  refine ⟨_, Connection.request_of_long rfl rfl ?_⟩
  rw [List.length_append, h]
  decide

/-- The answer to the second request is refused as one to the first. -/
theorem phantom_answer :
    (run (step apiVersionsOnly) phantom [.request () 3 (fun _ => .ok []),
      .pushBytes (framed (intBytes 4 2)), .nextResponse]).results =
        [.error (.correlation 2 1)] := by
  decide

theorem stays_of_length {body : Bytes} (h : body.length = 2 ^ 31) :
    ¬Connection.LeavesNothing apiVersionsOnly () 3 (fun _ => .ok body) (.new "t") ∧
    (run (step apiVersionsOnly) (start "t") [.request () 3 (fun _ => .ok body),
      .request () 3 (fun _ => .ok []), .pushBytes (framed (intBytes 4 2)),
      .nextResponse]).results = [.error (.correlation 2 1)] := by
  obtain ⟨e, he⟩ := request_long h
  constructor
  · intro hleaves
    have hsame := hleaves e (congrArg Prod.fst he)
    rw [he] at hsame
    cases hsame
  · have hstep : step apiVersionsOnly (start "t") (.request () 3 fun _ => .ok body) =
        phantom := by
      rw [step, start, he]
      rfl
    rw [run, List.foldl_cons, hstep]
    exact phantom_answer

def hugeBody : Bytes := List.replicate (2 ^ 31) 0

/-- A request of `2 ^ 31` bytes fails and stays in flight, and the answer to the request
after it is refused. -/
theorem long_request_stays :
    ¬Connection.LeavesNothing apiVersionsOnly () 3 (fun _ => .ok hugeBody) (.new "t") ∧
    (run (step apiVersionsOnly) (start "t") [.request () 3 (fun _ => .ok hugeBody),
      .request () 3 (fun _ => .ok []), .pushBytes (framed (intBytes 4 2)),
      .nextResponse]).results = [.error (.correlation 2 1)] :=
  stays_of_length List.length_replicate

end ConnRun

end Barnabas.Core
