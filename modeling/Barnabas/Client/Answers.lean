import Barnabas.Client.Producer
import Barnabas.Client.Requests

/-!
Where an answer comes from.

A request that has a result got it from the transport: the body of a frame that was
read, decoded to the type that was asked for. So a condition on what brokers answer
is a condition on the transport, and holds of every response the client looks at.
-/

namespace Barnabas.Client

open Barnabas.Lib Barnabas.Core Barnabas.Lib.Act

variable {ω α : Type}

/-- The transport may hand this body to a request that waits for it. -/
def Transport.Answers (T : Transport ω) (body : Body) : Prop :=
  ∃ timeout stream env header, (T.readWithin timeout stream env).1 = .ok (.frame header body)

/-- The response is what a body of the transport decodes to. -/
def Transport.Gives (T : Transport ω) (as : Body → Option α) (resp : α) : Prop :=
  ∃ body, T.Answers body ∧ as body = some resp

namespace Broker

/-- The connection's protocol state hands on the body it is given. -/
theorem nextResponse_body {incoming : Except ℕ (Except String ℤ × Body)} {conn conn' : Connection}
    {resp : PendingResponse} (h : Connection.nextResponse incoming conn = (.ok resp, conn')) :
    ∃ header, incoming = .ok (header, resp.body) := by
  rcases incoming with len | ⟨header, body⟩
  · cases h
  · rw [Connection.nextResponse, bind_of_ok (get_apply conn)] at h
    rcases hflight : conn.inFlight with _ | ⟨pending, rest⟩
    · rw [hflight] at h
      cases h
    · rw [hflight] at h
      rcases header with e | id
      · cases h
      · dsimp only at h
        split at h
        · cases h
        · cases h
          exact ⟨_, rfl⟩

theorem onConn_eq_ok {ε : Type} {P : Patience ω ε} {m : Act Connection Core.Error α}
    {l l' : Link ω} {a : α} (h : onConn P m l = (.ok a, l')) :
    (m l.broker.conn).1 = .ok a := by
  rw [onConn, mapError_apply, zoom_apply] at h
  rcases hm : (m l.broker.conn).1 with e | b
  · rw [hm] at h
    cases h
  · rw [hm] at h
    cases h
    rfl

theorem recv_gives {ε : Type} {P : Patience ω ε} {as : Body → Option α} {l l' : Link ω} {a : α}
    (h : recv P as l = (.ok a, l')) : ∃ env header body,
      (P.read l.broker.stream env).1 = .ok (.frame header body) ∧ as body = some a := by
  rw [recv, bind_of_ok (get_apply l)] at h
  obtain ⟨incoming, l₁, hread, h⟩ := bind_eq_ok h
  have hread : (P.read l.broker.stream l.wire.env).1 = .ok incoming := congrArg Prod.fst hread
  cases incoming with
  | closed => cases h
  | tooLarge len =>
      obtain ⟨resp, l₂, hnext, -⟩ := bind_eq_ok h
      obtain ⟨header, heq⟩ := nextResponse_body (Prod.fst_eq_iff.mp (onConn_eq_ok hnext))
      cases heq
  | frame header body =>
      obtain ⟨resp, l₂, hnext, hdecoded⟩ := bind_eq_ok h
      obtain ⟨header', heq⟩ := nextResponse_body (Prod.fst_eq_iff.mp (onConn_eq_ok hnext))
      cases heq
      have hdecode : Connection.decode as resp = .ok a := onConn_eq_ok hdecoded
      refine ⟨l.wire.env, _, _, hread, ?_⟩
      rw [Connection.decode] at hdecode
      split at hdecode
      · next message hmessage =>
          cases hdecode
          exact hmessage
      · cases hdecode

theorem call_gives {ε : Type} {T : Transport ω} {P : Patience ω ε} {as : Body → Option α}
    {version : ℤ} {req : Request} {l l' : Link ω} {a : α}
    (h : call T P as version req l = (.ok a, l')) : ∃ stream env header body,
      (P.read stream env).1 = .ok (.frame header body) ∧ as body = some a := by
  rw [call, bind_of_ok (get_apply l)] at h
  split at h
  · cases h
  · obtain ⟨_, l₁, -, h⟩ := bind_eq_ok h
    obtain ⟨env, header, body, hread, has⟩ := recv_gives h
    exact ⟨_, env, header, body, hread, has⟩

end Broker

theorem Transport.gives_of_within {T : Transport ω} {as : Body → Option α} {timeout stream : ℕ}
    {env : ω} {header : Except String ℤ} {body : Body} {a : α}
    (hread : ((T.within timeout).read stream env).1 = .ok (.frame header body))
    (has : as body = some a) : T.Gives as a := by
  refine ⟨body, ⟨timeout, stream, env, header, ?_⟩, has⟩
  change ((T.readWithin timeout stream env).1.mapError _) = _ at hread
  rcases hr : (T.readWithin timeout stream env).1 with e | incoming
  · rw [hr] at hread
    cases hread
  · rw [hr] at hread
    cases hread
    rfl

namespace Cluster

variable {T : Transport ω} {as : Body → Option α} {c c' : Cluster ω} {resp : α}

theorem callOnce_gives {addr : String} {version : ℤ} {req : Request} {timeout : ℕ}
    {retry : IoError → Act (Cluster ω) Error α}
    (hretry : ∀ e c c' resp, retry e c = (.ok resp, c') → T.Gives as resp)
    (h : callOnce T as addr version req timeout retry c = (.ok resp, c')) : T.Gives as resp := by
  obtain ⟨broker, c₁, -, h⟩ := bind_eq_ok h
  split at h
  · cases h
  · obtain ⟨outcome, c₂, hcall, h⟩ := bind_eq_ok h
    rcases outcome with (_ | e) | a
    · cases h
    · cases e with
      | io e => exact hretry e _ _ resp h
      | _ => cases h
    · cases h
      have hcall : (Broker.call T (T.within timeout) as version req ⟨c₁.wire, broker⟩).1 =
          .ok resp :=
        Except.ok.inj (congrArg Prod.fst hcall)
      obtain ⟨stream, env, header, body, hread, has⟩ := Broker.call_gives (Prod.fst_eq_iff.mp hcall)
      exact Transport.gives_of_within hread has

theorem callAt_gives {addr : String} {version : ℤ} {req : Request}
    (h : callAt T as addr version req c = (.ok resp, c')) : T.Gives as resp := by
  obtain ⟨_, _, -, h⟩ := bind_eq_ok h
  refine callOnce_gives (fun e c c' resp h => ?_) h
  exact callOnce_gives (fun e c c' resp h => by cases h) h

theorem callAny_gives {version : ℤ} {req : Request}
    (h : callAny T as version req c = (.ok resp, c')) : T.Gives as resp := by
  obtain ⟨_, _, -, h⟩ := bind_eq_ok h
  exact callAt_gives h

theorem recvOne_gives {op : ApiKey} {taken : String × Option Broker}
    (h : (recvOne T op as taken c).1 = .ok resp) : T.Gives as resp := by
  obtain ⟨addr, _ | broker⟩ := taken
  · cases h
  · rcases hrecv : Broker.recv (T.within c.requestTimeout) as ⟨c.wire, broker⟩ with ⟨outcome, link⟩
    rw [recvOne, hrecv] at h
    rcases outcome with (_ | e) | a
    · cases h
    · cases e <;> cases h
    · cases h
      obtain ⟨env, header, body, hread, has⟩ := Broker.recv_gives hrecv
      exact Transport.gives_of_within hread has

theorem recvTaken_gives {op : ApiKey} (taken : List (String × Option Broker)) (c : Cluster ω)
    (resp : α) (h : .ok resp ∈ (recvTaken T op as taken c).1) : T.Gives as resp := by
  induction taken generalizing c with
  | nil => cases h
  | cons first rest ih =>
      rw [recvTaken] at h
      rcases List.mem_cons.mp h with h | h
      · exact recvOne_gives h.symm
      · exact ih _ h

theorem recvMany_gives {ε : Type} {op : ApiKey} {addrs : List String}
    {outcomes : List (Except Error α)}
    (h : (recvMany T op as addrs : Act (Cluster ω) ε _) c = (.ok outcomes, c')) :
    ∀ resp, .ok resp ∈ outcomes → T.Gives as resp := by
  intro resp hresp
  cases h
  exact recvTaken_gives _ _ resp hresp

end Cluster

/-! ### And the request was written -/

/-- Frames were added to the log, one of them with this request. -/
def Adds (req : Request) (before after : List Frame) : Prop :=
  ∃ entries, after = before ++ entries ∧ ∃ f ∈ entries, f.request = req

theorem Adds.after {σ : Type} {log : σ → List Frame} {W : Frame → Prop} {s s' s'' : σ}
    {req : Request} (h : Appends log W s s') (h' : Adds req (log s') (log s'')) :
    Adds req (log s) (log s'') := by
  obtain ⟨entries, heq, -⟩ := h
  obtain ⟨entries', heq', f, hf, hreq⟩ := h'
  refine ⟨entries ++ entries', by rw [heq', heq, List.append_assoc], f, ?_, hreq⟩
  exact List.mem_append_right entries hf

theorem Adds.before {σ : Type} {log : σ → List Frame} {W : Frame → Prop} {s s' s'' : σ}
    {req : Request} (h : Adds req (log s) (log s')) (h' : Appends log W s' s'') :
    Adds req (log s) (log s'') := by
  obtain ⟨entries, heq, f, hf, hreq⟩ := h
  obtain ⟨entries', heq', -⟩ := h'
  refine ⟨entries ++ entries', by rw [heq', heq, List.append_assoc], f, ?_, hreq⟩
  exact List.mem_append_left entries' hf

namespace Broker

theorem call_adds {ε : Type} {T : Transport ω} {P : Patience ω ε} {as : Body → Option α}
    {version : ℤ} {req : Request} {l l' : Link ω} {a : α}
    (h : call T P as version req l = (.ok a, l')) : Adds req (sentOf l) (sentOf l') := by
  rw [call, bind_of_ok (get_apply l)] at h
  split at h
  · cases h
  · obtain ⟨_, l₁, hsend, hrecv⟩ := bind_eq_ok h
    have hread : Appends sentOf (fun _ => True) l₁ l' := by
      have hmoves := (permits_appends (W := fun _ => True) P).recv as l₁
      rwa [hrecv] at hmoves
    refine Adds.before ?_ hread
    obtain ⟨_, _, hget, hsend⟩ := bind_eq_ok hsend
    cases hget
    obtain ⟨frame, l₂, hframe, hsend⟩ := bind_eq_ok hsend
    obtain ⟨_, l₃, hlog, hwrite⟩ := bind_eq_ok hsend
    cases hlog
    have hreq : frame.request = req := by
      obtain ⟨heq, -⟩ := Connection.request_eq_ok (Prod.fst_eq_iff.mp (onConn_eq_ok hframe))
      rw [heq]
    have hsame : sentOf l₂ = sentOf l := congrArg (fun r => sentOf r.2) hframe.symm
    have hlogged : sentOf l₁ = sentOf l₂ ++ [frame] := congrArg (fun r => sentOf r.2) hwrite.symm
    exact ⟨[frame], by rw [hlogged, hsame], frame, List.mem_singleton_self _, hreq⟩

end Broker

namespace Cluster

variable {T : Transport ω} {as : Body → Option α} {c c' : Cluster ω} {resp : α}

theorem callOnce_adds {addr : String} {version : ℤ} {req : Request} {timeout : ℕ}
    {retry : IoError → Act (Cluster ω) Error α}
    (hretry : ∀ e c c' resp, retry e c = (.ok resp, c') → Adds req (sent c) (sent c'))
    (h : callOnce T as addr version req timeout retry c = (.ok resp, c')) :
    Adds req (sent c) (sent c') := by
  have hcarries : Carries (Appends (sent : Cluster ω → List Frame) fun _ => True) fun _ => True :=
    carries_appends fun _ _ => trivial
  obtain ⟨broker, c₁, hbroker, h⟩ := bind_eq_ok h
  have hopened : Appends sent (fun _ => True) c c₁ := by
    have hmoves := hcarries.brokerIn T .data addr c
    rwa [show brokerIn T .data addr c = (.ok broker, c₁) from hbroker] at hmoves
  refine Adds.after hopened ?_
  split at h
  · cases h
  · obtain ⟨outcome, c₂, hcall, h⟩ := bind_eq_ok h
    have hcalled : Appends sent (fun _ => True) c₁ c₂ := by
      have hmoves : Moves (Appends sent fun _ => True) (onBroker .data addr broker
          (Broker.call T (T.within timeout) as version req) : Act (Cluster ω) Error _) :=
        hcarries.onBroker ((Broker.permits_appends (T.within timeout)).call T as version
          fun _ _ => trivial)
      have hmoved := hmoves c₁
      rwa [hcall] at hmoved
    rcases outcome with (_ | e) | a
    · cases h
    · cases e with
      | io e =>
          refine Adds.after hcalled ?_
          have hadds := hretry e _ _ resp h
          rwa [show sent (c₂.drop .data addr) = sent c₂ by simp [sent]] at hadds
      | _ => cases h
    · cases h
      have hresult : (Broker.call T (T.within timeout) as version req ⟨c₁.wire, broker⟩).1 =
          .ok resp :=
        Except.ok.inj (congrArg Prod.fst hcall)
      have hadds := Broker.call_adds (Prod.fst_eq_iff.mp hresult)
      have hsent : sent c' = (Broker.call T (T.within timeout) as version req
          ⟨c₁.wire, broker⟩).2.wire.sent := by
        have := congrArg (fun r => sent r.2) hcall
        simpa [onBroker, sent] using this.symm
      rw [hsent]
      exact hadds

theorem callAt_adds {addr : String} {version : ℤ} {req : Request}
    (h : callAt T as addr version req c = (.ok resp, c')) : Adds req (sent c) (sent c') := by
  obtain ⟨_, _, hget, h⟩ := bind_eq_ok h
  cases hget
  refine callOnce_adds (fun e c c' resp h => ?_) h
  exact callOnce_adds (fun e c c' resp h => by cases h) h

theorem callAny_adds {version : ℤ} {req : Request}
    (h : callAny T as version req c = (.ok resp, c')) : Adds req (sent c) (sent c') := by
  obtain ⟨addr, c₁, haddr, h⟩ := bind_eq_ok h
  have hfound := (permits_appends T (W := fun _ => True) fun _ _ => trivial).anyBrokerAddr c
  rw [haddr] at hfound
  exact Adds.after hfound (callAt_adds h)

end Cluster

end Barnabas.Client
