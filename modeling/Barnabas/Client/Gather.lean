import Barnabas.Client.Join
import Barnabas.Client.Cluster

/-!
The joined reads of `Cluster::recv_many` (`barnabas-client/src/cluster.rs`).

Every connection taken out of the pool becomes a future of its own: a receive under a
deadline, over a socket that it owns. At a wake it finds what came in for it since the last
one. What such a read returns depends on the bytes of its own stream and on the clock, and
on nothing that the other brokers do; and reading from one broker after the other, as the
model of the cluster does, gives the same.
-/

namespace Barnabas.Client

open Barnabas.Lib Barnabas.Core Barnabas.Lib.Act

/-- What came in on a stream between two wakes. -/
structure Arrival where
  pieces : List Bytes
  ending : Option Ending
  filled : ∀ piece ∈ pieces, piece ≠ []

/-- What a wake finds: what came in on every stream, and the time. -/
structure Wake where
  arrivals : ℕ → Arrival
  now : ℕ

/-- A connection that is read from, with its socket. -/
structure Receiver where
  stream : ℕ
  conn : Core.Connection ApiKey
  socket : Socket

namespace Socket

def feed (s : Socket) (a : Arrival) : Socket where
  pieces := s.pieces ++ a.pieces
  ending := a.ending.getD s.ending
  filled p hp := (List.mem_append.mp hp).elim (s.filled p) (a.filled p)

theorem contents_feed (s : Socket) (a : Arrival) :
    (s.feed a).contents = s.contents ++ a.pieces.flatten := by
  rw [contents, contents, feed, List.flatten_append]

end Socket

namespace Receiver

variable (P : Protocol ApiKey)

/-- `Broker::recv` as a future. -/
def poll (r : Receiver) (w : Wake) :
    (Except Error (Core.PendingResponse ApiKey) × Receiver) ⊕ Receiver :=
  let (result, conn, socket) := Socket.recv P r.conn (r.socket.feed (w.arrivals r.stream))
  match result with
  | some result => .inl (result, { r with conn, socket })
  | none => .inr { r with conn, socket }

/-- `T::sleep` as a future. -/
def timer (deadline : ℕ) (w : Wake) : Unit ⊕ ℕ :=
  if deadline ≤ w.now then .inl () else .inr deadline

/-- The socket when the wakes are over, if nothing was read from it. -/
def fed (r : Receiver) (wakes : List Wake) : Socket :=
  wakes.foldl (fun s w => s.feed (w.arrivals r.stream)) r.socket

/-- What the bytes that came in amount to, if they are all there at once. -/
def found (r : Receiver) (wakes : List Wake) : Option (Except Error (Core.PendingResponse ApiKey)) :=
  Socket.outcome (r.fed wakes).ending
    (Core.Connection.nextResponse P (r.conn.pushBytes (r.fed wakes).contents)).1

/-- Connection and socket have the same bytes between them as if none had been read. -/
structure Holds (r : Receiver) (wakes : List Wake) (r' : Receiver) : Prop where
  stream : r'.stream = r.stream
  conn : r'.conn.pushBytes r'.socket.contents = r.conn.pushBytes (r.fed wakes).contents
  ending : r'.socket.ending = (r.fed wakes).ending

/-- What a read leaves that returned when it did. -/
structure Leaves (r : Receiver) (wakes : List Wake) (r' : Receiver) : Prop where
  stream : r'.stream = r.stream
  conn : Socket.wholeFrames r'.conn = Socket.wholeFrames
    (Core.Connection.nextResponse P (r.conn.pushBytes (r.fed wakes).contents)).2

variable {P}

theorem fed_concat (r : Receiver) (wakes : List Wake) (w : Wake) :
    r.fed (wakes ++ [w]) = (r.fed wakes).feed (w.arrivals r.stream) := by
  rw [fed, List.foldl_append]
  rfl

/-- One wake: a read returns if the bytes that came in until now amount to something, and
goes on if they do not. -/
theorem poll_spec {r r' : Receiver} {wakes : List Wake} (h : Holds r wakes r') (w : Wake) :
    (∀ result r'', poll P r' w = .inl (result, r'') →
      found P r (wakes ++ [w]) = some result ∧ Leaves P r (wakes ++ [w]) r'') ∧
    ∀ r'', poll P r' w = .inr r'' →
      found P r (wakes ++ [w]) = none ∧ Holds r (wakes ++ [w]) r'' := by
  obtain ⟨hresult, hafter, -⟩ := Socket.recv_eq P r'.conn (r'.socket.feed (w.arrivals r'.stream))
  have hwaits := @Socket.recv_waiting _ P r'.conn (r'.socket.feed (w.arrivals r'.stream))
  have hconn : r'.conn.pushBytes (r'.socket.feed (w.arrivals r'.stream)).contents =
      r.conn.pushBytes (r.fed (wakes ++ [w])).contents := by
    rw [fed_concat, Socket.contents_feed, Socket.contents_feed, Socket.pushBytes_append,
      Socket.pushBytes_append, h.conn, h.stream]
  have hending : (r'.socket.feed (w.arrivals r'.stream)).ending = (r.fed (wakes ++ [w])).ending := by
    rw [fed_concat, Socket.feed, Socket.feed, h.stream, h.ending]
  rw [hconn, hending] at hresult hwaits
  rw [hconn] at hafter
  unfold poll
  rcases hrecv : Socket.recv P r'.conn (r'.socket.feed (w.arrivals r'.stream)) with
    ⟨_ | result, conn, socket⟩
  · rw [hrecv] at hresult hwaits
    refine ⟨fun result r'' hpoll => (by cases hpoll), fun r'' hpoll => ?_⟩
    cases hpoll
    obtain ⟨hbytes, hends⟩ := hwaits rfl
    exact ⟨hresult.symm, h.stream, hbytes, hends⟩
  · rw [hrecv] at hresult hafter
    refine ⟨fun result' r'' hpoll => ?_, fun r'' hpoll => (by cases hpoll)⟩
    cases hpoll
    exact ⟨hresult.symm, h.stream, (Socket.wholeFrames_pushBytes conn _).symm.trans
      (congrArg Socket.wholeFrames hafter)⟩

/-- A read that goes on has found nothing at any wake. -/
theorem drive_poll_pending {r r' : Receiver} {wakes : List Wake}
    (h : drive (poll P) r wakes = .inr r') :
    Holds r wakes r' ∧ ∀ before, before <+: wakes → before ≠ [] → found P r before = none := by
  induction wakes using List.reverseRecOn generalizing r' with
  | nil =>
      cases h
      exact ⟨⟨rfl, rfl, rfl⟩, fun before hbefore hne => absurd (List.prefix_nil.mp hbefore) hne⟩
  | append_singleton wakes w ih =>
      rw [drive_concat] at h
      rcases hwakes : drive (poll P) r wakes with out | r₁
      · rw [hwakes] at h
        cases h
      · rw [hwakes] at h
        obtain ⟨hholds, hnone⟩ := ih hwakes
        obtain ⟨hfound, hholds'⟩ := (poll_spec hholds w).2 r' h
        refine ⟨hholds', fun before hbefore hne => ?_⟩
        rcases List.prefix_concat_iff.mp hbefore with rfl | hbefore
        · exact hfound
        · exact hnone before hbefore hne

/-- A read that has returned did so at the first wake at which its bytes amounted to
something. -/
theorem drive_poll_ready {r r' : Receiver} {wakes : List Wake}
    {result : Except Error (Core.PendingResponse ApiKey)}
    (h : drive (poll P) r wakes = .inl (result, r')) :
    ∃ before w, before ++ [w] <+: wakes ∧
      (∀ earlier, earlier <+: before → earlier ≠ [] → found P r earlier = none) ∧
      found P r (before ++ [w]) = some result ∧ Leaves P r (before ++ [w]) r' := by
  obtain ⟨before, w, r₁, hprefix, hbefore, hpoll⟩ := drive_eq_inl_iff.mp h
  obtain ⟨hholds, hnone⟩ := drive_poll_pending hbefore
  obtain ⟨hfound, hleaves⟩ := (poll_spec hholds w).1 result r' hpoll
  exact ⟨before, w, hprefix, hnone, hfound, hleaves⟩

theorem drive_timer (deadline : ℕ) (wakes : List Wake) :
    (drive timer deadline wakes).isRight ↔ ∀ w ∈ wakes, w.now < deadline := by
  induction wakes with
  | nil => simp
  | cons w wakes ih =>
      by_cases hw : deadline ≤ w.now
      · have hfires : timer deadline w = .inl () := if_pos hw
        rw [drive_of_ready hfires]
        simp only [Sum.isRight_inl, Bool.false_eq_true, List.mem_cons, forall_eq_or_imp, false_iff]
        omega
      · have hwaits : timer deadline w = .inr deadline := if_neg hw
        rw [drive_of_pending hwaits, ih]
        simp only [List.mem_cons, forall_eq_or_imp]
        exact ⟨fun h => ⟨by omega, h⟩, fun h => h.2⟩

/-! ### Under a deadline -/

variable (P)

/-- A read under a deadline returned what its bytes amounted to at the first wake at which
they amounted to something, and no wake before it was past the deadline; or it was given up
at the first wake past the deadline, with nothing found until then. -/
def Settled (r : Receiver) (deadline : ℕ) (wakes : List Wake) :
    (Except Error (Core.PendingResponse ApiKey) × Receiver) ⊕ Receiver → Prop
  | .inl (result, r') => ∃ before w, before ++ [w] <+: wakes ∧ (∀ v ∈ before, v.now < deadline) ∧
      (∀ earlier, earlier <+: before → earlier ≠ [] → found P r earlier = none) ∧
      found P r (before ++ [w]) = some result ∧ Leaves P r (before ++ [w]) r'
  | .inr r' => ∃ before w, before ++ [w] <+: wakes ∧ (∀ v ∈ before, v.now < deadline) ∧
      deadline ≤ w.now ∧ Holds r (before ++ [w]) r' ∧
      ∀ earlier, earlier <+: before ++ [w] → earlier ≠ [] → found P r earlier = none

variable {P}

theorem settled_of_race {r : Receiver} {deadline : ℕ} {wakes : List Wake}
    {out : (Except Error (Core.PendingResponse ApiKey) × Receiver) ⊕ Receiver}
    (h : drive (Race.poll (poll P) timer) ⟨r, deadline⟩ wakes = .inl out) :
    Settled P r deadline wakes out := by
  rcases out with ⟨result, r'⟩ | r'
  · obtain ⟨before, w, hprefix, hready, hsleep⟩ := Race.drive_eq_work_iff.mp h
    obtain ⟨first, w', hfirst, hnone, hfound, hleaves⟩ := drive_poll_ready hready
    refine ⟨first, w', hfirst.trans hprefix, ?_, hnone, hfound, hleaves⟩
    have hbefore : first <+: before := by
      obtain ⟨later, hlater⟩ := hfirst
      exact List.prefix_of_prefix_length_le ⟨w' :: later, by simpa using hlater⟩
        (List.prefix_append before [w]) (by
          have := congrArg List.length hlater
          simp only [List.length_append, List.length_singleton] at this
          omega)
    exact fun v hv => (drive_timer deadline before).mp hsleep v (hbefore.subset hv)
  · obtain ⟨before, w, hprefix, hpending, hsleep, hfires⟩ := Race.drive_eq_timeout_iff.mp h
    obtain ⟨hholds, hnone⟩ := drive_poll_pending hpending
    have hearly := (drive_timer deadline before).mp hsleep
    refine ⟨before, w, hprefix, hearly, ?_, hholds, hnone⟩
    by_contra hw
    have hright : (drive timer deadline (before ++ [w])).isRight :=
      (drive_timer deadline _).mpr fun v hv => by
        rcases List.mem_append.mp hv with hv | hv
        · exact hearly v hv
        · rw [List.mem_singleton.mp hv]
          omega
    rcases hdrive : drive timer deadline (before ++ [w]) with ⟨⟩ | sleep
    · rw [hdrive] at hright
      cases hright
    · rw [hdrive] at hfires
      cases hfires

/-- Past the deadline a read is over. -/
theorem race_ends (r : Receiver) {deadline : ℕ} {wakes : List Wake}
    (h : ∃ w ∈ wakes, deadline ≤ w.now) :
    ∃ out, drive (Race.poll (poll P) timer) ⟨r, deadline⟩ wakes = .inl out := by
  rcases hdrive : drive (Race.poll (poll P) timer) ⟨r, deadline⟩ wakes with out | race
  · exact ⟨out, rfl⟩
  · obtain ⟨-, hsleep⟩ := Race.drive_eq_inr_iff.mp hdrive
    obtain ⟨w, hw, hlate⟩ := h
    have hearly := (drive_timer deadline wakes).mp (by rw [hsleep]; rfl) w hw
    exact absurd hearly (Nat.not_lt.mpr hlate)

end Receiver

/-! ### All of them -/

variable (P : Protocol ApiKey)

/-- The futures of `recv_many`, joined. -/
def reads (receivers : List Receiver) (deadline : ℕ) : JoinAll (Race Receiver ℕ)
    ((Except Error (Core.PendingResponse ApiKey) × Receiver) ⊕ Receiver) :=
  JoinAll.new (receivers.map fun r => ⟨r, deadline⟩)

variable {P}

theorem settled_of_reads {receivers : List Receiver} {deadline : ℕ} {wakes : List Wake}
    {outs : List ((Except Error (Core.PendingResponse ApiKey) × Receiver) ⊕ Receiver)}
    (h : drive (JoinAll.poll (Race.poll (Receiver.poll P) Receiver.timer))
      (reads receivers deadline) wakes = .inl (some outs)) :
    List.Forall₂ (fun r out => Receiver.Settled P r deadline wakes out) receivers outs := by
  rcases wakes with _ | ⟨w, wakes⟩
  · cases h
  · obtain ⟨outputs, houtputs, hmap⟩ := JoinAll.outputs_of_ready h
    cases houtputs
    clear h
    rw [List.map_map] at hmap
    induction receivers generalizing outs with
    | nil =>
        rw [List.map_nil, eq_comm, List.map_eq_nil_iff] at hmap
        exact hmap ▸ .nil
    | cons r receivers ih =>
        rcases outs with _ | ⟨out, outs⟩
        · cases hmap
        · obtain ⟨hout, houts⟩ := List.cons.inj hmap
          exact .cons (Receiver.settled_of_race hout) (ih houts)

/-- Past the deadline all the reads are over. -/
theorem reads_end (receivers : List Receiver) {deadline : ℕ} {wakes : List Wake}
    (h : ∃ w ∈ wakes, deadline ≤ w.now) :
    ∃ outs, drive (JoinAll.poll (Race.poll (Receiver.poll P) Receiver.timer))
      (reads receivers deadline) wakes = .inl (some outs) := by
  rcases wakes with _ | ⟨w, wakes⟩
  · obtain ⟨w, hw, -⟩ := h
    cases hw
  · have houts : ∃ outs : List ((Except Error (Core.PendingResponse ApiKey) × Receiver) ⊕ Receiver),
        (receivers.map fun r => (⟨r, deadline⟩ : Race Receiver ℕ)).map
        (drive (Race.poll (Receiver.poll P) Receiver.timer) · (w :: wakes)) = outs.map .inl := by
      induction receivers with
      | nil => exact ⟨[], rfl⟩
      | cons r receivers ih =>
          obtain ⟨out, hout⟩ := Receiver.race_ends (P := P) r h
          obtain ⟨outs, houts⟩ := ih
          exact ⟨out :: outs, by rw [List.map_cons, List.map_cons, hout, houts, List.map_cons]⟩
    obtain ⟨outs, houts⟩ := houts
    exact ⟨outs, JoinAll.ready_of_outputs houts⟩

/-- **Joined reads do not wait for each other.** When the deadline is over `recv_many` has
an outcome for every connection, in order, and each of them depends on the bytes of its own
stream and the clock alone: what came in by the deadline, if it amounts to anything. -/
theorem reads_settled (receivers : List Receiver) {deadline : ℕ} {wakes : List Wake}
    (h : ∃ w ∈ wakes, deadline ≤ w.now) :
    ∃ outs, drive (JoinAll.poll (Race.poll (Receiver.poll P) Receiver.timer))
        (reads receivers deadline) wakes = .inl (some outs) ∧
      List.Forall₂ (fun r out => Receiver.Settled P r deadline wakes out) receivers outs := by
  obtain ⟨outs, houts⟩ := reads_end (P := P) receivers h
  exact ⟨outs, houts, settled_of_reads houts⟩

/-- Two brokers that owe the answer to a heartbeat; of the first there is a part already. -/
def owing : List Receiver :=
  [⟨0, Socket.beating, ⟨[[0, 5, 0]], .waits, List.forall_mem_singleton.mpr (List.cons_ne_nil _ _)⟩⟩,
    ⟨1, Socket.beating, ⟨[], .waits, List.forall_mem_nil _⟩⟩]

/-- The rest of the first answer comes in at 10, and nothing at 30. -/
def oneSilent : List Wake :=
  [⟨fun stream => if stream = 0
      then ⟨[[0, 0, 1, 27]], none, List.forall_mem_singleton.mpr (List.cons_ne_nil _ _)⟩
      else ⟨[], none, List.forall_mem_nil _⟩, 10⟩,
    ⟨fun _ => ⟨[], none, List.forall_mem_nil _⟩, 30⟩]

theorem oneSilent_late : ∃ w ∈ oneSilent, 30 ≤ w.now :=
  ⟨_, List.mem_cons_of_mem _ List.mem_cons_self, Nat.le_refl 30⟩

theorem reads_settled_oneSilent :
    ∃ outs, drive (JoinAll.poll (Race.poll (Receiver.poll Socket.plainHeaders) Receiver.timer))
        (reads owing 30) oneSilent = .inl (some outs) ∧
      List.Forall₂ (fun r out => Receiver.Settled Socket.plainHeaders r 30 oneSilent out) owing outs :=
  reads_settled owing oneSilent_late

/-! ### One after the other -/

variable {ω α : Type} (body : ApiKey → ℤ → Bytes → Body) (op : ApiKey) (as : Body → Option α)

/-- What becomes of one outcome of the joined reads: the connection goes back to the pool
unless its read failed or was given up. -/
def handBack (addr : String) (broker : Broker) (c : Cluster ω) :
    (Except Error (Core.PendingResponse ApiKey) × Receiver) ⊕ Receiver → Except Error α × Cluster ω
  | .inl (result, r) =>
      let broker := { broker with conn := Socket.wholeFrames r.conn }
      match Socket.decoded body as result with
      | .ok resp => (.ok resp, c.keep .data addr broker)
      | .error (.io e) => (.error (.io e), c)
      | .error e => (.error e, c.keep .data addr broker)
  | .inr _ => (.error (.timeout op addr), c)

/-- The loop over the outcomes. -/
def handBackAll : List (String × Broker) →
    List ((Except Error (Core.PendingResponse ApiKey) × Receiver) ⊕ Receiver) → Cluster ω →
    List (Except Error α) × Cluster ω
  | (addr, broker) :: taken, out :: outs, c =>
      let (outcome, c) := handBack body op as addr broker c out
      let (outcomes, c) := handBackAll taken outs c
      (outcome :: outcomes, c)
  | _, _, c => ([], c)

/-- A connection of the pool, as it is read from. -/
structure Receiver.Shows (r : Receiver) (broker : Broker) : Prop where
  stream : broker.stream = r.stream
  conn : broker.conn = Socket.wholeFrames r.conn
  maxFrame : r.conn.decoder.maxFrame = Core.defaultMaxFrame

/-- A transport whose reads find `found`, and change nothing. -/
def Finds (T : Transport ω) (timeout : ℕ) (stream : ℕ) (found : Except (Option IoError) Incoming) :
    Prop :=
  ∀ env, T.readWithin timeout stream env = (found, env)

theorem exists_incoming {conn : Core.Connection ApiKey} {s : Socket}
    {result : Except Error (Core.PendingResponse ApiKey)}
    (h : Socket.outcome s.ending (Core.Connection.nextResponse P (conn.pushBytes s.contents)).1 =
      some result) :
    ∃ found, Socket.incoming P body conn s.ending
      (FrameDecoder.nextFrame (conn.pushBytes s.contents).decoder).1 = some found := by
  rcases hnext : FrameDecoder.nextFrame (conn.pushBytes s.contents).decoder with
    ⟨e | _ | frame, decoder⟩
  · obtain ⟨-, len, rfl⟩ := Socket.nextFrame_error hnext
    exact ⟨_, rfl⟩
  · rw [Core.Connection.nextResponse_none P hnext] at h
    cases hending : s.ending with
    | waits =>
        rw [hending] at h
        cases h
    | closed => exact ⟨_, rfl⟩
    | failed e => exact ⟨_, rfl⟩
  · exact ⟨_, rfl⟩

/-- For one connection there is something to find that makes a read under a deadline end as
the joined read did. -/
theorem exists_finds {r : Receiver} {deadline : ℕ} {wakes : List Wake}
    {out : (Except Error (Core.PendingResponse ApiKey) × Receiver) ⊕ Receiver}
    (h : Receiver.Settled P r deadline wakes out) :
    ∃ found, ∀ (T : Transport ω) (c : Cluster ω) (addr : String) (broker : Broker), r.Shows broker →
      Finds T c.requestTimeout r.stream found →
      Cluster.recvOne T op as (addr, some broker) c = handBack body op as addr broker c out := by
  rcases out with ⟨result, r'⟩ | r'
  · -- what was received by the deadline is what a transport would have to find
    obtain ⟨before, w, -, -, -, hfound, hleaves⟩ := h
    obtain ⟨found, hincoming⟩ := exists_incoming body hfound
    refine ⟨found.mapError some, fun T c addr broker hshows hfinds => ?_⟩
    have hread : (T.within c.requestTimeout).read broker.stream c.wire.env =
        (found.mapError fun e => (T.within c.requestTimeout).fail (.io e), c.wire.env) := by
      rw [Transport.within, hshows.stream]
      dsimp only
      rw [mapError_apply, hfinds]
      cases found <;> rfl
    obtain ⟨result', hrecv, hlink⟩ := Socket.recv_refines P body (T.within c.requestTimeout) as
      (r.fed (before ++ [w])) ⟨c.wire, broker⟩ hshows.maxFrame hshows.conn hincoming hread
    obtain ⟨hresult, hafter, -⟩ := Socket.recv_eq P r.conn (r.fed (before ++ [w]))
    have hsame : result' = result := by
      rw [hrecv] at hresult
      exact Option.some.inj (hresult.trans hfound)
    have hconn : Socket.wholeFrames (Socket.recv P r.conn (r.fed (before ++ [w]))).2.1 =
        Socket.wholeFrames r'.conn := by
      rw [hleaves.conn, ← hafter, Socket.wholeFrames_pushBytes]
    rw [Cluster.recvOne, hlink, hsame, hconn, handBack]
    dsimp only
    rcases Socket.decoded body as result with (e | _ | _ | _ | _ | _ | _ | _ | _ | _) | message
    all_goals rfl
  · -- a read that was given up finds nothing
    refine ⟨.error none, fun T c addr broker hshows hfinds => ?_⟩
    have hread : Broker.recv (T.within c.requestTimeout) as ⟨c.wire, broker⟩ =
        (.error none, ⟨c.wire, broker⟩) := by
      have henv : Broker.onEnv ((T.within c.requestTimeout).read broker.stream)
          (⟨c.wire, broker⟩ : Link ω) = (.error none, ⟨c.wire, broker⟩) := by
        rw [Broker.onEnv, zoom_apply, Transport.within, hshows.stream]
        dsimp only
        rw [mapError_apply, hfinds]
        rfl
      rw [Broker.recv, bind_of_ok (get_apply _)]
      exact bind_of_error henv
    rw [Cluster.recvOne, hread, handBack]

theorem requestTimeout_handBack (addr : String) (broker : Broker) (c : Cluster ω)
    (out : (Except Error (Core.PendingResponse ApiKey) × Receiver) ⊕ Receiver) :
    (handBack body op as addr broker c out).2.requestTimeout = c.requestTimeout := by
  rcases out with ⟨result, r⟩ | r
  · rw [handBack]
    rcases Socket.decoded body as result with (e | _ | _ | _ | _ | _ | _ | _ | _ | _) | message
    all_goals rfl
  · rfl

/-- **Joined reads are reads one after the other.** There is something to find on every
stream that makes the reads of the cluster, which wait for one connection and then for the
next, end as the joined reads did: with the same outcomes and the same connections kept. -/
theorem recvTaken_joined {receivers : List Receiver} {deadline : ℕ} {wakes : List Wake}
    {outs : List ((Except Error (Core.PendingResponse ApiKey) × Receiver) ⊕ Receiver)}
    (hstreams : (receivers.map Receiver.stream).Nodup)
    (houts : drive (JoinAll.poll (Race.poll (Receiver.poll P) Receiver.timer))
      (reads receivers deadline) wakes = .inl (some outs)) :
    ∃ found : ℕ → Except (Option IoError) Incoming,
      ∀ (T : Transport ω) (c : Cluster ω) (taken : List (String × Broker)),
        List.Forall₂ (fun r entry => r.Shows entry.2) receivers taken →
        (∀ r ∈ receivers, Finds T c.requestTimeout r.stream (found r.stream)) →
        Cluster.recvTaken T op as (taken.map fun entry => (entry.1, some entry.2)) c =
          handBackAll body op as taken outs c := by
  have hsettled := settled_of_reads houts
  clear houts
  induction hsettled with
  | nil =>
      refine ⟨fun _ => .error none, fun T c taken hshows _ => ?_⟩
      cases hshows
      rfl
  | @cons r out receivers outs hr hrest ih =>
      rw [List.map_cons, List.nodup_cons] at hstreams
      obtain ⟨found, hfound⟩ := ih hstreams.2
      obtain ⟨first, hfirst⟩ := exists_finds (ω := ω) body op as hr
      -- the streams are different, so that what is found on this one changes no other read
      refine ⟨Function.update found r.stream first, fun T c taken hshows hfinds => ?_⟩
      cases hshows with
      | @cons _ entry _ taken hentry htaken =>
          have hown := hfinds r List.mem_cons_self
          rw [Function.update_self] at hown
          have hothers : ∀ r' ∈ receivers, Finds T
              (handBack body op as entry.1 entry.2 c out).2.requestTimeout r'.stream
                (found r'.stream) := by
            intro r' hr'
            have hne : r'.stream ≠ r.stream := fun heq =>
              hstreams.1 (heq ▸ List.mem_map_of_mem hr')
            have hother := hfinds r' (List.mem_cons_of_mem r hr')
            rwa [Function.update_of_ne hne, ← requestTimeout_handBack body op as entry.1 entry.2 c out]
              at hother
          rw [List.map_cons, Cluster.recvTaken, hfirst T c entry.1 entry.2 hentry hown, handBackAll]
          dsimp only
          rw [hfound T _ taken htaken hothers]

/-- A transport on which `found` is found. -/
def finding (found : ℕ → Except (Option IoError) Incoming) : Transport Tape :=
  { Tape.transport with readWithin := fun _ stream tape => (found stream, tape) }

theorem recvTaken_joined_oneSilent :
    ∃ outs, drive (JoinAll.poll (Race.poll (Receiver.poll Socket.plainHeaders) Receiver.timer))
        (reads owing 30) oneSilent = .inl (some outs) ∧
      ∃ found, Cluster.recvTaken (finding found) .heartbeat Body.asHeartbeat
          [("a:1", some ⟨0, Socket.wholeFrames Socket.beating, ∅⟩),
            ("b:1", some ⟨1, Socket.wholeFrames Socket.beating, ∅⟩)]
          (.new (.of []) ["a:1"] "t") =
        handBackAll (fun _ _ bytes => .heartbeat (bytes.headD 0).toNat) .heartbeat Body.asHeartbeat
          [("a:1", ⟨0, Socket.wholeFrames Socket.beating, ∅⟩),
            ("b:1", ⟨1, Socket.wholeFrames Socket.beating, ∅⟩)] outs (.new (.of []) ["a:1"] "t") := by
  obtain ⟨outs, houts⟩ := reads_end (P := Socket.plainHeaders) owing oneSilent_late
  obtain ⟨found, hfound⟩ := recvTaken_joined (ω := Tape)
    (fun _ _ bytes => .heartbeat (bytes.headD 0).toNat) .heartbeat Body.asHeartbeat (by decide) houts
  exact ⟨outs, houts, found, hfound (finding found) _
    [("a:1", ⟨0, Socket.wholeFrames Socket.beating, ∅⟩),
      ("b:1", ⟨1, Socket.wholeFrames Socket.beating, ∅⟩)]
    (.cons ⟨rfl, rfl, rfl⟩ (.cons ⟨rfl, rfl, rfl⟩ .nil)) fun _ _ _ => rfl⟩

end Barnabas.Client
