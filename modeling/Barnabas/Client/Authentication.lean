import Barnabas.Client.Journal
import Barnabas.Client.Pools
import Barnabas.Client.ConsumerRules

/-!
When the client authenticates.

A connection that is opened once the credentials are known authenticates before it goes
into a pool, and whatever is written later is written on a pooled connection. But the
cluster connects before it is given credentials, and the connection that this opens stays
in the pool.
-/

namespace Barnabas.Client

open Barnabas.Lib Barnabas.Core Barnabas.Lib.Act

/-! ### The journal -/

/-- A connection that has authenticated, or need not have. -/
def Trusted (codec : Codec) (credentials : Credentials) (exempt : ℕ → Prop) (journal : Journal)
    (stream : ℕ) : Prop :=
  exempt stream ∨ Authenticated codec credentials (Journal.on journal stream)

section Journal

variable {codec : Codec} {credentials : Credentials} {exempt : ℕ → Prop} {journal : Journal}

theorem Trusted.append {stream : ℕ} (h : Trusted codec credentials exempt journal stream)
    (more : Journal) : Trusted codec credentials exempt (journal ++ more) stream := by
  rcases h with h | h
  · exact .inl h
  · rw [Trusted, Journal.on_append]
    exact .inr (h.append _)

/-- What is written to open a connection, or on a trusted one, may be written. -/
theorem Guarded.append (h : Guarded codec credentials exempt journal) {more : Journal}
    (hmore : ∀ e ∈ more, ∀ frame, e.2 = .wrote frame →
      frame.request.isHandshake ∨ Trusted codec credentials exempt journal e.1) :
    Guarded codec credentials exempt (journal ++ more) := by
  intro before stream frame after heq hrequest
  have hlater : ∀ between, before = journal ++ between → (stream, .wrote frame) ∈ more →
      Trusted codec credentials exempt before stream := by
    intro between hbefore hmem
    rcases hmore _ hmem frame rfl with hhandshake | htrusted
    · rw [hrequest] at hhandshake
      cases hhandshake
    · rw [hbefore]
      exact htrusted.append between
  rcases List.append_eq_append_iff.mp heq with ⟨between, hbefore, hrest⟩ | ⟨between, hjournal, hrest⟩
  · exact hlater between hbefore (by rw [hrest]; simp)
  · cases between with
    | nil =>
        rw [List.append_nil] at hjournal
        rw [List.nil_append] at hrest
        exact hlater [] (by rw [hjournal, List.append_nil]) (by rw [← hrest]; simp)
    | cons e between =>
        rw [List.cons_append, List.cons.injEq] at hrest
        rw [← hrest.1] at hjournal
        exact h before stream frame between hjournal hrequest

end Journal

/-! ### The pools -/

namespace Cluster

variable {ω ε α : Type} {codec : Codec} {credentials : Credentials} {exempt : ℕ → Prop}

/-- The cluster has these credentials, its connections are trusted, and so were those that
anything was written on. -/
structure Secure (codec : Codec) (credentials : Credentials) (exempt : ℕ → Prop)
    (c : Cluster (Journaled ω)) : Prop where
  given : c.credentials = some credentials
  pooled : ∀ slot b, look c slot = some b →
    Trusted codec credentials exempt c.wire.env.journal b.stream
  guarded : Guarded codec credentials exempt c.wire.env.journal

/-- A secure cluster stays so. -/
def Guards (codec : Codec) (credentials : Credentials) (exempt : ℕ → Prop)
    (c c' : Cluster (Journaled ω)) : Prop :=
  Secure codec credentials exempt c →
    Secure codec credentials exempt c' ∧ c.wire.env.journal <+: c'.wire.env.journal

instance : IsPreorder (Cluster (Journaled ω)) (Guards codec credentials exempt) where
  refl _ h := ⟨h, List.prefix_rfl⟩
  trans _ _ _ h h' hc := by
    obtain ⟨hc', hgrown⟩ := h hc
    obtain ⟨hc'', hgrown'⟩ := h' hc'
    exact ⟨hc'', hgrown.trans hgrown'⟩

theorem credentials_setPool (c : Cluster ω) (pool : Pool) (brokers : Std.TreeMap String Broker) :
    (c.setPool pool brokers).credentials = c.credentials := by
  cases pool <;> rfl

/-- What touches neither the pools nor the journal is of no consequence. -/
theorem guards_of_eq {c c' : Cluster (Journaled ω)} (hcredentials : c'.credentials = c.credentials)
    (hlook : look c' = look c) (hjournal : c'.wire.env.journal = c.wire.env.journal) :
    Guards codec credentials exempt c c' := by
  rintro ⟨hgiven, hpooled, hguarded⟩
  refine ⟨⟨hcredentials.trans hgiven, ?_, ?_⟩, by rw [hjournal]⟩
  · rw [hlook, hjournal]
    exact hpooled
  · rw [hjournal]
    exact hguarded

theorem guards_drop (c : Cluster (Journaled ω)) (pool : Pool) (addr : String) :
    Guards codec credentials exempt c (c.drop pool addr) := by
  rintro ⟨hgiven, hpooled, hguarded⟩
  refine ⟨⟨(credentials_setPool ..).trans hgiven, fun slot b hb => ?_, ?_⟩, by rw [wire_drop]⟩
  · rw [wire_drop]
    rw [look_drop] at hb
    by_cases hslot : slot = (pool, addr)
    · rw [hslot, Function.update_self] at hb
      cases hb
    · rw [Function.update_of_ne hslot] at hb
      exact hpooled slot b hb
  · rw [wire_drop]
    exact hguarded

/-- More was written, all of it to open a connection or on a trusted one. -/
theorem Secure.write {c : Cluster (Journaled ω)} (h : Secure codec credentials exempt c)
    {wire : Wire (Journaled ω)} {more : Journal}
    (hjournal : wire.env.journal = c.wire.env.journal ++ more)
    (hmore : ∀ e ∈ more, ∀ frame, e.2 = .wrote frame → frame.request.isHandshake ∨
      Trusted codec credentials exempt c.wire.env.journal e.1) :
    Secure codec credentials exempt { c with wire } := by
  refine ⟨h.given, fun slot b hb => ?_, ?_⟩
  · rw [look_wire] at hb
    rw [hjournal]
    exact (h.pooled slot b hb).append more
  · change Guarded codec credentials exempt wire.env.journal
    rw [hjournal]
    exact h.guarded.append hmore

theorem Secure.keep {c : Cluster (Journaled ω)} (h : Secure codec credentials exempt c)
    (pool : Pool) (addr : String) {b : Broker}
    (hb : Trusted codec credentials exempt c.wire.env.journal b.stream) :
    Secure codec credentials exempt (c.keep pool addr b) := by
  refine ⟨(credentials_setPool ..).trans h.given, fun slot b' hb' => ?_, ?_⟩
  · rw [wire_keep]
    rw [look_keep] at hb'
    by_cases hslot : slot = (pool, addr)
    · rw [hslot, Function.update_self] at hb'
      cases hb'
      exact hb
    · rw [Function.update_of_ne hslot] at hb'
      exact h.pooled slot b' hb'
  · rw [wire_keep]
    exact h.guarded

variable {T : Transport ω}

/-- Something was done on a trusted connection. -/
theorem Secure.use {c : Cluster (Journaled ω)} (h : Secure T.codec credentials exempt c)
    {b : Broker} (hb : Trusted T.codec credentials exempt c.wire.env.journal b.stream)
    {l' : Link (Journaled ω)} (hnotes : Broker.Notes (fun _ => True) ⟨c.wire, b⟩ l') :
    Secure T.codec credentials exempt { c with wire := l'.wire } ∧
      Trusted T.codec credentials exempt l'.wire.env.journal l'.broker.stream ∧
      c.wire.env.journal <+: l'.wire.env.journal := by
  obtain ⟨hstream, -, more, hjournal, hnew⟩ := hnotes
  refine ⟨h.write hjournal fun e he _ _ => ?_, ?_, ⟨more, hjournal.symm⟩⟩
  · rw [(hnew e he).1]
    exact .inr hb
  · rw [hstream, hjournal]
    exact hb.append more

/-- A connection that can be opened is trusted. -/
theorem Secure.connect {c : Cluster (Journaled ω)} (h : Secure T.codec credentials exempt c)
    (addr : String) :
    Post (fun b c' => Secure T.codec credentials exempt c' ∧
        c.wire.env.journal <+: c'.wire.env.journal ∧
        Trusted T.codec credentials exempt c'.wire.env.journal b.stream)
      (fun _ c' => Secure T.codec credentials exempt c' ∧ c.wire.env.journal <+: c'.wire.env.journal)
      (onWire (Broker.connect T.recording addr c.clientId c.credentials) c) := by
  rw [onWire, zoom_apply]
  rcases hopen : Broker.connect T.recording addr c.clientId c.credentials c.wire with ⟨outcome, wire⟩
  obtain ⟨-, ⟨more, hjournal, hnew⟩, -, hauthenticated⟩ :=
    Broker.connect_opens T addr c.clientId c.credentials hopen
  have hsecure : Secure T.codec credentials exempt { c with wire } :=
    h.write hjournal fun e he frame hframe => .inl (hnew e he frame hframe)
  cases outcome with
  | error e => exact ⟨hsecure, more, hjournal.symm⟩
  | ok b => exact ⟨hsecure, ⟨more, hjournal.symm⟩, .inr (hauthenticated b credentials rfl h.given)⟩

theorem Secure.brokerIn {c : Cluster (Journaled ω)} (h : Secure T.codec credentials exempt c)
    (pool : Pool) (addr : String) :
    Post (fun b c' => Secure T.codec credentials exempt c' ∧
        c.wire.env.journal <+: c'.wire.env.journal ∧
        Trusted T.codec credentials exempt c'.wire.env.journal b.stream)
      (fun _ c' => Secure T.codec credentials exempt c' ∧ c.wire.env.journal <+: c'.wire.env.journal)
      (brokerIn T.recording pool addr c) := by
  rw [Cluster.brokerIn, bind_of_ok (get_apply c)]
  cases hlook : (c.pool pool)[addr]? with
  | some b => exact ⟨h, List.prefix_rfl, h.pooled (pool, addr) b hlook⟩
  | none =>
      dsimp only
      have hconnect := h.connect addr
      rcases hopen : onWire (Broker.connect T.recording addr c.clientId c.credentials) c with ⟨e | b, c'⟩
      · rw [hopen] at hconnect
        rw [bind_of_error hopen]
        exact hconnect
      · rw [hopen] at hconnect
        obtain ⟨hc', hgrown, hb⟩ := hconnect
        rw [bind_of_ok hopen, bind_of_ok (modify_apply _ _)]
        refine ⟨hc'.keep pool addr hb, ?_, ?_⟩
        · rw [wire_keep]
          exact hgrown
        · rw [wire_keep]
          exact hb

/-! ### Calls -/

theorem guards_onBroker {ε' : Type} (pool : Pool) (addr : String) {b : Broker}
    {m : Act (Link (Journaled ω)) ε' α} (hm : Moves (Broker.Notes fun _ => True) m)
    {c : Cluster (Journaled ω)}
    (hb : Trusted T.codec credentials exempt c.wire.env.journal b.stream) :
    Guards T.codec credentials exempt c
      ((onBroker pool addr b m : Act (Cluster (Journaled ω)) ε _) c).2 := by
  intro hc
  obtain ⟨hused, htrusted, hgrown⟩ := hc.use hb (hm ⟨c.wire, b⟩)
  refine ⟨hused.keep pool addr htrusted, ?_⟩
  change _ <+: (keep { c with wire := (m ⟨c.wire, b⟩).2.wire } pool addr _).wire.env.journal
  rw [wire_keep]
  exact hgrown

theorem guards_settle (pool : Pool) (op : ApiKey) (addr : String)
    {retry : IoError → Act (Cluster (Journaled ω)) Error α}
    (hretry : ∀ e, Moves (Guards T.codec credentials exempt) (retry e))
    (outcome : Except (Option Error) α) :
    Moves (Guards T.codec credentials exempt) (settle pool op addr retry outcome) := by
  have hdrop : Moves (Guards T.codec credentials exempt)
      (modify fun c => c.drop pool addr : Act (Cluster (Journaled ω)) Error PUnit) :=
    Moves.modify fun c => guards_drop c pool addr
  unfold settle
  split
  · exact Moves.pure _
  · exact Moves.bind hdrop fun _ => hretry _
  · exact Moves.throw _
  · exact Moves.bind hdrop fun _ => Moves.throw _

/-- What is done on the connection to an address, opened if need be. -/
theorem guards_brokerIn (pool : Pool) (addr : String)
    {f : Broker → Act (Cluster (Journaled ω)) Error α}
    (hf : ∀ b c, Trusted T.codec credentials exempt c.wire.env.journal b.stream →
      Guards T.codec credentials exempt c (f b c).2) :
    Moves (Guards T.codec credentials exempt) (do
      let broker ← brokerIn T.recording pool addr
      f broker) := by
  intro c hc
  have hopen := hc.brokerIn pool addr
  rcases hbroker : brokerIn T.recording pool addr c with ⟨e | b, c₁⟩
  · rw [hbroker] at hopen
    rw [bind_of_error hbroker]
    exact hopen
  · rw [hbroker] at hopen
    obtain ⟨hc₁, hgrown, hb⟩ := hopen
    rw [bind_of_ok hbroker]
    obtain ⟨hlast, hmore⟩ := hf b c₁ hb hc₁
    exact ⟨hlast, hgrown.trans hmore⟩

theorem notes_call (timeout : ℕ) (as : Body → Option α) (version : ℤ) (req : Request) :
    Moves (Broker.Notes fun _ => True)
      (Broker.call T.recording (T.recording.within timeout) as version req) :=
  (Broker.permits_notes (Broker.noted_within T timeout)).call T.recording as version fun _ _ => trivial

theorem guards_callOnce (as : Body → Option α) (addr : String) (version : ℤ) (req : Request)
    (timeout : ℕ) {retry : IoError → Act (Cluster (Journaled ω)) Error α}
    (hretry : ∀ e, Moves (Guards T.codec credentials exempt) (retry e)) :
    Moves (Guards T.codec credentials exempt)
      (callOnce T.recording as addr version req timeout retry) := by
  refine guards_brokerIn .data addr fun b c hb => ?_
  split
  · exact refl_of (Guards T.codec credentials exempt) c
  · exact moves_bind_at (guards_onBroker .data addr (notes_call timeout as version req) hb)
      fun outcome c' _ => guards_settle .data req.apiKey addr hretry outcome c'

theorem guards_callAt (as : Body → Option α) (addr : String) (version : ℤ) (req : Request) :
    Moves (Guards T.codec credentials exempt) (callAt T.recording as addr version req) := by
  refine Moves.bind Moves.get fun c => ?_
  exact guards_callOnce as addr version req _ fun _ =>
    guards_callOnce as addr version req _ fun _ => Moves.throw _

theorem guards_callCoordinatorOnce (as : Body → Option α) (addr : String) (version : ℤ)
    (req : Request) (timeout : ℕ) {retry : IoError → Act (Cluster (Journaled ω)) Error α}
    (hretry : ∀ e, Moves (Guards T.codec credentials exempt) (retry e)) :
    Moves (Guards T.codec credentials exempt)
      (callCoordinatorOnce T.recording as addr version req timeout retry) := by
  refine guards_brokerIn .coordinator addr fun b c hb => ?_
  exact moves_bind_at (guards_onBroker .coordinator addr (notes_call timeout as version req) hb)
    fun outcome c' _ => guards_settle .coordinator req.apiKey addr hretry outcome c'

theorem guards_sendOnce (addr : String) (version : ℤ) (req : Request)
    {retry : IoError → Act (Cluster (Journaled ω)) Error Unit}
    (hretry : ∀ e, Moves (Guards T.codec credentials exempt) (retry e)) :
    Moves (Guards T.codec credentials exempt) (sendOnce T.recording addr version req retry) := by
  have hsend : Moves (Broker.Notes fun _ => True)
      (Broker.send T.recording T.recording.unhurried version req) :=
    (Broker.permits_notes (Broker.noted_unhurried T)).send T.recording version fun _ _ => trivial
  refine guards_brokerIn .data addr fun b c hb => ?_
  refine moves_bind_at (guards_onBroker .data addr hsend hb) fun outcome c' _ => ?_
  split
  · exact refl_of (Guards T.codec credentials exempt) c'
  · exact Moves.bind (Moves.modify fun c => guards_drop c .data addr) (fun _ => hretry _) c'
  · exact refl_of (Guards T.codec credentials exempt) c'

theorem guards_connectBootstrap (addrs : List String) (lastErr : Option Error) :
    Moves (Guards T.codec credentials exempt) (connectBootstrap T.recording addrs lastErr) := by
  induction addrs generalizing lastErr with
  | nil => exact Moves.throw _
  | cons addr addrs ih =>
      intro c hc
      have hconnect := hc.connect addr
      rw [connectBootstrap, bind_of_ok (get_apply c), bind_of_ok (attempt_apply _ c)]
      rcases hopen : onWire (Broker.connect T.recording addr c.clientId c.credentials) c with ⟨e | b, c'⟩
      · rw [hopen] at hconnect
        obtain ⟨hc', hgrown⟩ := hconnect
        obtain ⟨hlast, hmore⟩ := ih (some e) c' hc'
        exact ⟨hlast, hgrown.trans hmore⟩
      · rw [hopen] at hconnect
        obtain ⟨hc', hgrown, hb⟩ := hconnect
        refine ⟨hc'.keep .data addr hb, ?_⟩
        change _ <+: (c'.keep .data addr b).wire.env.journal
        rw [wire_keep]
        exact hgrown

/-! ### Answers -/

theorem takeConns_secure (addrs : List String) {c : Cluster (Journaled ω)}
    (h : Secure T.codec credentials exempt c) :
    Secure T.codec credentials exempt (takeConns addrs c).2 ∧
      (takeConns addrs c).2.wire = c.wire ∧
      ∀ addr b, (addr, some b) ∈ (takeConns addrs c).1 →
        Trusted T.codec credentials exempt c.wire.env.journal b.stream := by
  induction addrs generalizing c with
  | nil => exact ⟨h, rfl, fun addr b hb => by cases hb⟩
  | cons addr addrs ih =>
      obtain ⟨hlast, hwire, htaken⟩ := ih (guards_drop c .data addr h).1
      rw [wire_drop] at hwire htaken
      refine ⟨hlast, hwire, fun addr' b hb => ?_⟩
      rcases List.mem_cons.mp hb with heq | hb
      · exact h.pooled (.data, addr) b (Prod.mk.inj heq).2.symm
      · exact htaken addr' b hb

theorem recvOne_secure (op : ApiKey) (as : Body → Option α) {taken : String × Option Broker}
    {c : Cluster (Journaled ω)} (h : Secure T.codec credentials exempt c)
    (htaken : ∀ b, taken.2 = some b →
      Trusted T.codec credentials exempt c.wire.env.journal b.stream) :
    Secure T.codec credentials exempt (recvOne T.recording op as taken c).2 ∧
      c.wire.env.journal <+: (recvOne T.recording op as taken c).2.wire.env.journal := by
  rcases taken with ⟨addr, _ | b⟩
  · exact ⟨h, List.prefix_rfl⟩
  · have hnotes : Broker.Notes (fun _ => True) ⟨c.wire, b⟩
        (Broker.recv (T.recording.within c.requestTimeout) as ⟨c.wire, b⟩).2 :=
      (Broker.permits_notes (Broker.noted_within T c.requestTimeout)).recv as _
    obtain ⟨hused, htrusted, hgrown⟩ := h.use (htaken b rfl) hnotes
    rw [recvOne]
    rcases hrecv : Broker.recv (T.recording.within c.requestTimeout) as ⟨c.wire, b⟩ with ⟨outcome, l'⟩
    rw [hrecv] at hused htrusted hgrown
    have hkept : Secure T.codec credentials exempt
          ({ c with wire := l'.wire }.keep .data addr l'.broker) ∧
        c.wire.env.journal <+:
          ({ c with wire := l'.wire }.keep .data addr l'.broker).wire.env.journal := by
      refine ⟨hused.keep .data addr htrusted, ?_⟩
      rw [wire_keep]
      exact hgrown
    rcases outcome with (_ | e) | _
    · exact ⟨hused, hgrown⟩
    · cases e with
      | io e => exact ⟨hused, hgrown⟩
      | _ => exact hkept
    · exact hkept

theorem recvTaken_secure (op : ApiKey) (as : Body → Option α) {taken : List (String × Option Broker)}
    {c : Cluster (Journaled ω)} (h : Secure T.codec credentials exempt c)
    (htaken : ∀ addr b, (addr, some b) ∈ taken →
      Trusted T.codec credentials exempt c.wire.env.journal b.stream) :
    Secure T.codec credentials exempt (recvTaken T.recording op as taken c).2 ∧
      c.wire.env.journal <+: (recvTaken T.recording op as taken c).2.wire.env.journal := by
  induction taken generalizing c with
  | nil => exact ⟨h, List.prefix_rfl⟩
  | cons first rest ih =>
      obtain ⟨hfirst, hgrown⟩ := recvOne_secure op as h fun b hb =>
        htaken first.1 b (by rw [← hb]; exact List.mem_cons_self)
      obtain ⟨hlast, hmore⟩ := ih hfirst fun addr b hb => by
        obtain ⟨more, hmore⟩ := hgrown
        rw [← hmore]
        exact (htaken addr b (List.mem_cons_of_mem _ hb)).append more
      exact ⟨hlast, hgrown.trans hmore⟩

theorem guards_recvMany (op : ApiKey) (as : Body → Option α) (addrs : List String) :
    Moves (Guards T.codec credentials exempt)
      (recvMany T.recording op as addrs : Act (Cluster (Journaled ω)) ε _) := by
  intro c hc
  obtain ⟨htaken, hwire, htrusted⟩ := takeConns_secure addrs hc
  rw [← hwire] at htrusted
  obtain ⟨hlast, hgrown⟩ := recvTaken_secure op as htaken htrusted
  rw [hwire] at hgrown
  exact ⟨hlast, hgrown⟩

/-! ### Everything -/

variable (credentials exempt T) in
theorem coordinates_guards :
    Coordinates T.recording (Guards T.codec credentials exempt) fun _ => True where
  plumbing _ _ := trivial
  pick _ := guards_of_eq rfl (look_wire ..) rfl
  now _ := guards_of_eq rfl (look_wire ..) rfl
  systemTime _ := guards_of_eq rfl (look_wire ..) rfl
  sleep _ _ := guards_of_eq rfl (look_wire ..) rfl
  bootstrap addrs lastErr c _ := guards_connectBootstrap addrs lastErr c
  call as addr version req _ := guards_callAt as addr version req
  update _ _ := guards_of_eq rfl rfl rfl
  invalidate _ _ := guards_of_eq rfl rfl rfl
  refreshedAt _ _ := guards_of_eq rfl rfl rfl
  coordinator as addr version req timeout _ :=
    guards_callCoordinatorOnce as addr version req timeout fun _ =>
      guards_callCoordinatorOnce as addr version req timeout fun _ => Moves.throw _

theorem guards_sendAt (addr : String) (version : ℤ) (req : Request) :
    Moves (Guards T.codec credentials exempt) (sendAt T.recording addr version req) :=
  guards_sendOnce addr version req fun _ => guards_sendOnce addr version req fun _ => Moves.throw _

/-- A cluster that has connected, before it is given credentials: nothing was written but
what opens connections. -/
structure Bare (c : Cluster (Journaled ω)) : Prop where
  numbered : ∀ slot b, look c slot = some b → b.stream < c.wire.env.streams.length
  opening : ∀ stream frame, (stream, .wrote frame) ∈ c.wire.env.journal → frame.request.isHandshake

theorem bare_connectBootstrap (addrs : List String) (lastErr : Option Error)
    {c : Cluster (Journaled ω)} (h : Bare c) : Bare (connectBootstrap T.recording addrs lastErr c).2 := by
  induction addrs generalizing lastErr c with
  | nil => exact h
  | cons addr addrs ih =>
      rw [connectBootstrap, bind_of_ok (get_apply c), bind_of_ok (attempt_apply _ c), onWire, zoom_apply]
      rcases hopen : Broker.connect T.recording addr c.clientId c.credentials c.wire with ⟨outcome, wire⟩
      obtain ⟨hstreams, ⟨more, hjournal, hnew⟩, hnumbered, -⟩ :=
        Broker.connect_opens T addr c.clientId c.credentials hopen
      have hbare : Bare { c with wire } := by
        refine ⟨fun slot b hb => ?_, fun stream frame hmem => ?_⟩
        · rw [look_wire] at hb
          exact (h.numbered slot b hb).trans_le hstreams
        · change _ ∈ wire.env.journal at hmem
          rw [hjournal] at hmem
          rcases List.mem_append.mp hmem with hmem | hmem
          · exact h.opening stream frame hmem
          · exact hnew _ hmem frame rfl
      cases outcome with
      | error e => exact ih (some e) hbare
      | ok b =>
          refine ⟨fun slot b' hb' => ?_, fun stream frame hmem => ?_⟩
          · change look (keep { c with wire } .data addr b) slot = some b' at hb'
            change b'.stream < (keep { c with wire } .data addr b).wire.env.streams.length
            rw [wire_keep]
            rw [look_keep] at hb'
            by_cases hslot : slot = (.data, addr)
            · rw [hslot, Function.update_self] at hb'
              cases hb'
              exact (hnumbered b rfl).2
            · rw [Function.update_of_ne hslot] at hb'
              exact hbare.numbered slot b' hb'
          · change _ ∈ (keep { c with wire } .data addr b).wire.env.journal at hmem
            rw [wire_keep] at hmem
            exact hbare.opening stream frame hmem

theorem bare_connect (env : ω) (bootstrap : List String) (clientId : String) :
    Bare (connect T.recording (.new (.start env) bootstrap clientId)).2 := by
  have hnew : ∀ env : ω, Bare (new (Journaled.start env) bootstrap clientId) := by
    intro env
    refine ⟨fun slot b hb => ?_, fun stream frame hmem => by cases hmem⟩
    rcases slot with ⟨pool, addr⟩
    cases pool <;> cases Std.TreeMap.getElem?_emptyc.symm.trans hb
  rw [connect, bind_pure_snd, anyBrokerAddr, bind_of_ok (get_apply _)]
  exact bare_connectBootstrap bootstrap none (hnew (T.pick env).2)

/-- A cluster that is given credentials is secure but for the connections it has. -/
theorem Bare.secure {c : Cluster (Journaled ω)} (h : Bare c) (codec : Codec)
    (credentials : Credentials) :
    Secure codec credentials (· < c.wire.env.streams.length) (c.setCredentials credentials) := by
  refine ⟨rfl, fun slot b hb => .inl (h.numbered slot b hb), ?_⟩
  intro before stream frame after hjournal hrequest
  change c.wire.env.journal = _ at hjournal
  have hhandshake := h.opening stream frame (by rw [hjournal]; simp)
  rw [hrequest] at hhandshake
  cases hhandshake

/-- What can be asked of a cluster directly: its own operations, and those of a group
protocol that is run on it. -/
inductive Use
  | setRequestTimeout (timeout : ℕ)
  | setAllowAutoTopicCreation (allow : Bool)
  | setMetadataMaxAge (age : ℕ)
  | refreshMetadata (topic : String)
  | refreshIfStale (topic : String)
  | forgetTopic (topic : String)
  | refreshCluster
  | controllerAddr
  | invalidateController
  | leaderAddr (tp : TopicPartition)
  | partitionCount (topic : String)
  | invalidate (tp : TopicPartition)
  | advance (group : ClassicProtocol)
  | commit (group : ClassicProtocol) (offsets : PartitionMap ℤ)
  | committed (group : ClassicProtocol) (partitions : List TopicPartition)
  | leave (group : ClassicProtocol)

/-- The cluster after it has been used. -/
def Use.step (T : Transport ω) (c : Cluster ω) : Use → Cluster ω
  | setRequestTimeout timeout => c.setRequestTimeout timeout
  | setAllowAutoTopicCreation allow => c.setAllowAutoTopicCreation allow
  | setMetadataMaxAge age => c.setMetadataMaxAge age
  | refreshMetadata topic => (Cluster.refreshMetadata T topic c).2
  | refreshIfStale topic => (Cluster.refreshIfStale T topic c).2
  | forgetTopic topic => c.forgetTopic topic
  | refreshCluster => (Cluster.refreshCluster T c).2
  | controllerAddr => (Cluster.controllerAddr T c).2
  | invalidateController => c.invalidateController
  | leaderAddr tp => (Cluster.leaderAddr T tp c).2
  | partitionCount topic => (Cluster.partitionCount T topic c).2
  | invalidate tp => c.invalidate tp
  | advance group => (ClassicProtocol.advance T ⟨group, c⟩).2.cluster
  | commit group offsets => (ClassicProtocol.commit T offsets ⟨group, c⟩).2.cluster
  | committed group partitions => (ClassicProtocol.committed T partitions ⟨group, c⟩).2.cluster
  | leave group => (ClassicProtocol.leave T ⟨group, c⟩).2.cluster

theorem guards_refreshCluster :
    Moves (Guards T.codec credentials exempt) (refreshCluster T.recording) := by
  refine Moves.bind ?_ fun resp => Moves.modify fun c => guards_of_eq rfl rfl rfl
  exact (coordinates_guards credentials exempt T).callAny (fun _ _ => trivial) _

theorem guards_step (use : Use) (c : Cluster (Journaled ω)) :
    Guards T.codec credentials exempt c (use.step T.recording c) := by
  have h := coordinates_guards credentials exempt T
  cases use with
  | refreshMetadata topic => exact h.refreshMetadata topic c
  | refreshIfStale topic => exact h.refreshIfStale topic c
  | refreshCluster => exact guards_refreshCluster c
  | controllerAddr =>
      refine (Moves.bind Moves.get fun c => ?_ : Moves (Guards T.codec credentials exempt) _) c
      cases c.metadata.controllerAddr with
      | some broker => exact Moves.pure _
      | none =>
          refine Moves.bind guards_refreshCluster fun _ => Moves.bind Moves.get fun c => ?_
          cases c.metadata.controllerAddr with
          | some broker => exact Moves.pure _
          | none => exact Moves.throw _
  | leaderAddr tp => exact h.leaderAddr tp c
  | partitionCount topic => exact h.partitionCount topic c
  | advance group => exact ClassicProtocol.via_advance h (fun _ _ => trivial) ⟨group, c⟩
  | commit group offsets =>
      exact ClassicProtocol.via_commit h (fun _ _ _ _ _ => trivial) ⟨group, c⟩
  | committed group partitions =>
      exact ClassicProtocol.via_committed h (fun _ _ => trivial) partitions ⟨group, c⟩
  | leave group => exact ClassicProtocol.via_leave h (fun _ _ => trivial) ⟨group, c⟩
  | _ => exact guards_of_eq rfl rfl rfl

end Cluster

/-! ### Runs -/

namespace Consumer

variable {ω : Type} {T : Transport ω} {credentials : Credentials} {exempt : ℕ → Prop}

/-- A relation between clusters, whatever else becomes of the consumer. -/
def Through (C : Cluster ω → Cluster ω → Prop) (c c' : Consumer ω) : Prop := C c.cluster c'.cluster

instance {C : Cluster ω → Cluster ω → Prop} [IsPreorder (Cluster ω) C] :
    IsPreorder (Consumer ω) (Through C) where
  refl c := refl_of C c.cluster
  trans _ _ _ h h' := trans_of C h h'

open Cluster (Guards)

variable (T credentials exempt) in
theorem permits_guards : Permits T.recording (Guards T.codec credentials exempt) (fun _ => True)
    (Through (Guards T.codec credentials exempt)) where
  calls := (Cluster.coordinates_guards credentials exempt T).toPermits
  coordinates := Cluster.coordinates_guards credentials exempt T
  recv addrs := Cluster.guards_recvMany .fetch Body.asFetch addrs
  membership _ _ := trivial
  listOffsets _ _ _ := trivial
  cluster _ _ h := h
  discardOutstanding := moves_discardOutstanding T.recording
    (fun c _ _ => refl_of (Guards T.codec credentials exempt) c.cluster)
    fun addrs => Moves.zoom (Cluster.guards_recvMany .fetch Body.asFetch addrs) fun _ _ h => h
  fetch c _ _ := refl_of (Guards T.codec credentials exempt) c.cluster
  group _ _ _ _ _ h := h
  books c _ _ := refl_of (Guards T.codec credentials exempt) c.cluster

variable (T credentials exempt) in
theorem confined_guards : Confined T.recording (Guards T.codec credentials exempt)
    (Through (Guards T.codec credentials exempt)) where
  toAttends := (permits_guards T credentials exempt).toAttends
  inner c c' hcluster _ := by
    rw [Through, hcluster]
    exact refl_of (Guards T.codec credentials exempt) c.cluster
  fetching D := by
    have h := permits_guards T credentials exempt
    have hsend : ∀ c byBroker, Through (Guards T.codec credentials exempt) c
        (sendFetches T.recording (c.planned byBroker) [] c).2 := fun c byBroker =>
      h.sendFetches (fun entry _ => Cluster.guards_sendAt entry.1 12 _) [] c
    have hinner : ∀ c c' : Consumer (Journaled ω), c'.cluster = c.cluster →
        Through (Guards T.codec credentials exempt) c c' := fun c c' hcluster => by
      rw [Through, hcluster]
      exact refl_of (Guards T.codec credentials exempt) c.cluster
    refine Moves.bind (h.collect hsend) fun answers => ?_
    refine Moves.bind (moves_absorb D (fun c reading _ => hinner c _ rfl)
      (fun c _ => hinner c _ rfl) answers []) fun out => ?_
    refine Moves.bind (h.startPrefetch hsend) fun _ => ?_
    exact Moves.bind (Moves.modify fun c => hinner c _ rfl) fun _ => Moves.pure _

theorem guards_call (D : Decoders) (call : Call) (c : Consumer (Journaled ω)) :
    Through (Guards T.codec credentials exempt) c (call.step T.recording D c) :=
  (confined_guards T credentials exempt).exec D (fun _ _ => Cluster.guards_of_eq rfl rfl rfl) call c

theorem guards_configure (ready : ConsumerReady) :
    Moves (Through (Guards T.codec credentials exempt)) (ready.configure T.recording) := by
  have h := confined_guards T credentials exempt
  have heach : ∀ assignments, Moves (Through (Guards T.codec credentials exempt))
      (ConsumerReady.assignEach T.recording assignments) := by
    intro assignments
    induction assignments with
    | nil => exact Moves.pure _
    | cons first rest ih => exact Moves.bind (h.manages.assign first.1 _) fun _ => ih
  have hevery : ∀ topics, Moves (Through (Guards T.codec credentials exempt))
      (ConsumerReady.assignEvery T.recording topics) := by
    intro topics
    induction topics with
    | nil => exact Moves.pure _
    | cons first rest ih =>
        refine Moves.bind (h.partitionCount first.1) fun count => ?_
        exact Moves.bind (heach _) fun _ => ih
  refine Moves.bind (Moves.modify fun c => ?_) fun _ => Moves.bind (hevery _) fun _ => heach _
  refine h.inner c _ ?_ ?_
  · rcases hwait : ready.maxWait with _ | _ <;> rcases hprefetch : ready.prefetch with _ | _ <;>
      rcases hincremental : ready.incremental with _ | _ <;>
      simp [ConsumerReady.settings, hwait, hprefetch, hincremental, setMaxWait, setPrefetch,
        setIncrementalFetch]
  · rcases hwait : ready.maxWait with _ | _ <;> rcases hprefetch : ready.prefetch with _ | _ <;>
      rcases hincremental : ready.incremental with _ | _ <;>
      simp [ConsumerReady.settings, hwait, hprefetch, hincremental, setMaxWait, setPrefetch,
        setIncrementalFetch]

end Consumer

/-- No connection with one of the first numbers has taken a request, but for those that
open it. -/
def Unused (opened : ℕ) (journal : Journal) : Prop :=
  ∀ stream frame, (stream, .wrote frame) ∈ journal → stream < opened → frame.request.isHandshake

/-- Every request but those that open a connection went out on one that had authenticated
before. -/
def Authentic (codec : Codec) (credentials : Credentials) (journal : Journal) : Prop :=
  ∀ before stream frame after, journal = before ++ (stream, .wrote frame) :: after →
    frame.request.isHandshake = false → Authenticated codec credentials (Journal.on before stream)

theorem Guarded.authentic {codec : Codec} {credentials : Credentials} {opened : ℕ}
    {journal : Journal} (h : Guarded codec credentials (· < opened) journal)
    (hunused : Unused opened journal) : Authentic codec credentials journal := by
  intro before stream frame after hjournal hrequest
  rcases h before stream frame after hjournal hrequest with hold | hauthenticated
  · have hhandshake := hunused stream frame (by rw [hjournal]; simp) hold
    rw [hrequest] at hhandshake
    cases hhandshake
  · exact hauthenticated

variable {ω : Type}

/-- What the builder's consumer has written after some calls. -/
def ConsumerReady.journal (ready : ConsumerReady) (T : Transport ω) (D : Decoders) (env : ω)
    (calls : List Consumer.Call) : Journal :=
  (run (Consumer.Call.step T.recording D) (ready.build T.recording (.start env)).2
    calls).cluster.wire.env.journal

theorem authentic_consumer (T : Transport ω) (D : Decoders) (env : ω) {credentials : Credentials}
    {ready : ConsumerReady} (hgiven : ready.credentials = some credentials)
    {cluster : Cluster (Journaled ω)}
    (hconnect : Cluster.connect T.recording (.new (.start env) ready.bootstrap ready.clientId) =
      (.ok (), cluster)) (calls : List Consumer.Call) :
    Guarded T.codec credentials (· < cluster.wire.env.streams.length)
      (ready.journal T D env calls) := by
  have hbare : Cluster.Bare cluster := by
    have h := Cluster.bare_connect (T := T) env ready.bootstrap ready.clientId
    rw [hconnect] at h
    exact h
  have hbuilt : Cluster.Secure T.codec credentials (· < cluster.wire.env.streams.length)
      (ready.build T.recording (.start env)).2.cluster := by
    have hbuild : ready.build T.recording (.start env) = ready.configure T.recording
        (Consumer.fromCluster { cluster with credentials := ready.credentials } ready.isolation) := by
      rw [ConsumerReady.build, hconnect]
    rw [hbuild, hgiven]
    exact (Consumer.guards_configure ready _ (hbare.secure T.codec credentials)).1
  have hlast := run_induction
    (I := fun c : Consumer (Journaled ω) =>
      Cluster.Secure T.codec credentials (· < cluster.wire.env.streams.length) c.cluster)
    hbuilt (fun c call hc => (Consumer.guards_call D call c hc).1) calls
  exact hlast.guarded

theorem authentic_cluster (T : Transport ω) (env : ω) (credentials : Credentials)
    {bootstrap : List String} {clientId : String} {cluster : Cluster (Journaled ω)}
    (hconnect : Cluster.connect T.recording (.new (.start env) bootstrap clientId) = (.ok (), cluster))
    (uses : List Cluster.Use) :
    Guarded T.codec credentials (· < cluster.wire.env.streams.length)
      (run (Cluster.Use.step T.recording) (cluster.setCredentials credentials) uses).wire.env.journal := by
  have hbare : Cluster.Bare cluster := by
    have h := Cluster.bare_connect (T := T) env bootstrap clientId
    rw [hconnect] at h
    exact h
  have hlast := run_induction
    (I := fun c : Cluster (Journaled ω) =>
      Cluster.Secure T.codec credentials (· < cluster.wire.env.streams.length) c)
    (hbare.secure T.codec credentials) (fun c use hc => (Cluster.guards_step use c hc).1) uses
  exact hlast.guarded

/-- **Whatever a client that was given credentials does, it authenticates first, unless
it uses a connection that it had before.** -/
theorem authentic_unless_used (T : Transport ω) (D : Decoders) (env : ω) (credentials : Credentials)
    (bootstrap : List String) (clientId : String) (cluster : Cluster (Journaled ω))
    (hconnect : Cluster.connect T.recording (.new (.start env) bootstrap clientId) =
      (.ok (), cluster)) :
    (∀ (ready : ConsumerReady) (calls : List Consumer.Call), ready.bootstrap = bootstrap →
        ready.clientId = clientId → ready.credentials = some credentials →
        Unused cluster.wire.env.streams.length (ready.journal T D env calls) →
        Authentic T.codec credentials (ready.journal T D env calls)) ∧
      ∀ uses : List Cluster.Use,
        Unused cluster.wire.env.streams.length (run (Cluster.Use.step T.recording)
          (cluster.setCredentials credentials) uses).wire.env.journal →
        Authentic T.codec credentials (run (Cluster.Use.step T.recording)
          (cluster.setCredentials credentials) uses).wire.env.journal := by
  constructor
  · rintro ready calls rfl rfl hgiven hunused
    exact (authentic_consumer T D env hgiven hconnect calls).authentic hunused
  · intro uses hunused
    exact (authentic_cluster T env credentials hconnect uses).authentic hunused

/-- The peer answers, but takes nothing more on the first connection once that is open. -/
def Tape.refusing : Transport Tape :=
  { Tape.transport with
    writeWithin := fun timeout stream frame =>
      if stream = 0 then fun tape => (.error (some ⟨.other, "closed"⟩), tape)
      else Tape.transport.writeWithin timeout stream frame }

def plainCredentials : Credentials := ⟨.plain, "user", "pencil"⟩

def authenticating : ConsumerReady :=
  ⟨["b:1"], "client", .readCommitted, some plainCredentials, none, none, none, [], []⟩

/-- What the peer answers if it is asked for the metadata after an authentication. -/
def accepting : Tape :=
  .of [.apiVersions ⟨0, []⟩, .apiVersions ⟨0, []⟩, .saslHandshake ⟨0, []⟩,
    .saslAuthenticate ⟨0, none, []⟩, .metadata ⟨[], 0, []⟩]

/-- A check of `Unused`. -/
def Journal.spares (journal : Journal) (opened : ℕ) : Bool :=
  journal.all fun e =>
    match e.2 with
    | .wrote frame => opened ≤ e.1 || frame.request.isHandshake
    | .read _ => true

theorem Unused.of_spares {journal : Journal} {opened : ℕ} (h : journal.spares opened = true) :
    Unused opened journal := by
  intro stream frame hmem hold
  have hevent := List.all_eq_true.mp h _ hmem
  simp only [Bool.or_eq_true, decide_eq_true_eq] at hevent
  exact hevent.resolve_left (Nat.not_le.mpr hold)

/-- The metadata is asked for on a second connection, which authenticates first. -/
theorem authentic_unless_used_refusing :
    (Cluster.connect Tape.refusing.recording (.new (.start accepting) ["b:1"] "client")).1 = .ok () ∧
      Authentic Tape.codec plainCredentials
        (authenticating.journal Tape.refusing Consumer.plainDecoders accepting [.partitionCount "t"]) ∧
      Authentic Tape.codec plainCredentials
        (run (Cluster.Use.step Tape.refusing.recording)
          ((Cluster.connect Tape.refusing.recording
            (.new (.start accepting) ["b:1"] "client")).2.setCredentials plainCredentials)
          [.partitionCount "t"]).wire.env.journal := by
  have hconnect : Cluster.connect Tape.refusing.recording (.new (.start accepting) ["b:1"] "client") =
      (.ok (), (Cluster.connect Tape.refusing.recording
        (.new (.start accepting) ["b:1"] "client")).2) := Prod.fst_eq_iff.mp (by decide)
  have hruns := authentic_unless_used Tape.refusing Consumer.plainDecoders accepting plainCredentials ["b:1"]
    "client" _ hconnect
  refine ⟨by decide, ?_, ?_⟩
  · apply hruns.1 authenticating [.partitionCount "t"] rfl rfl rfl
    apply Unused.of_spares
    decide
  · apply hruns.2 [.partitionCount "t"]
    apply Unused.of_spares
    decide

theorem Authenticated.exists_handshake {codec : Codec} {credentials : Credentials}
    {traffic : List Traffic} (h : Authenticated codec credentials traffic) :
    ∃ frame mechanism, .wrote frame ∈ traffic ∧ frame.request = .saslHandshake mechanism := by
  obtain ⟨before, shake, resp, exchange, after, rfl, ⟨frame, hrequest, rfl⟩, -, -⟩ := h
  exact ⟨frame, _, by simp, hrequest⟩

/-- The metadata is asked for on the connection that is there. -/
theorem metadata_asked_first :
    ¬Authentic Tape.codec plainCredentials (authenticating.journal Tape.transport Consumer.plainDecoders
      (.of [.apiVersions ⟨0, []⟩, .metadata ⟨[], 0, []⟩]) [.partitionCount "t"]) := by
  intro hauthentic
  have hjournal : authenticating.journal Tape.transport Consumer.plainDecoders
      (.of [.apiVersions ⟨0, []⟩, .metadata ⟨[], 0, []⟩]) [.partitionCount "t"] =
        [(0, .wrote ⟨3, 1, "client", .apiVersions "client" "0.0.1"⟩),
          (0, .read (.frame (.ok 1) (.apiVersions ⟨0, []⟩)))] ++
          (0, .wrote ⟨12, 2, "client", .metadata (some ["t"]) true⟩) ::
          [(0, .read (.frame (.ok 2) (.metadata ⟨[], 0, []⟩)))] := rfl
  obtain ⟨frame, mechanism, hwrote, hrequest⟩ :=
    (hauthentic _ 0 _ _ hjournal rfl).exists_handshake
  simp [Journal.on] at hwrote
  rw [hwrote] at hrequest
  cases hrequest

end Barnabas.Client
