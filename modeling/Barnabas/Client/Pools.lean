import Barnabas.Client.InStep

/-!
What the cluster's operations do to its pools, over peers that keep in step.

A call leaves every connection with as many answers owed as before it, a send adds
one, a read takes one away. A connection on which an operation was lost is gone, and
with it what it was owed.
-/

namespace Barnabas.Client

open Barnabas.Lib Barnabas.Core Barnabas.Lib.Act

namespace Cluster

open Broker (Listed dues OnStream Square Grows)
open World (LostWithin LostUnhurried)

variable {ω ε α : Type} {T : Transport ω} {debts : ω → Debts}

/-- The pools of a cluster are booked. -/
def InBooks (debts : ω → Debts) (c : Cluster ω) : Prop := Booked (look c) (debts c.wire.env)

/-- How many answers a cluster is owed at a place. -/
def dueAt (debts : ω → Debts) (c : Cluster ω) (slot : Slot) : ℕ :=
  owes (look c) (debts c.wire.env) slot

/-- What a call may change: nothing that is owed. -/
def Evens (debts : ω → Debts) (c c' : Cluster ω) : Prop :=
  InBooks debts c → InBooks debts c' ∧ ∀ slot, dueAt debts c' slot = dueAt debts c slot

instance : IsPreorder (Cluster ω) (Evens debts) where
  refl _ h := ⟨h, fun _ => rfl⟩
  trans _ _ _ h h' hc := ⟨(h' (h hc).1).1, fun slot => ((h' (h hc).1).2 slot).trans ((h hc).2 slot)⟩

theorem evens_of_debts {c : Cluster ω} {wire : Wire ω}
    (h : debts wire.env = debts c.wire.env) : Evens debts c { c with wire } := by
  intro hc
  have hlook : look { c with wire } = look c := by
    funext ⟨pool, addr⟩
    cases pool <;> rfl
  refine ⟨?_, fun slot => ?_⟩
  · rw [InBooks, hlook]
    exact h ▸ hc
  · rw [dueAt, hlook]
    exact h ▸ rfl

theorem look_wire (c : Cluster ω) (wire : Wire ω) : look { c with wire } = look c := by
  funext ⟨pool, addr⟩
  cases pool <;> rfl

theorem onBroker_apply {ε' : Type} {pool : Pool} {addr : String} {b : Broker}
    {m : Act (Link ω) ε' α} {c : Cluster ω} {outcome : Except ε' α} {l' : Link ω}
    (h : m ⟨c.wire, b⟩ = (outcome, l')) :
    (onBroker pool addr b m : Act (Cluster ω) ε _) c =
      (.ok outcome, { c with wire := l'.wire }.keep pool addr l'.broker) := by
  unfold onBroker
  rw [h]

/-! ### One connection of a pool -/

section Slot

variable {c : Cluster ω} {pool : Pool} {addr : String} {b : Broker} {l' : Link ω}

/-- The pools after an operation whose connection was kept. -/
theorem InBooks.kept (h : InBooks debts c) (hb : look c (pool, addr) = some b)
    (hl : OnStream debts ⟨c.wire, b⟩ l') (hlisted : Listed debts l') :
    InBooks debts ({ c with wire := l'.wire }.keep pool addr l'.broker) ∧
      dueAt debts ({ c with wire := l'.wire }.keep pool addr l'.broker) (pool, addr) =
        (dues debts l').length ∧
      ∀ s ≠ (pool, addr), dueAt debts ({ c with wire := l'.wire }.keep pool addr l'.broker) s =
        dueAt debts c s := by
  rw [InBooks, dueAt, look_keep, look_wire, wire_keep]
  refine ⟨h.step hb hl.beside hl.stream hlisted, ?_, fun s hs => ?_⟩
  · exact owes_of_some (Function.update_self ..)
  · rw [dueAt, look_keep, look_wire, wire_keep]
    exact h.owes_of_ne hb hl.beside _ hs

/-- The pools after an operation whose connection was dropped. -/
theorem InBooks.dropped (h : InBooks debts c) (hb : look c (pool, addr) = some b)
    (hl : OnStream debts ⟨c.wire, b⟩ l') :
    InBooks debts (({ c with wire := l'.wire }.keep pool addr l'.broker).drop pool addr) ∧
      dueAt debts (({ c with wire := l'.wire }.keep pool addr l'.broker).drop pool addr)
        (pool, addr) = 0 ∧
      ∀ s ≠ (pool, addr),
        dueAt debts (({ c with wire := l'.wire }.keep pool addr l'.broker).drop pool addr) s =
          dueAt debts c s := by
  have hlook : look (({ c with wire := l'.wire }.keep pool addr l'.broker).drop pool addr) =
      Function.update (look c) (pool, addr) none := by
    rw [look_drop, look_keep, look_wire, Function.update_idem]
  rw [InBooks, dueAt, hlook, wire_drop, wire_keep]
  refine ⟨h.lose hb hl.beside, ?_, fun s hs => ?_⟩
  · exact owes_of_none (Function.update_self ..)
  · rw [dueAt, hlook, wire_drop, wire_keep]
    exact h.owes_of_ne hb hl.beside _ hs

end Slot

section Operations

variable (hT : T.InStep debts)

include hT

/-- A connection that could be opened takes an empty place. -/
theorem connect_evens (pool : Pool) (addr : String) {c : Cluster ω} (hc : InBooks debts c)
    (hempty : look c (pool, addr) = none) :
    Post (fun b c' => InBooks debts (c'.keep pool addr b) ∧
        ∀ slot, dueAt debts (c'.keep pool addr b) slot = dueAt debts c slot)
      (fun _ c' => InBooks debts c' ∧ (∀ slot, dueAt debts c' slot = dueAt debts c slot) ∧
        look c' = look c)
      (onWire (Broker.connect T addr c.clientId c.credentials) c) := by
  obtain ⟨hgrows, hopened⟩ := Broker.connect_square hT addr c.clientId c.credentials c.wire
  rw [onWire, zoom_apply]
  rcases hconnect : Broker.connect T addr c.clientId c.credentials c.wire with ⟨e | b, wire⟩
  · rw [hconnect] at hgrows
    refine ⟨?_, fun slot => ?_, look_wire c wire⟩
    · rw [InBooks, look_wire]
      exact hc.grow hgrows
    · rw [dueAt, look_wire]
      exact hc.owes_grow hgrows slot
  · rw [hconnect] at hgrows hopened
    obtain ⟨hnew, hopen, hsquare⟩ := hopened b rfl
    have hadd := hc.add hgrows hempty hnew hopen hsquare.2
    refine ⟨?_, fun slot => ?_⟩
    · rw [InBooks, look_keep, look_wire, wire_keep]
      exact hadd.1
    · rw [dueAt, look_keep, look_wire, wire_keep]
      exact hadd.2 slot

/-- The connection to an address is there afterwards, or could not be opened. -/
theorem brokerIn_evens (pool : Pool) (addr : String) {c : Cluster ω} (hc : InBooks debts c) :
    Post (fun b c' => InBooks debts c' ∧ (∀ slot, dueAt debts c' slot = dueAt debts c slot) ∧
        look c' (pool, addr) = some b)
      (fun _ c' => InBooks debts c' ∧ (∀ slot, dueAt debts c' slot = dueAt debts c slot) ∧
        look c' (pool, addr) = none)
      (brokerIn T pool addr c) := by
  rw [brokerIn, bind_of_ok (get_apply c)]
  cases hlook : (c.pool pool)[addr]? with
  | some b => exact ⟨hc, fun _ => rfl, hlook⟩
  | none =>
      dsimp only
      have hconnect := connect_evens hT pool addr hc hlook
      rcases hopen : onWire (Broker.connect T addr c.clientId c.credentials) c with ⟨e | b, c'⟩
      · rw [hopen] at hconnect
        rw [bind_of_error hopen]
        refine ⟨hconnect.1, hconnect.2.1, ?_⟩
        rw [hconnect.2.2]
        exact hlook
      · rw [hopen] at hconnect
        rw [bind_of_ok hopen, bind_of_ok (modify_apply _ _)]
        refine ⟨hconnect.1, hconnect.2, ?_⟩
        rw [look_keep]
        exact Function.update_self ..

/-- A call with what follows it. -/
theorem evens_callBroker {version : ℤ} {req : Request} (as : Body → Option α) {pool : Pool}
    {addr : String} {b : Broker} (timeout : ℕ) {retry : IoError → Act (Cluster ω) Error α}
    (hretry : ∀ e, Moves (Evens debts) (retry e)) {c : Cluster ω}
    (hb : look c (pool, addr) = some b) :
    Evens debts c ((do
      let outcome ← onBroker pool addr b (Broker.call T (T.within timeout) as version req)
      settle pool req.apiKey addr retry outcome : Act (Cluster ω) Error α) c).2 := by
  intro hc
  let l : Link ω := ⟨c.wire, b⟩
  have honStream : OnStream debts l (Broker.call T (T.within timeout) as version req l).2 :=
    (Broker.permits_onStream (hT.within timeout)).call T as version (fun _ _ => trivial) l
  have hlisted : Listed debts l := hc.listed _ b hb
  have hcall := Broker.call_listed (T := T) (hT.within timeout) as version req hlisted
  have hdue : dueAt debts c (pool, addr) = (dues debts l).length := owes_of_some hb
  rcases hcalled : Broker.call T (T.within timeout) as version req l with ⟨outcome, l'⟩
  rw [hcalled] at honStream hcall
  rw [bind_of_ok (onBroker_apply hcalled)]
  -- what is owed elsewhere is untouched, so that only this place has to be looked at
  have hsame : ∀ {c' : Cluster ω}, InBooks debts c' ∧
      dueAt debts c' (pool, addr) = (dues debts l).length ∧
      (∀ s ≠ (pool, addr), dueAt debts c' s = dueAt debts c s) →
      InBooks debts c' ∧ ∀ slot, dueAt debts c' slot = dueAt debts c slot := by
    rintro c' ⟨hc', hhere, helse⟩
    refine ⟨hc', fun slot => ?_⟩
    by_cases hs : slot = (pool, addr)
    · rw [hs, hhere, hdue]
    · exact helse slot hs
  have hkept : Listed debts l' ∧ (dues debts l').length = (dues debts l).length →
      InBooks debts ({ c with wire := l'.wire }.keep pool addr l'.broker) ∧
        ∀ slot, dueAt debts ({ c with wire := l'.wire }.keep pool addr l'.broker) slot =
          dueAt debts c slot := by
    intro h
    have hkeep := hc.kept hb honStream h.1
    exact hsame ⟨hkeep.1, hkeep.2.1.trans h.2, hkeep.2.2⟩
  have hdropped : dues debts l = [] →
      InBooks debts (({ c with wire := l'.wire }.keep pool addr l'.broker).drop pool addr) ∧
        ∀ slot, dueAt debts (({ c with wire := l'.wire }.keep pool addr l'.broker).drop pool addr)
          slot = dueAt debts c slot := by
    intro h
    have hdrop := hc.dropped hb honStream
    exact hsame ⟨hdrop.1, hdrop.2.1.trans (by rw [h, List.length_nil]), hdrop.2.2⟩
  rcases outcome with (_ | e) | message
  · rcases hcall with ⟨_, hnil⟩ | ⟨hnot, _⟩
    · exact hdropped hnil
    · exact absurd (.inl rfl) hnot
  · rcases hcall with ⟨hlost, hnil⟩ | ⟨hnot, hkeep⟩
    · rcases hlost with hnone | ⟨io, hio⟩
      · cases hnone
      · cases hio
        obtain ⟨hbooks, hdues⟩ := hdropped hnil
        obtain ⟨hbooks', hdues'⟩ := hretry io _ hbooks
        exact ⟨hbooks', fun slot => (hdues' slot).trans (hdues slot)⟩
    · cases e with
      | io io => exact absurd (.inr ⟨io, rfl⟩) hnot
      | _ => exact hkept hkeep
  · exact hkept hcall

theorem evens_callOnce {version : ℤ} {req : Request} (as : Body → Option α) (addr : String)
    (timeout : ℕ) {retry : IoError → Act (Cluster ω) Error α}
    (hretry : ∀ e, Moves (Evens debts) (retry e)) :
    Moves (Evens debts) (callOnce T as addr version req timeout retry) := by
  intro c hc
  have hopen := brokerIn_evens hT .data addr hc
  rcases hbroker : brokerIn T .data addr c with ⟨e | b, c₁⟩
  · rw [hbroker] at hopen
    rw [callOnce, brokerAt, bind_of_error hbroker]
    exact ⟨hopen.1, hopen.2.1⟩
  · rw [hbroker] at hopen
    obtain ⟨hc₁, hsame, hlook⟩ := hopen
    rw [callOnce, brokerAt, bind_of_ok hbroker]
    split
    · exact ⟨hc₁, hsame⟩
    · obtain ⟨hbooks, hdues⟩ := evens_callBroker hT as timeout hretry hlook hc₁
      exact ⟨hbooks, fun slot => (hdues slot).trans (hsame slot)⟩

theorem evens_callAt {version : ℤ} {req : Request} (as : Body → Option α) (addr : String) :
    Moves (Evens debts) (callAt T as addr version req) := by
  refine Moves.bind Moves.get fun c => ?_
  exact evens_callOnce hT as addr _ fun _ => evens_callOnce hT as addr _ fun _ => Moves.throw _

theorem evens_callCoordinatorOnce {version : ℤ} {req : Request} (as : Body → Option α)
    (addr : String) (timeout : ℕ) {retry : IoError → Act (Cluster ω) Error α}
    (hretry : ∀ e, Moves (Evens debts) (retry e)) :
    Moves (Evens debts) (callCoordinatorOnce T as addr version req timeout retry) := by
  intro c hc
  have hopen := brokerIn_evens hT .coordinator addr hc
  rcases hbroker : brokerIn T .coordinator addr c with ⟨e | b, c₁⟩
  · rw [hbroker] at hopen
    rw [callCoordinatorOnce, bind_of_error hbroker]
    exact ⟨hopen.1, hopen.2.1⟩
  · rw [hbroker] at hopen
    obtain ⟨hc₁, hsame, hlook⟩ := hopen
    rw [callCoordinatorOnce, bind_of_ok hbroker]
    obtain ⟨hbooks, hdues⟩ := evens_callBroker hT as timeout hretry hlook hc₁
    exact ⟨hbooks, fun slot => (hdues slot).trans (hsame slot)⟩

theorem evens_callCoordinator {version : ℤ} {req : Request} (as : Body → Option α)
    (addr : String) (timeout : ℕ) :
    Moves (Evens debts) (callCoordinator T as addr version req timeout) :=
  evens_callCoordinatorOnce hT as addr timeout fun _ =>
    evens_callCoordinatorOnce hT as addr timeout fun _ => Moves.throw _

/-- A bootstrap connection goes into a pool that is empty. -/
theorem evens_connectBootstrap (addrs : List String) (lastErr : Option Error) (c : Cluster ω)
    (hempty : c.conns.keys = []) : Evens debts c (connectBootstrap T addrs lastErr c).2 := by
  intro hc
  have hnone : ∀ addr, look c (.data, addr) = none := by
    intro addr
    have hconns : c.conns.isEmpty := by
      rw [Std.TreeMap.isEmpty_eq_size_eq_zero, ← Std.TreeMap.length_keys, hempty]
      rfl
    exact Std.TreeMap.getElem?_of_isEmpty hconns
  clear hempty
  induction addrs generalizing lastErr c with
  | nil => exact ⟨hc, fun _ => rfl⟩
  | cons addr addrs ih =>
      have hconnect := connect_evens hT .data addr hc (hnone addr)
      rw [connectBootstrap, bind_of_ok (get_apply c), bind_of_ok (attempt_apply _ c)]
      rcases hopen : onWire (Broker.connect T addr c.clientId c.credentials) c with ⟨e | b, c'⟩
      · rw [hopen] at hconnect
        obtain ⟨hc', hsame, hlook⟩ := hconnect
        obtain ⟨hbooks, hdues⟩ := ih (some e) c' hc' fun a => by rw [hlook]; exact hnone a
        exact ⟨hbooks, fun slot => (hdues slot).trans (hsame slot)⟩
      · rw [hopen] at hconnect
        exact hconnect

theorem talks_evens : Talks T (Evens debts) fun _ => True where
  plumbing _ _ := trivial
  pick c := evens_of_debts (hT.pick _)
  now c := evens_of_debts (hT.now _)
  systemTime c := evens_of_debts (hT.systemTime _)
  sleep duration c := evens_of_debts (hT.sleep duration _)
  bootstrap addrs lastErr c hempty := evens_connectBootstrap hT addrs lastErr c hempty
  call as addr _ _ _ := evens_callAt hT as addr

/-- Nothing the client does but send and receive changes what it is owed. -/
theorem permits_evens : Permits T (Evens debts) fun _ => True where
  toTalks := talks_evens hT
  update _ _ h := ⟨h, fun _ => rfl⟩
  invalidate _ _ h := ⟨h, fun _ => rfl⟩
  refreshedAt _ _ h := ⟨h, fun _ => rfl⟩

/-! ### Sending -/

omit hT in
/-- What a send may change at one place: with a result there is one answer more to come,
or just the one if the connection had to be opened again. -/
structure Sent (debts : ω → Debts) (slot : Slot) (ok : Bool) (c c' : Cluster ω) : Prop where
  books : InBooks debts c'
  low : ok → 1 ≤ dueAt debts c' slot
  high : dueAt debts c' slot ≤ dueAt debts c slot + ok.toNat
  others : ∀ s ≠ slot, dueAt debts c' s = dueAt debts c s

omit hT in
/-- A send that starts over where a connection was lost. -/
theorem Sent.of_lost {slot : Slot} {ok : Bool} {c c₁ c' : Cluster ω} (h : Sent debts slot ok c₁ c')
    (hzero : dueAt debts c₁ slot = 0) (hothers : ∀ s ≠ slot, dueAt debts c₁ s = dueAt debts c s) :
    Sent debts slot ok c c' := by
  refine ⟨h.books, h.low, ?_, fun s hs => (h.others s hs).trans (hothers s hs)⟩
  calc
    dueAt debts c' slot ≤ dueAt debts c₁ slot + ok.toNat := h.high
    _ = ok.toNat := by rw [hzero, Nat.zero_add]
    _ ≤ dueAt debts c slot + ok.toNat := Nat.le_add_left ..

theorem sendOnce_sent {version : ℤ} {req : Request} {addr : String}
    {retry : IoError → Act (Cluster ω) Error Unit}
    (hretry : ∀ e c, InBooks debts c → Post (fun _ c' => Sent debts (.data, addr) true c c')
      (fun _ c' => Sent debts (.data, addr) false c c') (retry e c))
    {c : Cluster ω} (hc : InBooks debts c) :
    Post (fun _ c' => Sent debts (.data, addr) true c c')
      (fun _ c' => Sent debts (.data, addr) false c c')
      (sendOnce T addr version req retry c) := by
  have hopen := brokerIn_evens hT .data addr hc
  rcases hbroker : brokerIn T .data addr c with ⟨e | b, c₁⟩
  · rw [hbroker] at hopen
    rw [sendOnce, brokerAt, bind_of_error hbroker]
    exact ⟨hopen.1, nofun, (hopen.2.1 _).le, fun s _ => hopen.2.1 s⟩
  · rw [hbroker] at hopen
    obtain ⟨hc₁, hsame, hlook⟩ := hopen
    rw [sendOnce, brokerAt, bind_of_ok hbroker]
    let l : Link ω := ⟨c₁.wire, b⟩
    have honStream : OnStream debts l (Broker.send T T.unhurried version req l).2 :=
      (Broker.permits_onStream hT.unhurried).send T version (fun _ _ => trivial) l
    have hlisted : Listed debts l := hc₁.listed _ b hlook
    have hsend := Broker.send_listed (T := T) hT.unhurried version req hlisted
    have hdue : dueAt debts c (.data, addr) = (dues debts l).length := by
      rw [← hsame]
      exact owes_of_some hlook
    rcases hsent : Broker.send T T.unhurried version req l with ⟨outcome, l'⟩
    rw [hsent] at honStream hsend
    rw [bind_of_ok (onBroker_apply hsent)]
    rcases outcome with e | _
    · -- a lost connection is dropped before the request is tried again
      have hdrop := hc₁.dropped hlook honStream
      rcases hsend with ⟨io, rfl⟩ | ⟨hkept, hlisted, hdues⟩
      · have hothers : ∀ s ≠ (Pool.data, addr),
            dueAt debts (({ c₁ with wire := l'.wire }.keep .data addr l'.broker).drop .data addr) s =
              dueAt debts c s := fun s hs => (hdrop.2.2 s hs).trans (hsame s)
        exact (hretry io _ hdrop.1).imp (fun _ _ h => h.of_lost hdrop.2.1 hothers)
          fun _ _ h => h.of_lost hdrop.2.1 hothers
      · have hkeep := hc₁.kept hlook honStream hlisted
        cases e with
        | io io => exact absurd ⟨io, rfl⟩ hkept
        | _ =>
            refine ⟨hkeep.1, nofun, ?_, fun s hs => (hkeep.2.2 s hs).trans (hsame s)⟩
            rw [hkeep.2.1, hdues, hdue]
            exact le_rfl
    · have hkeep := hc₁.kept hlook honStream hsend.1
      refine ⟨hkeep.1, fun _ => ?_, ?_, fun s hs => (hkeep.2.2 s hs).trans (hsame s)⟩
      · rw [hkeep.2.1, hsend.2]
        exact Nat.le_add_left 1 _
      · rw [hkeep.2.1, hsend.2, hdue]
        exact le_rfl

theorem sendAt_sent (version : ℤ) (req : Request) (addr : String) {c : Cluster ω}
    (hc : InBooks debts c) :
    Post (fun _ c' => Sent debts (.data, addr) true c c')
      (fun _ c' => Sent debts (.data, addr) false c c') (sendAt T addr version req c) := by
  refine sendOnce_sent hT (fun _ c hc => ?_) hc
  refine sendOnce_sent hT (fun e c hc => ?_) hc
  exact ⟨hc, nofun, le_rfl, fun _ _ => rfl⟩

/-! ### Receiving

`recv_many` takes the connections out of the pool and puts those back that are worth
keeping, so in between a connection is either in the pool or taken. -/

omit hT in
/-- How a connection is found while some are taken out. -/
def held (taken : List (String × Option Broker)) (c : Cluster ω) (slot : Slot) : Option Broker :=
  match slot.1, taken.lookup slot.2 with
  | .data, some b => b
  | _, _ => look c slot

omit hT in
theorem held_nil (c : Cluster ω) : held [] c = look c := by
  funext ⟨pool, addr⟩
  cases pool <;> rfl

omit hT in
theorem takeConns_held {addrs : List String} (hnodup : addrs.Nodup) (c : Cluster ω) :
    held (takeConns addrs c).1 (takeConns addrs c).2 = look c ∧
      (takeConns addrs c).2.wire = c.wire ∧
      (takeConns addrs c).1.map (·.1) = addrs ∧
      ∀ addr ∈ addrs, look (takeConns addrs c).2 (.data, addr) = none := by
  induction addrs generalizing c with
  | nil => exact ⟨held_nil c, rfl, rfl, nofun⟩
  | cons addr addrs ih =>
      obtain ⟨hnew, hnodup⟩ := List.nodup_cons.mp hnodup
      obtain ⟨hheld, hwire, hnames, hgone⟩ := ih hnodup (c.drop .data addr)
      have htake : takeConns (addr :: addrs) c =
          ((addr, look c (.data, addr)) :: (takeConns addrs (c.drop .data addr)).1,
            (takeConns addrs (c.drop .data addr)).2) := rfl
      rw [htake]
      have hat : ∀ slot : Slot, slot ≠ (.data, addr) →
          held (takeConns addrs (c.drop .data addr)).1 (takeConns addrs (c.drop .data addr)).2 slot =
            look c slot := by
        intro slot hslot
        rw [hheld, look_drop, Function.update_of_ne hslot]
      refine ⟨?_, hwire.trans (wire_drop ..), by rw [List.map_cons, hnames], ?_⟩
      · funext ⟨pool, a⟩
        by_cases ha : (pool, a) = (Pool.data, addr)
        · cases ha
          simp [held]
        · rw [← hat _ ha]
          cases pool with
          | coordinator => rfl
          | data =>
              have hbeq : (a == addr) = false := by
                simpa using fun h : a = addr => ha (by rw [h])
              rw [held, held, List.lookup_cons, hbeq]
      · intro a ha
        rcases List.mem_cons.mp ha with rfl | ha
        · have hnone : (takeConns addrs (c.drop .data a)).1.lookup a = none := by
            rw [List.lookup_eq_none_iff]
            intro p hp
            simpa using fun h : a = p.1 => hnew (hnames ▸ List.mem_map.mpr ⟨p, hp, h.symm⟩)
          have hself := congrFun hheld (.data, a)
          rw [look_drop, Function.update_self, held] at hself
          simpa [hnone] using hself
        · exact hgone a ha

omit hT in
/-- With its first entry back in the pool or gone, the rest of a list finds what the
whole list finds. -/
theorem held_cons {taken : List (String × Option Broker)} {c c' : Cluster ω} {addr : String}
    {t o : Option Broker} (hnew : addr ∉ taken.map (·.1))
    (hlook : look c' = Function.update (look c) (.data, addr) o) :
    held taken c' = Function.update (held ((addr, t) :: taken) c) (.data, addr) o := by
  funext ⟨pool, a⟩
  by_cases ha : (pool, a) = (Pool.data, addr)
  · cases ha
    have hnone : taken.lookup addr = none := by
      rw [List.lookup_eq_none_iff]
      intro p hp
      simpa using fun h : addr = p.1 => hnew (List.mem_map.mpr ⟨p, hp, h.symm⟩)
    rw [Function.update_self, held, hnone, hlook]
    exact Function.update_self ..
  · rw [Function.update_of_ne ha]
    cases pool with
    | coordinator =>
        rw [held, held, hlook]
        exact Function.update_of_ne ha _ _
    | data =>
        have hbeq : (a == addr) = false := by
          simpa using fun h : a = addr => ha (by rw [h])
        rw [held, held, List.lookup_cons, hbeq, hlook]
        cases taken.lookup a with
        | some b => rfl
        | none => exact Function.update_of_ne ha _ _

omit hT in
/-- At the places read one answer less is owed, or the connection is gone. -/
structure Took (addrs : List String) (look : Slot → Option Broker) (d : Debts)
    (look' : Slot → Option Broker) (d' : Debts) : Prop where
  books : Booked look' d'
  fewer : ∀ addr ∈ addrs, owes look' d' (.data, addr) ≤ owes look d (.data, addr) - 1
  others : ∀ slot, slot ∉ addrs.map (Pool.data, ·) → owes look' d' slot = owes look d slot

omit hT in
theorem Took.one {addr : String} {look look' : Slot → Option Broker} {d d' : Debts}
    (books : Booked look' d') (fewer : owes look' d' (.data, addr) ≤ owes look d (.data, addr) - 1)
    (others : ∀ slot ≠ (Pool.data, addr), owes look' d' slot = owes look d slot) :
    Took [addr] look d look' d' := by
  refine ⟨books, fun a ha => ?_, fun slot hslot => others slot fun h => hslot ?_⟩
  · rw [List.mem_singleton.mp ha]
    exact fewer
  · rw [h]
    simp

theorem recvOne_took (op : ApiKey) (as : Body → Option α) {c : Cluster ω} {addr : String}
    {look : Slot → Option Broker} {t : Option Broker} (hbooks : Booked look (debts c.wire.env))
    (hself : look (.data, addr) = t) (hgone : c.look (.data, addr) = none) :
    ∃ o, (recvOne T op as (addr, t) c).2.look = Function.update c.look (.data, addr) o ∧
      Took [addr] look (debts c.wire.env) (Function.update look (.data, addr) o)
        (debts (recvOne T op as (addr, t) c).2.wire.env) := by
  have hsame : c.look = Function.update c.look (.data, addr) none := by
    rw [← hgone, Function.update_eq_self]
  rcases t with _ | b
  · have hnone : Function.update look (.data, addr) none = look := by
      rw [← hself, Function.update_eq_self]
    refine ⟨none, hsame, ?_⟩
    rw [hnone]
    refine .one hbooks ?_ fun _ _ => rfl
    change owes look (debts c.wire.env) _ ≤ _
    rw [owes_of_none hself]
  · let l : Link ω := ⟨c.wire, b⟩
    have honStream : OnStream debts l (Broker.recv (T.within c.requestTimeout) as l).2 :=
      (Broker.permits_onStream (hT.within c.requestTimeout)).recv as l
    have hlisted : Listed debts l := hbooks.listed _ b hself
    have hrecv := Broker.recv_listed (hT.within c.requestTimeout) as hlisted
    have hdue : owes look (debts c.wire.env) (.data, addr) = (dues debts l).length :=
      owes_of_some hself
    rw [recvOne]
    rcases hreceived : Broker.recv (T.within c.requestTimeout) as l with ⟨outcome, l'⟩
    rw [hreceived] at honStream hrecv
    let c₁ : Cluster ω := { c with wire := l'.wire }
    have hkept : Listed debts l' ∧ (dues debts l).length = (dues debts l').length + 1 →
        ∃ o, (c₁.keep .data addr l'.broker).look = Function.update c.look (.data, addr) o ∧
          Took [addr] look (debts c.wire.env) (Function.update look (.data, addr) o)
            (debts (c₁.keep .data addr l'.broker).wire.env) := by
      intro hl'
      refine ⟨some l'.broker, by rw [look_keep, look_wire], .one ?_ ?_ fun s hs => ?_⟩
      · rw [wire_keep]
        exact hbooks.step hself honStream.beside honStream.stream hl'.1
      · rw [wire_keep, hdue, owes_of_some (Function.update_self ..)]
        change (dues debts l').length ≤ _
        omega
      · rw [wire_keep]
        exact hbooks.owes_of_ne hself honStream.beside _ hs
    have hlost : ∃ o, c₁.look = Function.update c.look (.data, addr) o ∧
        Took [addr] look (debts c.wire.env) (Function.update look (.data, addr) o)
          (debts c₁.wire.env) := by
      refine ⟨none, by rw [look_wire]; exact hsame, .one ?_ ?_ fun s hs => ?_⟩
      · exact hbooks.lose hself honStream.beside
      · rw [owes_of_none (Function.update_self ..)]
        exact Nat.zero_le _
      · exact hbooks.owes_of_ne hself honStream.beside _ hs
    rcases outcome with (_ | e) | message
    · exact hlost
    · rcases hrecv with (hnone | ⟨io, hio⟩) | ⟨_, hkeep⟩
      · cases hnone
      · cases hio
        exact hlost
      · cases e with
        | io io => exact hlost
        | _ => exact hkept hkeep
    · exact hkept hrecv

theorem recvTaken_took (op : ApiKey) (as : Body → Option α)
    {taken : List (String × Option Broker)} {c : Cluster ω} (hnodup : (taken.map (·.1)).Nodup)
    (hgone : ∀ addr ∈ taken.map (·.1), c.look (.data, addr) = none)
    (hbooks : Booked (held taken c) (debts c.wire.env)) :
    Took (taken.map (·.1)) (held taken c) (debts c.wire.env) (recvTaken T op as taken c).2.look
      (debts (recvTaken T op as taken c).2.wire.env) := by
  induction taken generalizing c with
  | nil =>
      rw [held_nil]
      rw [held_nil] at hbooks
      exact ⟨hbooks, nofun, fun _ _ => rfl⟩
  | cons first rest ih =>
      obtain ⟨addr, t⟩ := first
      rw [List.map_cons, List.nodup_cons] at hnodup
      have hself : held ((addr, t) :: rest) c (.data, addr) = t := by simp [held]
      obtain ⟨o, hlook, hone⟩ := recvOne_took hT op as hbooks hself (hgone addr (by simp))
      rw [← held_cons hnodup.1 hlook] at hone
      have hrest := ih hnodup.2 (fun a ha => ?_) hone.books
      · change Took (addr :: rest.map (·.1)) _ _
          (recvTaken T op as rest (recvOne T op as (addr, t) c).2).2.look
          (debts (recvTaken T op as rest (recvOne T op as (addr, t) c).2).2.wire.env)
        refine ⟨hrest.books, fun a ha => ?_, fun slot hslot => ?_⟩
        · rcases List.mem_cons.mp ha with rfl | ha
          · rw [hrest.others _ (by simpa using hnodup.1)]
            exact hone.fewer a (List.mem_singleton_self a)
          · refine (hrest.fewer a ha).trans (Nat.sub_le_sub_right (hone.others _ ?_).le 1)
            have hne : a ≠ addr := fun h => hnodup.1 (h ▸ ha)
            simpa using hne
        · rw [List.map_cons, List.mem_cons, not_or] at hslot
          rw [hrest.others slot hslot.2, hone.others slot (by simpa using hslot.1)]
      · rw [hlook, Function.update_of_ne]
        · exact hgone a (List.mem_cons_of_mem _ ha)
        · intro h
          exact hnodup.1 ((Prod.mk.inj h).2 ▸ ha)

/-- Reading from several connections. -/
theorem recvMany_took (op : ApiKey) (as : Body → Option α) {addrs : List String}
    (hnodup : addrs.Nodup) {c : Cluster ω} (hc : InBooks debts c) :
    Took addrs c.look (debts c.wire.env)
      ((recvMany T op as addrs : Act (Cluster ω) ε _) c).2.look
      (debts ((recvMany T op as addrs : Act (Cluster ω) ε _) c).2.wire.env) := by
  obtain ⟨hheld, hwire, hnames, hgone⟩ := takeConns_held hnodup c
  have hnodup' : ((takeConns addrs c).1.map (·.1)).Nodup := by
    rw [hnames]
    exact hnodup
  have hbooks : Booked (held (takeConns addrs c).1 (takeConns addrs c).2)
      (debts (takeConns addrs c).2.wire.env) := by
    rw [hheld, hwire]
    exact hc
  have htook := recvTaken_took hT op as hnodup' (fun a ha => hgone a (hnames ▸ ha)) hbooks
  rw [hheld, hwire, hnames] at htook
  exact htook

end Operations

end Cluster

end Barnabas.Client
