import Barnabas.Client.Link

/-!
A pool of connections and the streams behind them.

Every connection of the pool has a stream of its own and waits for what that
stream owes it. An operation with one broker leaves the connections to the others
alone, and a connection that may be out of step with its stream is dropped. What
the client does outside a window begins and ends with nothing outstanding.

A pool is looked at through the function that finds a connection by its address,
which is all the operations depend on.
-/

namespace Barnabas.Client

open Barnabas.Lib Barnabas.Core Barnabas.Lib.Act World

namespace Cluster

open Broker (Beside Linked Idle Extends)

variable {I : World → Prop} {W : Frame → Prop} {look : String → Option Broker} {w w' : World}

/-- The connections of a pool and the streams behind them: each has a stream of
its own, waits for what the stream owes it, and no request has been written to a
stream that is not open yet. -/
structure Wired (look : String → Option Broker) (w : World) : Prop where
  fresh : ∀ s, w.opened ≤ s → w.outstanding s = []
  opened : ∀ addr b, look addr = some b → b.stream < w.opened
  linked : ∀ addr b, look addr = some b →
    (w.outstanding b.stream).length ≤ b.conn.inFlight.length
  apart : ∀ addr addr' b b', look addr = some b → look addr' = some b' →
    b.stream = b'.stream → addr = addr'

/-- The requests outstanding on the connection to an address, if there is one. -/
def outs (look : String → Option Broker) (w : World) (addr : String) : List Frame :=
  match look addr with
  | some b => w.outstanding b.stream
  | none => []

theorem outs_of_some {addr : String} {b : Broker} (h : look addr = some b) :
    outs look w addr = w.outstanding b.stream := by
  rw [outs, h]

theorem outs_of_none {addr : String} (h : look addr = none) : outs look w addr = [] := by
  rw [outs, h]

/-- An operation on the connection to one address leaves the others as they are. A new
connection is on a new stream. -/
structure Aside (I : World → Prop) (addr : String) (look : String → Option Broker) (w : World)
    (look' : String → Option Broker) (w' : World) : Prop where
  opened : w.opened ≤ w'.opened
  stream : ∀ b', look' addr = some b' →
    w.opened ≤ b'.stream ∨ ∃ b, look addr = some b ∧ b.stream = b'.stream
  same : ∀ a ≠ addr, look' a = look a
  outs : ∀ a ≠ addr, outs look' w' a = outs look w a
  read : ∀ a ≠ addr, ∀ b, look a = some b → (w'.streams b.stream).read = (w.streams b.stream).read
  lasting : I w → I w'

theorem Aside.refl (addr : String) : Aside I addr look w look w :=
  ⟨le_refl _, fun b hb => .inr ⟨b, hb, rfl⟩, fun _ _ => rfl, fun _ _ => rfl, fun _ _ _ _ => rfl, id⟩

theorem Aside.trans {addr : String} {look' look'' : String → Option Broker} {w'' : World}
    (h : Aside I addr look w look' w') (h' : Aside I addr look' w' look'' w'') :
    Aside I addr look w look'' w'' := by
  refine ⟨h.opened.trans h'.opened, fun b'' hb'' => ?_, fun a ha => (h'.same a ha).trans (h.same a ha),
    fun a ha => (h'.outs a ha).trans (h.outs a ha), fun a ha b hb => ?_, h'.lasting ∘ h.lasting⟩
  · rcases h'.stream b'' hb'' with hnew | ⟨b', hb', heq⟩
    · exact .inl (h.opened.trans hnew)
    · rw [← heq]
      exact h.stream b' hb'
  · exact (h'.read a ha b ((h.same a ha).trans hb)).trans (h.read a ha b hb)

/-- Something was tried on streams that are nobody's. -/
theorem Wired.extend (h : Wired look w) (hw : Extends I w w') : Wired look w' := by
  refine ⟨hw.fresh h.fresh, fun a b hb => (h.opened a b hb).trans_le hw.opened,
    fun a b hb => ?_, h.apart⟩
  rw [hw.outstanding b.stream (h.opened a b hb)]
  exact h.linked a b hb

theorem Wired.outs_extend (h : Wired look w) (hw : Extends I w w') (addr : String) :
    outs look w' addr = outs look w addr := by
  rcases hb : look addr with _ | b
  · rw [outs_of_none hb, outs_of_none hb]
  · rw [outs_of_some hb, outs_of_some hb, hw.outstanding _ (h.opened addr b hb)]

theorem Wired.aside_extend (h : Wired look w) (hw : Extends I w w') (addr : String) :
    Aside I addr look w look w' :=
  ⟨hw.opened, fun b hb => .inr ⟨b, hb, rfl⟩, fun _ _ => rfl, fun a _ => h.outs_extend hw a,
    fun a _ b hb => hw.read b.stream (h.opened a b hb), hw.lasting⟩

/-- A new connection on a new stream. -/
theorem Wired.add (h : Wired look w) (hw : Extends I w w') {b : Broker} {sent : List Frame}
    (hstream : b.stream = w.opened) (hopened : w.opened < w'.opened) (hidle : Idle ⟨⟨w', sent⟩, b⟩)
    (addr : String) : Wired (Function.update look addr (some b)) w' := by
  have h' := h.extend hw
  have hlt : ∀ a b', look a = some b' → b'.stream < b.stream := fun a b' hb' =>
    hstream ▸ h.opened a b' hb'
  refine ⟨h'.fresh, fun a b' hb' => ?_, fun a b' hb' => ?_, fun a a' b₁ b₂ hb₁ hb₂ heq => ?_⟩
  · by_cases ha : a = addr
    · subst ha
      rw [Function.update_self, Option.some.injEq] at hb'
      exact hb' ▸ hstream ▸ hopened
    · rw [Function.update_of_ne ha] at hb'
      exact h'.opened a b' hb'
  · by_cases ha : a = addr
    · subst ha
      rw [Function.update_self, Option.some.injEq] at hb'
      exact hb' ▸ hidle.1
    · rw [Function.update_of_ne ha] at hb'
      exact h'.linked a b' hb'
  · by_cases ha : a = addr
    · by_cases ha' : a' = addr
      · exact ha.trans ha'.symm
      · subst ha
        rw [Function.update_self, Option.some.injEq] at hb₁
        rw [Function.update_of_ne ha'] at hb₂
        exact absurd (hlt a' b₂ hb₂) (by rw [hb₁, heq]; exact lt_irrefl _)
    · rw [Function.update_of_ne ha] at hb₁
      by_cases ha' : a' = addr
      · subst ha'
        rw [Function.update_self, Option.some.injEq] at hb₂
        exact absurd (hlt a b₁ hb₁) (by rw [hb₂, heq]; exact lt_irrefl _)
      · rw [Function.update_of_ne ha'] at hb₂
        exact h'.apart a a' b₁ b₂ hb₁ hb₂ heq

section Step

variable {addr : String} {b : Broker} {sent : List Frame} {l' : Link World}

theorem Wired.stream_ne (h : Wired look w) (hb : look addr = some b) {a : String} {b' : Broker}
    (hb' : look a = some b') (ha : a ≠ addr) : b'.stream ≠ b.stream :=
  fun heq => ha (h.apart a addr b' b hb' hb heq)

/-- Whatever an operation did on one connection, it is aside from the others. -/
theorem Wired.aside_step (h : Wired look w) (hb : look addr = some b)
    (hl : Beside I ⟨⟨w, sent⟩, b⟩ l') {o : Option Broker} (ho : ∀ b', o = some b' → b' = l'.broker) :
    Aside I addr look w (Function.update look addr o) l'.wire.env := by
  refine ⟨hl.opened.ge, fun b' hb' => ?_, fun a ha => Function.update_of_ne ha _ _, fun a ha => ?_,
    fun a ha b' hb' => ?_, hl.lasting⟩
  · rw [Function.update_self] at hb'
    exact .inr ⟨b, hb, by rw [ho b' hb', hl.stream]⟩
  · rw [outs, outs, Function.update_of_ne ha]
    rcases hb' : look a with _ | b'
    · rfl
    · exact hl.outstanding _ (h.stream_ne hb hb' ha)
  · exact hl.read _ (h.stream_ne hb hb' ha)

/-- The other connections after an operation on one. -/
theorem Wired.lose (h : Wired look w) (hb : look addr = some b)
    (hl : Beside I ⟨⟨w, sent⟩, b⟩ l') : Wired (Function.update look addr none) l'.wire.env := by
  have hsome : ∀ a b', Function.update look addr none a = some b' → a ≠ addr ∧ look a = some b' := by
    intro a b' hb'
    by_cases ha : a = addr
    · subst ha
      simp at hb'
    · rw [Function.update_of_ne ha] at hb'
      exact ⟨ha, hb'⟩
  refine ⟨fun s hs => ?_, fun a b' hb' => ?_, fun a b' hb' => ?_, fun a a' b₁ b₂ hb₁ hb₂ => ?_⟩
  · rw [hl.opened] at hs
    have hne : s ≠ b.stream := fun heq =>
      absurd (h.opened addr b hb) (not_lt.mpr (heq ▸ hs))
    rw [hl.outstanding s hne]
    exact h.fresh s hs
  · rw [hl.opened]
    exact h.opened a b' (hsome a b' hb').2
  · obtain ⟨ha, hb'⟩ := hsome a b' hb'
    rw [hl.outstanding _ (h.stream_ne hb hb' ha)]
    exact h.linked a b' hb'
  · exact h.apart a a' b₁ b₂ (hsome a b₁ hb₁).2 (hsome a' b₂ hb₂).2

/-- An operation that keeps its connection linked keeps the pool wired. -/
theorem Wired.step (h : Wired look w) (hb : look addr = some b)
    (hl : Beside I ⟨⟨w, sent⟩, b⟩ l') (hlinked : Linked l') :
    Wired (Function.update look addr (some l'.broker)) l'.wire.env := by
  have hlose := h.lose hb hl
  have hsome : ∀ a b', Function.update look addr (some l'.broker) a = some b' →
      a = addr ∧ b' = l'.broker ∨ a ≠ addr ∧ Function.update look addr none a = some b' := by
    intro a b' hb'
    by_cases ha : a = addr
    · subst ha
      rw [Function.update_self, Option.some.injEq] at hb'
      exact .inl ⟨rfl, hb'.symm⟩
    · rw [Function.update_of_ne ha] at hb'
      exact .inr ⟨ha, by rwa [Function.update_of_ne ha]⟩
  have hne : ∀ a b', a ≠ addr → Function.update look addr none a = some b' →
      b'.stream ≠ l'.broker.stream := by
    intro a b' ha hb'
    rw [Function.update_of_ne ha] at hb'
    rw [hl.stream]
    exact h.stream_ne hb hb' ha
  refine ⟨hlose.fresh, fun a b' hb' => ?_, fun a b' hb' => ?_,
    fun a a' b₁ b₂ hb₁ hb₂ heq => ?_⟩
  · rcases hsome a b' hb' with ⟨rfl, rfl⟩ | ⟨_, hb'⟩
    · rw [hl.stream, hl.opened]
      exact h.opened a b hb
    · exact hlose.opened a b' hb'
  · rcases hsome a b' hb' with ⟨rfl, rfl⟩ | ⟨_, hb'⟩
    · exact hlinked
    · exact hlose.linked a b' hb'
  · rcases hsome a b₁ hb₁ with ⟨rfl, rfl⟩ | ⟨ha, hb₁⟩
    · rcases hsome a' b₂ hb₂ with ⟨rfl, _⟩ | ⟨ha', hb₂⟩
      · rfl
      · exact absurd heq.symm (hne a' b₂ ha' hb₂)
    · rcases hsome a' b₂ hb₂ with ⟨rfl, rfl⟩ | ⟨_, hb₂⟩
      · exact absurd heq (hne a b₁ ha hb₁)
      · exact hlose.apart a a' b₁ b₂ hb₁ hb₂ heq

end Step

/-! ### The operations of a cluster -/

/-- How the data connections are found. -/
def looks (c : Cluster World) (addr : String) : Option Broker := c.conns[addr]?

theorem looks_keep (c : Cluster World) (addr : String) (b : Broker) :
    looks (c.keep .data addr b) = Function.update (looks c) addr (some b) := by
  funext a
  change (c.conns.insert addr b)[a]? = _
  rw [Std.TreeMap.getElem?_insert]
  by_cases ha : a = addr
  · subst ha
    simp
  · rw [Function.update_of_ne ha, if_neg]
    · rfl
    · rw [Std.LawfulEqCmp.compare_eq_iff_eq]
      exact fun h => ha h.symm

theorem looks_drop (c : Cluster World) (addr : String) :
    looks (c.drop .data addr) = Function.update (looks c) addr none := by
  funext a
  change (c.conns.erase addr)[a]? = _
  rw [Std.TreeMap.getElem?_erase]
  by_cases ha : a = addr
  · subst ha
    simp
  · rw [Function.update_of_ne ha, if_neg]
    · rfl
    · rw [Std.LawfulEqCmp.compare_eq_iff_eq]
      exact fun h => ha h.symm

/-- A cluster whose data connections are wired. -/
def Sound (c : Cluster World) : Prop := Wired (looks c) c.wire.env

/-- The requests outstanding with a broker. -/
def owed (c : Cluster World) (addr : String) : List Frame := outs (looks c) c.wire.env addr

/-- What an operation with one broker may change. -/
structure With (I : World → Prop) (addr : String) (c c' : Cluster World) : Prop where
  sound : Sound c'
  aside : Aside I addr (looks c) c.wire.env (looks c') c'.wire.env

theorem With.refl {c : Cluster World} (h : Sound c) (addr : String) : With I addr c c :=
  ⟨h, .refl addr⟩

theorem With.trans {addr : String} {c c' c'' : Cluster World} (h : With I addr c c')
    (h' : With I addr c' c'') : With I addr c c'' :=
  ⟨h'.sound, h.aside.trans h'.aside⟩

/-- The pool later on: every connection was there before, or is on a stream opened since. -/
structure Renewed (c c' : Cluster World) : Prop where
  sound : Sound c'
  opened : c.wire.env.opened ≤ c'.wire.env.opened
  stream : ∀ addr b', looks c' addr = some b' →
    c.wire.env.opened ≤ b'.stream ∨ ∃ b, looks c addr = some b ∧ b.stream = b'.stream

theorem Renewed.refl {c : Cluster World} (h : Sound c) : Renewed c c :=
  ⟨h, le_refl _, fun _ b hb => .inr ⟨b, hb, rfl⟩⟩

theorem Renewed.trans {c c' c'' : Cluster World} (h : Renewed c c') (h' : Renewed c' c'') :
    Renewed c c'' := by
  refine ⟨h'.sound, h.opened.trans h'.opened, fun addr b'' hb'' => ?_⟩
  rcases h'.stream addr b'' hb'' with hnew | ⟨b', hb', heq⟩
  · exact .inl (h.opened.trans hnew)
  · rw [← heq]
    exact h.stream addr b' hb'

theorem With.renewed {addr : String} {c c' : Cluster World} (h : With I addr c c') :
    Renewed c c' := by
  refine ⟨h.sound, h.aside.opened, fun a b' hb' => ?_⟩
  by_cases ha : a = addr
  · subst ha
    exact h.aside.stream b' hb'
  · rw [h.aside.same a ha] at hb'
    exact .inr ⟨b', hb', rfl⟩

theorem owed_drop (c : Cluster World) (addr : String) : owed (c.drop .data addr) addr = [] := by
  rw [owed, looks_drop]
  exact outs_of_none (Function.update_self ..)

/-- An operation on a connection that is kept. -/
theorem With.kept {c : Cluster World} (h : Sound c) {addr : String} {b : Broker}
    (hb : looks c addr = some b) {l : Link World} (hbeside : Beside I ⟨c.wire, b⟩ l)
    (hlinked : Linked l) : With I addr c ({ c with wire := l.wire }.keep .data addr l.broker) := by
  constructor
  · rw [Sound, looks_keep, wire_keep]
    exact Wired.step h hb hbeside hlinked
  · rw [looks_keep, wire_keep]
    exact Wired.aside_step h hb hbeside fun b' hb' => (Option.some.inj hb').symm

theorem owed_kept {c : Cluster World} {addr : String} {l : Link World} :
    owed ({ c with wire := l.wire }.keep .data addr l.broker) addr = Broker.out l := by
  rw [owed, looks_keep, wire_keep, outs_of_some (Function.update_self ..)]
  rfl

/-- An operation on a connection that is given up. -/
theorem With.lost {c : Cluster World} (h : Sound c) {addr : String} {b : Broker}
    (hb : looks c addr = some b) {l : Link World} (hbeside : Beside I ⟨c.wire, b⟩ l) :
    With I addr c (({ c with wire := l.wire }.keep .data addr l.broker).drop .data addr) := by
  have hlooks : looks (({ c with wire := l.wire }.keep .data addr l.broker).drop .data addr) =
      Function.update (looks c) addr none := by
    rw [looks_drop, looks_keep, Function.update_idem]
    rfl
  constructor
  · rw [Sound, hlooks, wire_drop, wire_keep]
    exact Wired.lose h hb hbeside
  · rw [hlooks, wire_drop, wire_keep]
    exact Wired.aside_step h hb hbeside (by simp)

theorem onBroker_eq {ε ε' α : Type} {pool : Pool} {addr : String} {b : Broker}
    {m : Act (Link World) ε' α} {c : Cluster World} {outcome : Except ε' α} {l' : Link World}
    (h : m ⟨c.wire, b⟩ = (outcome, l')) :
    (onBroker pool addr b m : Act (Cluster World) ε _) c =
      (.ok outcome, { c with wire := l'.wire }.keep pool addr l'.broker) := by
  unfold onBroker
  rw [h]

section Operations

variable (codec : Codec)
  (hI : Lasting I W) (hW : ∀ f : Frame, f.request.isHandshake → W f)

include hI hW

/-- A connection that was opened can be kept; an attempt that failed changes
nothing of the pool. -/
theorem connect_cases {c : Cluster World} (h : Sound c) (addr : String) :
    (∃ b wire, onWire (Broker.connect (World.transport codec) addr c.clientId
          c.credentials) c = (.ok b, { c with wire }) ∧
        With I addr c ({ c with wire }.keep .data addr b) ∧
        owed ({ c with wire }.keep .data addr b) addr = []) ∨
      ∃ e wire, onWire (Broker.connect (World.transport codec) addr c.clientId
          c.credentials) c = (.error e, { c with wire }) ∧
        With I addr c { c with wire } ∧ ∀ a, owed { c with wire } a = owed c a := by
  obtain ⟨hextends, hok⟩ := Broker.connect_cases codec hI hW addr c.clientId c.credentials
    h.fresh
  rcases hconnect : Broker.connect (World.transport codec) addr c.clientId c.credentials
    c.wire with ⟨outcome, wire⟩
  rw [hconnect] at hextends hok
  rw [onWire, zoom_apply, hconnect]
  cases outcome with
  | ok b =>
      obtain ⟨hstream, hopened, hidle⟩ := hok b rfl
      left
      refine ⟨b, wire, rfl, ⟨?_, ?_⟩, ?_⟩
      · rw [Sound, looks_keep, wire_keep]
        exact Wired.add h hextends hstream hopened hidle addr
      · rw [looks_keep, wire_keep]
        refine ⟨hextends.opened, fun b' hb' => ?_, fun a ha => ?_, fun a ha => ?_,
          (Wired.aside_extend h hextends addr).read, hextends.lasting⟩
        · rw [Function.update_self, Option.some.injEq] at hb'
          exact .inl (by rw [← hb', hstream])
        · exact Function.update_of_ne ha _ _
        · rw [outs, Function.update_of_ne ha]
          exact h.outs_extend hextends a
      · rw [owed, looks_keep, wire_keep, outs_of_some (Function.update_self ..)]
        exact hidle.2
  | error e =>
      right
      exact ⟨e, wire, rfl, ⟨h.extend hextends, Wired.aside_extend h hextends addr⟩,
        fun a => h.outs_extend hextends a⟩

/-- The connection of the pool, or a new and idle one. -/
theorem brokerAt_cases {c : Cluster World} (h : Sound c) (addr : String) :
    (∃ b c', brokerAt (World.transport codec) addr c = (.ok b, c') ∧ With I addr c c' ∧
        looks c' addr = some b ∧ owed c' addr = owed c addr) ∨
      ∃ e c', brokerAt (World.transport codec) addr c = (.error e, c') ∧
        With I addr c c' ∧ owed c' addr = [] := by
  rw [brokerAt, brokerIn, bind_of_ok (get_apply c)]
  rcases hlook : looks c addr with _ | b
  · have hpool : (c.pool .data)[addr]? = none := hlook
    have hnone : owed c addr = [] := outs_of_none hlook
    rw [hpool]
    rcases connect_cases codec hI hW h addr with
      ⟨b, wire, heq, hwith, howed⟩ | ⟨e, wire, heq, hwith, howed⟩
    · left
      refine ⟨b, { c with wire }.keep .data addr b, ?_, hwith, ?_, howed.trans hnone.symm⟩
      · exact bind_of_ok heq
      · rw [looks_keep, Function.update_self]
    · right
      exact ⟨e, { c with wire }, bind_of_error heq, hwith, (howed addr).trans hnone⟩
  · left
    have hpool : (c.pool .data)[addr]? = some b := hlook
    rw [hpool]
    exact ⟨b, c, rfl, .refl h addr, hlook, rfl⟩

/-- One attempt at writing a request. If it fails, nothing is outstanding with the
broker any more, or what was outstanding before. -/
theorem sendOnce_cases (version : ℤ) {req : Request} (hreq : ∀ f : Frame, f.request = req → W f)
    {c : Cluster World} (h : Sound c) (addr : String)
    (retry : IoError → Act (Cluster World) Error Unit) :
    (∃ f c', sendOnce (World.transport codec) addr version req retry c = (.ok (), c') ∧
        f.request = req ∧ With I addr c c' ∧ owed c' addr = owed c addr ++ [f]) ∨
      (∃ e c', sendOnce (World.transport codec) addr version req retry c = retry e c' ∧
        With I addr c c' ∧ owed c' addr = []) ∨
      ∃ e c', sendOnce (World.transport codec) addr version req retry c = (.error e, c') ∧
        With I addr c c' ∧ (owed c' addr = [] ∨ owed c' addr = owed c addr) := by
  rcases brokerAt_cases codec hI hW h addr with
    ⟨b, c₁, hbroker, hwith, hlook, howed⟩ | ⟨e, c₁, hbroker, hwith, howed⟩
  · let l : Link World := ⟨c₁.wire, b⟩
    have hlinked : Linked l := hwith.sound.linked addr b hlook
    have hbeside := (Broker.permits_beside (waits_unhurried codec) hI).send
      (World.transport codec) version hreq l
    have hout : Broker.out l = owed c addr := by
      rw [← howed, owed, outs_of_some hlook]
      rfl
    rw [sendOnce, bind_of_ok hbroker]
    rcases Broker.send_cases codec (waits_unhurried codec) version req hlinked with
      ⟨f, l', hsend, hf, hlinked', hout'⟩ | ⟨e, l', hsend, hlinked', hout'⟩ | ⟨e, l', hsend, io, rfl⟩
    · left
      have honBroker : onBroker (ε := Error) .data addr b (Broker.send
          (World.transport codec) (World.transport codec).unhurried version req) c₁ =
            (.ok (.ok ()), { c₁ with wire := l'.wire }.keep .data addr l'.broker) := by
        exact onBroker_eq hsend
      rw [hsend] at hbeside
      refine ⟨f, { c₁ with wire := l'.wire }.keep .data addr l'.broker, ?_, hf,
        hwith.trans (With.kept hwith.sound hlook hbeside hlinked'), ?_⟩
      · rw [bind_of_ok honBroker]
        rfl
      · rw [owed_kept, ← hout]
        exact hout'
    · right
      right
      have honBroker : onBroker (ε := Error) .data addr b (Broker.send
          (World.transport codec) (World.transport codec).unhurried version req) c₁ =
            (.ok (.error (.core e)), { c₁ with wire := l'.wire }.keep .data addr l'.broker) := by
        exact onBroker_eq hsend
      rw [hsend] at hbeside
      refine ⟨.core e, { c₁ with wire := l'.wire }.keep .data addr l'.broker, ?_,
        hwith.trans (With.kept hwith.sound hlook hbeside hlinked'), .inr ?_⟩
      · rw [bind_of_ok honBroker]
        rfl
      · rw [owed_kept, ← hout]
        exact hout'
    · right
      left
      have honBroker : onBroker (ε := Error) .data addr b (Broker.send
          (World.transport codec) (World.transport codec).unhurried version req) c₁ =
            (.ok (.error (.io io)), { c₁ with wire := l'.wire }.keep .data addr l'.broker) := by
        exact onBroker_eq hsend
      rw [hsend] at hbeside
      refine ⟨io, ({ c₁ with wire := l'.wire }.keep .data addr l'.broker).drop .data addr, ?_,
        hwith.trans (With.lost hwith.sound hlook hbeside), owed_drop _ addr⟩
      rw [bind_of_ok honBroker]
      rfl
  · right
    right
    exact ⟨e, c₁, bind_of_error hbroker, hwith, .inl howed⟩

/-- A request is written behind those already outstanding, or alone on a new
connection, or not at all; in the last case nothing is outstanding, or what was
before. -/
theorem sendAt_cases (version : ℤ) {req : Request} (hreq : ∀ f : Frame, f.request = req → W f)
    {c : Cluster World} (h : Sound c) (addr : String) :
    (∃ f c', sendAt (World.transport codec) addr version req c = (.ok (), c') ∧
        f.request = req ∧ With I addr c c' ∧
        (owed c' addr = owed c addr ++ [f] ∨ owed c' addr = [f])) ∨
      ∃ e c', sendAt (World.transport codec) addr version req c = (.error e, c') ∧
        With I addr c c' ∧ (owed c' addr = [] ∨ owed c' addr = owed c addr) := by
  rcases sendOnce_cases codec hI hW version hreq h addr _ with
    ⟨f, c₁, hsend, hf, hwith, howed⟩ | ⟨e, c₁, hsend, hwith, howed⟩ | ⟨e, c₁, hsend, hwith, howed⟩
  · exact .inl ⟨f, c₁, hsend, hf, hwith, .inl howed⟩
  · rcases sendOnce_cases codec hI hW version hreq hwith.sound addr
        (fun e => throw (.io e)) with
      ⟨f, c₂, hsend', hf, hwith', howed'⟩ | ⟨e', c₂, hsend', hwith', howed'⟩ |
        ⟨e', c₂, hsend', hwith', howed'⟩
    · rw [howed, List.nil_append] at howed'
      exact .inl ⟨f, c₂, hsend.trans hsend', hf, hwith.trans hwith', .inr howed'⟩
    · exact .inr ⟨.io e', c₂, hsend.trans hsend', hwith.trans hwith', .inl howed'⟩
    · rw [howed, or_self] at howed'
      exact .inr ⟨e', c₂, hsend.trans hsend', hwith.trans hwith', .inl howed'⟩
  · exact .inr ⟨e, c₁, hsend, hwith, howed⟩

omit hI hW in
/-- Nothing is outstanding with any broker. -/
def Resting (c : Cluster World) : Prop := Sound c ∧ ∀ addr, owed c addr = []

omit hI hW in
theorem Resting.of_with {c c' : Cluster World} {addr : String} (h : Resting c)
    (hwith : With I addr c c') (howed : owed c' addr = []) : Resting c' := by
  refine ⟨hwith.sound, fun a => ?_⟩
  by_cases ha : a = addr
  · rw [ha, howed]
  · exact (hwith.aside.outs a ha).trans (h.2 a)

omit hI hW in
/-- An operation that begins and ends with nothing outstanding. -/
def Rests (I : World → Prop) (c c' : Cluster World) : Prop :=
  Resting c → I c.wire.env → Resting c' ∧ I c'.wire.env

omit hI hW in
instance : IsPreorder (Cluster World) (Rests I) where
  refl _ h hw := ⟨h, hw⟩
  trans _ _ _ h h' hc hw := h' (h hc hw).1 (h hc hw).2

omit hW in
theorem rests_advance (c : Cluster World) :
    Rests I c { c with wire := { c.wire with env := c.wire.env.advance.2 } } := by
  intro hc hw
  have hextends := Broker.extends_of_sameView (I := I) (sameView_advance c.wire.env) hI.advance
  refine ⟨⟨hc.1.extend hextends, fun addr => ?_⟩, hI.advance hw⟩
  exact (hc.1.outs_extend hextends addr).trans (hc.2 addr)

omit hW in
/-- The call itself, with what follows it. -/
theorem rests_callBroker {α : Type} {version : ℤ} {req : Request}
    (hreq : ∀ f : Frame, f.request = req → W f) (as : Body → Option α) {addr : String} {b : Broker}
    (timeout : ℕ) {retry : IoError → Act (Cluster World) Error α}
    (hretry : ∀ e, Moves (Rests I) (retry e)) {c : Cluster World} (hb : looks c addr = some b) :
    Rests I c ((do
      let outcome ← onBroker .data addr b (Broker.call (World.transport codec)
        ((World.transport codec).within timeout) as version req)
      settle .data req.apiKey addr retry outcome : Act (Cluster World) Error α) c).2 := by
  intro hc hw
  let l : Link World := ⟨c.wire, b⟩
  have hidle : Idle l := ⟨hc.1.linked addr b hb, (outs_of_some hb).symm.trans (hc.2 addr)⟩
  have hbeside := (Broker.permits_beside (waits_within codec timeout) hI).call
    (World.transport codec) as version hreq l
  have hcases := Broker.call_cases codec (waits_within codec timeout) as version req
    hidle
  rcases hcall : Broker.call (World.transport codec)
    ((World.transport codec).within timeout) as version req l with ⟨outcome, l'⟩
  rw [hcall] at hbeside hcases
  let c₁ : Cluster World := { c with wire := l'.wire }.keep .data addr l'.broker
  rw [bind_of_ok (onBroker_eq hcall)]
  -- Whether the connection stays is decided by the outcome; both ways nothing is owed on it.
  have hkept : Idle l' → Resting c₁ ∧ I c₁.wire.env := by
    intro hidle'
    have hwith : With I addr c c₁ := With.kept hc.1 hb hbeside hidle'.1
    refine ⟨hc.of_with hwith ?_, hwith.aside.lasting hw⟩
    rw [owed_kept]
    exact hidle'.2
  have hdropped : Resting (c₁.drop .data addr) ∧ I (c₁.drop .data addr).wire.env := by
    have hwith : With I addr c (c₁.drop .data addr) := With.lost hc.1 hb hbeside
    exact ⟨hc.of_with hwith (owed_drop _ addr), hwith.aside.lasting hw⟩
  rcases outcome with (_ | e) | message
  · exact hdropped
  · rcases hcases with hidle' | ⟨e', heq, hlost⟩
    · cases e with
      | io io => exact hretry io _ hdropped.1 hdropped.2
      | _ => exact hkept hidle'
    · cases heq
      rcases hlost with hnone | ⟨io, hio⟩
      · cases hnone
      · cases hio
        exact hretry io _ hdropped.1 hdropped.2
  · rcases hcases with hidle' | ⟨e', heq, _⟩
    · exact hkept hidle'
    · cases heq

theorem rests_callOnce {α : Type} {version : ℤ} {req : Request}
    (hreq : ∀ f : Frame, f.request = req → W f) (as : Body → Option α) (addr : String)
    (timeout : ℕ) {retry : IoError → Act (Cluster World) Error α}
    (hretry : ∀ e, Moves (Rests I) (retry e)) :
    Moves (Rests I) (callOnce (World.transport codec) as addr version req timeout retry) := by
  intro c hc hw
  rcases brokerAt_cases codec hI hW hc.1 addr with
    ⟨b, c₁, hbroker, hwith, hlook, howed⟩ | ⟨e, c₁, hbroker, hwith, howed⟩
  · have hc₁ : Resting c₁ := hc.of_with hwith (howed.trans (hc.2 addr))
    rw [callOnce, bind_of_ok hbroker]
    split
    · exact ⟨hc₁, hwith.aside.lasting hw⟩
    · exact rests_callBroker codec hI hreq as timeout hretry hlook hc₁
        (hwith.aside.lasting hw)
  · rw [callOnce, bind_of_error hbroker]
    exact ⟨hc.of_with hwith howed, hwith.aside.lasting hw⟩

theorem rests_connectBootstrap (addrs : List String) (lastErr : Option Error) :
    Moves (Rests I) (connectBootstrap (World.transport codec) addrs lastErr) := by
  induction addrs generalizing lastErr with
  | nil => exact Moves.throw _
  | cons addr addrs ih =>
      refine Moves.bind_get fun c hc hw => ?_
      rcases connect_cases codec hI hW hc.1 addr with
        ⟨b, wire, heq, hwith, howed⟩ | ⟨e, wire, heq, hwith, howed⟩
      · rw [bind_of_ok (attempt_apply _ c), heq]
        exact ⟨hc.of_with hwith howed, hwith.aside.lasting hw⟩
      · rw [bind_of_ok (attempt_apply _ c), heq]
        exact ih (some e) _ ⟨hwith.sound, fun a => (howed a).trans (hc.2 a)⟩
          (hwith.aside.lasting hw)

end Operations

/-- Nothing the client does outside a window leaves a request outstanding. -/
theorem permits_rests (codec : Codec)
    (hI : Lasting I W) (hW : ∀ f : Frame, f.request.isPlumbing → W f) :
    Permits (World.transport codec) (Rests I) W where
  plumbing := hW
  pick c := rests_advance hI c
  now c := rests_advance hI c
  systemTime c := rests_advance hI c
  sleep _ c := rests_advance hI c
  bootstrap addrs lastErr c _ := rests_connectBootstrap codec hI
    (fun f hf => hW f (Request.isPlumbing_of_isHandshake hf)) addrs lastErr c
  call as addr _ _ hreq := by
    have hshake : ∀ f : Frame, f.request.isHandshake → W f := fun f hf =>
      hW f (Request.isPlumbing_of_isHandshake hf)
    refine Moves.bind Moves.get fun c => ?_
    exact rests_callOnce codec hI hshake hreq as addr _ fun _ =>
      rests_callOnce codec hI hshake hreq as addr _ fun _ => Moves.throw _
  update _ _ h hw := ⟨h, hw⟩
  invalidate _ _ h hw := ⟨h, hw⟩
  refreshedAt _ _ h hw := ⟨h, hw⟩

/-! ### Reading from several connections

`recv_many` takes the connections out of the pool and puts those back that are
worth keeping, so in between a connection is either in the pool or taken. -/

/-- How a connection is found while some are taken out. -/
def heldOut (taken : List (String × Option Broker)) (c : Cluster World) (addr : String) :
    Option Broker :=
  match taken.lookup addr with
  | some b => b
  | none => looks c addr

theorem takeConns_eq {addrs : List String} (hnodup : addrs.Nodup) (c : Cluster World) :
    (takeConns addrs c).1 = addrs.map (fun a => (a, looks c a)) ∧
      (takeConns addrs c).2.wire = c.wire ∧
      ∀ a, looks (takeConns addrs c).2 a = if a ∈ addrs then none else looks c a := by
  induction addrs generalizing c with
  | nil => exact ⟨rfl, rfl, fun a => by simp [takeConns]⟩
  | cons addr addrs ih =>
      obtain ⟨hnew, hnodup⟩ := List.nodup_cons.mp hnodup
      obtain ⟨htaken, hwire, hlooks⟩ := ih hnodup (c.drop .data addr)
      refine ⟨?_, hwire.trans (wire_drop ..), fun a => ?_⟩
      · change (addr, looks c addr) :: (takeConns addrs (c.drop .data addr)).1 = _
        rw [htaken, List.map_cons, List.cons.injEq]
        refine ⟨rfl, List.map_congr_left fun a ha => ?_⟩
        have hne : a ≠ addr := fun h => hnew (h ▸ ha)
        rw [looks_drop, Function.update_of_ne hne]
      · change looks (takeConns addrs (c.drop .data addr)).2 a = _
        rw [hlooks, looks_drop]
        by_cases ha : a = addr
        · subst ha
          simp
        · simp [ha, Function.update_of_ne]

/-- What one read brought: the answer to the oldest outstanding request, or an
error that leaves nothing outstanding. -/
def Heard {α : Type} (as : Body → Option α) (look : String → Option Broker) (w : World)
    (look' : String → Option Broker) (w' : World) (addr : String) (r : Except Error α) : Prop :=
  (∃ a b b', look addr = some b ∧ look' addr = some b' ∧ b'.stream = b.stream ∧
      outs look w addr = a.frame :: outs look' w' addr ∧
      (w'.streams b.stream).read = (w.streams b.stream).read ++ [a] ∧
      ∀ message, r = .ok message → as a.body = some message) ∨
    ∃ e, r = .error e ∧ outs look' w' addr = []

section Heard

variable {α : Type} {as : Body → Option α} {look₁ look' look'' : String → Option Broker}
  {w₁ w'' : World} {addr : String} {r : Except Error α}

theorem Heard.after {other : String} (h : Heard as look₁ w₁ look' w' addr r)
    (haside : Aside I other look w look₁ w₁) (hne : addr ≠ other) :
    Heard as look w look' w' addr r := by
  rcases h with ⟨a, b, b', hb, hb', hstream, houts, hread, hok⟩ | herror
  · have hb₀ : look addr = some b := by rw [← haside.same addr hne, hb]
    refine .inl ⟨a, b, b', hb₀, hb', hstream, ?_, ?_, hok⟩
    · rw [← haside.outs addr hne, houts]
    · rw [hread, haside.read addr hne b hb₀]
  · exact .inr herror

theorem Heard.before (h : Heard as look w look' w' addr r) (hlook : look'' addr = look' addr)
    (houts : outs look'' w'' addr = outs look' w' addr)
    (hread : ∀ b, look' addr = some b →
      (w''.streams b.stream).read = (w'.streams b.stream).read) :
    Heard as look w look'' w'' addr r := by
  rcases h with ⟨a, b, b', hb, hb', hstream, hpop, hread', hok⟩ | ⟨e, he, hnone⟩
  · refine .inl ⟨a, b, b', hb, hlook.trans hb', hstream, by rw [hpop, houts], ?_, hok⟩
    rw [← hread', ← hstream]
    exact hread b' hb'
  · exact .inr ⟨e, he, houts.trans hnone⟩

end Heard

section Reading

variable {α : Type} (codec : Codec)
  (hI : Lasting I W) (op : ApiKey) (as : Body → Option α)

include hI

theorem recvOne_cases {c : Cluster World} {addr : String} {taken : Option Broker}
    (hwired : Wired look c.wire.env) (htaken : look addr = taken) (hgone : looks c addr = none) :
    ∃ o r c', recvOne (World.transport codec) op as (addr, taken) c = (r, c') ∧
      Wired (Function.update look addr o) c'.wire.env ∧
      Aside I addr look c.wire.env (Function.update look addr o) c'.wire.env ∧
      looks c' = Function.update (looks c) addr o ∧
      Heard as look c.wire.env (Function.update look addr o) c'.wire.env addr r := by
  have hsame : looks c = Function.update (looks c) addr none := by
    rw [← hgone, Function.update_eq_self]
  rcases taken with _ | b
  · refine ⟨none, _, c, rfl, ?_, ?_, hsame, .inr ⟨_, rfl, outs_of_none (Function.update_self ..)⟩⟩
    · rwa [← htaken, Function.update_eq_self]
    · rw [← htaken, Function.update_eq_self]
      exact .refl addr
  · let l : Link World := ⟨c.wire, b⟩
    have hbeside := (Broker.permits_beside (waits_within codec c.requestTimeout) hI).recv as l
    have hcases := Broker.recv_cases (waits_within codec c.requestTimeout) as
      (l := l) (hwired.linked addr b htaken)
    rcases hrecv : Broker.recv ((World.transport codec).within c.requestTimeout) as l with
      ⟨outcome, l'⟩
    rw [hrecv] at hbeside hcases
    let c₁ : Cluster World := { c with wire := l'.wire }
    -- A connection on which an answer arrived goes back, whatever the answer says.
    have hkept : ∀ r, (∃ a, outs look c.wire.env addr = a.frame :: Broker.out l' ∧ Linked l' ∧
          (l'.wire.env.streams b.stream).read = (c.wire.env.streams b.stream).read ++ [a] ∧
          ∀ message, r = .ok message → as a.body = some message) →
        ∃ o r' c', (r, c₁.keep .data addr l'.broker) = (r', c') ∧
          Wired (Function.update look addr o) c'.wire.env ∧
          Aside I addr look c.wire.env (Function.update look addr o) c'.wire.env ∧
          looks c' = Function.update (looks c) addr o ∧
          Heard as look c.wire.env (Function.update look addr o) c'.wire.env addr r' := by
      rintro r ⟨a, hpop, hlinked, hread, hok⟩
      refine ⟨some l'.broker, r, _, rfl, ?_, ?_, looks_keep .., .inl ⟨a, b, l'.broker, htaken,
        Function.update_self .., hbeside.stream, ?_, ?_, hok⟩⟩
      · rw [wire_keep]
        exact hwired.step htaken hbeside hlinked
      · rw [wire_keep]
        exact hwired.aside_step htaken hbeside fun b' hb' => (Option.some.inj hb').symm
      · rw [wire_keep, outs_of_some (Function.update_self ..)]
        exact hpop
      · rw [wire_keep]
        exact hread
    have hlost : ∀ e, ∃ o r' c', ((.error e : Except Error α), c₁) = (r', c') ∧
          Wired (Function.update look addr o) c'.wire.env ∧
          Aside I addr look c.wire.env (Function.update look addr o) c'.wire.env ∧
          looks c' = Function.update (looks c) addr o ∧
          Heard as look c.wire.env (Function.update look addr o) c'.wire.env addr r' := by
      intro e
      exact ⟨none, _, c₁, rfl, hwired.lose htaken hbeside,
        hwired.aside_step htaken hbeside (by simp), hsame,
        .inr ⟨e, rfl, outs_of_none (Function.update_self ..)⟩⟩
    have hheard : ∀ r : Except Error α, (∀ message, r = .ok message → outcome = .ok message) →
        (¬∃ e, outcome = .error e ∧ LostWithin e) →
        ∃ a, outs look c.wire.env addr = a.frame :: Broker.out l' ∧ Linked l' ∧
          (l'.wire.env.streams b.stream).read = (c.wire.env.streams b.stream).read ++ [a] ∧
          ∀ message, r = .ok message → as a.body = some message := by
      intro r hr hnot
      rcases hcases with ⟨a, _, rfl, hpop, hlinked, hread, hok⟩ | ⟨e, _, he, hlost⟩
      · refine ⟨a, ?_, hlinked, hread, fun message hmessage => hok message (hr message hmessage)⟩
        rw [outs_of_some htaken]
        exact hpop
      · cases he
        exact absurd ⟨e, rfl, hlost⟩ hnot
    rw [recvOne, hrecv]
    rcases outcome with (_ | e) | message
    · exact hlost _
    · cases e with
      | io io => exact hlost _
      | _ =>
          refine hkept _ (hheard _ (fun message h => by cases h) ?_)
          rintro ⟨e, he, hnone | ⟨io, hio⟩⟩
          · cases he
            cases hnone
          · cases he
            cases hio
    · refine hkept _ (hheard _ (fun message h => by cases h; rfl) ?_)
      rintro ⟨e, he, _⟩
      cases he

theorem recvTaken_cases {taken : List (String × Option Broker)} {c : Cluster World}
    (hnodup : (taken.map (·.1)).Nodup) (hgone : ∀ a ∈ taken.map (·.1), looks c a = none)
    (hwired : Wired (heldOut taken c) c.wire.env) :
    ∃ rs c', recvTaken (World.transport codec) op as taken c = (rs, c') ∧ Sound c' ∧
      (I c.wire.env → I c'.wire.env) ∧
      List.Forall₂ (fun t r => Heard as (heldOut taken c) c.wire.env (looks c') c'.wire.env t.1 r)
        taken rs ∧
      ∀ a ∉ taken.map (·.1), looks c' a = looks c a ∧ owed c' a = owed c a ∧
        ∀ b, looks c a = some b →
          (c'.wire.env.streams b.stream).read = (c.wire.env.streams b.stream).read := by
  induction taken generalizing c with
  | nil => exact ⟨[], c, rfl, hwired, id, .nil, fun _ _ => ⟨rfl, rfl, fun _ _ => rfl⟩⟩
  | cons first rest ih =>
      obtain ⟨addr, t⟩ := first
      rw [List.map_cons, List.nodup_cons] at hnodup
      have hself : heldOut ((addr, t) :: rest) c addr = t := by simp [heldOut]
      obtain ⟨o, r, c₁, hone, hwired₁, haside, hlooks, hheard⟩ :=
        recvOne_cases codec hI op as hwired hself (hgone addr (by simp))
      -- With its first entry read, the rest of the list finds what the whole list finds.
      have hheld : heldOut rest c₁ = Function.update (heldOut ((addr, t) :: rest) c) addr o := by
        funext a
        by_cases ha : a = addr
        · subst ha
          have hnone : rest.lookup a = none := by
            rw [List.lookup_eq_none_iff]
            intro p hp
            simpa using fun h => hnodup.1 (List.mem_map.mpr ⟨p, hp, h.symm⟩)
          rw [Function.update_self, heldOut, hnone, hlooks]
          exact Function.update_self ..
        · have hlook : ((addr, t) :: rest).lookup a = rest.lookup a := by
            have hbeq : (a == addr) = false := by simpa using ha
            rw [List.lookup_cons, hbeq]
          rw [Function.update_of_ne ha, heldOut, heldOut, hlook, hlooks, Function.update_of_ne ha]
      have hgone₁ : ∀ a ∈ rest.map (·.1), looks c₁ a = none := by
        intro a ha
        have hne : a ≠ addr := fun h => hnodup.1 (h ▸ ha)
        rw [hlooks, Function.update_of_ne hne]
        exact hgone a (List.mem_cons_of_mem _ ha)
      obtain ⟨rs, c', hrest, hsound, hlasting, hall, hothers⟩ :=
        ih hnodup.2 hgone₁ (by rw [hheld]; exact hwired₁)
      have hinit : recvTaken (World.transport codec) op as ((addr, t) :: rest) c =
          (r :: rs, c') := by
        rw [recvTaken, hone]
        dsimp only
        rw [hrest]
      refine ⟨r :: rs, c', hinit, hsound, hlasting ∘ haside.lasting, .cons ?_ ?_, ?_⟩
      · obtain ⟨hsame, howed, hread⟩ := hothers addr hnodup.1
        rw [hlooks] at hsame hread
        refine hheard.before ?_ ?_ ?_
        · rw [hsame, Function.update_self, Function.update_self]
        · rw [owed, owed, hlooks] at howed
          rw [howed, outs, outs, Function.update_self, Function.update_self]
        · intro b hb
          rw [Function.update_self] at hb
          exact hread b (by rw [Function.update_self, hb])
      · refine List.forall₂_iff_get.mpr ⟨hall.length_eq, fun i h₁ h₂ => ?_⟩
        have hi := (List.forall₂_iff_get.mp hall).2 i h₁ h₂
        rw [hheld] at hi
        refine Heard.after hi haside fun heq => hnodup.1 ?_
        exact List.mem_map.mpr ⟨_, List.get_mem _ _, heq⟩
      · intro a ha
        rw [List.map_cons, List.mem_cons, not_or] at ha
        obtain ⟨hsame, howed, hread⟩ := hothers a ha.2
        have hlook₁ : looks c₁ a = looks c a := by rw [hlooks, Function.update_of_ne ha.1]
        have hheldOut : heldOut ((addr, t) :: rest) c a = looks c a := by
          have hnone : ((addr, t) :: rest).lookup a = none := by
            rw [List.lookup_eq_none_iff]
            intro p hp
            rcases List.mem_cons.mp hp with rfl | hp
            · simpa using ha.1
            · simpa using fun h => ha.2 (List.mem_map.mpr ⟨p, hp, h.symm⟩)
          rw [heldOut, hnone]
        refine ⟨hsame.trans hlook₁, ?_, fun b hb => ?_⟩
        · have houts := haside.outs a ha.1
          rw [howed, owed, owed, outs, outs, hlook₁]
          rw [outs, outs, Function.update_of_ne ha.1, hheldOut] at houts
          exact houts
        · rw [hread b (hlook₁.trans hb)]
          exact haside.read a ha.1 b (hheldOut.trans hb)

/-- Every connection asked brings the answer to its oldest outstanding request, or
an error; the others are not touched. -/
theorem recvMany_cases {addrs : List String} (hnodup : addrs.Nodup) {c : Cluster World}
    (h : Sound c) :
    ∃ rs c', (recvMany (World.transport codec) op as addrs : Act (Cluster World) Error _) c =
        (.ok rs, c') ∧ Sound c' ∧ (I c.wire.env → I c'.wire.env) ∧
      List.Forall₂ (Heard as (looks c) c.wire.env (looks c') c'.wire.env) addrs rs ∧
      ∀ a ∉ addrs, looks c' a = looks c a ∧ owed c' a = owed c a ∧
        ∀ b, looks c a = some b →
          (c'.wire.env.streams b.stream).read = (c.wire.env.streams b.stream).read := by
  obtain ⟨htaken, hwire, hlooks⟩ := takeConns_eq hnodup c
  rcases htake : takeConns addrs c with ⟨taken, c₀⟩
  rw [htake] at htaken hwire hlooks
  dsimp only at htaken hwire hlooks
  have hnames : taken.map (·.1) = addrs := by
    rw [htaken, List.map_map]
    exact List.map_id'' (fun _ => rfl) addrs
  have hheld : heldOut taken c₀ = looks c := by
    funext a
    by_cases ha : a ∈ addrs
    · have hlook : taken.lookup a = some (looks c a) := by
        rw [htaken]
        clear htaken hnames htake hwire hlooks hnodup
        induction addrs with
        | nil => cases ha
        | cons addr addrs ih =>
            rw [List.map_cons, List.lookup_cons]
            by_cases heq : a = addr
            · subst heq
              simp
            · have hbeq : (a == addr) = false := by simpa using heq
              rw [hbeq]
              exact ih ((List.mem_cons.mp ha).resolve_left heq)
      rw [heldOut, hlook]
    · have hlook : taken.lookup a = none := by
        rw [List.lookup_eq_none_iff]
        intro p hp
        simpa using fun h => ha (hnames ▸ List.mem_map.mpr ⟨p, hp, h.symm⟩)
      rw [heldOut, hlook, hlooks, if_neg ha]
  have hgone : ∀ a ∈ taken.map (·.1), looks c₀ a = none := fun a ha => by
    rw [hlooks, if_pos (hnames ▸ ha)]
  have hwired : Wired (heldOut taken c₀) c₀.wire.env := by
    rw [hheld, hwire]
    exact h
  obtain ⟨rs, c', hrecv, hsound, hlasting, hall, hothers⟩ :=
    recvTaken_cases codec hI op as (hnames ▸ hnodup) hgone hwired
  refine ⟨rs, c', ?_, hsound, hwire ▸ hlasting, ?_, fun a ha => ?_⟩
  · unfold recvMany
    rw [htake]
    dsimp only
    rw [hrecv]
  · rw [hheld, hwire] at hall
    rw [← hnames, List.forall₂_map_left_iff]
    exact hall
  · obtain ⟨hsame, howed, hread⟩ := hothers a (hnames ▸ ha)
    have hlook : looks c₀ a = looks c a := by rw [hlooks, if_neg ha]
    refine ⟨hsame.trans hlook, ?_, fun b hb => ?_⟩
    · rw [howed, owed, owed, outs, outs, hlook, hwire]
    · rw [hread b (hlook.trans hb), hwire]

end Reading

end Cluster

end Barnabas.Client
