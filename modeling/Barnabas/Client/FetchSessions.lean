import Barnabas.Client.ConsumerRules

/-!
The fetch sessions of a consumer, as each broker sees them.

A broker is asked, and answers; the answer moves the consumer's session with it. A
`Dialogue` is the consumer together with the epoch of the request that each broker has
last accepted, and its turns are what touches a session: an answer taken in by the result
loop of `poll`, a reset, the switch between the two kinds of fetch, and whatever leaves
the sessions alone.

Id and epoch are to stay paired: no session is asked for at epoch 0, and the requests of
a session count up from there. The loop copies the id out of the answer and counts the
epoch on its own, so they part where a broker accepts a request and declines the session.
-/

namespace Barnabas.Client

open Barnabas.Lib Barnabas.Core Barnabas.Lib.Act

namespace Consumer

variable {ω : Type}

/-- The session with a broker; one never used is as after a reset. -/
def sessionAt (c : Consumer ω) (addr : String) : Session := c.sessions.getD addr .reset

/-- The consumer, and the epoch of the last request accepted by each broker. -/
structure Dialogue (ω : Type) where
  consumer : Consumer ω
  accepted : String → Option ℤ

/-- Something done to a consumer that leaves its sessions alone. -/
structure Aside (ω : Type) where
  apply : Consumer ω → Consumer ω
  sessions : ∀ c, (apply c).sessions = c.sessions
  incremental : ∀ c, (apply c).incremental = c.incremental

inductive Turn (ω : Type)
  | answered (addr : String) (partitions : List TopicPartition)
      (response : Except Error FetchResponse)
  | reset
  | setIncrementalFetch (incremental : Bool)
  | aside (aside : Aside ω)

/-- The broker has accepted the request it answers. -/
def accepts : Except Error FetchResponse → Bool
  | .ok resp => resp.errorCode = 0
  | .error _ => false

namespace Dialogue

/-- A consumer that nobody has answered yet. -/
def start (c : Consumer ω) : Dialogue ω := ⟨c, fun _ => none⟩

variable (D : Decoders)

/-- An answer is to the request for its partitions that the consumer makes in this state. -/
def step (d : Dialogue ω) : Turn ω → Dialogue ω
  | .answered addr partitions response =>
      ⟨(absorbAnswer D ((addr, partitions), response) [] d.consumer).2,
        if accepts response then
          Function.update d.accepted addr
            (some (d.consumer.fetchRequest addr partitions).sessionEpoch)
        else d.accepted⟩
  | .reset => ⟨d.consumer.resetSessions, d.accepted⟩
  | .setIncrementalFetch incremental => ⟨d.consumer.setIncrementalFetch incremental, d.accepted⟩
  | .aside f => ⟨f.apply d.consumer, d.accepted⟩

/-- The epoch after this one; `i32::MAX` is followed by 1. -/
def succEpoch (epoch : ℤ) : ℤ := if epoch = i32Max then 1 else epoch + 1

/-- The next incremental request to any broker, for any partitions, asks for no session at
epoch 0 exactly, and goes on from the last request accepted otherwise. -/
def Paired (d : Dialogue ω) : Prop :=
  d.consumer.incremental = true → ∀ addr partitions,
    ((d.consumer.fetchRequest addr partitions).sessionEpoch = 0 ↔
      (d.consumer.fetchRequest addr partitions).sessionId = 0) ∧
    ((d.consumer.fetchRequest addr partitions).sessionId ≠ 0 →
      1 ≤ (d.consumer.fetchRequest addr partitions).sessionEpoch ∧
      (d.consumer.fetchRequest addr partitions).sessionEpoch ≤ i32Max ∧
      ∃ epoch, d.accepted addr = some epoch ∧
        (d.consumer.fetchRequest addr partitions).sessionEpoch = succEpoch epoch)

/-- An incremental request is accepted, and the session declined. -/
def Declines (d : Dialogue ω) : Turn ω → Prop
  | .answered _ _ (.ok resp) =>
      d.consumer.incremental = true ∧ resp.errorCode = 0 ∧ resp.sessionId = 0
  | _ => False

end Dialogue

/-! ### What an answer does to the sessions -/

variable (D : Decoders)

theorem sessionEpoch_fetchRequest {c : Consumer ω} (h : c.incremental = true)
    (addr : String) (partitions : List TopicPartition) :
    (c.fetchRequest addr partitions).sessionEpoch = (c.sessionAt addr).epoch := by
  rw [fetchRequest, sessionAt]
  dsimp only
  rw [if_pos h]

theorem sessionId_fetchRequest {c : Consumer ω} (h : c.incremental = true)
    (addr : String) (partitions : List TopicPartition) :
    (c.fetchRequest addr partitions).sessionId = (c.sessionAt addr).id := by
  rw [fetchRequest, sessionAt]
  dsimp only
  rw [if_pos h]

theorem sessionAt_resetSessions (c : Consumer ω) (addr : String) :
    c.resetSessions.sessionAt addr = .reset := by
  rw [sessionAt, resetSessions, Std.TreeMap.getD_eq_getD_getElem?, Std.TreeMap.getElem?_map]
  cases c.sessions[addr]? with
  | none => rfl
  | some session => rfl

/-- Reading the partitions of an answer touches no session. -/
theorem keeps_absorbPartitions (parts : List (TopicPartition × PartitionData))
    (out : List ConsumerRecords) :
    Moves (Keeps fun c : Consumer ω => (c.sessions, c.incremental)) (absorbPartitions D parts out) :=
  moves_absorbPartitions D (fun _ _ _ => rfl) parts out

/-- An answer is not taken in, or resets the session with its broker, or accepts. -/
theorem absorbAnswer_cases (addr : String) (partitions : List TopicPartition)
    (response : Except Error FetchResponse) (out : List ConsumerRecords) (c : Consumer ω) :
    let c' := (absorbAnswer D ((addr, partitions), response) out c).2
    c'.incremental = c.incremental ∧
      (accepts response = false ∧
          (c'.sessions = c.sessions ∨ c'.sessions = c.sessions.insert addr .reset) ∨
        ∃ resp, response = .ok resp ∧ resp.errorCode = 0 ∧
          c'.sessions = (acceptSession addr partitions resp.sessionId c).sessions) := by
  intro c'
  rcases response with e | resp
  · exact ⟨rfl, .inl ⟨rfl, .inl rfl⟩⟩
  · have hrun : c' = (absorbAnswer D ((addr, partitions), .ok resp) out c).2 := rfl
    rw [absorbAnswer, bind_of_ok (ofExcept_apply _ c)] at hrun
    split at hrun
    · next hsession =>
        have hcode : resp.errorCode ≠ 0 := by
          rcases hsession with h | h
          · rw [h]
            decide
          · rw [h]
            decide
        rw [hrun]
        exact ⟨rfl, .inl ⟨by simpa [accepts] using hcode, .inr rfl⟩⟩
    · by_cases hcode : resp.errorCode = 0
      · have hcheck : check "Fetch" resp.errorCode = .ok () := by
          rw [hcode]
          rfl
        rw [hcheck, bind_of_ok (ofExcept_apply _ c), bind_of_ok (modify_apply _ c)] at hrun
        have hkept := keeps_absorbPartitions D (dataOf resp) out
          (acceptSession addr partitions resp.sessionId c)
        rw [Keeps, ← hrun, Prod.mk.injEq] at hkept
        refine ⟨hkept.2.trans ?_, .inr ⟨resp, rfl, hcode, hkept.1⟩⟩
        rw [acceptSession]
        split <;> rfl
      · have hcheck : check "Fetch" resp.errorCode =
            .error (.broker "Fetch" resp.errorCode (ErrorCode.mk resp.errorCode).disposition) := by
          rw [check, if_neg]
          simpa [ErrorCode.none] using hcode
        rw [hcheck] at hrun
        rw [hrun]
        exact ⟨rfl, .inl ⟨by simpa [accepts] using hcode, .inl rfl⟩⟩

/-- The session of the broker that accepted; the others stay as they are. -/
theorem sessionAt_acceptSession {c c' : Consumer ω} {addr : String}
    {partitions : List TopicPartition} {sessionId : ℤ} (hincremental : c.incremental = true)
    (hc' : c'.sessions = (acceptSession addr partitions sessionId c).sessions) :
    (c'.sessionAt addr).id = sessionId ∧
      (c'.sessionAt addr).epoch = max (wrap 32 ((c.sessionAt addr).epoch + 1)) 1 ∧
      ∀ a ≠ addr, c'.sessionAt a = c.sessionAt a := by
  rw [acceptSession, if_pos hincremental] at hc'
  dsimp only at hc'
  refine ⟨?_, ?_, fun a ha => ?_⟩
  · rw [sessionAt, hc', Std.TreeMap.getD_insert_self]
  · rw [sessionAt, hc', Std.TreeMap.getD_insert_self, sessionAt]
  · rw [sessionAt, hc', Std.TreeMap.getD_insert, if_neg]
    · rfl
    · simpa using Ne.symm ha

namespace Dialogue

/-- A session has not been used since it was reset, or goes on from the last request that
its broker accepted. -/
def InOrder (d : Dialogue ω) (addr : String) : Prop :=
  (d.consumer.sessionAt addr).id = 0 ∧ (d.consumer.sessionAt addr).epoch = 0 ∨
    d.consumer.incremental = true ∧ (d.consumer.sessionAt addr).id ≠ 0 ∧
      1 ≤ (d.consumer.sessionAt addr).epoch ∧ (d.consumer.sessionAt addr).epoch ≤ i32Max ∧
      ∃ epoch, d.accepted addr = some epoch ∧ (d.consumer.sessionAt addr).epoch = succEpoch epoch

theorem InOrder.of_same {d d' : Dialogue ω} {addr : String} (h : d.InOrder addr)
    (hsession : d'.consumer.sessionAt addr = d.consumer.sessionAt addr)
    (hincremental : d'.consumer.incremental = d.consumer.incremental)
    (haccepted : d'.accepted addr = d.accepted addr) : d'.InOrder addr := by
  rwa [InOrder, hsession, hincremental, haccepted]

theorem InOrder.of_reset {d : Dialogue ω} {addr : String}
    (h : d.consumer.sessionAt addr = .reset) : d.InOrder addr := by
  left
  rw [h]
  exact ⟨rfl, rfl⟩

theorem paired_of_inOrder {d : Dialogue ω} (h : ∀ addr, d.InOrder addr) : d.Paired := by
  intro hincremental addr partitions
  rw [sessionEpoch_fetchRequest hincremental, sessionId_fetchRequest hincremental]
  rcases h addr with ⟨hid, hepoch⟩ | ⟨-, hid, hlow, hhigh, hnext⟩
  · exact ⟨⟨fun _ => hid, fun _ => hepoch⟩, fun hne => absurd hid hne⟩
  · exact ⟨⟨fun h0 => by omega, fun h0 => absurd h0 hid⟩, fun _ => ⟨hlow, hhigh, hnext⟩⟩

/-- The epoch that the loop counts to, over the whole range of epochs. -/
theorem max_wrap_succ {epoch : ℤ} (hlow : 0 ≤ epoch) (hhigh : epoch ≤ i32Max) :
    max (wrap 32 (epoch + 1)) 1 = succEpoch epoch := by
  rw [succEpoch]
  split
  · next hlast =>
      rw [hlast]
      decide
  · next hlast =>
      rw [wrap32_eq_self (by omega) (by omega)]
      omega

/-- One answer, unless the session is declined. -/
theorem inOrder_answered {d : Dialogue ω} (h : ∀ addr, d.InOrder addr) (addr : String)
    (partitions : List TopicPartition) (response : Except Error FetchResponse)
    (hkept : ¬d.Declines (.answered addr partitions response)) (a : String) :
    (d.step D (.answered addr partitions response)).InOrder a := by
  obtain ⟨hincremental, ⟨hrefused, hsessions⟩ | ⟨resp, rfl, hcode, hsessions⟩⟩ :=
    absorbAnswer_cases D addr partitions response [] d.consumer
  · -- Nothing was accepted; the session with this broker may have been reset.
    have haccepted : (d.step D (.answered addr partitions response)).accepted = d.accepted := by
      rw [step, hrefused]
      rfl
    rcases hsessions with hsame | hreset
    · apply (h a).of_same _ hincremental (by rw [haccepted])
      rw [sessionAt, step, hsame]
      rfl
    · by_cases ha : a = addr
      · subst ha
        apply InOrder.of_reset
        rw [sessionAt, step, hreset, Std.TreeMap.getD_insert_self]
      · apply (h a).of_same _ hincremental (by rw [haccepted])
        rw [sessionAt, step, hreset, Std.TreeMap.getD_insert, if_neg]
        · rfl
        · simpa using Ne.symm ha
  · have haccepted : (d.step D (.answered addr partitions (.ok resp))).accepted =
        Function.update d.accepted addr
          (some (d.consumer.fetchRequest addr partitions).sessionEpoch) := by
      rw [step, if_pos]
      simpa [accepts] using hcode
    by_cases hon : d.consumer.incremental = true
    · obtain ⟨hid, hepoch, hothers⟩ := sessionAt_acceptSession hon hsessions
      by_cases ha : a = addr
      · subst ha
        right
        have hne : resp.sessionId ≠ 0 := fun hzero => hkept ⟨hon, hcode, hzero⟩
        have hrange : 0 ≤ (d.consumer.sessionAt a).epoch ∧
            (d.consumer.sessionAt a).epoch ≤ i32Max := by
          rcases h a with ⟨-, hzero⟩ | ⟨-, -, hlow, hhigh, -⟩
          · rw [hzero]
            decide
          · exact ⟨by omega, hhigh⟩
        rw [max_wrap_succ hrange.1 hrange.2] at hepoch
        have hbounds : 1 ≤ succEpoch (d.consumer.sessionAt a).epoch ∧
            succEpoch (d.consumer.sessionAt a).epoch ≤ i32Max := by
          rw [succEpoch]
          split
          · decide
          · omega
        refine ⟨hincremental.trans hon, ?_, ?_, ?_, (d.consumer.sessionAt a).epoch, ?_, hepoch⟩
        · exact hid ▸ hne
        · exact hepoch ▸ hbounds.1
        · exact hepoch ▸ hbounds.2
        · rw [haccepted, Function.update_self, sessionEpoch_fetchRequest hon]
      · apply (h a).of_same (hothers a ha) hincremental
        rw [haccepted, Function.update_of_ne ha]
    · -- Without incremental fetch every session stays as after a reset.
      have hsame : (absorbAnswer D ((addr, partitions), .ok resp) [] d.consumer).2.sessions =
          d.consumer.sessions := by
        rw [hsessions, acceptSession, if_neg hon]
      rcases h a with ⟨hid, hepoch⟩ | ⟨hon', -⟩
      · left
        rw [sessionAt, step, hsame]
        exact ⟨hid, hepoch⟩
      · exact absurd hon' hon

theorem inOrder_step {d : Dialogue ω} (h : ∀ addr, d.InOrder addr) (t : Turn ω)
    (hkept : ¬d.Declines t) (a : String) : (d.step D t).InOrder a := by
  cases t with
  | answered addr partitions response => exact inOrder_answered D h addr partitions response hkept a
  | reset => exact InOrder.of_reset (sessionAt_resetSessions _ _)
  | setIncrementalFetch incremental =>
      cases incremental with
      | false =>
          apply InOrder.of_reset
          rw [sessionAt, step, setIncrementalFetch]
          exact Std.TreeMap.getD_emptyc
      | true =>
          rcases h a with hreset | ⟨-, hopen⟩
          · exact .inl hreset
          · exact .inr ⟨rfl, hopen⟩
  | aside f =>
      have hsame : (d.step D (.aside f)).consumer.sessionAt a = d.consumer.sessionAt a := by
        rw [sessionAt, step, f.sessions]
        rfl
      exact (h a).of_same hsame (f.incremental d.consumer) rfl

/-- A declined session leaves its broker to be asked for no session at a later epoch. -/
theorem not_paired_of_declines {d : Dialogue ω} {t : Turn ω} (h : d.Declines t) :
    ¬(d.step D t).Paired := by
  rcases t with ⟨addr, partitions, e | resp⟩ | _ | _ | _
  · exact h.elim
  · obtain ⟨hon, hcode, hzero⟩ := h
    obtain ⟨hincremental, ⟨hrefused, -⟩ | ⟨resp', hresp, -, hsessions⟩⟩ :=
      absorbAnswer_cases D addr partitions (.ok resp) [] d.consumer
    · simp [accepts, hcode] at hrefused
    · cases hresp
      obtain ⟨hid, hepoch, -⟩ := sessionAt_acceptSession hon hsessions
      intro hpaired
      have hon' : (d.step D (.answered addr partitions (.ok resp))).consumer.incremental = true :=
        hincremental.trans hon
      have hboth := (hpaired hon' addr partitions).1
      rw [sessionEpoch_fetchRequest hon', sessionId_fetchRequest hon'] at hboth
      have hpositive := hboth.mpr (hid.trans hzero)
      rw [show (d.step D (.answered addr partitions (.ok resp))).consumer.sessionAt addr =
        (absorbAnswer D ((addr, partitions), .ok resp) [] d.consumer).2.sessionAt addr from rfl,
        hepoch] at hpositive
      omega
  · exact h.elim
  · exact h.elim
  · exact h.elim

/-- A broker accepts the first request and declines the session, as one without room for
another does. -/
def declined : Turn Unit := .answered "b:1" [] (.ok ⟨0, 0, []⟩)

end Dialogue

end Consumer

end Barnabas.Client
