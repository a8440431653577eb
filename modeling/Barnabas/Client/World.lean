import Barnabas.Client.Transport
import Mathlib.Logic.Function.Basic
import Mathlib.Data.List.Infix

/-!
A cluster of honest brokers behind a network that is not.

The results about exactly-once delivery depend on what a broker does with a
batch, so the environment of the client is spelt out here as one instance of
`Transport`. A partition is a log that takes batches by Kafka's rule for
idempotent producers. A stream carries requests to a broker and answers back, in
order. Everything else is up to a script: when a request is served, which codes
its partitions are answered with, what any other request is answered, which
connections fail and whether what was written on them arrives all the same. A
stream the client has given up keeps its requests, and they may still be served.
-/

namespace Barnabas.Client

open Barnabas.Lib Barnabas.Core

/-! ### A partition's log -/

/-- A batch in a log, and the offset of its first record. -/
structure Entry where
  batch : Batch
  offset : ℤ
  deriving DecidableEq, Repr

abbrev Log := List Entry

namespace Log

/-- The sequence number the next batch must begin with. Sequence numbers are not
negative: after `i32::MAX` comes 0. -/
def expected (log : Log) : ℤ :=
  match log.getLast? with
  | none => 0
  | some entry => (entry.batch.range.base + entry.batch.range.count) % 2 ^ 31

def endOffset (log : Log) : ℤ :=
  match log.getLast? with
  | none => 0
  | some entry => entry.offset + entry.batch.range.count

/-- The batches a broker remembers of a producer. -/
def lastFive (log : Log) : List Entry := log.drop (log.length - 5)

/-- Take a batch: the offset it is at, or nothing if its sequence is out of
order, and the log. `gap` records of other producers come before it. -/
def accept (log : Log) (gap : ℕ) (batch : Batch) : Option ℤ × Log :=
  if batch.range.base = log.expected then
    (some (log.endOffset + gap), log ++ [⟨batch, log.endOffset + gap⟩])
  else
    ((log.lastFive.find? fun entry => entry.batch.range = batch.range).map (·.offset), log)

end Log

/-- What can go wrong with one partition of a request: it is answered with a code
without being processed, or after it was. -/
inductive Fault
  | none
  | before (code : ℤ)
  | after (code : ℤ)
  deriving DecidableEq, Repr

/-- The code and base offset one partition is answered with, and its log. -/
def Log.serve (log : Log) (gap : ℕ) (batch : Batch) : Fault → (ℤ × ℤ) × Log
  | .none =>
      match log.accept gap batch with
      | (some offset, log) => ((0, offset), log)
      | (none, log) => ((45, -1), log)
  | .before code => ((code, -1), log)
  | .after code => ((code, -1), (log.accept gap batch).2)

/-! ### Answers -/

/-- The partitions of a response with what each was answered. -/
def partitionsOf (resp : ProduceResponse) : List (TopicPartition × PartitionProduceResponse) :=
  resp.flatMap fun (topic, parts) => parts.map fun part => (⟨topic, part.index⟩, part)

/-- The partitions of a request with the batch of each. -/
def batchesOf (req : ProduceRequest) : List (TopicPartition × Batch) :=
  req.topicData.flatMap fun (topic, parts) => parts.map fun (index, batch) => (⟨topic, index⟩, batch)

/-- How the script has a request answered. A request that is not a `Produce` may
get any body; the partitions of a `Produce` are answered once each, in any order. -/
structure Reply where
  body : Body
  fault : TopicPartition → Fault
  gap : TopicPartition → ℕ
  arrange : ProduceResponse → ProduceResponse
  arrange_perm : ∀ resp, (partitionsOf (arrange resp)).Perm (partitionsOf resp)

/-- An answered request, with the logs as they were when it was served. -/
structure Answer where
  frame : Frame
  reply : Reply
  logs : TopicPartition → Log

namespace Answer

/-- What became of one batch. -/
def outcome (a : Answer) (tp : TopicPartition) (batch : Batch) : (ℤ × ℤ) × Log :=
  (a.logs tp).serve (a.reply.gap tp) batch (a.reply.fault tp)

def response (a : Answer) (req : ProduceRequest) : ProduceResponse :=
  req.topicData.map fun (topic, parts) => (topic, parts.map fun (index, batch) =>
    ⟨index, (a.outcome ⟨topic, index⟩ batch).1.1, (a.outcome ⟨topic, index⟩ batch).1.2⟩)

def body (a : Answer) : Body :=
  match a.frame.request with
  | .produce req => .produce (a.reply.arrange (a.response req))
  | _ => a.reply.body

/-- The logs when the request has been served. A request names a partition at
most once. -/
def after (a : Answer) : TopicPartition → Log :=
  match a.frame.request with
  | .produce req => fun tp =>
      match (batchesOf req).lookup tp with
      | some batch => (a.outcome tp batch).2
      | none => a.logs tp
  | _ => a.logs

end Answer

/-! ### The network -/

/-- A connection as the network sees it: requests on their way, answers on their
way back, and the answers that arrived. -/
structure Stream where
  queue : List Frame
  unread : List Answer
  read : List Answer

/-- What becomes of an operation: it goes through, or the connection is lost, or
the deadline comes first; a write that fails may have arrived. -/
inductive Outcome
  | done
  | lost (e : IoError) (landed : Bool)
  | expired (landed : Bool)
  deriving DecidableEq, Repr

/-- One entry of the script: the streams whose oldest request is served before
the next operation, and how that operation ends. -/
structure Choice where
  served : List (ℕ × Reply)
  outcome : Outcome
  number : ℕ
  time : ℤ
  text : String

structure World where
  script : ℕ → Choice
  turn : ℕ
  opened : ℕ
  streams : ℕ → Stream
  logs : TopicPartition → Log

namespace World

def start (script : ℕ → Choice) : World := ⟨script, 0, 0, fun _ => ⟨[], [], []⟩, fun _ => []⟩

def setStream (w : World) (stream : ℕ) (s : Stream) : World :=
  { w with streams := Function.update w.streams stream s }

/-- Serve the oldest request of a stream. -/
def serveOne (w : World) (served : ℕ × Reply) : World :=
  match (w.streams served.1).queue with
  | [] => w
  | frame :: rest =>
      let a : Answer := ⟨frame, served.2, w.logs⟩
      { w with logs := a.after }.setStream served.1
        ⟨rest, (w.streams served.1).unread ++ [a], (w.streams served.1).read⟩

/-- The next entry of the script, after what it has served. -/
def advance (w : World) : Choice × World :=
  (w.script w.turn, { (w.script w.turn).served.foldl serveOne w with turn := w.turn + 1 })

/-- A request enters a stream. -/
def post (w : World) (stream : ℕ) (frame : Frame) : World :=
  w.setStream stream
    ⟨(w.streams stream).queue ++ [frame], (w.streams stream).unread, (w.streams stream).read⟩

def postIf (w : World) (landed : Bool) (stream : ℕ) (frame : Frame) : World :=
  if landed then w.post stream frame else w

/-- The oldest answer of a stream arrives, if there is one. -/
def deliver (w : World) (stream : ℕ) : Incoming × World :=
  match (w.streams stream).unread with
  | [] => (.closed, w)
  | a :: rest => (.frame (.ok a.frame.correlationId) a.body,
      w.setStream stream ⟨(w.streams stream).queue, rest, (w.streams stream).read ++ [a]⟩)

def timedOut : IoError := ⟨.other, "timed out"⟩

def connect (_ : String) : Act World IoError ℕ := fun w =>
  let (choice, w) := w.advance
  match choice.outcome with
  | .done => (.ok w.opened, { w with opened := w.opened + 1 })
  | .lost e _ => (.error e, w)
  | .expired _ => (.error timedOut, w)

def writeWithin (_ stream : ℕ) (frame : Frame) : Act World (Option IoError) Unit := fun w =>
  let (choice, w) := w.advance
  match choice.outcome with
  | .done => (.ok (), w.post stream frame)
  | .lost e landed => (.error (some e), w.postIf landed stream frame)
  | .expired landed => (.error none, w.postIf landed stream frame)

def readWithin (_ stream : ℕ) : Act World (Option IoError) Incoming := fun w =>
  let (choice, w) := w.advance
  match choice.outcome with
  | .done => (.ok (w.deliver stream).1, (w.deliver stream).2)
  | .lost e _ => (.error (some e), w)
  | .expired _ => (.error none, w)

/-- Without a deadline, waiting too long is the network's own timeout. -/
def unbounded {α : Type} (m : Act World (Option IoError) α) : Act World IoError α :=
  Act.mapError (·.getD timedOut) m

def transport (codec : Codec) : Transport World where
  codec := codec
  connect := connect
  write stream frame := unbounded (writeWithin 0 stream frame)
  read stream := unbounded (readWithin 0 stream)
  writeWithin := writeWithin
  readWithin := readWithin
  sleep _ w := w.advance.2
  now w := (w.advance.1.number, w.advance.2)
  systemTime w := (w.advance.1.time, w.advance.2)
  pick w := (w.advance.1.number, w.advance.2)
  nonce w := (w.advance.1.text, w.advance.2)

/-! ### What every operation keeps -/

@[simp] theorem streams_setStream_self (w : World) (stream : ℕ) (s : Stream) :
    (w.setStream stream s).streams stream = s := by
  simp [setStream]

theorem streams_setStream_of_ne (w : World) {stream other : ℕ} (h : other ≠ stream) (s : Stream) :
    (w.setStream stream s).streams other = w.streams other :=
  Function.update_of_ne h _ _

/-- The requests of a stream that are not answered to the client yet, oldest
first. Serving them does not change the list. -/
def outstanding (w : World) (stream : ℕ) : List Frame :=
  (w.streams stream).unread.map (·.frame) ++ (w.streams stream).queue

/-- The client's view of the streams: what is outstanding and what was read on
each. -/
structure SameView (w w' : World) : Prop where
  opened : w'.opened = w.opened
  outstanding : ∀ s, w'.outstanding s = w.outstanding s
  read : ∀ s, (w'.streams s).read = (w.streams s).read

theorem sameView_refl (w : World) : SameView w w := ⟨rfl, fun _ => rfl, fun _ => rfl⟩

theorem SameView.trans {w w' w'' : World} (h : SameView w w') (h' : SameView w' w'') :
    SameView w w'' :=
  ⟨h'.opened.trans h.opened, fun s => (h'.outstanding s).trans (h.outstanding s),
    fun s => (h'.read s).trans (h.read s)⟩

theorem script_serveOne (w : World) (served : ℕ × Reply) :
    (w.serveOne served).script = w.script ∧ (w.serveOne served).turn = w.turn := by
  unfold serveOne
  split
  · exact ⟨rfl, rfl⟩
  · exact ⟨rfl, rfl⟩

theorem sameView_serveOne (w : World) (served : ℕ × Reply) : SameView w (w.serveOne served) := by
  unfold serveOne
  split
  · exact sameView_refl w
  · rename_i frame rest hqueue
    refine ⟨rfl, fun s => ?_, fun s => ?_⟩
    · by_cases hs : s = served.1
      · subst hs
        simp [outstanding, hqueue]
      · simp [outstanding, streams_setStream_of_ne _ hs]
    · by_cases hs : s = served.1
      · subst hs
        simp
      · simp [streams_setStream_of_ne _ hs]

theorem sameView_advance (w : World) : SameView w w.advance.2 := by
  have hfold : ∀ (served : List (ℕ × Reply)) (w : World), SameView w (served.foldl serveOne w) := by
    intro served
    induction served with
    | nil => exact sameView_refl
    | cons first rest ih => exact fun w => (sameView_serveOne w first).trans (ih _)
  obtain ⟨hopened, houtstanding, hread⟩ := hfold (w.script w.turn).served w
  exact ⟨hopened, houtstanding, hread⟩

@[simp] theorem outstanding_post_self (w : World) (stream : ℕ) (frame : Frame) :
    (w.post stream frame).outstanding stream = w.outstanding stream ++ [frame] := by
  simp [outstanding, post]

theorem outstanding_post_of_ne (w : World) {stream s : ℕ} (hs : s ≠ stream) (frame : Frame) :
    (w.post stream frame).outstanding s = w.outstanding s := by
  simp [outstanding, post, streams_setStream_of_ne _ hs]

theorem read_post (w : World) (stream s : ℕ) (frame : Frame) :
    ((w.post stream frame).streams s).read = (w.streams s).read := by
  by_cases hs : s = stream
  · subst hs
    simp [post]
  · simp [post, streams_setStream_of_ne _ hs]

theorem deliver_of_nil {w : World} {stream : ℕ} (h : (w.streams stream).unread = []) :
    w.deliver stream = (.closed, w) := by
  rw [deliver, h]

theorem deliver_of_cons {w : World} {stream : ℕ} {a : Answer} {rest : List Answer}
    (h : (w.streams stream).unread = a :: rest) :
    w.deliver stream = (.frame (.ok a.frame.correlationId) a.body,
      w.setStream stream ⟨(w.streams stream).queue, rest, (w.streams stream).read ++ [a]⟩) := by
  rw [deliver, h]

/-- Either nothing has been answered on the stream, or the oldest answer arrives. -/
theorem deliver_cases (w : World) (stream : ℕ) :
    w.deliver stream = (.closed, w) ∨
      ∃ a w', w.deliver stream = (.frame (.ok a.frame.correlationId) a.body, w') ∧
        w.outstanding stream = a.frame :: w'.outstanding stream ∧
        (w'.streams stream).read = (w.streams stream).read ++ [a] := by
  rcases hunread : (w.streams stream).unread with _ | ⟨a, rest⟩
  · exact .inl (deliver_of_nil hunread)
  · refine .inr ⟨a, _, deliver_of_cons hunread, ?_, ?_⟩
    · simp [outstanding, hunread]
    · simp

theorem opened_deliver (w : World) (stream : ℕ) : (w.deliver stream).2.opened = w.opened := by
  rcases hunread : (w.streams stream).unread with _ | ⟨a, rest⟩
  · rw [deliver_of_nil hunread]
  · rw [deliver_of_cons hunread]
    rfl

theorem streams_deliver_of_ne (w : World) {stream s : ℕ} (hs : s ≠ stream) :
    (w.deliver stream).2.streams s = w.streams s := by
  rcases hunread : (w.streams stream).unread with _ | ⟨a, rest⟩
  · rw [deliver_of_nil hunread]
  · rw [deliver_of_cons hunread]
    exact streams_setStream_of_ne _ hs _

/-- A property of the world that lasts: nothing the network or a broker does ends
it, as long as the requests are in `W`. -/
structure Lasting (I : World → Prop) (W : Frame → Prop) : Prop where
  serveOne : ∀ w, ∀ served ∈ (w.script w.turn).served, I w → I (w.serveOne served)
  turn : ∀ w turn, I w → I { w with turn }
  opened : ∀ w, I w → I { w with opened := w.opened + 1 }
  post : ∀ w stream frame, W frame → I w → I (w.post stream frame)
  deliver : ∀ w stream, I w → I (w.deliver stream).2

/-- Nothing is asked of the world, and any request may be written. -/
theorem lasting_true : Lasting (fun _ => True) (fun _ => True) where
  serveOne _ _ _ _ := trivial
  turn _ _ _ := trivial
  opened _ _ := trivial
  post _ _ _ _ _ := trivial
  deliver _ _ _ := trivial

namespace Lasting

variable {I : World → Prop} {W : Frame → Prop} (h : Lasting I W)

include h

theorem advance {w : World} (hw : I w) : I w.advance.2 := by
  have hfold : ∀ (served : List (ℕ × Reply)) (w : World),
      (∀ one ∈ served, one ∈ (w.script w.turn).served) → I w → I (served.foldl World.serveOne w) := by
    intro served
    induction served with
    | nil => exact fun _ _ => id
    | cons first rest ih =>
        intro w hserved hw
        obtain ⟨hfirst, hrest⟩ := List.forall_mem_cons.mp hserved
        obtain ⟨hscript, hturn⟩ := script_serveOne w first
        refine ih _ ?_ (h.serveOne w first hfirst hw)
        rw [hscript, hturn]
        exact hrest
  exact h.turn _ _ (hfold _ w (fun _ => id) hw)

end Lasting

/-! ### What the operations of the transport can do -/

theorem writeWithin_cases (timeout stream : ℕ) (frame : Frame) (w : World) :
    writeWithin timeout stream frame w = (.ok (), w.advance.2.post stream frame) ∨
      ∃ e landed, writeWithin timeout stream frame w =
        (.error e, w.advance.2.postIf landed stream frame) := by
  unfold writeWithin
  cases houtcome : w.advance.1.outcome with
  | done => exact .inl (by simp [houtcome])
  | lost e landed => exact .inr ⟨some e, landed, by simp [houtcome]⟩
  | expired landed => exact .inr ⟨none, landed, by simp [houtcome]⟩

theorem readWithin_cases (timeout stream : ℕ) (w : World) :
    readWithin timeout stream w =
        (.ok (w.advance.2.deliver stream).1, (w.advance.2.deliver stream).2) ∨
      ∃ e, readWithin timeout stream w = (.error e, w.advance.2) := by
  unfold readWithin
  cases houtcome : w.advance.1.outcome with
  | done => exact .inl (by simp [houtcome])
  | lost e landed => exact .inr ⟨some e, by simp [houtcome]⟩
  | expired landed => exact .inr ⟨none, by simp [houtcome]⟩

theorem connect_cases (addr : String) (w : World) :
    connect addr w = (.ok w.advance.2.opened,
        { w.advance.2 with opened := w.advance.2.opened + 1 }) ∨
      ∃ e, connect addr w = (.error e, w.advance.2) := by
  unfold connect
  cases houtcome : w.advance.1.outcome with
  | done => exact .inl (by simp [houtcome])
  | lost e landed => exact .inr ⟨e, by simp [houtcome]⟩
  | expired landed => exact .inr ⟨timedOut, by simp [houtcome]⟩

end World

/-! ### Scripts written out -/

/-- An answer without faults. -/
def Reply.of (body : Body) : Reply := ⟨body, fun _ => .none, fun _ => 0, id, fun _ => .refl _⟩

namespace Choice

def done : Choice := ⟨[], .done, 0, 0, ""⟩

def down : Choice := ⟨[], .lost ⟨.other, "down"⟩ false, 0, 0, ""⟩

/-- The oldest request of a stream is answered before the operation. -/
def serving (stream : ℕ) (body : Body) : Choice := ⟨[(stream, .of body)], .done, 0, 0, ""⟩

end Choice

/-- A script that ends with the network down. -/
def World.scripted (choices : List Choice) : ℕ → Choice := fun n => choices.getD n .down

end Barnabas.Client
