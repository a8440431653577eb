import Barnabas.Client.Transport

/-!
A transport that plays back answers: a fixed list of response bodies, handed out in
the order the client reads them, each under the correlation id of the oldest
unanswered request of its stream. Everything is accepted and nothing times out;
when the list is used up the connections are closed.
-/

namespace Barnabas.Client

open Barnabas.Lib Barnabas.Core

/-- `written` holds stream and correlation id of the unanswered requests. -/
structure Tape where
  streams : ℕ
  written : List (ℕ × ℤ)
  answers : List Body
  time : ℕ

namespace Tape

def of (answers : List Body) : Tape := ⟨0, [], answers, 0⟩

def next (stream : ℕ) (tape : Tape) : Incoming × Tape :=
  match tape.written.find? (·.1 = stream), tape.answers with
  | some (_, id), body :: answers =>
      (.frame (.ok id) body, { tape with written := tape.written.erase (stream, id), answers })
  | _, _ => (.closed, tape)

/-- A blob of the group protocol is a list of partitions of one topic. -/
def codec : Codec where
  encodeHeader _ := .ok 0
  encodeBody _ := .ok 0
  encodeRecords _ _ := .ok ()
  encodeSubscription _ _ := .ok []
  decodeSubscription _ _ := .ok ⟨[], [], -1⟩
  encodeAssignment _ _ := .ok []
  decodeAssignment _ bytes := .ok [("t", bytes.map fun b => (b.toNat : ℤ))]
  plainMessage _ := []
  scramStart _ _ := []
  scramClientFinal _ _ _ := .ok []
  scramVerify _ _ _ _ := .ok ()

def transport : Transport Tape where
  codec := codec
  connect _ := fun tape => (.ok tape.streams, { tape with streams := tape.streams + 1 })
  write stream frame := fun tape =>
    (.ok (), { tape with written := tape.written ++ [(stream, frame.correlationId)] })
  read stream := fun tape => (.ok (tape.next stream).1, (tape.next stream).2)
  writeWithin _ stream frame := fun tape =>
    (.ok (), { tape with written := tape.written ++ [(stream, frame.correlationId)] })
  readWithin _ stream := fun tape => (.ok (tape.next stream).1, (tape.next stream).2)
  sleep duration := fun tape => { tape with time := tape.time + duration }
  now := fun tape => (tape.time, tape)
  systemTime := fun tape => (tape.time, tape)
  pick := fun tape => (0, tape)
  nonce := fun tape => ("", tape)

end Tape

end Barnabas.Client
