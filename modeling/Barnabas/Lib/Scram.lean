import Barnabas.Lib.Text
import Barnabas.Lib.Base64

/-!
Salted challenge-response authentication (RFC 5802): what the keys of a password are, and
the server.

The server keeps no password. It has two keys made from one, takes the client's first
message, answers with a nonce, the salt and the number of iterations, and then checks that
the proof in the client's second message undoes to the key whose hash it has. Its last
message shows that it has the other key. Both sides sign the same text, the messages of
the exchange one after the other.

Of the grammar the server checks what separates the attributes and what names them, not
which characters their values are made of.
-/

namespace Barnabas.Lib.Scram

open Text

/-- A hash function and its keyed form. -/
structure Hash where
  size : ℕ
  mac : List UInt8 → List UInt8 → List UInt8
  digest : List UInt8 → List UInt8
  mac_length : ∀ key data, (mac key data).length = size
  digest_length : ∀ data, (digest data).length = size

def xor (a b : List UInt8) : List UInt8 := List.zipWith (· ^^^ ·) a b

theorem length_xor {a b : List UInt8} (h : a.length = b.length) : (xor a b).length = a.length := by
  rw [xor, List.length_zipWith, h, Nat.min_self]

/-- Whoever knows the mask gets back what it was laid over. -/
theorem xor_xor_cancel {a b : List UInt8} (h : a.length = b.length) : xor (xor a b) b = a := by
  apply List.ext_getElem
  · rw [length_xor, length_xor h]
    rw [length_xor h, h]
  · intro i _ _
    simp only [xor, List.getElem_zipWith]
    rw [UInt8.xor_assoc, UInt8.xor_self, UInt8.xor_zero]

variable (H : Hash)

namespace Hash

/-- The values that are put together to a salted password, from the first on: each is made
from the one before. -/
def link (password salt : List UInt8) : ℕ → List UInt8
  | 0 => H.mac password (salt ++ [0, 0, 0, 1])
  | i + 1 => H.mac password (link password salt i)

/-- The salted password, `Hi`: the first so many values laid over each other. Without any
iteration it is the first value alone. -/
def hi (password salt : List UInt8) (iterations : ℕ) : List UInt8 :=
  (List.range' 1 (iterations - 1)).foldl (fun salted i => xor salted (H.link password salt i))
    (H.link password salt 0)

/-- The key whose hash the server has. -/
def clientKey (salted : List UInt8) : List UInt8 := H.mac salted (utf8 "Client Key")

/-- The key the server signs with. -/
def serverKey (salted : List UInt8) : List UInt8 := H.mac salted (utf8 "Server Key")

end Hash

/-- What a server keeps about a user. -/
structure Account where
  username : String
  salt : List UInt8
  iterations : ℕ
  storedKey : List UInt8
  serverKey : List UInt8

/-- The account of a user with this password. -/
def Account.enrol (username : String) (password salt : List UInt8) (iterations : ℕ) : Account where
  username
  salt
  iterations
  storedKey := H.digest (H.clientKey (H.hi password salt iterations))
  serverKey := H.serverKey (H.hi password salt iterations)

/-- A name with the separators in it spelled out, read back. -/
def unescape : List Char → Option (List Char)
  | [] => some []
  | '=' :: '2' :: 'C' :: rest => (unescape rest).map (',' :: ·)
  | '=' :: '3' :: 'D' :: rest => (unescape rest).map ('=' :: ·)
  | '=' :: _ => none
  | c :: rest => (unescape rest).map (c :: ·)

/-- A name with the separators in it spelled out. -/
def escape (name : List Char) : List Char :=
  name.flatMap fun c => if c = '=' then ['=', '3', 'D'] else if c = ',' then ['=', '2', 'C'] else [c]

theorem unescape_escape (name : List Char) : unescape (escape name) = some name := by
  induction name with
  | nil => rfl
  | cons c rest ih =>
      rw [escape, List.flatMap_cons, ← escape]
      by_cases heq : c = '='
      · rw [if_pos heq, heq]
        simp [unescape, ih]
      · rw [if_neg heq]
        by_cases hcomma : c = ','
        · rw [if_pos hcomma, hcomma]
          simp [unescape, ih]
        · rw [if_neg hcomma]
          simp [unescape, ih, heq]

theorem comma_not_mem_escape (name : List Char) : ',' ∉ escape name := by
  intro h
  obtain ⟨c, -, hc⟩ := List.mem_flatMap.mp h
  by_cases heq : c = '='
  · simp [heq] at hc
  · by_cases hcomma : c = ','
    · simp [hcomma] at hc
    · simp [heq, hcomma, Ne.symm hcomma] at hc

theorem escape_injective : Function.Injective escape := by
  intro name name' h
  have hback := unescape_escape name
  rw [h, unescape_escape] at hback
  exact (Option.some.inj hback).symm

/-- An escape of three characters with one `=` at its head. -/
theorem equals_append {p q : Char} (hp : p ≠ '=') (hq : q ≠ '=') {rest before after : List Char}
    (h : '=' :: p :: q :: rest = before ++ '=' :: after) :
    [p, q] <+: after ∨ ∃ before', rest = before' ++ '=' :: after := by
  match before with
  | [] => exact .inl ⟨rest, (List.cons.inj h).2⟩
  | [_] => exact absurd (List.cons.inj (List.cons.inj h).2).1 hp
  | [_, _] => exact absurd (List.cons.inj (List.cons.inj (List.cons.inj h).2).2).1 hq
  | _ :: _ :: _ :: before' =>
      exact .inr ⟨before', (List.cons.inj (List.cons.inj (List.cons.inj h).2).2).2⟩

/-- The only `=` in an escaped name are those of the two escapes. -/
theorem equals_escape (name : List Char) : ∀ {before after : List Char},
    escape name = before ++ '=' :: after → ['3', 'D'] <+: after ∨ ['2', 'C'] <+: after := by
  induction name with
  | nil =>
      intro before after h
      rw [escape, List.flatMap_nil] at h
      simp at h
  | cons c rest ih =>
      intro before after h
      rw [escape, List.flatMap_cons, ← escape] at h
      by_cases heq : c = '='
      · rw [if_pos heq] at h
        obtain hhead | ⟨before', hrest⟩ := equals_append (by decide) (by decide) h
        · exact .inl hhead
        · exact ih hrest
      · rw [if_neg heq] at h
        by_cases hcomma : c = ','
        · rw [if_pos hcomma] at h
          obtain hhead | ⟨before', hrest⟩ := equals_append (by decide) (by decide) h
          · exact .inr hhead
          · exact ih hrest
        · rw [if_neg hcomma] at h
          match before with
          | [] => exact absurd (List.cons.inj h).1 heq
          | _ :: before' => exact ih (List.cons.inj h).2

/-- An exchange the server has answered the first message of. -/
structure Session where
  /-- What the client said about channel binding and whom it acts for. -/
  header : String
  clientFirstBare : String
  serverFirst : String
  nonce : String
  deriving DecidableEq, Repr

namespace Account

/-- Take the client's first message, and answer with a nonce that extends the client's. -/
def first (account : Account) (extension : String) (message : List UInt8) :
    Option (Session × List UInt8) := do
  let text ← fromUtf8 message
  match split text ',' with
  | flag :: authzid :: name :: nonce :: extensions =>
      if flag ≠ "n" ∧ flag ≠ "y" ∨ authzid ≠ "" then none
      else
        let username ← stripPrefix name "n=" >>= fun escaped => unescape escaped.toList
        let clientNonce ← stripPrefix nonce "r="
        if String.ofList username ≠ account.username then none
        else
          let nonce' := clientNonce ++ extension
          let reply := join ',' ["r=" ++ nonce', "s=" ++ String.ofList (Base64.encode account.salt),
            "i=" ++ account.iterations.repr]
          return (⟨join ',' [flag, authzid, ""], join ',' (name :: nonce :: extensions), reply, nonce'⟩,
            utf8 reply)
  | _ => none

/-- The text both sides sign. -/
def authMessage (session : Session) (withoutProof : String) : List UInt8 :=
  utf8 (join ',' [session.clientFirstBare, session.serverFirst, withoutProof])

/-- Take the client's second message, and answer with the signature if its proof is
right. -/
def final (account : Account) (session : Session) (message : List UInt8) : Option (List UInt8) := do
  let text ← fromUtf8 message
  match split text ',' with
  | channel :: nonce :: rest =>
      let binding ← stripPrefix channel "c=" >>= fun value => Base64.decode value.toList
      let echoed ← stripPrefix nonce "r="
      let proof ← rest.getLast? >>= fun last => stripPrefix last "p=" >>= fun value =>
        Base64.decode value.toList
      if binding ≠ utf8 session.header ∨ echoed ≠ session.nonce then none
      else
        let signed := authMessage session (join ',' (channel :: nonce :: rest.dropLast))
        let clientKey := xor proof (H.mac account.storedKey signed)
        if H.digest clientKey ≠ account.storedKey then none
        else
          return utf8 ("v=" ++ String.ofList (Base64.encode (H.mac account.serverKey signed)))
  | _ => none

end Account

end Barnabas.Lib.Scram
