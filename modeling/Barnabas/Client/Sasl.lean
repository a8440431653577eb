import Barnabas.Client.Transport
import Barnabas.Lib.Scram

/-!
SASL authentication: PLAIN and SCRAM-SHA-256/512 (`barnabas-client/src/sasl.rs`).

The hash functions come from outside and are parameters, with what their types say of
them: an output of a fixed length. The text of a UTF-8 error comes from outside too.
-/

namespace Barnabas.Client

open Barnabas.Lib Barnabas.Core Barnabas.Lib.Text

/-- What the exchange uses and does not define. -/
structure Primitives where
  sha256 : Scram.Hash
  sha512 : Scram.Hash
  utf8Error : Bytes → String

/-- What went wrong during authentication. -/
inductive SaslError
  | rejected
  | malformed (message : String)
  | serverSignature
  deriving DecidableEq, Repr

def SaslError.toString : SaslError → String
  | rejected => "the broker rejected the credentials"
  | malformed message => "the broker's SASL message was malformed: " ++ message
  | serverSignature => "the server's signature did not verify — the peer does not know the password"

/-- PLAIN's single message: `authzid \0 authcid \0 password`, with an empty
authorization id. -/
def plainMessage (credentials : Credentials) : Bytes :=
  [0] ++ utf8 credentials.username ++ [0] ++ utf8 credentials.password

/-! ### Base64 -/

/-- `B64`, a string of bytes. -/
def b64 : Bytes :=
  "ABCDEFGHIJKLMNOPQRSTUVWXYZabcdefghijklmnopqrstuvwxyz0123456789+/".toList.map ascii

def b64Char (i : ℕ) : Char := Char.ofNat (b64.getD i 0).toNat

/-- `data.chunks(3)`. -/
def chunks : Bytes → List Bytes
  | a :: b :: c :: rest => [a, b, c] :: chunks rest
  | [] => []
  | rest => [rest]

def base64EncodeChunk (chunk : Bytes) : List Char :=
  let n : UInt32 := (chunk.getD 0 0).toUInt32 <<< 16 ||| (chunk.getD 1 0).toUInt32 <<< 8 |||
    (chunk.getD 2 0).toUInt32
  [b64Char ((n >>> 18).toNat &&& 63), b64Char ((n >>> 12).toNat &&& 63),
    if 1 < chunk.length then b64Char ((n >>> 6).toNat &&& 63) else '=',
    if 2 < chunk.length then b64Char (n.toNat &&& 63) else '=']

def base64Encode (data : Bytes) : String :=
  String.ofList ((chunks data).flatMap base64EncodeChunk)

def base64DecodeLoop : Bytes → UInt32 → ℕ → Bytes → Option Bytes
  | [], _, _, out => some out
  | ch :: rest, bits, count, out =>
      if ch = ascii '=' then some out
      else
        match b64.findIdx? (· == ch) with
        | none => none
        | some value =>
            let bits := bits <<< 6 ||| value.toUInt32
            let count := count + 6
            if 8 ≤ count then
              base64DecodeLoop rest bits (count - 8)
                (out ++ [(bits >>> (count - 8).toUInt32).toUInt8])
            else base64DecodeLoop rest bits count out

def base64Decode (text : String) : Option Bytes := base64DecodeLoop (utf8 text) 0 0 []

/-! ### SCRAM -/

/-- Pull `key=value` out of a comma-separated SCRAM message. -/
def field (message : String) (key : Char) : Option String :=
  (split message ',').findSome? fun part => stripPrefix part (String.ofList [key, '='])

/-- SCRAM escapes `,` and `=` in the username, since both are message separators. -/
def saslprep (username : String) : String := replace (replace username '=' "=3D") ',' "=2C"

variable (P : Primitives)

/-- The hash of a mechanism. -/
def Primitives.of : SaslMechanism → Scram.Hash
  | .scramSha512 => P.sha512
  | _ => P.sha256

def hmac (mechanism : SaslMechanism) (key data : Bytes) : Bytes := (P.of mechanism).mac key data

def hash (mechanism : SaslMechanism) (data : Bytes) : Bytes := (P.of mechanism).digest data

/-- `*out ^= byte` along two buffers, for as long as both last. -/
def xorInto : Bytes → Bytes → Bytes
  | out :: outs, byte :: bytes => (out ^^^ byte) :: xorInto outs bytes
  | outs, _ => outs

def hiLoop (mechanism : SaslMechanism) (password : Bytes) : ℕ → Bytes → Bytes → Bytes
  | 0, salted, _ => salted
  | n + 1, salted, previous =>
      let previous := hmac P mechanism password previous
      hiLoop mechanism password n (xorInto salted previous) previous

/-- SCRAM's `Hi` — PBKDF2 with the mechanism's hash. -/
def hi (mechanism : SaslMechanism) (password salt : Bytes) (iterations : ℕ) : Bytes :=
  let previous := hmac P mechanism password (salt ++ [0, 0, 0, 1])
  hiLoop P mechanism password (iterations - 1) previous previous

/-- A SCRAM exchange in progress. -/
structure ScramExchange where
  mechanism : SaslMechanism
  password : String
  clientNonce : String
  clientFirstBare : String
  serverSignature : Bytes
  deriving DecidableEq, Repr

namespace ScramExchange

/-- Begin, returning the client-first message. -/
def start (credentials : Credentials) (nonce : String) : ScramExchange × Bytes :=
  let bare := "n=" ++ saslprep credentials.username ++ ",r=" ++ nonce
  ({ mechanism := credentials.mechanism
     password := credentials.password
     clientNonce := nonce
     clientFirstBare := bare
     serverSignature := [] }, utf8 ("n,," ++ bare))

/-- The field of a message that has to have it. -/
def expect (text : String) (value : Option α) : Act ScramExchange SaslError α :=
  Act.ofExcept (value.elim (.error (.malformed text)) .ok)

/-- Consume the server-first message and produce client-final. -/
def clientFinal (serverFirst : Bytes) : Act ScramExchange SaslError Bytes := do
  let text ← expect (P.utf8Error serverFirst) (fromUtf8 serverFirst)
  let nonce ← expect text (field text 'r')
  let saltB64 ← expect text (field text 's')
  let iterations ← expect text (field text 'i')
  let iterations ← expect text (parseU32 iterations)
  let exchange ← get
  if !exchange.clientNonce.toList.isPrefixOf nonce.toList then
    throw (.malformed ("server nonce " ++ nonce ++ " does not extend the client nonce"))
  else
    let salt ← expect text (base64Decode saltB64)
    let salted := hi P exchange.mechanism (utf8 exchange.password) salt iterations
    let clientKey := hmac P exchange.mechanism salted (utf8 "Client Key")
    let storedKey := hash P exchange.mechanism clientKey
    let finalWithoutProof := "c=biws,r=" ++ nonce
    let authMessage := exchange.clientFirstBare ++ "," ++ text ++ "," ++ finalWithoutProof
    let clientSignature := hmac P exchange.mechanism storedKey (utf8 authMessage)
    let proof := List.zipWith (· ^^^ ·) clientKey clientSignature
    let serverKey := hmac P exchange.mechanism salted (utf8 "Server Key")
    set { exchange with serverSignature := hmac P exchange.mechanism serverKey (utf8 authMessage) }
    return utf8 (finalWithoutProof ++ ",p=" ++ base64Encode proof)

/-- Verify the server's final message. -/
def verify (exchange : ScramExchange) (serverFinal : Bytes) : Except SaslError Unit :=
  match fromUtf8 serverFinal with
  | none => .error (.malformed (P.utf8Error serverFinal))
  | some text =>
      match field text 'e' with
      | some err => .error (.malformed err)
      | none =>
          match field text 'v' with
          | none => .error (.malformed text)
          | some verifier =>
              if verifier = base64Encode exchange.serverSignature then .ok ()
              else .error .serverSignature

end ScramExchange

/-! ### Base64 agrees with the standard -/

theorem b64_eq : b64 = Base64.alphabet.map ascii := rfl

theorem b64Char_eq {value : ℕ} (h : value < 64) : b64Char value = Base64.digit value := by
  have hlength : value < Base64.alphabet.length := by rwa [Base64.alphabet_length]
  have hget : b64.getD value 0 = ascii (Base64.digit value) := by
    rw [b64_eq, Base64.digit_eq_getElem hlength, List.getD_eq_getElem?_getD, List.getElem?_map,
      List.getElem?_eq_getElem hlength]
    rfl
  rw [b64Char, hget, toNat_ascii (Base64.code_digit h).1, Char.ofNat_toNat]

/-- A byte moved up in a machine word stays whole. -/
theorem toNat_raised (a : UInt8) {k : UInt32} (hk : k.toNat ≤ 16) :
    (a.toUInt32 <<< k).toNat = a.toNat <<< k.toNat := by
  have ha := a.toNat_lt
  have hpow : 2 ^ k.toNat ≤ 2 ^ 16 := Nat.pow_le_pow_right (by omega) hk
  have hsmall : a.toNat * 2 ^ k.toNat < 2 ^ 32 :=
    calc a.toNat * 2 ^ k.toNat ≤ a.toNat * 2 ^ 16 := Nat.mul_le_mul_left _ hpow
      _ < 2 ^ 32 := by omega
  rw [UInt32.toNat_shiftLeft, UInt8.toNat_toUInt32, Nat.mod_eq_of_lt (by omega : k.toNat < 32),
    Nat.shiftLeft_eq, Nat.mod_eq_of_lt hsmall]

/-- Three bytes one after the other in a machine word. -/
theorem toNat_word (a b c : UInt8) :
    (a.toUInt32 <<< 16 ||| b.toUInt32 <<< 8 ||| c.toUInt32).toNat =
      a.toNat * 65536 + b.toNat * 256 + c.toNat := by
  have hb := b.toNat_lt
  have hc := c.toNat_lt
  have hfirst : (a.toUInt32 <<< 16).toNat = a.toNat <<< 16 := toNat_raised a (by decide)
  have hsecond : (b.toUInt32 <<< 8).toNat = b.toNat <<< 8 := toNat_raised b (by decide)
  rw [UInt32.toNat_or, UInt32.toNat_or, hfirst, hsecond, UInt8.toNat_toUInt32, Nat.or_assoc,
    ← Nat.shiftLeft_add_eq_or_of_lt (by omega) b.toNat, ← Nat.shiftLeft_add_eq_or_of_lt]
  · simp only [Nat.shiftLeft_eq]
    omega
  · rw [Nat.shiftLeft_eq]
    omega

/-- Six bits of a machine word. -/
theorem b64Char_sextet (n k : UInt32) :
    b64Char ((n >>> k).toNat &&& 63) = Base64.digit (n.toNat / 2 ^ (k.toNat % 32) % 64) := by
  have hand : (n >>> k).toNat &&& 63 = n.toNat / 2 ^ (k.toNat % 32) % 64 := by
    rw [UInt32.toNat_shiftRight, Nat.shiftRight_eq_div_pow]
    exact Nat.and_two_pow_sub_one_eq_mod _ 6
  rw [hand]
  exact b64Char_eq (Nat.mod_lt _ (by decide))

/-- Up to three bytes, the missing ones zero, as four characters. -/
theorem base64EncodeChunk_eq (chunk : Bytes) {a b c : UInt8} (ha : chunk.getD 0 0 = a)
    (hb : chunk.getD 1 0 = b) (hc : chunk.getD 2 0 = c) :
    base64EncodeChunk chunk =
      [Base64.digit (a.toNat / 4), Base64.digit (a.toNat % 4 * 16 + b.toNat / 16),
        if 1 < chunk.length then Base64.digit (b.toNat % 16 * 4 + c.toNat / 64) else '=',
        if 2 < chunk.length then Base64.digit (c.toNat % 64) else '='] := by
  have hla := a.toNat_lt
  have hlb := b.toNat_lt
  have hlc := c.toNat_lt
  have hword := toNat_word a b c
  rw [base64EncodeChunk, ha, hb, hc]
  generalize a.toUInt32 <<< 16 ||| b.toUInt32 <<< 8 ||| c.toUInt32 = n at hword ⊢
  have hsextet (k : UInt32) {value : ℕ} (hvalue : n.toNat / 2 ^ (k.toNat % 32) % 64 = value) :
      b64Char ((n >>> k).toNat &&& 63) = Base64.digit value := by
    rw [b64Char_sextet, hvalue]
  have hfirst : b64Char ((n >>> 18).toNat &&& 63) = Base64.digit (a.toNat / 4) := by
    apply hsextet
    change n.toNat / 2 ^ 18 % 64 = _
    omega
  have hsecond : b64Char ((n >>> 12).toNat &&& 63) =
      Base64.digit (a.toNat % 4 * 16 + b.toNat / 16) := by
    apply hsextet
    change n.toNat / 2 ^ 12 % 64 = _
    omega
  have hthird : b64Char ((n >>> 6).toNat &&& 63) =
      Base64.digit (b.toNat % 16 * 4 + c.toNat / 64) := by
    apply hsextet
    change n.toNat / 2 ^ 6 % 64 = _
    omega
  have hfourth : b64Char (n.toNat &&& 63) = Base64.digit (c.toNat % 64) := by
    rw [Nat.and_two_pow_sub_one_eq_mod _ 6, b64Char_eq (Nat.mod_lt _ (by decide))]
    apply congrArg Base64.digit
    omega
  rw [hfirst, hsecond, hthird, hfourth]

theorem base64Encode_eq (data : Bytes) : base64Encode data = String.ofList (Base64.encode data) := by
  rw [base64Encode]
  congr 1
  induction data using Base64.encode.induct with
  | case1 => rfl
  | case2 a =>
      change List.flatMap base64EncodeChunk [[a]] = _
      rw [List.flatMap_singleton, base64EncodeChunk_eq _ rfl rfl rfl]
      simp [Base64.encode]
  | case3 a b =>
      change List.flatMap base64EncodeChunk [[a, b]] = _
      rw [List.flatMap_singleton, base64EncodeChunk_eq _ rfl rfl rfl]
      simp [Base64.encode]
  | case4 a b c rest ih =>
      rw [chunks, List.flatMap_cons, ih, base64EncodeChunk_eq _ rfl rfl rfl]
      rfl

theorem position_digit {value : ℕ} (h : value < 64) :
    b64.findIdx? (· == ascii (Base64.digit value)) = some value := by
  have hlength : b64.length = 64 := by rw [b64_eq, List.length_map, Base64.alphabet_length]
  have hget (i : ℕ) (hi : i < b64.length) : b64[i] = ascii (Base64.digit i) := by
    simp only [b64_eq, List.getElem_map]
    rw [Base64.digit_eq_getElem]
  rw [List.findIdx?_eq_some_iff_getElem]
  refine ⟨by omega, by rw [hget, beq_self_eq_true], fun j hj heq => ?_⟩
  rw [hget, beq_iff_eq] at heq
  have hdigit := ascii_inj (Base64.code_digit (by omega)).1 (Base64.code_digit h).1 heq
  have hvalue := Base64.digit_inj (by omega) h hdigit
  omega

theorem ascii_digit_ne {value : ℕ} (h : value < 64) :
    ascii (Base64.digit value) ≠ ascii '=' := by
  intro hascii
  exact Base64.digit_ne_pad h (ascii_inj (Base64.code_digit h).1 (by decide) hascii)

/-- The word after six more bits. -/
def pushed (bits : UInt32) (value : ℕ) : UInt32 := bits <<< 6 ||| value.toUInt32

theorem toNat_pushed (bits : UInt32) {value : ℕ} (h : value < 64) :
    (pushed bits value).toNat = (bits.toNat * 64 + value) % 2 ^ 32 := by
  have hvalue : value.toUInt32.toNat = value := UInt32.toNat_ofNat_of_lt' (by rw [UInt32.size]; omega)
  have hshift : (bits <<< 6).toNat = (bits.toNat % 2 ^ 26) <<< 6 := by
    rw [UInt32.toNat_shiftLeft, Nat.shiftLeft_eq, Nat.shiftLeft_eq]
    change bits.toNat * 2 ^ 6 % 2 ^ 32 = _
    omega
  rw [pushed, UInt32.toNat_or, hvalue, hshift, ← Nat.shiftLeft_add_eq_or_of_lt h, Nat.shiftLeft_eq]
  omega

theorem toNat_popped (bits : UInt32) {count : ℕ} (h : count < 8) :
    ((bits >>> count.toUInt32).toUInt8).toNat = bits.toNat / 2 ^ count % 256 := by
  have hnat : count.toUInt32.toNat = count := UInt32.toNat_ofNat_of_lt' (by rw [UInt32.size]; omega)
  have hcount : count.toUInt32.toNat % 32 = count := by omega
  rw [UInt32.toNat_toUInt8, UInt32.toNat_shiftRight, hcount, Nat.shiftRight_eq_div_pow]

/-- The byte that the bits above the last `count` end in. -/
theorem popped_eq {bits : UInt32} {count : ℕ} (byte : UInt8) (h : count < 8)
    (hbits : bits.toNat / 2 ^ count % 256 = byte.toNat) :
    (bits >>> count.toUInt32).toUInt8 = byte := by
  apply UInt8.toNat_inj.mp
  rw [toNat_popped bits h, hbits]

theorem base64DecodeLoop_digit {value : ℕ} (h : value < 64) (rest : Bytes) (bits : UInt32) (count : ℕ)
    (out : Bytes) :
    base64DecodeLoop (ascii (Base64.digit value) :: rest) bits count out =
      if 8 ≤ count + 6 then
        base64DecodeLoop rest (pushed bits value) (count + 6 - 8)
          (out ++ [((pushed bits value) >>> (count + 6 - 8).toUInt32).toUInt8])
      else base64DecodeLoop rest (pushed bits value) (count + 6) out := by
  rw [base64DecodeLoop, if_neg (ascii_digit_ne h), position_digit h]
  rfl

theorem base64DecodeLoop_encode (data : Bytes) (bits : UInt32) (out : Bytes) :
    base64DecodeLoop ((Base64.encode data).map ascii) bits 0 out = some (out ++ data) := by
  induction data using Base64.encode.induct generalizing bits out with
  | case1 => simp [Base64.encode, base64DecodeLoop]
  | case2 a =>
      have ha := a.toNat_lt
      have hfirst := toNat_pushed bits (show a.toNat / 4 < 64 by omega)
      have hsecond := toNat_pushed (pushed bits (a.toNat / 4)) (show a.toNat % 4 * 16 < 64 by omega)
      rw [Base64.encode]
      simp only [List.map_cons]
      rw [base64DecodeLoop_digit (by omega), if_neg (by omega), base64DecodeLoop_digit (by omega),
        if_pos (by omega), popped_eq a (by omega) (by omega)]
      rfl
  | case3 a b =>
      have ha := a.toNat_lt
      have hb := b.toNat_lt
      have hfirst := toNat_pushed bits (show a.toNat / 4 < 64 by omega)
      have hsecond := toNat_pushed (pushed bits (a.toNat / 4))
        (show a.toNat % 4 * 16 + b.toNat / 16 < 64 by omega)
      have hthird := toNat_pushed (pushed (pushed bits (a.toNat / 4)) (a.toNat % 4 * 16 + b.toNat / 16))
        (show b.toNat % 16 * 4 < 64 by omega)
      rw [Base64.encode]
      simp only [List.map_cons]
      rw [base64DecodeLoop_digit (by omega), if_neg (by omega), base64DecodeLoop_digit (by omega),
        if_pos (by omega), popped_eq a (by omega) (by omega), base64DecodeLoop_digit (by omega),
        if_pos (by omega), popped_eq b (by omega) (by omega), List.append_assoc]
      rfl
  | case4 a b c rest ih =>
      have ha := a.toNat_lt
      have hb := b.toNat_lt
      have hc := c.toNat_lt
      have hfirst := toNat_pushed bits (show a.toNat / 4 < 64 by omega)
      have hsecond := toNat_pushed (pushed bits (a.toNat / 4))
        (show a.toNat % 4 * 16 + b.toNat / 16 < 64 by omega)
      have hthird := toNat_pushed (pushed (pushed bits (a.toNat / 4)) (a.toNat % 4 * 16 + b.toNat / 16))
        (show b.toNat % 16 * 4 + c.toNat / 64 < 64 by omega)
      have hfourth := toNat_pushed (pushed (pushed (pushed bits (a.toNat / 4))
        (a.toNat % 4 * 16 + b.toNat / 16)) (b.toNat % 16 * 4 + c.toNat / 64))
        (show c.toNat % 64 < 64 by omega)
      rw [Base64.encode]
      simp only [List.map_cons]
      rw [base64DecodeLoop_digit (by omega), if_neg (by omega), base64DecodeLoop_digit (by omega),
        if_pos (by omega), popped_eq a (by omega) (by omega), base64DecodeLoop_digit (by omega),
        if_pos (by omega), popped_eq b (by omega) (by omega), base64DecodeLoop_digit (by omega),
        if_pos (by omega), popped_eq c (by omega) (by omega), ih]
      simp only [List.append_assoc, List.cons_append, List.nil_append]

/-- What was written in Base64 is read back. -/
theorem base64Decode_encode (data : Bytes) :
    base64Decode (String.ofList (Base64.encode data)) = some data := by
  have hplain : ∀ c ∈ Base64.encode data, c.toNat < 128 := by
    apply Base64.forall_mem_encode
    · exact fun value hvalue => (Base64.code_digit hvalue).1
    · decide
  rw [base64Decode, utf8_ofList hplain, base64DecodeLoop_encode, List.nil_append]


end Barnabas.Client
