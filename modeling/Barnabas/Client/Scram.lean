import Barnabas.Client.Sasl

/-!
SCRAM against a server that follows the standard.

What the client derives from the password is what the standard derives, a message that is
put together of entries comes apart into them, and a message of the client is one of these.
So a server with the keys of the password reads in the client's messages what the client
put there, undoes the proof, and signs what the client signed. In the other direction, the
client accepts no last message but one that carries this signature.
-/

namespace Barnabas.Client

open Barnabas.Lib Barnabas.Core Barnabas.Lib.Text

variable (P : Primitives)

/-! ### The derivations agree with the standard -/

theorem xorInto_eq {outs bytes : Bytes} (h : outs.length = bytes.length) :
    xorInto outs bytes = Scram.xor outs bytes := by
  induction outs generalizing bytes with
  | nil => rfl
  | cons out outs ih =>
      cases bytes with
      | nil => cases h
      | cons byte bytes =>
          rw [xorInto, ih (Nat.succ.inj h)]
          rfl

/-- From the `i`th value on, the loop lays the ones that follow over what it has. -/
theorem hiLoop_eq (mechanism : SaslMechanism) (password salt : Bytes) (n i : ℕ) {salted : Bytes}
    (hsize : salted.length = (P.of mechanism).size) :
    hiLoop P mechanism password n salted ((P.of mechanism).link password salt i) =
      (List.range' (i + 1) n).foldl
        (fun salted i => Scram.xor salted ((P.of mechanism).link password salt i)) salted := by
  induction n generalizing i salted with
  | zero => rfl
  | succ n ih =>
      have hlength : salted.length = ((P.of mechanism).link password salt (i + 1)).length :=
        hsize.trans ((P.of mechanism).mac_length _ _).symm
      have hnext : hmac P mechanism password ((P.of mechanism).link password salt i) =
          (P.of mechanism).link password salt (i + 1) := rfl
      rw [hiLoop, hnext, xorInto_eq hlength, ih (i + 1) ((Scram.length_xor hlength).trans hsize)]
      rfl

theorem hi_eq (mechanism : SaslMechanism) (password salt : Bytes) (iterations : ℕ) :
    hi P mechanism password salt iterations = (P.of mechanism).hi password salt iterations := by
  have hfirst : hmac P mechanism password (salt ++ [0, 0, 0, 1]) =
      (P.of mechanism).link password salt 0 := rfl
  rw [hi, hfirst]
  exact hiLoop_eq P mechanism password salt (iterations - 1) 0 ((P.of mechanism).mac_length _ _)

theorem saslprep_eq (username : String) :
    saslprep username = String.ofList (Scram.escape username.toList) := by
  simp only [saslprep, replace, String.toList_ofList]
  congr 1
  induction username.toList with
  | nil => rfl
  | cons c rest ih =>
      have hescape : Scram.escape (c :: rest) =
          (if c = '=' then ['=', '3', 'D'] else if c = ',' then ['=', '2', 'C'] else [c]) ++
            Scram.escape rest := List.flatMap_cons
      rw [List.flatMap_cons, List.flatMap_append, ih, hescape]
      congr 1
      by_cases heq : c = '='
      · rw [heq]
        rfl
      · rw [if_neg heq, if_neg heq, List.flatMap_singleton]
        rfl

/-! ### Messages and their attributes -/

/-- The attribute of a message, as it is written. -/
def entry (key : Char) (value : String) : String := String.ofList [key, '='] ++ value

theorem stripPrefix_entry (key : Char) (value : String) :
    stripPrefix (entry key value) (String.ofList [key, '=']) = some value :=
  stripPrefix_append _ _

theorem stripPrefix_other {key key' : Char} (h : key ≠ key') (value : String) :
    stripPrefix (entry key value) (String.ofList [key', '=']) = none := by
  rw [stripPrefix, entry, String.toList_append, String.toList_ofList, String.toList_ofList]
  simp [List.dropPrefix?, h]

theorem field_join {pieces : List String} (hcomma : ∀ piece ∈ pieces, ',' ∉ piece.toList)
    (hne : pieces ≠ []) (key : Char) :
    field (join ',' pieces) key =
      pieces.findSome? fun part => stripPrefix part (String.ofList [key, '=']) := by
  rw [field, split_join hcomma hne]

/-- A value without the separator makes an entry without it. -/
theorem comma_not_mem_entry {key : Char} {value : String} (hkey : key ≠ ',')
    (hvalue : ',' ∉ value.toList) : ',' ∉ (entry key value).toList := by
  rw [entry, String.toList_append, String.toList_ofList]
  simp [Ne.symm hkey, hvalue]

theorem comma_not_mem_encode (bytes : Bytes) : ',' ∉ (String.ofList (Base64.encode bytes)).toList := by
  rw [String.toList_ofList]
  intro h
  have hne : ∀ c ∈ Base64.encode bytes, c ≠ ',' := by
    apply Base64.forall_mem_encode
    · exact fun value hvalue hcomma => (Base64.code_digit hvalue).2.1 (congrArg Char.toNat hcomma)
    · decide
  exact hne _ h rfl

theorem comma_not_mem_repr (n : ℕ) : ',' ∉ n.repr.toList := by
  intro h
  rw [Nat.toList_repr] at h
  have hdigit : Char.isDigit ',' = true := Nat.isDigit_of_mem_toDigits (by decide) (by decide) h
  exact absurd hdigit (by decide)

namespace ScramExchange

/-- The message that starts an exchange, in its pieces. -/
theorem start_message (credentials : Credentials) (nonce : String) :
    (start credentials nonce).2 = utf8 (join ',' ["n", "", entry 'n'
      (String.ofList (Scram.escape credentials.username.toList)), entry 'r' nonce]) := by
  rw [start, saslprep_eq]
  apply congrArg utf8
  apply String.toList_inj.mp
  simp [join, entry, List.intercalate]

/-- The server-first message of an account, in its pieces. -/
def serverFirstText (account : Scram.Account) (nonce : String) : String :=
  join ',' [entry 'r' nonce, entry 's' (String.ofList (Base64.encode account.salt)),
    entry 'i' account.iterations.repr]

/-- The server reads what the client wrote. -/
theorem first_start (credentials : Credentials) (account : Scram.Account)
    (haccount : account.username = credentials.username) {nonce : String} (extension : String)
    (hnonce : ',' ∉ nonce.toList) :
    account.first extension (start credentials nonce).2 =
      some (⟨"n,,", (start credentials nonce).1.clientFirstBare,
        serverFirstText account (nonce ++ extension), nonce ++ extension⟩,
        utf8 (serverFirstText account (nonce ++ extension))) := by
  have hpieces : ∀ piece ∈ ["n", "", entry 'n'
      (String.ofList (Scram.escape credentials.username.toList)), entry 'r' nonce],
      ',' ∉ piece.toList := by
    simp only [List.forall_mem_cons]
    refine ⟨by decide, by decide, comma_not_mem_entry (by decide) ?_,
      comma_not_mem_entry (by decide) hnonce, List.forall_mem_nil _⟩
    rw [String.toList_ofList]
    exact Scram.comma_not_mem_escape _
  rw [start_message, Scram.Account.first, fromUtf8_utf8]
  simp only [Option.bind_eq_bind, Option.bind_some]
  rw [split_join hpieces (by simp)]
  have hname : stripPrefix (entry 'n' (String.ofList (Scram.escape credentials.username.toList))) "n=" =
      some (String.ofList (Scram.escape credentials.username.toList)) := stripPrefix_entry 'n' _
  have hecho : stripPrefix (entry 'r' nonce) "r=" = some nonce := stripPrefix_entry 'r' _
  have hbare : join ',' [entry 'n' (String.ofList (Scram.escape credentials.username.toList)),
      entry 'r' nonce] = (start credentials nonce).1.clientFirstBare := by
    rw [start, saslprep_eq]
    apply String.toList_inj.mp
    simp [join, entry, List.intercalate]
  simp only [hname, hecho, Option.bind_some, String.toList_ofList, Scram.unescape_escape,
    String.ofList_toList, haccount, ne_eq, not_true_eq_false, or_self, false_and, if_false, hbare]
  rfl

/-! ### What the client reads, and what it answers -/

/-- A server-first message that can be answered, and what is read from it. -/
structure Reads (exchange : ScramExchange) (serverFirst : Bytes) (text nonce : String) (salt : Bytes)
    (iterations : ℕ) : Prop where
  is_text : fromUtf8 serverFirst = some text
  has_nonce : field text 'r' = some nonce
  has_salt : (field text 's').bind base64Decode = some salt
  has_iterations : (field text 'i').bind parseU32 = some iterations
  extends_ours : exchange.clientNonce.toList.isPrefixOf nonce.toList = true

/-- The text the client signs. -/
def authMessage (exchange : ScramExchange) (text nonce : String) : Bytes :=
  utf8 (exchange.clientFirstBare ++ "," ++ text ++ "," ++ ("c=biws,r=" ++ nonce))

/-- The salted password of the client. -/
def salted (exchange : ScramExchange) (salt : Bytes) (iterations : ℕ) : Bytes :=
  (P.of exchange.mechanism).hi (utf8 exchange.password) salt iterations

/-- The proof the client gives of knowing the password. -/
def proof (exchange : ScramExchange) (text nonce : String) (salt : Bytes) (iterations : ℕ) : Bytes :=
  let clientKey := (P.of exchange.mechanism).clientKey (salted P exchange salt iterations)
  Scram.xor clientKey ((P.of exchange.mechanism).mac ((P.of exchange.mechanism).digest clientKey)
    (authMessage exchange text nonce))

/-- The signature the client expects of the server. -/
def signature (exchange : ScramExchange) (text nonce : String) (salt : Bytes) (iterations : ℕ) : Bytes :=
  (P.of exchange.mechanism).mac ((P.of exchange.mechanism).serverKey (salted P exchange salt iterations))
    (authMessage exchange text nonce)

theorem expect_some {text : String} {value : α} (exchange : ScramExchange) :
    expect text (some value) exchange = (.ok value, exchange) := rfl

theorem clientFinal_of_reads {exchange : ScramExchange} {serverFirst : Bytes} {text nonce : String}
    {salt : Bytes} {iterations : ℕ} (h : Reads exchange serverFirst text nonce salt iterations) :
    clientFinal P serverFirst exchange =
      (.ok (utf8 ("c=biws,r=" ++ nonce ++ ",p=" ++
          String.ofList (Base64.encode (proof P exchange text nonce salt iterations)))),
        { exchange with serverSignature := signature P exchange text nonce salt iterations }) := by
  obtain ⟨htext, hnonce, hsalt, hiterations, hextends⟩ := h
  obtain ⟨saltB64, hsaltField, hdecode⟩ := Option.bind_eq_some_iff.mp hsalt
  obtain ⟨count, hcountField, hparse⟩ := Option.bind_eq_some_iff.mp hiterations
  rw [clientFinal, htext, Act.bind_of_ok (expect_some exchange), hnonce,
    Act.bind_of_ok (expect_some exchange), hsaltField, Act.bind_of_ok (expect_some exchange),
    hcountField, Act.bind_of_ok (expect_some exchange), hparse,
    Act.bind_of_ok (expect_some exchange), Act.bind_of_ok (Act.get_apply exchange), hextends, hdecode]
  simp only [hi_eq, base64Encode_eq]
  rfl

theorem reads_of_clientFinal {exchange : ScramExchange} {serverFirst bytes : Bytes}
    (h : (clientFinal P serverFirst exchange).1 = .ok bytes) :
    ∃ text nonce salt iterations, Reads exchange serverFirst text nonce salt iterations := by
  rw [clientFinal] at h
  rcases htext : fromUtf8 serverFirst with _ | text
  · rw [htext] at h
    cases h
  rw [htext, Act.bind_of_ok (expect_some exchange)] at h
  rcases hnonce : field text 'r' with _ | nonce
  · rw [hnonce] at h
    cases h
  rw [hnonce, Act.bind_of_ok (expect_some exchange)] at h
  rcases hsaltField : field text 's' with _ | saltB64
  · rw [hsaltField] at h
    cases h
  rw [hsaltField, Act.bind_of_ok (expect_some exchange)] at h
  rcases hcountField : field text 'i' with _ | count
  · rw [hcountField] at h
    cases h
  rw [hcountField, Act.bind_of_ok (expect_some exchange)] at h
  rcases hparse : parseU32 count with _ | iterations
  · rw [hparse] at h
    cases h
  rw [hparse, Act.bind_of_ok (expect_some exchange), Act.bind_of_ok (Act.get_apply exchange)] at h
  rcases hextends : exchange.clientNonce.toList.isPrefixOf nonce.toList with _ | _
  · rw [hextends] at h
    cases h
  rcases hdecode : base64Decode saltB64 with _ | salt
  · rw [hextends, hdecode] at h
    cases h
  exact ⟨text, nonce, salt, iterations, htext, hnonce, by rw [hsaltField]; exact hdecode,
    by rw [hcountField]; exact hparse, hextends⟩

theorem verify_ok_iff {exchange : ScramExchange} {message : Bytes} :
    verify P exchange message = .ok () ↔ ∃ text, fromUtf8 message = some text ∧
      field text 'e' = none ∧
      field text 'v' = some (String.ofList (Base64.encode exchange.serverSignature)) := by
  rw [← base64Encode_eq, verify]
  constructor
  · intro h
    rcases htext : fromUtf8 message with _ | text
    · rw [htext] at h
      cases h
    · rw [htext] at h
      dsimp only at h
      rcases herror : field text 'e' with _ | err
      · rw [herror] at h
        dsimp only at h
        rcases hverifier : field text 'v' with _ | verifier
        · rw [hverifier] at h
          cases h
        · rw [hverifier] at h
          dsimp only at h
          by_cases hequal : verifier = base64Encode exchange.serverSignature
          · exact ⟨text, rfl, herror, hequal ▸ hverifier⟩
          · rw [if_neg hequal] at h
            cases h
      · rw [herror] at h
        cases h
  · rintro ⟨text, htext, herror, hverifier⟩
    rw [htext]
    dsimp only
    rw [herror, hverifier]
    exact if_pos rfl

/-! ### Both sides together -/

/-- The client reads what the server wrote. -/
theorem reads_serverFirst (exchange : ScramExchange) (account : Scram.Account) {extension : String}
    (hnonce : ',' ∉ exchange.clientNonce.toList) (hextension : ',' ∉ extension.toList)
    (hiterations : account.iterations < 2 ^ 32) :
    Reads exchange (utf8 (serverFirstText account (exchange.clientNonce ++ extension)))
      (serverFirstText account (exchange.clientNonce ++ extension)) (exchange.clientNonce ++ extension)
      account.salt account.iterations := by
  have hpieces : ∀ piece ∈ [entry 'r' (exchange.clientNonce ++ extension),
      entry 's' (String.ofList (Base64.encode account.salt)), entry 'i' account.iterations.repr],
      ',' ∉ piece.toList := by
    simp only [List.forall_mem_cons]
    refine ⟨comma_not_mem_entry (by decide) ?_, comma_not_mem_entry (by decide) (comma_not_mem_encode _),
      comma_not_mem_entry (by decide) (comma_not_mem_repr _), List.forall_mem_nil _⟩
    rw [String.toList_append, List.mem_append, not_or]
    exact ⟨hnonce, hextension⟩
  have hfield := field_join hpieces (by simp)
  exact {
    is_text := fromUtf8_utf8 _
    has_nonce := by
      rw [serverFirstText, hfield, List.findSome?_cons, stripPrefix_entry]
    has_salt := by
      rw [serverFirstText, hfield, List.findSome?_cons, stripPrefix_other (by decide),
        List.findSome?_cons, stripPrefix_entry]
      exact base64Decode_encode account.salt
    has_iterations := by
      rw [serverFirstText, hfield, List.findSome?_cons, stripPrefix_other (by decide),
        List.findSome?_cons, stripPrefix_other (by decide), List.findSome?_cons, stripPrefix_entry]
      exact (parseU32_repr account.iterations).trans (if_pos hiterations)
    extends_ours := by
      rw [String.toList_append, List.isPrefixOf_iff_prefix]
      exact List.prefix_append _ _ }

/-- The server accepts a proof made from the same salted password. -/
theorem final_accepts (exchange : ScramExchange) {session : Scram.Session} {username text nonce : String}
    {salt : Bytes} {iterations : ℕ} (hheader : session.header = "n,,")
    (hbare : session.clientFirstBare = exchange.clientFirstBare) (htext : session.serverFirst = text)
    (hnonce : session.nonce = nonce) (hcomma : ',' ∉ nonce.toList) :
    (Scram.Account.enrol (P.of exchange.mechanism) username (utf8 exchange.password) salt iterations).final
        (P.of exchange.mechanism) session (utf8 ("c=biws,r=" ++ nonce ++ ",p=" ++
          String.ofList (Base64.encode (proof P exchange text nonce salt iterations)))) =
      some (utf8 ("v=" ++ String.ofList (Base64.encode
        (signature P exchange text nonce salt iterations)))) := by
  have hmessage : "c=biws,r=" ++ nonce ++ ",p=" ++
      String.ofList (Base64.encode (proof P exchange text nonce salt iterations)) =
      join ',' [entry 'c' "biws", entry 'r' nonce,
        entry 'p' (String.ofList (Base64.encode (proof P exchange text nonce salt iterations)))] := by
    apply String.toList_inj.mp
    simp [join, entry, List.intercalate]
  have hpieces : ∀ piece ∈ [entry 'c' "biws", entry 'r' nonce,
      entry 'p' (String.ofList (Base64.encode (proof P exchange text nonce salt iterations)))],
      ',' ∉ piece.toList := by
    simp only [List.forall_mem_cons]
    exact ⟨comma_not_mem_entry (by decide) (by decide), comma_not_mem_entry (by decide) hcomma,
      comma_not_mem_entry (by decide) (comma_not_mem_encode _), List.forall_mem_nil _⟩
  have hchannel : stripPrefix (entry 'c' "biws") "c=" = some "biws" := stripPrefix_entry 'c' _
  have hecho : stripPrefix (entry 'r' nonce) "r=" = some nonce := stripPrefix_entry 'r' _
  have hproof : ∀ value, stripPrefix (entry 'p' value) "p=" = some value := stripPrefix_entry 'p'
  have hbinding : Base64.decode "biws".toList = some (utf8 "n,,") := by
    decide
  have hsigned : Scram.Account.authMessage session (join ',' [entry 'c' "biws", entry 'r' nonce]) =
      authMessage exchange text nonce := by
    rw [Scram.Account.authMessage, authMessage, hbare, htext]
    apply congrArg utf8
    apply String.toList_inj.mp
    simp [join, entry, List.intercalate]
  rw [Scram.Account.final, hmessage, fromUtf8_utf8]
  simp only [Option.bind_eq_bind, Option.bind_some]
  rw [split_join hpieces (by simp)]
  simp only [hchannel, hecho, hproof, Option.bind_some, hbinding, List.getLast?_singleton,
    String.toList_ofList, Base64.decode_encode, List.dropLast_singleton, hheader, hnonce, ne_eq,
    not_true_eq_false, or_self, if_false, hsigned]
  have hclient : Scram.xor (proof P exchange text nonce salt iterations)
      ((P.of exchange.mechanism).mac ((P.of exchange.mechanism).digest
        ((P.of exchange.mechanism).clientKey (salted P exchange salt iterations)))
        (authMessage exchange text nonce)) =
      (P.of exchange.mechanism).clientKey (salted P exchange salt iterations) := by
    apply Scram.xor_xor_cancel
    rw [Scram.Hash.clientKey, Scram.Hash.mac_length, Scram.Hash.mac_length]
  exact if_neg (not_not.mpr (congrArg (P.of exchange.mechanism).digest hclient))

/-- The client accepts the signature it expects, as the server sends it. -/
theorem verify_signature {exchange : ScramExchange} :
    verify P exchange (utf8 ("v=" ++ String.ofList (Base64.encode exchange.serverSignature))) =
      .ok () := by
  have hmessage : "v=" ++ String.ofList (Base64.encode exchange.serverSignature) =
      join ',' [entry 'v' (String.ofList (Base64.encode exchange.serverSignature))] := by
    apply String.toList_inj.mp
    simp [join, entry, List.intercalate]
  have hpieces : ∀ piece ∈ [entry 'v' (String.ofList (Base64.encode exchange.serverSignature))],
      ',' ∉ piece.toList := by
    simp only [List.forall_mem_cons]
    exact ⟨comma_not_mem_entry (by decide) (comma_not_mem_encode _), List.forall_mem_nil _⟩
  have hfield := field_join hpieces (by simp)
  apply (verify_ok_iff P).mpr
  refine ⟨_, fromUtf8_utf8 _, ?_, ?_⟩
  · rw [hmessage, hfield, List.findSome?_cons, stripPrefix_other (by decide), List.findSome?_nil]
  · rw [hmessage, hfield, List.findSome?_cons, stripPrefix_entry]

end ScramExchange

open ScramExchange

/-- After a server-first message the client accepts no reply but a signed one. -/
theorem clientFinal_signed {exchange exchange' : ScramExchange} {serverFirst bytes : Bytes}
    (h : clientFinal P serverFirst exchange = (.ok bytes, exchange')) :
    ∃ text nonce salt iterations, Reads exchange serverFirst text nonce salt iterations ∧
      ∀ message, verify P exchange' message = .ok () → ∃ reply, fromUtf8 message = some reply ∧
        field reply 'e' = none ∧
        field reply 'v' =
          some (String.ofList (Base64.encode (signature P exchange text nonce salt iterations))) := by
  obtain ⟨text, nonce, salt, iterations, hreads⟩ := reads_of_clientFinal P (congrArg Prod.fst h)
  refine ⟨text, nonce, salt, iterations, hreads, fun message hverify => ?_⟩
  rw [clientFinal_of_reads P hreads] at h
  obtain rfl : { exchange with serverSignature := signature P exchange text nonce salt iterations } =
      exchange' := congrArg Prod.snd h
  exact (verify_ok_iff P).mp hverify

/-! ### The exchange of a connection -/

/-- The computations of `sasl.rs`, beside codecs of third parties. -/
def Primitives.codec (codec : Codec) : Codec :=
  { codec with
    plainMessage := plainMessage
    scramStart := fun credentials nonce => (start credentials nonce).2
    scramClientFinal := fun credentials nonce serverFirst =>
      (clientFinal P serverFirst (start credentials nonce).1).1.mapError SaslError.toString
    scramVerify := fun credentials nonce serverFirst serverFinal =>
      (verify P (clientFinal P serverFirst (start credentials nonce).1).2 serverFinal).mapError
        SaslError.toString }

/-- A peer that a SCRAM exchange ends well with answered last with the signature of the
password. -/
theorem exchange_signed {ω : Type} (T : Transport ω) {codec : Codec} (hcodec : T.codec = P.codec codec)
    {credentials : Credentials} (hscram : credentials.mechanism ≠ .plain) {l l' : Link ω}
    (h : Broker.exchange T credentials l = (.ok (), l')) :
    ∃ nonce serverFirst bytes serverFinal l₁ l₂,
      Broker.saslExchange T (start credentials nonce).2 l₁ = (.ok serverFirst, l₂) ∧
        Broker.saslExchange T bytes l₂ = (.ok serverFinal, l') ∧
        ∃ text serverNonce salt iterations reply,
          Reads (start credentials nonce).1 serverFirst text serverNonce salt iterations ∧
            fromUtf8 serverFinal = some reply ∧ field reply 'e' = none ∧
            field reply 'v' = some (String.ofList (Base64.encode
              (signature P (start credentials nonce).1 text serverNonce salt iterations))) := by
  rw [Broker.exchange_scram T hscram, hcodec] at h
  obtain ⟨nonce, l₁, -, h⟩ := Act.bind_eq_ok h
  obtain ⟨serverFirst, l₂, hfirst, h⟩ := Act.bind_eq_ok h
  dsimp only [Primitives.codec] at h
  rcases hclient : clientFinal P serverFirst (start credentials nonce).1 with ⟨e | bytes, exchange⟩
  · rw [hclient] at h
    cases h
  · rw [hclient] at h
    obtain ⟨serverFinal, l₃, hfinal, h⟩ := Act.bind_eq_ok h
    dsimp only at h
    rcases hverify : verify P exchange serverFinal with e | _
    · rw [hverify] at h
      cases h
    · rw [hverify] at h
      cases h
      obtain ⟨text, serverNonce, salt, iterations, hreads, hsigned⟩ := clientFinal_signed P hclient
      obtain ⟨reply, hreply⟩ := hsigned serverFinal hverify
      exact ⟨nonce, serverFirst, bytes, serverFinal, l₁, l₂, hfirst, hfinal, text, serverNonce, salt,
        iterations, reply, hreads, hreply⟩

/-! ### Agreement -/

/-- The exchange of this client with the server of this account goes through, on both
sides. -/
def Agree (account : Scram.Account) (extension : String) (credentials : Credentials) (nonce : String) :
    Prop :=
  ∃ session serverFirst bytes exchange serverFinal,
    account.first extension (start credentials nonce).2 = some (session, serverFirst) ∧
      clientFinal P serverFirst (start credentials nonce).1 = (.ok bytes, exchange) ∧
      account.final (P.of credentials.mechanism) session bytes = some serverFinal ∧
      verify P exchange serverFinal = .ok ()

/-- A hash that says nothing, for an example. -/
def mute : Scram.Hash where
  size := 1
  mac _ _ := [7]
  digest _ := [3]
  mac_length _ _ := rfl
  digest_length _ := rfl

def mutePrimitives : Primitives := ⟨mute, mute, fun _ => ""⟩

def alice : Credentials := ⟨.scramSha256, "alice", "secret"⟩

def aliceAccount (iterations : ℕ) : Scram.Account :=
  Scram.Account.enrol mute "alice" (utf8 "secret") [1, 2] iterations

/-- What the server answers in the end, if an exchange comes so far. -/
def lastAnswer (account : Scram.Account) (extension : String) (credentials : Credentials)
    (nonce : String) : Option Bytes :=
  match account.first extension (start credentials nonce).2 with
  | none => none
  | some (session, serverFirst) =>
      match (clientFinal P serverFirst (start credentials nonce).1).1 with
      | .error _ => none
      | .ok bytes => account.final (P.of credentials.mechanism) session bytes

theorem Agree.lastAnswer {account : Scram.Account} {extension : String} {credentials : Credentials}
    {nonce : String} (h : Agree P account extension credentials nonce) :
    (lastAnswer P account extension credentials nonce).isSome := by
  obtain ⟨session, serverFirst, bytes, exchange, serverFinal, hfirst, hclient, hfinal, -⟩ := h
  unfold Client.lastAnswer
  rw [hfirst]
  dsimp only
  rw [hclient]
  dsimp only
  rw [hfinal]
  rfl

theorem saslprep_injective : Function.Injective saslprep := by
  intro username username' h
  rw [saslprep_eq, saslprep_eq] at h
  have hescape := Scram.escape_injective (String.ofList_injective h)
  exact String.toList_inj.mp hescape

/-- The `n` field of a message. -/
def nameField (message : Bytes) : Option String := (fromUtf8 message).bind (field · 'n')

/-- The name in the first message is the escaped one, whatever the nonce. -/
theorem nameField_start (credentials : Credentials) (nonce : String) :
    nameField (ScramExchange.start credentials nonce).2 = some (saslprep credentials.username) := by
  have hname : ',' ∉ (entry 'n' (saslprep credentials.username)).toList := by
    apply comma_not_mem_entry (by decide)
    rw [saslprep_eq, String.toList_ofList]
    exact Scram.comma_not_mem_escape _
  have hmessage : (ScramExchange.start credentials nonce).2 =
      utf8 ("n" ++ String.ofList [','] ++ ("" ++ String.ofList [','] ++
        (entry 'n' (saslprep credentials.username) ++ String.ofList [','] ++ ("r=" ++ nonce)))) := by
    rw [ScramExchange.start]
    apply congrArg utf8
    apply String.toList_inj.mp
    simp [entry]
  have hflag : stripPrefix "n" (String.ofList ['n', '=']) = none := by decide
  have hempty : stripPrefix "" (String.ofList ['n', '=']) = none := by decide
  rw [hmessage, nameField, fromUtf8_utf8, Option.bind_some, field, split_append (by decide),
    split_append (by decide), split_append hname, List.findSome?_cons, hflag,
    List.findSome?_cons, hempty, List.findSome?_cons, stripPrefix_entry]

/-- Base64 is read back and has no comma in it; the escaped name has no comma and no
`=` of its own, and together with it the name is known from the client's first message. -/
theorem base64_and_escaping_reversible :
    (∀ x, base64Decode (base64Encode x) = some x ∧ ',' ∉ (base64Encode x).toList) ∧
      (∀ username, ',' ∉ (saslprep username).toList ∧ ∀ before after,
        (saslprep username).toList = before ++ '=' :: after →
          ['3', 'D'] <+: after ∨ ['2', 'C'] <+: after) ∧
      Function.Injective saslprep ∧
      (∀ credentials nonce, nameField (ScramExchange.start credentials nonce).2 =
        some (saslprep credentials.username)) ∧
      ∀ credentials credentials' nonce nonce',
        nameField (ScramExchange.start credentials nonce).2 =
          nameField (ScramExchange.start credentials' nonce').2 →
        credentials.username = credentials'.username := by
  refine ⟨?_, ?_, saslprep_injective, nameField_start, ?_⟩
  · intro x
    rw [base64Encode_eq]
    exact ⟨base64Decode_encode x, comma_not_mem_encode x⟩
  · intro username
    rw [saslprep_eq, String.toList_ofList]
    exact ⟨Scram.comma_not_mem_escape _, fun before after h => Scram.equals_escape _ h⟩
  · intro credentials credentials' nonce nonce' h
    rw [nameField_start, nameField_start, Option.some.injEq] at h
    exact saslprep_injective h

end Barnabas.Client
