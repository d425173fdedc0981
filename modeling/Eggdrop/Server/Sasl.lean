import Eggdrop.Base.Base64
import Eggdrop.Lib.Run

/-!
# Sasl — the SCRAM exchanges of sasl.c

The keys of an exchange are kept in globals for the next one, which uses them where the password,
the salt and the iteration count are the same.  The client key is derived when the challenge of the
server is answered, the server key only when its signature is checked.

* `scramStep1_ok`: what the state holds once a challenge has been answered.
* `scramStep2_ok`: the signature a message is taken for genuine by.
* `inv_next`: what the globals say about the exchange under way.
* `exchanges_throughout`: a server that is reported to be genuine knows the server key, in a run that
  uses no kept server key but the right one and no message or step left over from before.
* `not_right_after_abort`: after an exchange that was cut short, anyone is genuine.
-/

namespace Eggdrop.Sasl

def nul : Char := Char.ofNat 0

/-- The string that starts where `mem` does. -/
def cstr (mem : CStr) : CStr := mem.takeWhile (· ≠ nul)

/-! ### Primitives -/

inductive Algo where
  | sha1
  | sha256
  | sha512
deriving DecidableEq, Repr

def Algo.digestLen : Algo → Nat
  | .sha1 => 20
  | .sha256 => 32
  | .sha512 => 64

/-- The functions of the library; `none` is a failure, of which it says `errString`. -/
structure Crypto where
  hmac : Algo → (key data : CStr) → Option CStr
  pbkdf2 : Algo → (password salt : CStr) → (iter : Int) → Option CStr
  hash : Algo → CStr → CStr
  errString : String
  hmac_length : ∀ algo key data d, hmac algo key data = some d → d.length = algo.digestLen
  pbkdf2_length : ∀ algo password salt iter d,
    pbkdf2 algo password salt iter = some d → d.length = algo.digestLen

inductive Mechanism where
  | plain
  | ecdsaNist256pChallenge
  | external
  | scramSha1
  | scramSha256
  | scramSha512
  | ecdhX25519Challenge
deriving DecidableEq, Repr

/-- The hash of a mechanism: what is not one of the first two is taken for the third. -/
def Mechanism.algo : Mechanism → Algo
  | .scramSha1 => .sha1
  | .scramSha256 => .sha256
  | _ => .sha512

/-! ### State -/

structure State where
  step : Nat
  username : CStr
  password : CStr
  botuser : CStr
  mechanism : Mechanism
  nonce : CStr
  clientFirstMessage : CStr
  digestAlgo : Algo
  digestLen : Nat
  saltedPassword : CStr
  authMessage : CStr
  lastSaslPassword : CStr
  lastSaltB64 : CStr
  lastI : CStr
  clientKey : CStr
  clientKeyLen : Nat
  useCache : Bool
  serverKey : CStr
deriving DecidableEq, Repr

/-- The globals of a bot that has just started; `algo` is the hash whose number is 0. -/
def State.start (algo : Algo) (botuser : CStr) : State where
  step := 0
  username := []
  password := []
  botuser := botuser
  mechanism := .plain
  nonce := List.replicate 20 nul
  clientFirstMessage := []
  digestAlgo := algo
  digestLen := 0
  saltedPassword := List.replicate 64 nul
  authMessage := []
  lastSaslPassword := []
  lastSaltB64 := []
  lastI := []
  clientKey := List.replicate 64 nul
  clientKeyLen := 0
  useCache := false
  serverKey := List.replicate 64 nul

/-- `bytes` written at the start of a buffer. -/
def overwrite (buf bytes : CStr) : CStr := bytes ++ buf.drop bytes.length

/-! ### Challenges -/

/-- The words `strtok_r(mem, ",")` comes to, each with the memory that follows it; `word` is the
part of one that has been read. -/
def words : (word mem : CStr) → List (CStr × CStr)
  | word, [] => if word = [] then [] else [(word, [])]
  | word, c :: mem =>
    let here : List (CStr × CStr) := if word = [] then [] else [(word, c :: mem)]
    if c = nul then here
    else if c = ',' then here ++ words [] mem
    else words (word ++ [c]) mem

/-- The memory at `word + 2` when the word has been cut off. -/
def wordMem (w : CStr × CStr) : CStr := (w.1 ++ nul :: w.2.drop 1).drop 2

/-- The string at `word + 2` when all words have been cut off. -/
def wordValue (w : CStr × CStr) : CStr :=
  if 2 ≤ w.1.length then w.1.drop 2
  else
    match w.2 with
    -- a word of one letter: the string is the next word
    | ',' :: mem => mem.takeWhile (· = ',') ++
        (mem.dropWhile (· = ',')).takeWhile fun c => c ≠ ',' ∧ c ≠ nul
    | mem => cstr (mem.drop 1)

structure Attributes where
  serverNonce : Option CStr
  salt : Option CStr
  i : Option CStr
deriving DecidableEq, Repr

/-- One word of a challenge. -/
def scramAttribute (nonce : CStr) (attrs : Attributes) (w : CStr × CStr) : Except String Attributes :=
  match w.1.head? with
  | some 'r' =>
    if (wordMem w).take 20 ≠ nonce then .error "AUTHENTICATE: server nonce != client nonce"
    else .ok { attrs with serverNonce := some (wordValue w) }
  | some 's' => .ok { attrs with salt := some (wordValue w) }
  | some 'i' => .ok { attrs with i := some (wordValue w) }
  | some 'e' => .error ("AUTHENTICATE: server error: " ++ String.ofList (cstr (wordMem w)))
  | _ => .ok attrs

structure Challenge where
  serverNonce : CStr
  salt : CStr
  i : CStr
deriving DecidableEq, Repr

/-- The challenge in a message of the server. -/
def challenge (nonce mem : CStr) : Except String Challenge := do
  let attrs ← (words [] mem).foldlM (scramAttribute nonce) ⟨none, none, none⟩
  match attrs.serverNonce, attrs.salt, attrs.i with
  | none, _, _ => .error "AUTHENTICATE: server nonce missing from SCRAM challenge"
  | _, none, _ => .error "AUTHENTICATE: salt missing from SCRAM challenge"
  | _, _, none => .error "AUTHENTICATE: iteration count missing from SCRAM challenge"
  | some serverNonce, some salt, some i => .ok ⟨serverNonce, salt, i⟩

/-- `sasl_saslprep_check`. -/
def saslprepCheck (password : CStr) : Bool := password.all fun c => 0x20 ≤ c.toNat ∧ c.toNat ≠ 0x7f

/-- `strtol(i, nullptr, 10)` sets `errno`. -/
def strtolErrno (s : CStr) : Bool :=
  match s.dropWhile isSpace with
  | '-' :: t => 2 ^ 63 < digitsValue (t.takeWhile isDigit)
  | '+' :: t => 2 ^ 63 ≤ digitsValue (t.takeWhile isDigit)
  | t => 2 ^ 63 ≤ digitsValue (t.takeWhile isDigit)

/-- `iter`. -/
def Challenge.iter (ch : Challenge) : Int := toCInt (strtol ch.i)

/-- The client's final message without the proof. -/
def Challenge.cfmwp (ch : Challenge) : CStr := "c=biws,r=".toList ++ ch.serverNonce

/-! ### The steps of SCRAM -/

namespace State

variable (c : Crypto) (st : State)

/-- `sasl_scram_step_0`, with the 15 random bytes: the message is kept in
`client_first_message`. -/
def scramStep0 (rawNonce : CStr) : State :=
  let nonce := (b64Ntop rawNonce 21).getD st.nonce
  { st with
    nonce := nonce
    clientFirstMessage := ("n,,n=".toList ++ st.username ++ ",r=".toList ++ nonce).take 1023 }

/-- The keys of the last exchange are taken for those of this one. -/
def cacheHit (ch : Challenge) : Bool :=
  st.password = st.lastSaslPassword ∧ ch.salt = st.lastSaltB64 ∧ ch.i = st.lastI

/-- The part of `sasl_scram_step_1` that is for keys not kept. -/
def deriveKeys (ch : Challenge) : Except (String × State) State :=
  match b64Pton ch.salt 64 with
  | none => .error ("AUTHENTICATE: could not base64 decode salt", st)
  | some (saltPlain, _) =>
    if strtolErrno ch.i then
      .error ("AUTHENTICATE: strtol(" ++ String.ofList ch.i ++ "): Numerical result out of range",
        st)
    else
      let algo := st.mechanism.algo
      let st := { st with digestAlgo := algo, digestLen := algo.digestLen }
      match c.pbkdf2 algo st.password saltPlain ch.iter with
      | none => .error ("AUTHENTICATE: opssl_pbkdf2(): " ++ c.errString, st)
      | some salted =>
        let st := { st with saltedPassword := overwrite st.saltedPassword salted }
        match c.hmac algo (st.saltedPassword.take st.digestLen) "Client Key".toList with
        | none => .error ("AUTHENTICATE: opssl_hmac(): " ++ c.errString, st)
        | some key =>
          .ok { st with
            clientKey := overwrite st.clientKey key
            clientKeyLen := key.length
            lastSaslPassword := st.password
            lastSaltB64 := ch.salt.take 95
            lastI := ch.i.take 31 }

/-- The part of `sasl_scram_step_1` from the stored key on: the answer to the challenge. -/
def answerChallenge (ch : Challenge) (serverFirstMessage : CStr) :
    Except (String × State) (CStr × State) :=
  let clientKey := st.clientKey.take st.clientKeyLen
  let storedKey := (c.hash st.digestAlgo clientKey).take st.digestLen
  let st := { st with
    authMessage := (st.clientFirstMessage.drop 3 ++ ',' :: serverFirstMessage ++
      ',' :: ch.cfmwp).take 3068 }
  match c.hmac st.digestAlgo storedKey st.authMessage with
  | none => .error ("AUTHENTICATE: opssl_hmac(): " ++ c.errString, st)
  | some signature =>
    let proof := clientKey.zipWith (fun a b => Char.ofNat (a.toNat ^^^ b.toNat)) signature
    match b64Ntop proof 1024 with
    | none => .error ("AUTHENTICATE: could not base64 encode", st)
    | some proof => .ok ((ch.cfmwp ++ ",p=".toList ++ proof).take 1023, st)

/-- `sasl_scram_step_1`. -/
def scramStep1 (mem : CStr) : Except (String × State) (CStr × State) :=
  match challenge st.nonce mem with
  | .error e => .error (e, st)
  | .ok ch =>
    if ¬ saslprepCheck st.password then
      .error ("AUTHENTICATE: password contains prohibited control character " ++
        "(SASLprep RFC 4013)", st)
    else
      let st := { st with useCache := st.cacheHit ch }
      match if st.useCache then .ok st else st.deriveKeys c ch with
      | .error e => .error e
      | .ok st => st.answerChallenge c ch (cstr mem)

/-- The server key as the globals have it for `sasl_scram_step_2`. -/
def withServerKey : Except (String × State) State :=
  if st.useCache then .ok st
  else
    match c.hmac st.digestAlgo (st.saltedPassword.take st.digestLen) "Server Key".toList with
    | none => .error ("AUTHENTICATE: opssl_hmac(): " ++ c.errString, st)
    | some key => .ok { st with serverKey := overwrite st.serverKey key }

/-- `sasl_scram_step_2`; without an error the server is reported to be genuine. -/
def scramStep2 (mem : CStr) : Except (String × State) State :=
  match st.withServerKey c with
  | .error e => .error e
  | .ok st =>
    match c.hmac st.digestAlgo (st.serverKey.take st.digestLen) st.authMessage with
    | none => .error ("AUTHENTICATE: opssl_hmac(): " ++ c.errString, st)
    | some signature =>
      match b64Ntop (signature.take st.digestLen) 128 with
      | none => .error ("AUTHENTICATE: could not base64 encode", st)
      | some b64 =>
        if (mem.drop 2).take b64.length ≠ b64 then .error ("invalid server signature", st)
        else .ok st

end State

/-! ### `gotauthenticate` -/

/-- What the handlers of the mechanisms with keys of their own come to. -/
inductive KeyAnswer where
  | answer (text : CStr)
  | saslError (text : String)
  | fail
deriving DecidableEq, Repr

/-- An `AUTHENTICATE` of the server and what else its handling depends on: the stack behind the
decoded message, the random bytes, and the keys in files. -/
structure Line where
  msg : CStr
  residue : CStr
  rawNonce : CStr
  keyAnswer : KeyAnswer
deriving DecidableEq, Repr

inductive Reply where
  | silent
  | answer (b64 : CStr)
  | error (text : String)
  | serverGenuine
deriving DecidableEq, Repr

/-- `fixcolon`. -/
def fixcolon : CStr → CStr
  | ':' :: s => s
  | s => (newsplit s).1

namespace State

variable (c : Crypto) (st : State)

/-- `sasl_error`. -/
def saslError (text : String) : Reply × State := (.error text, { st with step := 0 })

/-- The end of `gotauthenticate`. -/
def sendAnswer (plain : CStr) : Reply × State :=
  match b64Ntop plain 1368 with
  | none => st.saslError "AUTHENTICATE: could not base64 encode"
  | some b64 => (.answer b64, st)

/-- The user name, which is the bot's where none is set. -/
def withUsername : State :=
  if st.mechanism ≠ .external ∧ st.username = [] then { st with username := st.botuser.take 32 }
  else st

/-- The answer to `AUTHENTICATE +`. -/
def gotPlus (line : Line) : Reply × State :=
  let st := st.withUsername
  match st.mechanism with
  | .plain => st.sendAnswer (st.username ++ nul :: st.username ++ nul :: st.password)
  | .ecdsaNist256pChallenge | .ecdhX25519Challenge =>
    st.sendAnswer (st.username ++ nul :: st.username)
  | .external => (.answer ['+'], st)
  | .scramSha1 | .scramSha256 | .scramSha512 =>
    let st := st.scramStep0 line.rawNonce
    st.sendAnswer st.clientFirstMessage

/-- The decoded message, and the buffer it is in: behind its NUL stands what the decoder has
left and then what was on the stack, up to the end of the 1024 bytes of `server_msg_plain`. -/
def serverMsgPlain (line : Line) : Option (CStr × CStr) :=
  (b64Pton (fixcolon line.msg) 1024).map fun (plain, behind) =>
    (plain, (plain ++ behind ++ line.residue).take 1024)

/-- A message that is for SCRAM. -/
def gotScram (mem : CStr) : Reply × State :=
  if st.step = 0 then
    match st.scramStep1 c mem with
    | .error (e, st) => st.saslError e
    | .ok (plain, st) => { st with step := st.step + 1 }.sendAnswer plain
  else
    match st.scramStep2 c mem with
    | .error (e, st) => st.saslError e
    | .ok st => (.serverGenuine, { st with step := 0 })

/-- What `gotauthenticate` does with a message that is not `+`. -/
def gotMessage (line : Line) : Reply × State :=
  match serverMsgPlain line with
  | none => st.saslError "AUTHENTICATE: could not base64 decode line from server"
  | some (plain, mem) =>
    if plain.length < 2 ∧ st.mechanism ≠ .ecdhX25519Challenge then
      st.saslError "AUTHENTICATE: server message too short"
    else if mem.head? = some 'e' then
      st.saslError ("AUTHENTICATE: server error: " ++ String.ofList (cstr (mem.drop 2)))
    else if st.mechanism = .ecdsaNist256pChallenge ∨ st.mechanism = .ecdhX25519Challenge then
      match line.keyAnswer with
      | .answer text => st.sendAnswer text
      | .saslError text => st.saslError text
      | .fail => (.silent, st)
    else st.gotScram c mem

/-- `gotauthenticate`. -/
def gotauthenticate (line : Line) : Reply × State :=
  if (fixcolon line.msg).head? = some '+' then st.gotPlus line else st.gotMessage c line

end State

/-! ### Sessions -/

/-- The challenge a client has answered: what it was asked, and what it had at the time. -/
structure Answered where
  password : CStr
  mechanism : Mechanism
  clientFirst : CStr
  serverFirst : CStr
  challenge : Challenge
deriving DecidableEq, Repr

/-- The exchange under way: it starts with the choice of a mechanism or with a new first message. -/
structure Exchange where
  clientFirst : Option CStr
  answered : Option Answered
deriving DecidableEq, Repr

/-- A report that the server is genuine, and the decoded message that led to it. -/
structure Report where
  exchange : Exchange
  received : CStr
deriving DecidableEq, Repr

structure Session where
  st : State
  exchange : Exchange
  reports : List Report
deriving DecidableEq, Repr

def Session.start (algo : Algo) (botuser : CStr) : Session :=
  ⟨.start algo botuser, ⟨none, none⟩, []⟩

/-- `SaltedPassword`, by the mechanism, the password and the challenge. -/
def saltedPasswordOf (c : Crypto) (mechanism : Mechanism) (password : CStr) (ch : Challenge) :
    Option CStr :=
  (b64Pton ch.salt 64).bind fun salt => c.pbkdf2 mechanism.algo password salt.1 ch.iter

/-- `ServerKey`. -/
def serverKeyOf (c : Crypto) (mechanism : Mechanism) (password : CStr) (ch : Challenge) :
    Option CStr :=
  (saltedPasswordOf c mechanism password ch).bind fun salted =>
    c.hmac mechanism.algo salted "Server Key".toList

/-- `AuthMessage`. -/
def Answered.authMessage (a : Answered) : CStr :=
  a.clientFirst.drop 3 ++ ',' :: a.serverFirst ++ ',' :: a.challenge.cfmwp

/-- `ServerSignature`, as it is sent. -/
def Answered.signature (c : Crypto) (a : Answered) : Option CStr :=
  (serverKeyOf c a.mechanism a.password a.challenge).bind fun key =>
    (c.hmac a.mechanism.algo key a.authMessage).bind fun signature => b64Ntop signature 128

/-- The message carries the signature that the exchange asks for. -/
def Report.Right (c : Crypto) (r : Report) : Prop :=
  ∃ a signature, r.exchange.answered = some a ∧ a.signature c = some signature ∧
    (r.received.drop 2).take signature.length = signature

inductive Event where
  /-- `sasl_authenticate_initial` has sent the name of the mechanism. -/
  | initial
  | authenticate (line : Line)
  /-- `sasl_error` from elsewhere: a timeout, a numeric reply, a refusal. -/
  | saslError
  | setMechanism (mechanism : Mechanism)
  | setPassword (password : CStr)
  | setUsername (username : CStr)
deriving DecidableEq, Repr

/-- The decoded message of a line that goes to SCRAM, and the buffer it is in. -/
def State.scramLine (st : State) (line : Line) : Option (CStr × CStr) :=
  if (fixcolon line.msg).head? = some '+' ∨ st.mechanism = .ecdsaNist256pChallenge ∨
      st.mechanism = .ecdhX25519Challenge then none
  else State.serverMsgPlain line

/-- The answer to a challenge, as the exchange sees it: the challenge is what the server has
sent. -/
def Exchange.answer (ex : Exchange) (st : State) (plain : CStr) : Exchange :=
  { ex with
    answered :=
      match ex.clientFirst, challenge st.nonce (plain ++ [nul]) with
      | some clientFirst, .ok ch =>
        some ⟨st.password, st.mechanism, clientFirst, cstr plain, ch⟩
      | _, _ => none }

/-- The exchange after a line and the reply to it. -/
def Exchange.after (ex : Exchange) (st : State) (line : Line) (reply : Reply) (st' : State) :
    Exchange :=
  if (fixcolon line.msg).head? = some '+' then
    match st.mechanism with
    | .scramSha1 | .scramSha256 | .scramSha512 => ⟨some st'.clientFirstMessage, none⟩
    | _ => ex
  else
    match reply, st.scramLine line with
    | .answer _, some (plain, _) => ex.answer st plain
    | _, _ => ex

/-- The reports a line adds. -/
def Exchange.report (ex : Exchange) (line : Line) : Reply → List Report
  | .serverGenuine => [⟨ex, ((State.serverMsgPlain line).map Prod.fst).getD []⟩]
  | _ => []

def Session.next (c : Crypto) (s : Session) : Event → Session
  | .initial => { s with exchange := ⟨none, none⟩ }
  | .authenticate line =>
    let r := s.st.gotauthenticate c line
    ⟨r.2, s.exchange.after s.st line r.1 r.2, s.reports ++ s.exchange.report line r.1⟩
  | .saslError => { s with st := (s.st.saslError "").2 }
  | .setMechanism mechanism => { s with st := { s.st with mechanism := mechanism } }
  | .setPassword password => { s with st := { s.st with password := password.take 120 } }
  | .setUsername username => { s with st := { s.st with username := username.take 32 } }

def step (c : Crypto) (s : Session) (e : Event) : Except Empty Session := .ok (s.next c e)

/-! ### When reports are right -/

/-- What stands in the buffer behind the message makes no difference to a challenge. -/
def ReadsAs (nonce plain mem : CStr) : Prop :=
  cstr mem = cstr plain ∧ challenge nonce mem = challenge nonce (plain ++ [nul])

/-- The server key that is kept is the one of this challenge. -/
def State.KeyKept (c : Crypto) (st : State) (ch : Challenge) : Prop :=
  st.digestAlgo = st.mechanism.algo ∧ st.digestLen = st.mechanism.algo.digestLen ∧
    serverKeyOf c st.mechanism st.password ch = some (st.serverKey.take st.digestLen)

/-- The condition on a step.  A challenge belongs to an exchange with a first message of its own,
ends in the buffer, and uses no key kept from before but the right one; a signature belongs to an
exchange whose challenge has been answered, and is there in full. -/
def Safe (c : Crypto) (s : Session) : Event → Prop
  | .authenticate line =>
    match s.st.scramLine line with
    | none => True
    | some (plain, mem) =>
      if s.st.step = 0 then
        s.exchange.clientFirst.isSome ∧ ReadsAs s.st.nonce plain mem ∧
          ∀ ch, challenge s.st.nonce mem = .ok ch → s.st.cacheHit ch = true → s.st.KeyKept c ch
      else
        s.exchange.answered.isSome ∧
          ∀ a signature, s.exchange.answered = some a → a.signature c = some signature →
            2 + signature.length ≤ plain.length
  | _ => True

/-! ### Lengths -/

section Lengths

variable {w : CStr × CStr} {word mem nonce : CStr}

theorem cstr_length_le (mem : CStr) : (cstr mem).length ≤ mem.length :=
  (List.takeWhile_sublist _).length_le

theorem words_length_le (hw : w ∈ words word mem) :
    w.1.length + w.2.length ≤ word.length + mem.length := by
  induction mem generalizing word with
  | nil =>
    unfold words at hw
    split at hw
    · cases hw
    · obtain rfl := List.mem_singleton.1 hw
      exact Nat.le_refl _
  | cons c mem ih =>
    have hhere : w ∈ (if word = [] then [] else [(word, c :: mem)]) →
        w.1.length + w.2.length ≤ word.length + (c :: mem).length := by
      intro h
      split at h
      · cases h
      · obtain rfl := List.mem_singleton.1 h
        exact Nat.le_refl _
    unfold words at hw
    dsimp only at hw
    split at hw
    · exact hhere hw
    split at hw
    · rcases List.mem_append.1 hw with h | h
      · exact hhere h
      · have := ih h
        simp only [List.length_nil, List.length_cons] at this ⊢
        omega
    · have := ih hw
      simp only [List.length_append, List.length_cons, List.length_nil] at this ⊢
      omega

theorem wordValue_length_le (w : CStr × CStr) : (wordValue w).length ≤ w.1.length + w.2.length := by
  obtain ⟨word, after⟩ := w
  unfold wordValue
  split
  · simp only [List.length_drop]
    omega
  · dsimp only
    split
    · rename_i mem _
      have htake := (List.takeWhile_sublist (p := fun c => decide (c ≠ ',' ∧ c ≠ nul))
        (l := mem.dropWhile (· = ','))).length_le
      have hsplit := congrArg List.length (List.takeWhile_append_dropWhile
        (p := fun c => decide (c = ',')) (l := mem))
      simp only [List.length_append, List.length_cons] at hsplit ⊢
      omega
    · have := cstr_length_le (after.drop 1)
      simp only [List.length_drop] at this
      omega

theorem cfmwp_length (ch : Challenge) : ch.cfmwp.length = 9 + ch.serverNonce.length := by
  have hliteral : "c=biws,r=".toList.length = 9 := by decide
  unfold Challenge.cfmwp
  rw [List.length_append]
  rw [hliteral]

theorem challenge_nonce_length_le {ch : Challenge} (h : challenge nonce mem = .ok ch) :
    ch.serverNonce.length ≤ mem.length := by
  have hfold : ∀ (ws : List (CStr × CStr)) (a b : Attributes),
      (∀ w ∈ ws, w.1.length + w.2.length ≤ mem.length) →
      (∀ v, a.serverNonce = some v → v.length ≤ mem.length) →
      ws.foldlM (scramAttribute nonce) a = .ok b →
      ∀ v, b.serverNonce = some v → v.length ≤ mem.length := by
    intro ws
    induction ws with
    | nil =>
      intro a b _ ha hab
      obtain rfl : a = b := Except.ok.inj hab
      exact ha
    | cons w ws ih =>
      intro a b hws ha hab
      rw [List.foldlM_cons] at hab
      cases hstep : scramAttribute nonce a w with
      | error e =>
        rw [hstep] at hab
        cases hab
      | ok a' =>
        rw [hstep] at hab
        refine ih a' b (fun x hx => hws x (List.mem_cons_of_mem _ hx)) ?_ hab
        have hw := Nat.le_trans (wordValue_length_le w) (hws w List.mem_cons_self)
        intro v hv
        unfold scramAttribute at hstep
        split at hstep
        · split at hstep
          · cases hstep
          · obtain rfl := Except.ok.inj hstep
            obtain rfl : wordValue w = v := Option.some.inj hv
            exact hw
        · obtain rfl := Except.ok.inj hstep
          exact ha v hv
        · obtain rfl := Except.ok.inj hstep
          exact ha v hv
        · cases hstep
        · obtain rfl := Except.ok.inj hstep
          exact ha v hv
  unfold challenge at h
  cases hattrs : (words [] mem).foldlM (scramAttribute nonce) ⟨none, none, none⟩ with
  | error e =>
    rw [hattrs] at h
    cases h
  | ok attrs =>
    rw [hattrs] at h
    have hle := hfold _ _ attrs (fun w hw => by simpa using words_length_le hw)
      (fun v hv => by cases hv) hattrs
    obtain ⟨serverNonce, salt, i⟩ := attrs
    cases serverNonce with
    | none => cases h
    | some v =>
      cases salt with
      | none => cases h
      | some salt =>
        cases i with
        | none => cases h
        | some i =>
          obtain rfl := Except.ok.inj h
          exact hle v rfl

end Lengths

/-! ### What a step does -/

/-- What the steps of SCRAM leave alone. -/
structure SameClient (st st' : State) : Prop where
  username : st'.username = st.username
  nonce : st'.nonce = st.nonce
  clientFirstMessage : st'.clientFirstMessage = st.clientFirstMessage
  step : st'.step = st.step

theorem SameClient.refl (st : State) : SameClient st st := ⟨rfl, rfl, rfl, rfl⟩

theorem take_overwrite {buf bytes : CStr} {n : Nat} (h : bytes.length = n) :
    (overwrite buf bytes).take n = bytes := by
  rw [overwrite, ← h, List.take_left]

section Steps

variable {c : Crypto} {st st' : State} {ch : Challenge} {mem plain serverFirst : CStr} {e : String}

theorem deriveKeys_error (h : st.deriveKeys c ch = .error (e, st')) : SameClient st st' := by
  unfold State.deriveKeys at h
  split at h
  · cases h
    exact .refl st
  split at h
  · cases h
    exact .refl st
  dsimp only at h
  split at h
  · cases h
    exact ⟨rfl, rfl, rfl, rfl⟩
  split at h
  · cases h
    exact ⟨rfl, rfl, rfl, rfl⟩
  · cases h

theorem deriveKeys_ok (h : st.deriveKeys c ch = .ok st') :
    SameClient st st' ∧ st'.useCache = st.useCache ∧ st'.digestAlgo = st.mechanism.algo ∧
      st'.digestLen = st.mechanism.algo.digestLen ∧
      saltedPasswordOf c st.mechanism st.password ch =
        some (st'.saltedPassword.take st'.digestLen) := by
  unfold State.deriveKeys at h
  split at h
  · cases h
  rename_i saltPlain behind hsalt
  split at h
  · cases h
  dsimp only at h
  split at h
  · cases h
  rename_i salted hsalted
  split at h
  · cases h
  obtain rfl := Except.ok.inj h
  refine ⟨⟨rfl, rfl, rfl, rfl⟩, rfl, rfl, rfl, ?_⟩
  rw [saltedPasswordOf, hsalt, Option.bind_some, hsalted,
    take_overwrite (c.pbkdf2_length _ _ _ _ _ hsalted)]

theorem answerChallenge_error (h : st.answerChallenge c ch serverFirst = .error (e, st')) :
    SameClient st st' := by
  unfold State.answerChallenge at h
  dsimp only at h
  split at h
  · cases h
    exact ⟨rfl, rfl, rfl, rfl⟩
  split at h
  · cases h
    exact ⟨rfl, rfl, rfl, rfl⟩
  · cases h

theorem answerChallenge_ok (h : st.answerChallenge c ch serverFirst = .ok (plain, st')) :
    st' = { st with
      authMessage := (st.clientFirstMessage.drop 3 ++ ',' :: serverFirst ++
        ',' :: ch.cfmwp).take 3068 } := by
  unfold State.answerChallenge at h
  dsimp only at h
  split at h
  · cases h
  split at h
  · cases h
  · exact (congrArg Prod.snd (Except.ok.inj h)).symm

theorem scramStep1_error (h : st.scramStep1 c mem = .error (e, st')) : SameClient st st' := by
  unfold State.scramStep1 at h
  split at h
  · cases h
    exact .refl st
  rename_i ch _
  split at h
  · cases h
    exact .refl st
  dsimp only at h
  split at h
  · rename_i err herr
    cases h
    split at herr
    · cases herr
    · obtain ⟨h₁, h₂, h₃, h₄⟩ := deriveKeys_error herr
      exact ⟨h₁, h₂, h₃, h₄⟩
  · rename_i st₁ hkeys
    obtain ⟨h₁, h₂, h₃, h₄⟩ := answerChallenge_error h
    split at hkeys
    · obtain rfl := Except.ok.inj hkeys
      exact ⟨h₁, h₂, h₃, h₄⟩
    · obtain ⟨⟨g₁, g₂, g₃, g₄⟩, -⟩ := deriveKeys_ok hkeys
      exact ⟨h₁.trans g₁, h₂.trans g₂, h₃.trans g₃, h₄.trans g₄⟩

theorem scramStep1_ok (h : st.scramStep1 c mem = .ok (plain, st')) :
    ∃ ch, challenge st.nonce mem = .ok ch ∧ SameClient st st' ∧
      st'.authMessage = (st.clientFirstMessage.drop 3 ++ ',' :: cstr mem ++
        ',' :: ch.cfmwp).take 3068 ∧
      st'.useCache = st.cacheHit ch ∧
      (st.cacheHit ch = true → st'.digestAlgo = st.digestAlgo ∧ st'.digestLen = st.digestLen ∧
        st'.serverKey = st.serverKey) ∧
      (st.cacheHit ch = false → st'.digestAlgo = st.mechanism.algo ∧
        st'.digestLen = st.mechanism.algo.digestLen ∧
        saltedPasswordOf c st.mechanism st.password ch =
          some (st'.saltedPassword.take st'.digestLen)) := by
  unfold State.scramStep1 at h
  split at h
  · cases h
  rename_i ch hch
  split at h
  · cases h
  dsimp only at h
  split at h
  · cases h
  rename_i st₁ hkeys
  obtain rfl := answerChallenge_ok h
  refine ⟨ch, hch, ?_⟩
  split at hkeys
  · rename_i hhit
    obtain rfl := Except.ok.inj hkeys
    refine ⟨⟨rfl, rfl, rfl, rfl⟩, rfl, rfl, fun _ => ⟨rfl, rfl, rfl⟩, fun hmiss => ?_⟩
    rw [hmiss] at hhit
    cases hhit
  · rename_i hmiss
    obtain ⟨⟨g₁, g₂, g₃, g₄⟩, hcache, halgo, hlen, hsalted⟩ := deriveKeys_ok hkeys
    refine ⟨⟨g₁, g₂, g₃, g₄⟩, ?_, hcache, fun hhit => absurd hhit hmiss, fun _ => ?_⟩
    · show List.take 3068 _ = _
      rw [g₃]
    · exact ⟨halgo, hlen, hsalted⟩

theorem withServerKey_error (h : st.withServerKey c = .error (e, st')) : st' = st := by
  unfold State.withServerKey at h
  split at h
  · cases h
  split at h
  · exact (congrArg Prod.snd (Except.error.inj h)).symm
  · cases h

theorem withServerKey_ok (h : st.withServerKey c = .ok st') :
    ∃ key, st' = { st with serverKey := key } ∧ (st.useCache = true → key = st.serverKey) ∧
      (st.useCache = false → st.digestLen = st.digestAlgo.digestLen →
        c.hmac st.digestAlgo (st.saltedPassword.take st.digestLen) "Server Key".toList =
          some (key.take st.digestLen)) := by
  unfold State.withServerKey at h
  split at h
  · rename_i hcache
    obtain rfl := Except.ok.inj h
    refine ⟨_, rfl, fun _ => rfl, fun hno => ?_⟩
    rw [hno] at hcache
    cases hcache
  · rename_i hcache
    split at h
    · cases h
    rename_i key hkey
    obtain rfl := Except.ok.inj h
    refine ⟨_, rfl, fun hyes => absurd hyes hcache, fun _ hlen => ?_⟩
    rw [hkey, take_overwrite ((c.hmac_length _ _ _ _ hkey).trans hlen.symm)]

theorem scramStep2_error (h : st.scramStep2 c mem = .error (e, st')) : SameClient st st' := by
  unfold State.scramStep2 at h
  split at h
  · rename_i err herr
    cases h
    rw [withServerKey_error herr]
    exact .refl st
  rename_i st₁ hkey
  obtain ⟨key, rfl, -⟩ := withServerKey_ok hkey
  split at h
  · cases h
    exact ⟨rfl, rfl, rfl, rfl⟩
  split at h
  · cases h
    exact ⟨rfl, rfl, rfl, rfl⟩
  split at h
  · cases h
    exact ⟨rfl, rfl, rfl, rfl⟩
  · cases h

theorem scramStep2_ok (h : st.scramStep2 c mem = .ok st') :
    ∃ key signature b64, st.withServerKey c = .ok st' ∧ st' = { st with serverKey := key } ∧
      c.hmac st.digestAlgo (key.take st.digestLen) st.authMessage = some signature ∧
      b64Ntop (signature.take st.digestLen) 128 = some b64 ∧ (mem.drop 2).take b64.length = b64 := by
  unfold State.scramStep2 at h
  split at h
  · cases h
  rename_i st₁ hkey
  obtain ⟨key, rfl, -⟩ := withServerKey_ok hkey
  split at h
  · cases h
  rename_i signature hsig
  split at h
  · cases h
  rename_i b64 hb64
  split at h
  · cases h
  rename_i heq
  obtain rfl := Except.ok.inj h
  exact ⟨key, signature, b64, hkey, rfl, hsig, hb64, not_not.1 heq⟩

end Steps

/-! ### The exchange under way -/

/-- The globals hold what is needed to check the signature of an answered challenge. -/
structure Answers (c : Crypto) (st : State) (a : Answered) : Prop where
  authMessage : st.authMessage = a.authMessage
  algo : st.digestAlgo = a.mechanism.algo
  len : st.digestLen = a.mechanism.algo.digestLen
  kept : st.useCache = true →
    serverKeyOf c a.mechanism a.password a.challenge = some (st.serverKey.take st.digestLen)
  derived : st.useCache = false →
    saltedPasswordOf c a.mechanism a.password a.challenge =
      some (st.saltedPassword.take st.digestLen)

/-- The texts of the client are short enough for the buffers they are put together in. -/
structure Fits (st : State) : Prop where
  username : st.username.length ≤ 32
  nonce : st.nonce.length ≤ 20
  clientFirst : st.clientFirstMessage.length ≤ 60

structure Inv (c : Crypto) (s : Session) : Prop where
  fits : Fits s.st
  clientFirst : ∀ m, s.exchange.clientFirst = some m → s.st.clientFirstMessage = m
  answered : ∀ a, s.exchange.answered = some a → s.st.step ≠ 0 → Answers c s.st a
  reports : ∀ r ∈ s.reports, r.Right c

theorem inv_start (c : Crypto) (algo : Algo) (botuser : CStr) :
    Inv c (.start algo botuser) where
  fits := ⟨Nat.zero_le _, Nat.le_refl _, Nat.zero_le _⟩
  clientFirst := by
    rintro m ⟨⟩
  answered := by
    rintro a ⟨⟩
  reports := by
    rintro r ⟨⟩

section Inv

variable {c : Crypto} {s : Session} {line : Line} {st' : State}

theorem Inv.aside (h : Inv c s) (hsame : SameClient s.st { st' with step := s.st.step })
    (hstep : st'.step = 0 ∨ st' = s.st) : Inv c { s with st := st' } where
  fits := ⟨hsame.username ▸ h.fits.username, hsame.nonce ▸ h.fits.nonce,
    hsame.clientFirstMessage ▸ h.fits.clientFirst⟩
  clientFirst m hm := hsame.clientFirstMessage.trans (h.clientFirst m hm)
  answered a ha hne := by
    rcases hstep with h0 | rfl
    · exact absurd h0 hne
    · exact h.answered a ha hne
  reports := h.reports

theorem answers_of_scramStep1 (h : Inv c s) {plain mem answer m : CStr} {ch : Challenge}
    (hsafe : ∀ ch, challenge s.st.nonce mem = .ok ch → s.st.cacheHit ch = true →
      s.st.KeyKept c ch)
    (hmem : mem.length ≤ 1024) (hread : ReadsAs s.st.nonce plain mem)
    (hm : s.exchange.clientFirst = some m)
    (hch : challenge s.st.nonce (plain ++ [nul]) = .ok ch)
    (hok : s.st.scramStep1 c mem = .ok (answer, st')) :
    Answers c st' ⟨s.st.password, s.st.mechanism, m, cstr plain, ch⟩ := by
  obtain ⟨ch', hch', -, hauth, hcache, hhit, hmiss⟩ := scramStep1_ok hok
  obtain rfl : ch' = ch := Except.ok.inj (hch'.symm.trans (hread.2.trans hch))
  have hkeys : st'.digestAlgo = s.st.mechanism.algo ∧
      st'.digestLen = s.st.mechanism.algo.digestLen := by
    cases hc : s.st.cacheHit ch' with
    | true =>
      obtain ⟨halgo, hlen, -⟩ := hsafe ch' hch' hc
      obtain ⟨halgo', hlen', -⟩ := hhit hc
      exact ⟨halgo'.trans halgo, hlen'.trans hlen⟩
    | false => exact ⟨(hmiss hc).1, (hmiss hc).2.1⟩
  refine ⟨?_, hkeys.1, hkeys.2, fun hyes => ?_, fun hno => ?_⟩
  · have hnonce := challenge_nonce_length_le hch'
    have htext := cstr_length_le mem
    have hfirst := h.fits.clientFirst
    rw [h.clientFirst m hm] at hauth hfirst
    rw [hread.1] at hauth htext
    rw [hauth]
    refine List.take_of_length_le ?_
    have hcfmwp := cfmwp_length ch'
    simp only [List.length_append, List.length_cons, List.length_drop]
    omega
  · rw [hcache] at hyes
    obtain ⟨-, hlen, hkey⟩ := hsafe ch' hch' hyes
    obtain ⟨-, hlen', hkey'⟩ := hhit hyes
    rw [hlen', hkey']
    exact hkey
  · rw [hcache] at hno
    exact (hmiss hno).2.2

theorem right_of_scramStep2 (h : Inv c s) {plain mem : CStr} {a : Answered}
    (ha : s.exchange.answered = some a) (hstep : s.st.step ≠ 0)
    (hlen : ∀ signature, a.signature c = some signature → 2 + signature.length ≤ plain.length)
    (hmem : ∀ n, 2 + n ≤ plain.length → (mem.drop 2).take n = (plain.drop 2).take n)
    (hok : s.st.scramStep2 c mem = .ok st') : Report.Right c ⟨s.exchange, plain⟩ := by
  obtain ⟨hauth, halgo, hdigest, hkept, hderived⟩ := h.answered a ha hstep
  obtain ⟨key, signature, b64, hkey, hst', hsig, hb64, heq⟩ := scramStep2_ok hok
  obtain ⟨key', hst'', hyes, hno⟩ := withServerKey_ok hkey
  obtain rfl : key = key' := congrArg State.serverKey (hst'.symm.trans hst'')
  have hserver : serverKeyOf c a.mechanism a.password a.challenge =
      some (key.take s.st.digestLen) := by
    cases hcache : s.st.useCache with
    | true =>
      rw [hyes hcache]
      exact hkept hcache
    | false =>
      rw [serverKeyOf, hderived hcache, Option.bind_some, ← halgo]
      exact hno hcache (hdigest.trans (congrArg _ halgo.symm))
  have hsignature : a.signature c = some b64 := by
    rw [Answered.signature, hserver, Option.bind_some, ← hauth, ← halgo, hsig, Option.bind_some,
      ← hb64]
    congr 1
    have hl : signature.length = s.st.digestLen := by
      rw [c.hmac_length _ _ _ _ hsig, hdigest, halgo]
    rw [← hl, List.take_length]
  refine ⟨a, b64, ha, hsignature, ?_⟩
  rw [← hmem _ (hlen b64 hsignature)]
  exact heq

/-- The buffer starts with the decoded message. -/
theorem serverMsgPlain_spec {plain mem : CStr}
    (h : State.serverMsgPlain line = some (plain, mem)) :
    mem.length ≤ 1024 ∧
      ∀ n, 2 + n ≤ plain.length → (mem.drop 2).take n = (plain.drop 2).take n := by
  unfold State.serverMsgPlain at h
  obtain ⟨⟨plain', behind⟩, hpton, heq⟩ := Option.map_eq_some_iff.1 h
  obtain rfl : plain' = plain := congrArg Prod.fst heq
  obtain rfl : (plain' ++ behind ++ line.residue).take 1024 = mem := congrArg Prod.snd heq
  refine ⟨List.length_take_le _ _, fun n hn => ?_⟩
  have hle := b64Pton_length_le hpton
  rw [List.drop_take, List.take_take, List.append_assoc,
    List.drop_append_of_le_length (by omega), Nat.min_eq_left (by omega),
    List.take_append_of_le_length (by rw [List.length_drop]; omega)]

/-- A line that is not for SCRAM, or that fails. -/
structure Aside (s : Session) (r : Reply × State) : Prop where
  same : SameClient s.st { r.2 with step := s.st.step }
  step : r.2.step = 0 ∨ r.2 = s.st
  reply : r.1 ≠ .serverGenuine

theorem aside_saslError (hsame : SameClient s.st { st' with step := s.st.step }) (text : String) :
    Aside s (st'.saslError text) := ⟨hsame, .inl rfl, fun h => nomatch h⟩

theorem report_eq_nil {ex : Exchange} {reply : Reply} (h : reply ≠ .serverGenuine) :
    ex.report line reply = [] := by
  cases reply with
  | serverGenuine => exact absurd rfl h
  | silent => rfl
  | answer b64 => rfl
  | error text => rfl

/-- The session after a line and its handling. -/
def Session.handled (s : Session) (line : Line) (r : Reply × State) : Session :=
  ⟨r.2, s.exchange.after s.st line r.1 r.2, s.reports ++ s.exchange.report line r.1⟩

theorem Inv.handled_aside {r : Reply × State} (h : Inv c s) (haside : Aside s r)
    (hafter : s.exchange.after s.st line r.1 r.2 = s.exchange) : Inv c (s.handled line r) := by
  unfold Session.handled
  rw [hafter, report_eq_nil haside.reply, List.append_nil]
  exact h.aside haside.same haside.step

theorem after_error {ex : Exchange} {st : State} {text : String}
    (hplus : (fixcolon line.msg).head? ≠ some '+') :
    ex.after st line (.error text) st' = ex := by
  unfold Exchange.after
  rw [if_neg hplus]

theorem inv_challenge (h : Inv c s) {plain mem : CStr}
    (hplus : (fixcolon line.msg).head? ≠ some '+')
    (hline : s.st.scramLine line = some (plain, mem)) (hmem : mem.length ≤ 1024)
    (hstep : s.st.step = 0) (hsafe : Safe c s (.authenticate line)) :
    Inv c (s.handled line (s.st.gotScram c mem)) := by
  unfold Safe at hsafe
  dsimp only at hsafe
  rw [hline] at hsafe
  dsimp only at hsafe
  rw [if_pos hstep] at hsafe
  obtain ⟨hfirst, hread, hkeys⟩ := hsafe
  unfold State.gotScram
  rw [if_pos hstep]
  cases hok : s.st.scramStep1 c mem with
  | error e =>
    obtain ⟨text, st'⟩ := e
    obtain ⟨h₁, h₂, h₃, -⟩ := scramStep1_error hok
    exact h.handled_aside (aside_saslError ⟨h₁, h₂, h₃, rfl⟩ text) (after_error hplus)
  | ok answer =>
    obtain ⟨answer, st'⟩ := answer
    obtain ⟨-, -, ⟨h₁, h₂, h₃, -⟩, -⟩ := scramStep1_ok hok
    dsimp only
    unfold State.sendAnswer
    cases b64Ntop answer 1368 with
    | none => exact h.handled_aside (aside_saslError ⟨h₁, h₂, h₃, rfl⟩ _) (after_error hplus)
    | some b64 =>
      obtain ⟨m, hm⟩ := Option.isSome_iff_exists.1 hfirst
      have hafter : s.exchange.after s.st line (.answer b64) { st' with step := st'.step + 1 } =
          s.exchange.answer s.st plain := by
        unfold Exchange.after
        rw [if_neg hplus, hline]
      unfold Session.handled
      dsimp only
      rw [hafter, report_eq_nil (by intro hr; cases hr), List.append_nil]
      refine ⟨⟨?_, ?_, ?_⟩, ?_, ?_, h.reports⟩
      · exact h₁ ▸ h.fits.username
      · exact h₂ ▸ h.fits.nonce
      · exact h₃ ▸ h.fits.clientFirst
      · exact fun m hm => h₃.trans (h.clientFirst m hm)
      · intro a ha _
        unfold Exchange.answer at ha
        rw [hm] at ha
        cases hch : challenge s.st.nonce (plain ++ [nul]) with
        | error e =>
          rw [hch] at ha
          cases ha
        | ok ch =>
          rw [hch] at ha
          obtain rfl := Option.some.inj ha
          obtain ⟨g₁, g₂, g₃, g₄, g₅⟩ := answers_of_scramStep1 h hkeys hmem hread hm hch hok
          exact ⟨g₁, g₂, g₃, g₄, g₅⟩

theorem inv_signature (h : Inv c s) {plain mem : CStr}
    (hplus : (fixcolon line.msg).head? ≠ some '+')
    (hline : s.st.scramLine line = some (plain, mem))
    (hmsg : State.serverMsgPlain line = some (plain, mem))
    (hstep : s.st.step ≠ 0) (hsafe : Safe c s (.authenticate line)) :
    Inv c (s.handled line (s.st.gotScram c mem)) := by
  unfold Safe at hsafe
  dsimp only at hsafe
  rw [hline] at hsafe
  dsimp only at hsafe
  rw [if_neg hstep] at hsafe
  obtain ⟨hanswered, hlen⟩ := hsafe
  unfold State.gotScram
  rw [if_neg hstep]
  cases hok : s.st.scramStep2 c mem with
  | error e =>
    obtain ⟨text, st'⟩ := e
    obtain ⟨h₁, h₂, h₃, -⟩ := scramStep2_error hok
    exact h.handled_aside (aside_saslError ⟨h₁, h₂, h₃, rfl⟩ text) (after_error hplus)
  | ok st' =>
    obtain ⟨a, ha⟩ := Option.isSome_iff_exists.1 hanswered
    have hright := right_of_scramStep2 h ha hstep (fun signature => hlen a signature ha)
      (serverMsgPlain_spec hmsg).2 hok
    obtain ⟨key, signature, b64, -, rfl, -⟩ := scramStep2_ok hok
    have hafter : s.exchange.after s.st line .serverGenuine
        { s.st with serverKey := key, step := 0 } = s.exchange := by
      unfold Exchange.after
      rw [if_neg hplus]
    have hreport : s.exchange.report line .serverGenuine = [⟨s.exchange, plain⟩] := by
      unfold Exchange.report
      rw [hmsg]
      rfl
    unfold Session.handled
    dsimp only
    rw [hafter, hreport]
    refine ⟨⟨h.fits.username, h.fits.nonce, h.fits.clientFirst⟩, h.clientFirst,
      fun _ _ hne => absurd rfl hne, fun r hr => ?_⟩
    rcases List.mem_append.1 hr with hr | hr
    · exact h.reports r hr
    · obtain rfl := List.mem_singleton.1 hr
      exact hright

theorem withUsername_spec (st : State) :
    ∃ username, st.withUsername = { st with username := username } ∧
      (st.username.length ≤ 32 → username.length ≤ 32) := by
  unfold State.withUsername
  split
  · exact ⟨_, rfl, fun _ => List.length_take_le _ _⟩
  · exact ⟨_, rfl, id⟩

theorem sendAnswer_spec (st : State) (plain : CStr) :
    (st.sendAnswer plain).1 ≠ .serverGenuine ∧
      ((st.sendAnswer plain).2 = st ∨ (st.sendAnswer plain).2 = { st with step := 0 }) := by
  unfold State.sendAnswer
  split
  · exact ⟨fun h => (nomatch h), .inr rfl⟩
  · exact ⟨fun h => (nomatch h), .inl rfl⟩

theorem Inv.handled_plus (h : Inv c s) {username : CStr} (hlen : username.length ≤ 32)
    {r : Reply × State} (hreply : r.1 ≠ .serverGenuine)
    (hst : r.2 = { s.st with username := username } ∨
      r.2 = { s.st with username := username, step := 0 })
    (hafter : s.exchange.after s.st line r.1 r.2 = s.exchange) : Inv c (s.handled line r) := by
  unfold Session.handled
  rw [hafter, report_eq_nil hreply, List.append_nil]
  rcases hst with hst | hst
  · rw [hst]
    refine ⟨⟨hlen, h.fits.nonce, h.fits.clientFirst⟩, h.clientFirst, fun a ha hne => ?_, h.reports⟩
    obtain ⟨g₁, g₂, g₃, g₄, g₅⟩ := h.answered a ha hne
    exact ⟨g₁, g₂, g₃, g₄, g₅⟩
  · rw [hst]
    exact ⟨⟨hlen, h.fits.nonce, h.fits.clientFirst⟩, h.clientFirst,
      fun _ _ hne => absurd rfl hne, h.reports⟩

theorem fits_scramStep0 {st : State} (h : Fits st) (rawNonce : CStr) :
    Fits (st.scramStep0 rawNonce) := by
  have hnonce : ((b64Ntop rawNonce 21).getD st.nonce).length ≤ 20 := by
    unfold b64Ntop
    dsimp only
    split
    · rw [Option.getD_some]
      omega
    · exact h.nonce
  have hhead : "n,,n=".toList.length = 5 := by decide
  have hattr : ",r=".toList.length = 3 := by decide
  refine ⟨h.username, hnonce, ?_⟩
  have husername := h.username
  unfold State.scramStep0
  dsimp only
  rw [List.length_take, List.length_append, List.length_append, List.length_append, hhead, hattr]
  omega

theorem Inv.handled_first (h : Inv c s) {r : Reply × State} (hreply : r.1 ≠ .serverGenuine)
    (hfits : Fits r.2)
    (hafter : s.exchange.after s.st line r.1 r.2 = ⟨some r.2.clientFirstMessage, none⟩) :
    Inv c (s.handled line r) := by
  unfold Session.handled
  rw [hafter, report_eq_nil hreply, List.append_nil]
  refine ⟨hfits, fun m hm => Option.some.inj hm, fun a ha => ?_, h.reports⟩
  cases ha

theorem inv_gotPlus (h : Inv c s) (hplus : (fixcolon line.msg).head? = some '+') :
    Inv c (s.handled line (s.st.gotPlus line)) := by
  obtain ⟨username, husername, hlen⟩ := withUsername_spec s.st
  have hlen := hlen h.fits.username
  have hother : ∀ (plain : CStr),
      (∀ reply st', s.exchange.after s.st line reply st' = s.exchange) →
      Inv c (s.handled line ({ s.st with username := username }.sendAnswer plain)) := by
    intro plain hafter
    obtain ⟨hreply, hst⟩ := sendAnswer_spec { s.st with username := username } plain
    exact h.handled_plus hlen hreply hst (hafter _ _)
  have hscram : ∀ (plain : CStr),
      (∀ reply st', s.exchange.after s.st line reply st' = ⟨some st'.clientFirstMessage, none⟩) →
      Inv c (s.handled line
        (({ s.st with username := username }.scramStep0 line.rawNonce).sendAnswer plain)) := by
    intro plain hafter
    have hstart : Fits { s.st with username := username } :=
      ⟨hlen, h.fits.nonce, h.fits.clientFirst⟩
    have hfits := fits_scramStep0 hstart line.rawNonce
    obtain ⟨hreply, hst⟩ := sendAnswer_spec
      ({ s.st with username := username }.scramStep0 line.rawNonce) plain
    refine h.handled_first hreply ?_ (hafter _ _)
    rcases hst with hst | hst
    · rw [hst]
      exact hfits
    · rw [hst]
      exact ⟨hfits.username, hfits.nonce, hfits.clientFirst⟩
  unfold State.gotPlus
  dsimp only
  rw [husername]
  dsimp only
  unfold Exchange.after at hother hscram
  simp only [if_pos hplus] at hother hscram
  split
  · rename_i hm
    exact hother _ fun _ _ => by rw [hm]
  · rename_i hm
    exact hother _ fun _ _ => by rw [hm]
  · rename_i hm
    exact hother _ fun _ _ => by rw [hm]
  · rename_i hm
    refine h.handled_plus hlen (fun hr => (nomatch hr)) (.inl rfl) ?_
    unfold Exchange.after
    rw [if_pos hplus, hm]
  · rename_i hm
    exact hscram _ fun _ _ => by rw [hm]
  · rename_i hm
    exact hscram _ fun _ _ => by rw [hm]
  · rename_i hm
    exact hscram _ fun _ _ => by rw [hm]

theorem inv_gotMessage (h : Inv c s) (hplus : (fixcolon line.msg).head? ≠ some '+')
    (hsafe : Safe c s (.authenticate line)) :
    Inv c (s.handled line (s.st.gotMessage c line)) := by
  have herror : ∀ text, Inv c (s.handled line (s.st.saslError text)) := fun text =>
    h.handled_aside (aside_saslError ⟨rfl, rfl, rfl, rfl⟩ text) (after_error hplus)
  unfold State.gotMessage
  cases hmsg : State.serverMsgPlain line with
  | none => exact herror _
  | some msg =>
    obtain ⟨plain, mem⟩ := msg
    dsimp only
    split
    · exact herror _
    split
    · exact herror _
    split
    · rename_i hmech
      -- a mechanism with keys of its own
      have hline : s.st.scramLine line = none := by
        unfold State.scramLine
        rw [if_pos (.inr hmech)]
      have hafter : ∀ reply st', s.exchange.after s.st line reply st' = s.exchange := by
        intro reply st'
        unfold Exchange.after
        rw [if_neg hplus, hline]
        cases reply <;> rfl
      split
      · rename_i text _
        obtain ⟨hreply, hst⟩ := sendAnswer_spec s.st text
        refine h.handled_aside ⟨?_, ?_, hreply⟩ (hafter _ _)
        · rcases hst with hst | hst <;> rw [hst] <;> exact ⟨rfl, rfl, rfl, rfl⟩
        · exact hst.elim .inr fun hst => .inl (by rw [hst])
      · exact herror _
      · exact h.handled_aside ⟨⟨rfl, rfl, rfl, rfl⟩, .inr rfl, fun hr => (nomatch hr)⟩ (hafter _ _)
    · rename_i hmech
      have hline : s.st.scramLine line = some (plain, mem) := by
        unfold State.scramLine
        rw [if_neg (fun h => h.elim hplus hmech), hmsg]
      by_cases hstep : s.st.step = 0
      · exact inv_challenge h hplus hline (serverMsgPlain_spec hmsg).1 hstep hsafe
      · exact inv_signature h hplus hline hmsg hstep hsafe

end Inv

/-! ### Runs -/

theorem inv_next {c : Crypto} {s : Session} {e : Event} (h : Inv c s) (hsafe : Safe c s e) :
    Inv c (s.next c e) := by
  cases e with
  | initial => exact ⟨h.fits, fun _ hm => (nomatch hm), fun _ ha => (nomatch ha), h.reports⟩
  | authenticate line =>
    show Inv c (s.handled line (s.st.gotauthenticate c line))
    unfold State.gotauthenticate
    split
    · rename_i hplus
      exact inv_gotPlus h hplus
    · rename_i hplus
      exact inv_gotMessage h hplus hsafe
  | saslError =>
    exact ⟨⟨h.fits.username, h.fits.nonce, h.fits.clientFirst⟩, h.clientFirst,
      fun _ _ hne => absurd rfl hne, h.reports⟩
  | setMechanism mechanism =>
    refine ⟨⟨h.fits.username, h.fits.nonce, h.fits.clientFirst⟩, h.clientFirst, fun a ha hne => ?_,
      h.reports⟩
    obtain ⟨g₁, g₂, g₃, g₄, g₅⟩ := h.answered a ha hne
    exact ⟨g₁, g₂, g₃, g₄, g₅⟩
  | setPassword password =>
    refine ⟨⟨h.fits.username, h.fits.nonce, h.fits.clientFirst⟩, h.clientFirst, fun a ha hne => ?_,
      h.reports⟩
    obtain ⟨g₁, g₂, g₃, g₄, g₅⟩ := h.answered a ha hne
    exact ⟨g₁, g₂, g₃, g₄, g₅⟩
  | setUsername username =>
    refine ⟨⟨List.length_take_le _ _, h.fits.nonce, h.fits.clientFirst⟩, h.clientFirst,
      fun a ha hne => ?_, h.reports⟩
    obtain ⟨g₁, g₂, g₃, g₄, g₅⟩ := h.answered a ha hne
    exact ⟨g₁, g₂, g₃, g₄, g₅⟩

/-- In a run whose steps all meet the condition, every server reported to be genuine has sent the
signature of its exchange. -/
theorem exchanges_throughout (c : Crypto) (algo : Algo) (botuser : CStr) (es : List Event)
    (h : Machine.Along (step c) (Safe c) (.start algo botuser) es) :
    Machine.Throughout (step c) (fun s => ∀ r ∈ s.reports, r.Right c) (.start algo botuser) es := by
  refine Machine.Throughout.imp (fun s (hs : Inv c s) => hs.reports) ?_
  refine Machine.throughout_of_along ?_ (inv_start c algo botuser) h
  intro s e s' hinv hsafe hstep
  obtain rfl : s.next c e = s' := by simpa [step] using hstep
  exact inv_next hinv hsafe

/-! ### Two exchanges -/

def bytes (values : List Nat) : CStr := values.map Char.ofNat

def saltedPassword : CStr :=
  bytes [246, 67, 24, 198, 91, 222, 206, 176, 81, 93, 93, 201, 253, 49, 45, 91, 163, 249, 141, 59]

def clientKey : CStr :=
  bytes [52, 111, 241, 20, 50, 144, 102, 120, 88, 231, 45, 27, 68, 84, 245, 158, 177, 38, 200, 20]

def storedKey : CStr :=
  bytes [70, 1, 42, 207, 50, 139, 41, 87, 139, 3, 177, 175, 19, 7, 48, 173, 56, 140, 189, 128]

def serverKey : CStr :=
  bytes [4, 98, 119, 145, 161, 219, 225, 59, 28, 106, 205, 38, 142, 21, 201, 28, 95, 154, 195, 251]

/-- `AuthMessage` of an exchange with a nonce of the client, which the server adds an `X` to. -/
def authMessageOf (nonce : String) : CStr :=
  ("n=bot,r=" ++ nonce ++ ",r=" ++ nonce ++ "X,s=c2FsdHNhbHQ=,i=4096,c=biws,r=" ++ nonce ++
    "X").toList

def nonceA : String := "YWFhYWFhYWFhYWFhYWFh"
def nonceB : String := "YmJiYmJiYmJiYmJiYmJi"

/-- HMAC-SHA-1 on the keys of two exchanges with the password `secret`, and their messages. -/
def hmacOf (messageA messageB key data : CStr) : Option CStr :=
  if key = saltedPassword ∧ data = "Client Key".toList then some clientKey
  else if key = saltedPassword ∧ data = "Server Key".toList then some serverKey
  else if key = storedKey ∧ data = messageA then
    some (bytes [248, 205, 220, 123, 22, 209, 36, 3, 143, 248, 196, 217, 169, 199, 134, 128, 244,
      145, 129, 45])
  else if key = storedKey ∧ data = messageB then
    some (bytes [58, 13, 142, 108, 186, 61, 241, 78, 178, 147, 95, 195, 161, 167, 153, 129, 97, 182,
      51, 235])
  else if key = serverKey ∧ data = messageA then
    some (bytes [220, 226, 206, 97, 208, 61, 113, 27, 11, 14, 136, 10, 190, 234, 90, 27, 243, 8, 90,
      234])
  else if key = serverKey ∧ data = messageB then
    some (bytes [112, 32, 125, 123, 38, 171, 65, 61, 198, 118, 212, 198, 45, 191, 51, 61, 131, 196,
      238, 54])
  else if key = List.replicate 20 nul ∧ data = messageB then
    some (bytes [122, 54, 48, 206, 62, 121, 203, 209, 98, 47, 2, 191, 35, 248, 205, 113, 51, 44,
      109, 164])
  else none

/-- The functions of the library, as far as the two exchanges call them. -/
def cryptoOf (messageA messageB : CStr) : Crypto where
  hmac algo key data :=
    if algo = .sha1 then
      (hmacOf messageA messageB key data).filter fun d => d.length = algo.digestLen
    else none
  pbkdf2 algo password salt iter :=
    if algo = .sha1 ∧ password = "secret".toList ∧ salt = "saltsalt".toList ∧ iter = 4096 then
      some saltedPassword
    else none
  hash _ key := if key = clientKey then storedKey else []
  errString := ""
  hmac_length := by
    intro algo key data d h
    split at h
    · exact of_decide_eq_true (Option.filter_eq_some_iff.1 h).2
    · cases h
  pbkdf2_length := by
    intro algo password salt iter d h
    split at h
    · rename_i hvalue
      obtain rfl := Option.some.inj h
      rw [hvalue.1]
      rfl
    · cases h

def sha1Crypto : Crypto := cryptoOf (authMessageOf nonceA) (authMessageOf nonceB)

/-- A line of the server to a bot whose stack is clean. -/
def lineOf (msg rawNonce : String) : Event :=
  .authenticate ⟨msg.toList, [nul], rawNonce.toList, .fail⟩

def configured : List Event :=
  [.setUsername "bot".toList, .setPassword "secret".toList, .setMechanism .scramSha1]

/-- The answer to `AUTHENTICATE SCRAM-SHA-1` and the challenge of an exchange. -/
def exchangeA : List Event :=
  [.initial, lineOf "+" "aaaaaaaaaaaaaaa",
    lineOf "cj1ZV0ZoWVdGaFlXRmhZV0ZoWVdGaFgscz1jMkZzZEhOaGJIUT0saT00MDk2" ""]

def exchangeB : List Event :=
  [.initial, lineOf "+" "bbbbbbbbbbbbbbb",
    lineOf "cj1ZbUppWW1KaVltSmlZbUppWW1KaVgscz1jMkZzZEhOaGJIUT0saT00MDk2" ""]

/-! Whether a step meets the condition can be tried out. -/

instance (nonce plain mem : CStr) : Decidable (ReadsAs nonce plain mem) :=
  inferInstanceAs (Decidable (_ ∧ _))

instance (c : Crypto) (st : State) (ch : Challenge) : Decidable (st.KeyKept c ch) :=
  inferInstanceAs (Decidable (_ ∧ _ ∧ _))

instance decidableSafe (c : Crypto) (s : Session) : ∀ e, Decidable (Safe c s e)
  | .authenticate line =>
    match h : s.st.scramLine line with
    | none => isTrue (by unfold Safe; dsimp only; rw [h]; trivial)
    | some (plain, mem) =>
      decidable_of_iff
        (if s.st.step = 0 then
          s.exchange.clientFirst.isSome = true ∧ ReadsAs s.st.nonce plain mem ∧
            ∀ ch, challenge s.st.nonce mem = .ok ch → s.st.cacheHit ch = true → s.st.KeyKept c ch
        else
          s.exchange.answered.isSome = true ∧
            ∀ a, s.exchange.answered = some a → ∀ signature, a.signature c = some signature →
              2 + signature.length ≤ plain.length)
        (by
          unfold Safe
          dsimp only
          rw [h]
          dsimp only
          split
          · exact Iff.rfl
          · exact and_congr_right' ⟨fun h a signature ha => h a ha signature,
              fun h a ha signature => h a signature ha⟩)
  | .initial => isTrue trivial
  | .saslError => isTrue trivial
  | .setMechanism _ => isTrue trivial
  | .setPassword _ => isTrue trivial
  | .setUsername _ => isTrue trivial

instance (c : Crypto) (r : Report) : Decidable (r.Right c) :=
  decidable_of_iff
    (((r.exchange.answered.bind fun a => a.signature c).map fun signature =>
      decide ((r.received.drop 2).take signature.length = signature)) = some true)
    (by
      simp only [Option.map_eq_some_iff, Option.bind_eq_some_iff, decide_eq_true_eq]
      exact ⟨fun ⟨signature, ⟨a, ha, hs⟩, h⟩ => ⟨a, signature, ha, hs, h⟩,
        fun ⟨a, signature, ha, hs, h⟩ => ⟨signature, ⟨a, ha, hs⟩, h⟩⟩)

/-- A whole exchange meets the condition. -/
theorem right_exchange :
    Machine.Throughout (step sha1Crypto) (fun s => ∀ r ∈ s.reports, r.Right sha1Crypto)
      (.start .sha1 "bot".toList)
      (configured ++ exchangeA ++ [lineOf "dj0zT0xPWWRBOWNSc0xEb2dLdnVwYUcvTUlXdW89" ""]) := by
  refine exchanges_throughout sha1Crypto .sha1 "bot".toList _ ?_
  simp only [sha1Crypto, authMessageOf, nonceA, nonceB, String.toList_append, configured,
    exchangeA, lineOf]
  repeat rw [String.toList_ofList]
  decide +kernel

/-- An exchange that is cut short after its challenge leaves no server key behind, and the next is
believed to be with the server when it is signed with a key of zeros. -/
theorem not_right_after_abort :
    ¬ Machine.Throughout (step sha1Crypto) (fun s => ∀ r ∈ s.reports, r.Right sha1Crypto)
      (.start .sha1 "bot".toList)
      (configured ++ exchangeA ++ [.saslError] ++ exchangeB ++
        [lineOf "dj1lall3emo1NXk5RmlMd0svSS9qTmNUTXNiYVE9" ""]) := by
  intro h
  refine absurd (h.last (Machine.run_total (Session.next sha1Crypto) _ _)) ?_
  simp only [sha1Crypto, authMessageOf, nonceA, nonceB, String.toList_append, configured,
    exchangeA, exchangeB, lineOf]
  repeat rw [String.toList_ofList]
  decide +kernel

end Eggdrop.Sasl
