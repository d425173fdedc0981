import Eggdrop.Dns.Resolver
import Eggdrop.Lib.ByteFile
import Eggdrop.Lib.Ensures
import Eggdrop.Lib.Frames

/-!
# Dot — DNS over TLS (dns.mod/res.c)

The messages of a resolver come over one connection, each behind its length, and are put together
again from reads of any sizes: the two bytes of the length first, then the message.  A length that
no message can have, an error and a connection that is gone all drop the connection, and a new one
starts with nothing put together.  A message as short as its header is passed over, as it is where the
packets come over UDP.

The socket of the connection is in the list of net.c as well, whose `sockread` reads all sockets that
have something to read.

* `reassembled_along`: what is read of the connection is put together again and processed, as long as
  `sockread` finds nothing to read.
* `processed_throughout`: so all messages are processed, if they are longer than a header and not too long.
-/

open List

namespace Eggdrop.Dns.Dot

open ByteFile Frames

abbrev Bytes := List UInt8

/-! ### The state -/

def dnsHdrSize : ℕ := 12
def dnsMaxpkt : ℕ := 4096
def dotRxbufSize : ℕ := 2 + dnsHdrSize + dnsMaxpkt
def dotReconnectDelay : ℤ := 30
def readMax : ℕ := 16384

/-- `dot_rx_phase`. -/
inductive Phase
  /-- 0: the length -/
  | length
  /-- 1: the message -/
  | payload
  deriving DecidableEq

/-- `active` is `dot_active`, which goes with a `dot_fd`.  `waiting` is what has come and waits in the
TLS layer to be read.  The code does not keep `came`, all that has come on the connection, and
`processed`, the messages of it that a request was looked up for. -/
structure State where
  active : Bool
  saValid : Bool
  reconnectSeconds : ℤ
  rxbuf : Bytes
  rxoff : ℕ
  rxneed : ℕ
  rxPhase : Phase
  waiting : Bytes
  came : Bytes
  processed : List Bytes
  deriving DecidableEq

/-- A read that is given room outside the buffer. -/
inductive Overrun
  | outside
  deriving DecidableEq

/-- `DOT_RX_RESET`. -/
def State.rxReset (s : State) : State := { s with rxoff := 0, rxneed := 2, rxPhase := .length }

/-- The connection is dropped, to be made anew after a while. -/
def State.lose (s : State) : State :=
  { s.rxReset with
    active := false
    reconnectSeconds := if s.saValid then dotReconnectDelay else s.reconnectSeconds }

/-! ### Reading -/

/-- What `opssl_read` does: it takes some bytes, `k + 1` if there are as many and there is room for
them, or has nothing to give now, or fails. -/
inductive Answer
  | got (k : ℕ)
  | again
  | error
  deriving DecidableEq

/-- The bytes that a read with room for `want` takes. -/
def taken (k want : ℕ) (waiting : Bytes) : Bytes := waiting.take (min (k + 1) want)

/-- The bytes are in the buffer. -/
def State.fill (bytes : Bytes) (s : State) : State :=
  { s with
    rxbuf := fwrite s.rxoff bytes s.rxbuf
    rxoff := s.rxoff + bytes.length
    waiting := s.waiting.drop bytes.length }

/-- The two bytes of the length. -/
def State.msglen (s : State) : ℕ := announced (s.rxbuf.getD 0 0) (s.rxbuf.getD 1 0)

/-- The message is whole: a request is looked up for it if there is more than a header. -/
def State.process (s : State) : State :=
  { s.rxReset with
    processed :=
      if dnsHdrSize < s.rxneed then s.processed ++ [s.rxbuf.take s.rxneed] else s.processed }

/-- The loop of `res_read_dns`, with what each of its reads does; there is nothing more to read at
their end. -/
def readLoop : List Answer → State → Except Overrun State
  | [], s => .ok s
  | .again :: _, s => .ok s
  | .error :: _, s => .ok s.lose
  | .got k :: answers, s =>
    if s.waiting = [] then .ok s
    else if s.rxbuf.length < s.rxoff + (s.rxneed - s.rxoff) then .error .outside
    else
      let s := s.fill (taken k (s.rxneed - s.rxoff) s.waiting)
      if s.rxoff < s.rxneed then .ok s
      else
        match s.rxPhase with
        | .length =>
          if s.msglen = 0 ∨ dnsHdrSize + dnsMaxpkt < s.msglen then .ok s.lose
          else readLoop answers { s with rxPhase := .payload, rxoff := 0, rxneed := s.msglen }
        | .payload => readLoop answers s.process

/-- `res_read_dns`, the part before UDP; `session` says that the socket and its TLS session are
there. -/
def resReadDns (session : Bool) (answers : List Answer) (s : State) : Except Overrun State :=
  if s.active then
    if session then readLoop answers s else .ok s.lose
  else .ok s

/-! ### Connections -/

/-- `res_enable_dot`; `connected` says that the address is a good one and that socket, connection and
handshake came about. -/
def resEnableDot (connected : Bool) (s : State) : State :=
  let s := { s with saValid := true }
  let s := if s.active then { s.rxReset with active := false } else s
  let s := { s with reconnectSeconds := -1 }
  if connected then { s with active := true, waiting := [], came := [], processed := [] } else s

/-- `res_disable_dot`, and what `restart_resolver` does here. -/
def resDisableDot (s : State) : State :=
  { s.rxReset with active := false, reconnectSeconds := -1, saValid := false }

/-- `res_secondly_check`. -/
def resSecondlyCheck (connected : Bool) (s : State) : State :=
  if 0 < s.reconnectSeconds then
    if s.reconnectSeconds - 1 = 0 then
      let s := { s with reconnectSeconds := -1 }
      if s.saValid && !s.active then resEnableDot connected s else s
    else { s with reconnectSeconds := s.reconnectSeconds - 1 }
  else s

/-- `sockread`, of the socket of the connection: what it takes goes to `sockgets`. -/
def sockread (k : ℕ) (s : State) : State :=
  if s.active then { s with waiting := s.waiting.drop (taken k readMax s.waiting).length } else s

inductive Event
  /-- bytes come on the connection -/
  | arrive (bytes : Bytes)
  | sockread (k : ℕ)
  | readDns (session : Bool) (answers : List Answer)
  | enable (connected : Bool)
  | disable
  | second (connected : Bool)
  deriving DecidableEq

def State.step (s : State) : Event → Except Overrun State
  | .arrive bytes =>
    .ok (if s.active then { s with waiting := s.waiting ++ bytes, came := s.came ++ bytes } else s)
  | .sockread k => .ok (Dot.sockread k s)
  | .readDns session answers => resReadDns session answers s
  | .enable connected => .ok (resEnableDot connected s)
  | .disable => .ok (resDisableDot s)
  | .second connected => .ok (resSecondlyCheck connected s)

/-- Before the first connection. -/
def start : State :=
  ⟨false, false, -1, replicate dotRxbufSize 0, 0, 2, .length, [], [], []⟩

/-! ### What is processed -/

/-- A length that a message can have. -/
def Legal (n : ℕ) : Prop := 0 < n ∧ n ≤ dnsHdrSize + dnsMaxpkt

/-- The two bytes of a length that no message can have. -/
def Refused (rest : Bytes) : Prop := ∃ hi lo, rest = [hi, lo] ∧ ¬ Legal (announced hi lo)

/-- The messages that requests are looked up for. -/
def lookedUp (ms : List Bytes) : List Bytes := ms.filter fun m => decide (dnsHdrSize < m.length)

/-- What was read of the connection is messages and a rest, and those with more than a header were
processed. -/
def State.Read (s : State) (ms : List Bytes) (rest : Bytes) : Prop :=
  s.came = frames ms ++ rest ++ s.waiting ∧ (∀ m ∈ ms, Legal m.length) ∧ s.processed = lookedUp ms

/-- `sockread` finds nothing to read. -/
def State.Quiet (s : State) : Event → Prop
  | .sockread _ => s.active = true → s.waiting = []
  | _ => True

/-- The messages of the connection are processed as they came, each once; what was read after the
last one is not a message yet, or cannot become one, and then the connection is dropped.  The buffer
has room for all that is asked for. -/
structure State.Reassembled (s : State) : Prop where
  read : ∃ ms rest, s.Read ms rest ∧ (Unfinished Legal rest ∨ s.active = false ∧ Refused rest)
  all : s.active = true → s.waiting = [] → ∀ ms rest, (∀ m ∈ ms, Legal m.length) →
    Unfinished Legal rest → s.came = frames ms ++ rest → s.processed = lookedUp ms
  room : s.rxoff ≤ s.rxneed ∧ s.rxneed ≤ s.rxbuf.length
  afresh : s.active = false → s.rxoff = 0 ∧ s.rxneed = 2 ∧ s.rxPhase = .length

/-! ### One read -/

/-- What has been read of the next message, its length included. -/
def State.pending (s : State) : Bytes :=
  match s.rxPhase with
  | .length => s.rxbuf.take s.rxoff
  | .payload => be16 s.rxneed ++ s.rxbuf.take s.rxoff

/-- What is asked for in either phase. -/
def State.Wanted (s : State) : Prop :=
  match s.rxPhase with
  | .length => s.rxneed = 2
  | .payload => Legal s.rxneed

/-- A connection with what is in the buffer; it may be all that was wanted. -/
structure State.Filled (s : State) : Prop where
  active : s.active = true
  size : s.rxbuf.length = dotRxbufSize
  le : s.rxoff ≤ s.rxneed
  wanted : s.Wanted
  read : ∃ ms, s.Read ms s.pending

/-- Between two reads. -/
structure State.Reading (s : State) : Prop extends s.Filled where
  lt : s.rxoff < s.rxneed

/-- Without a connection; what is told is told of the last one. -/
structure State.Idle (s : State) : Prop where
  active : s.active = false
  size : s.rxbuf.length = dotRxbufSize
  afresh : s.rxoff = 0 ∧ s.rxneed = 2 ∧ s.rxPhase = .length
  read : ∃ ms rest, s.Read ms rest ∧ (Unfinished Legal rest ∨ Refused rest)

variable {s t : State}

theorem State.Filled.need_le (h : s.Filled) : s.rxneed ≤ dotRxbufSize := by
  have hw := h.wanted
  rw [State.Wanted] at hw
  split at hw
  · rw [hw]
    decide
  · exact hw.2.trans (by decide)

theorem State.Reading.unfinished (h : s.Reading) : Unfinished Legal s.pending := by
  have hneed := h.need_le
  have hw := h.wanted
  have hlt := h.lt
  have hlen : (s.rxbuf.take s.rxoff).length = s.rxoff := by
    rw [length_take, h.size]
    omega
  rw [State.Wanted] at hw
  rw [State.pending]
  split at hw
  · rw [hw] at hlt
    match hr : s.rxbuf.take s.rxoff, hlen with
    | [], _ => trivial
    | [_], _ => trivial
    | _ :: _ :: _, hlen =>
      rw [length_cons, length_cons] at hlen
      omega
  · show Legal (announced _ _) ∧ (s.rxbuf.take s.rxoff).length < announced _ _
    have hlt' : s.rxneed < 65536 := lt_of_le_of_lt hneed (by decide)
    rw [announced_be16 hlt', hlen]
    exact ⟨hw, hlt⟩

theorem State.Reading.lose (h : s.Reading) : s.lose.Idle := by
  obtain ⟨ms, hms⟩ := h.read
  exact ⟨rfl, h.size, ⟨rfl, rfl, rfl⟩, ms, s.pending, hms, .inl h.unfinished⟩

theorem State.Reading.fill (h : s.Reading) {k : ℕ} :
    (s.fill (taken k (s.rxneed - s.rxoff) s.waiting)).Filled := by
  obtain ⟨ms, hcame, hlegal, hproc⟩ := h.read
  have hneed := h.need_le
  have hlt := h.lt
  generalize hbs : taken k (s.rxneed - s.rxoff) s.waiting = bytes
  have hroom : s.rxoff + bytes.length ≤ s.rxneed := by
    rw [← hbs, taken, length_take]
    omega
  have hbytes : bytes = s.waiting.take bytes.length := by
    rw [← hbs, taken, length_take, take_eq_take_iff]
    omega
  have hbuf : s.rxoff ≤ s.rxbuf.length := by
    rw [h.size]
    omega
  have hpend : (s.fill bytes).pending = s.pending ++ bytes := by
    rw [State.pending, State.pending]
    show (match s.rxPhase with
      | .length => (fwrite s.rxoff bytes s.rxbuf).take (s.rxoff + bytes.length)
      | .payload => be16 s.rxneed ++
          (fwrite s.rxoff bytes s.rxbuf).take (s.rxoff + bytes.length)) = _
    rw [take_fwrite hbuf]
    split
    · rfl
    · rw [append_assoc]
  refine ⟨h.active, ?_, hroom, h.wanted, ms, ?_, hlegal, hproc⟩
  · show (fwrite s.rxoff bytes s.rxbuf).length = _
    rw [length_fwrite (by rw [h.size]; omega)]
    exact h.size
  · show s.came = frames ms ++ (s.fill bytes).pending ++ s.waiting.drop bytes.length
    rw [hpend, hcame]
    nth_rewrite 1 [← take_append_drop bytes.length s.waiting]
    rw [← hbytes]
    simp only [append_assoc]

theorem State.Filled.pending_length (h : s.Filled) (hphase : s.rxPhase = .length)
    (hfull : s.rxneed ≤ s.rxoff) :
    ∃ hi lo, s.pending = [hi, lo] ∧ s.msglen = announced hi lo := by
  have hw := h.wanted
  have hle := h.le
  rw [State.Wanted, hphase] at hw
  have hoff : s.rxoff = 2 := by
    dsimp only at hw
    omega
  have hsize : s.rxbuf.length = 4110 := h.size
  rw [State.pending, hphase, State.msglen]
  dsimp only
  rw [hoff]
  match hb : s.rxbuf, hsize with
  | hi :: lo :: buf, _ => exact ⟨hi, lo, rfl, rfl⟩

theorem State.Filled.length (h : s.Filled) (hphase : s.rxPhase = .length)
    (hfull : s.rxneed ≤ s.rxoff) (hlegal : Legal s.msglen) :
    State.Reading { s with rxPhase := .payload, rxoff := 0, rxneed := s.msglen } := by
  obtain ⟨ms, hms⟩ := h.read
  obtain ⟨hi, lo, hpend, hlen⟩ := h.pending_length hphase hfull
  refine ⟨⟨h.active, h.size, Nat.zero_le _, hlegal, ms, ?_, hms.2⟩, hlegal.1⟩
  show s.came = frames ms ++ (be16 s.msglen ++ s.rxbuf.take 0) ++ s.waiting
  rw [take_zero, append_nil, hlen, be16_announced, ← hpend]
  exact hms.1

theorem State.Filled.refuse (h : s.Filled) (hphase : s.rxPhase = .length)
    (hfull : s.rxneed ≤ s.rxoff) (hlegal : ¬ Legal s.msglen) : s.lose.Idle := by
  obtain ⟨ms, hms⟩ := h.read
  obtain ⟨hi, lo, hpend, hlen⟩ := h.pending_length hphase hfull
  rw [hlen] at hlegal
  exact ⟨rfl, h.size, ⟨rfl, rfl, rfl⟩, ms, s.pending, hms, .inr ⟨hi, lo, hpend, hlegal⟩⟩

theorem lookedUp_append (ms ms' : List Bytes) : lookedUp (ms ++ ms') = lookedUp ms ++ lookedUp ms' :=
  filter_append ..

theorem State.Filled.process (h : s.Filled) (hphase : s.rxPhase = .payload)
    (hfull : s.rxneed ≤ s.rxoff) : s.process.Reading := by
  obtain ⟨ms, hcame, hlegal, hproc⟩ := h.read
  have hw := h.wanted
  have hneed := h.need_le
  rw [State.Wanted, hphase] at hw
  have hoff : s.rxoff = s.rxneed := Nat.le_antisymm h.le hfull
  have hlen : (s.rxbuf.take s.rxneed).length = s.rxneed := by
    rw [length_take, h.size]
    omega
  have hframe : s.pending = frame (s.rxbuf.take s.rxneed) := by
    rw [State.pending, hphase, hoff, frame, hlen]
  refine ⟨⟨h.active, h.size, Nat.zero_le _, rfl, ms ++ [s.rxbuf.take s.rxneed], ?_, ?_, ?_⟩,
    Nat.zero_lt_two⟩
  · show s.came = frames (ms ++ [s.rxbuf.take s.rxneed]) ++ s.rxbuf.take 0 ++ s.waiting
    rw [take_zero, append_nil, frames_append, frames_cons, frames_nil, append_nil, ← hframe]
    exact hcame
  · intro m hm
    rcases mem_append.1 hm with hm | hm
    · exact hlegal m hm
    · rw [mem_singleton.1 hm, hlen]
      exact hw
  · show (if dnsHdrSize < s.rxneed then s.processed ++ [s.rxbuf.take s.rxneed] else s.processed) = _
    rw [lookedUp_append, ← hproc]
    by_cases hlong : dnsHdrSize < s.rxneed
    · rw [if_pos hlong, lookedUp, filter_cons_of_pos (by simpa [hlen] using hlong), filter_nil]
    · rw [if_neg hlong, lookedUp, filter_cons_of_neg (by simpa [hlen] using hlong), filter_nil,
        append_nil]

/-! ### Runs -/

/-- With a connection or without. -/
def State.Inv (s : State) : Prop := s.Reading ∨ s.Idle

theorem readLoop_inv : ∀ {answers : List Answer} {s : State}, s.Reading →
    Gives (readLoop answers s) State.Inv
  | [], _, h => .ok (.inl h)
  | .again :: _, _, h => .ok (.inl h)
  | .error :: _, _, h => .ok (.inr h.lose)
  | .got k :: answers, s, h => by
    have hneed := h.need_le
    have hlt := h.lt
    have hfill := h.fill (k := k)
    rw [readLoop]
    refine .ite (fun _ => .ok (.inl h)) fun _ => ?_
    rw [if_neg (by rw [h.size]; omega)]
    dsimp only
    generalize s.fill (taken k (s.rxneed - s.rxoff) s.waiting) = t at hfill ⊢
    refine .ite (fun hlt => .ok (.inl ⟨hfill, hlt⟩)) fun hfull => ?_
    rw [Nat.not_lt] at hfull
    split
    · next hp =>
      refine .ite (fun hbad => .ok (.inr (hfill.refuse hp hfull ?_))) fun hgood =>
        readLoop_inv (hfill.length hp hfull ?_)
      · rintro ⟨hpos, hle⟩
        omega
      · rw [not_or] at hgood
        exact ⟨by omega, by omega⟩
    · next hp => exact readLoop_inv (hfill.process hp hfull)

theorem State.Inv.size (h : s.Inv) : s.rxbuf.length = dotRxbufSize := by
  rcases h with h | h
  · exact h.size
  · exact h.size

theorem State.Inv.stopped (h : s.Inv) :
    ∃ ms rest, s.Read ms rest ∧ (Unfinished Legal rest ∨ Refused rest) := by
  rcases h with h | h
  · obtain ⟨ms, hms⟩ := h.read
    exact ⟨ms, s.pending, hms, .inl h.unfinished⟩
  · exact h.read

theorem resEnableDot_inv (connected : Bool) (h : s.Inv) : (resEnableDot connected s).Inv := by
  have hsize := h.size
  have hidle : State.Idle (if s.active then
      { ({ s with saValid := true } : State).rxReset with active := false }
      else { s with saValid := true }) := by
    by_cases ha : s.active = true
    · rw [if_pos ha]
      exact ⟨rfl, hsize, ⟨rfl, rfl, rfl⟩, h.stopped⟩
    · rw [if_neg ha]
      rcases h with h | h
      · exact absurd h.active ha
      · exact ⟨h.active, h.size, h.afresh, h.read⟩
  rw [resEnableDot]
  dsimp only
  generalize (if s.active then
      { ({ s with saValid := true } : State).rxReset with active := false }
      else { s with saValid := true }) = t at hidle ⊢
  obtain ⟨hoff, hneed, hphase⟩ := hidle.afresh
  cases connected with
  | false => exact .inr ⟨hidle.active, hidle.size, hidle.afresh, hidle.read⟩
  | true =>
    refine .inl ⟨⟨rfl, hidle.size, ?_, ?_, [], ?_, ?_, rfl⟩, ?_⟩
    · show t.rxoff ≤ t.rxneed
      omega
    · show State.Wanted _
      rw [State.Wanted]
      show (match t.rxPhase with | .length => t.rxneed = 2 | .payload => Legal t.rxneed)
      rw [hphase]
      exact hneed
    · rw [State.pending]
      show ([] : Bytes) = frames [] ++ (match t.rxPhase with
        | .length => t.rxbuf.take t.rxoff
        | .payload => be16 t.rxneed ++ t.rxbuf.take t.rxoff) ++ []
      rw [hphase, hoff]
      rfl
    · intro m hm
      exact absurd hm not_mem_nil
    · show t.rxoff < t.rxneed
      omega

theorem resDisableDot_inv (h : s.Inv) : (resDisableDot s).Inv :=
  .inr ⟨rfl, h.size, ⟨rfl, rfl, rfl⟩, h.stopped⟩

theorem State.Inv.later (h : s.Inv) (n : ℤ) : State.Inv { s with reconnectSeconds := n } := by
  rcases h with h | h
  · exact .inl ⟨⟨h.active, h.size, h.le, h.wanted, h.read⟩, h.lt⟩
  · exact .inr ⟨h.active, h.size, h.afresh, h.read⟩

theorem resSecondlyCheck_inv (connected : Bool) (h : s.Inv) :
    (resSecondlyCheck connected s).Inv := by
  rw [resSecondlyCheck]
  split
  · split
    · dsimp only
      split
      · exact resEnableDot_inv connected (h.later (-1))
      · exact h.later (-1)
    · exact h.later _
  · exact h

theorem State.Reading.arrive (h : s.Reading) (bytes : Bytes) :
    State.Reading { s with waiting := s.waiting ++ bytes, came := s.came ++ bytes } := by
  obtain ⟨ms, hcame, hms⟩ := h.read
  refine ⟨⟨h.active, h.size, h.le, h.wanted, ms, ?_, hms⟩, h.lt⟩
  show s.came ++ bytes = frames ms ++ s.pending ++ (s.waiting ++ bytes)
  rw [hcame, append_assoc]

theorem sockread_eq (h : s.active = true → s.waiting = []) (k : ℕ) : sockread k s = s := by
  rw [sockread]
  split
  · next hactive =>
    rw [h hactive, drop_nil, ← h hactive]
  · rfl

theorem State.Inv.step (h : s.Inv) {e : Event} (hquiet : s.Quiet e) : Gives (s.step e) State.Inv := by
  rcases e with bytes | k | ⟨session, answers⟩ | connected | _ | connected
  · refine .ok ?_
    rcases h with h | h
    · rw [if_pos h.active]
      exact .inl (h.arrive bytes)
    · rw [if_neg (by rw [h.active]; decide)]
      exact .inr h
  · exact .ok ((sockread_eq hquiet k).symm ▸ h)
  · show Gives (resReadDns session answers s) State.Inv
    rw [resReadDns]
    rcases h with h | h
    · rw [if_pos h.active]
      exact .ite (fun _ => readLoop_inv h) fun _ => .ok (.inr h.lose)
    · rw [if_neg (by rw [h.active]; decide)]
      exact .ok (.inr h)
  · exact .ok (resEnableDot_inv connected h)
  · exact .ok (resDisableDot_inv h)
  · exact .ok (resSecondlyCheck_inv connected h)

theorem start_inv : start.Inv :=
  .inr ⟨rfl, length_replicate .., ⟨rfl, rfl, rfl⟩, [], [], ⟨rfl, by simp, rfl⟩, .inl trivial⟩

theorem Legal.lt {n : ℕ} (h : Legal n) : n < 65536 := lt_of_le_of_lt h.2 (by decide)

theorem State.Inv.reassembled (h : s.Inv) : s.Reassembled := by
  rcases h with h | h
  · obtain ⟨ms, hms⟩ := h.read
    refine ⟨⟨ms, s.pending, hms, .inl h.unfinished⟩, fun _ hw ms' rest' hms' hrest' hcame' => ?_,
      ⟨h.le, h.size ▸ h.need_le⟩, fun ha => ?_⟩
    · have hcame := hms.1
      rw [hw, append_nil, hcame'] at hcame
      obtain ⟨rfl, -⟩ := frames_unique (fun m hm => (hms' m hm).lt) (fun m hm => (hms.2.1 m hm).lt)
        hrest' h.unfinished hcame
      exact hms.2.2
    · rw [h.active] at ha
      cases ha
  · obtain ⟨ms, rest, hms, hrest⟩ := h.read
    obtain ⟨hoff, hneed, hphase⟩ := h.afresh
    refine ⟨⟨ms, rest, hms, hrest.imp_right fun hr => ⟨h.active, hr⟩⟩, fun ha => ?_, ?_,
      fun _ => h.afresh⟩
    · rw [h.active] at ha
      cases ha
    · rw [hoff, hneed, h.size]
      decide

theorem came_readLoop : ∀ {answers : List Answer} {s t : State}, readLoop answers s = .ok t →
    t.came = s.came
  | [], _, _, h => by
    obtain rfl := Except.ok.inj h
    rfl
  | .again :: _, _, _, h => by
    obtain rfl := Except.ok.inj h
    rfl
  | .error :: _, _, _, h => by
    obtain rfl := Except.ok.inj h
    rfl
  | .got k :: answers, s, t, h => by
    rw [readLoop] at h
    dsimp only at h
    split_ifs at h
    · exact Except.ok.inj h ▸ rfl
    · exact Except.ok.inj h ▸ rfl
    · split at h
      · exact Except.ok.inj h ▸ rfl
      · exact (came_readLoop h).trans rfl
    · split at h
      · exact (came_readLoop h).trans rfl
      · exact (came_readLoop h).trans rfl

theorem came_resReadDns {session : Bool} {answers : List Answer}
    (h : resReadDns session answers s = .ok t) : t.came = s.came := by
  rw [resReadDns] at h
  split_ifs at h
  · exact came_readLoop h
  · exact Except.ok.inj h ▸ rfl
  · exact Except.ok.inj h ▸ rfl

/-- Such a run goes on without a read outside the buffer, and on every connection the messages are
processed as they came. -/
theorem reassembled_along {es : List Event} (h : Machine.Along State.step State.Quiet start es) :
    Gives (Machine.run State.step start es) State.Reassembled :=
  (Gives.run_along (fun _ _ hi hq => hi.step hq) start_inv h).mono fun _ hi => hi.reassembled

/-! ### All messages -/

/-- A length that is looked at. -/
def Carried (n : ℕ) : Prop := dnsHdrSize < n ∧ n ≤ dnsHdrSize + dnsMaxpkt

instance (n : ℕ) : Decidable (Carried n) := inferInstanceAs (Decidable (_ ∧ _))

/-- The beginning of a stream of such messages. -/
def Stream (came : Bytes) : Prop :=
  ∃ ms rest, came = frames ms ++ rest ∧ (∀ m ∈ ms, Carried m.length) ∧ Unfinished Carried rest

/-- Nothing comes but such messages, and `sockread` finds nothing to read. -/
def State.Fair (s : State) : Event → Prop
  | .arrive bytes => s.active = true → Stream (s.came ++ bytes)
  | .sockread _ => s.active = true → s.waiting = []
  | _ => True

/-- The messages of the connection are processed as they came, each once: those that have been read,
and all if nothing waits to be read.  The buffer has room for all that is asked for. -/
structure State.Right (s : State) : Prop where
  read : ∃ rest, s.came = frames s.processed ++ rest ++ s.waiting ∧ Unfinished Carried rest
  all : s.active = true → s.waiting = [] → ∀ ms rest, (∀ m ∈ ms, Carried m.length) →
    Unfinished Carried rest → s.came = frames ms ++ rest → s.processed = ms
  room : s.rxoff ≤ s.rxneed ∧ s.rxneed ≤ s.rxbuf.length

theorem Carried.legal {n : ℕ} (h : Carried n) : Legal n := ⟨Nat.zero_lt_of_lt h.1, h.2⟩

theorem lookedUp_eq {ms : List Bytes} (h : ∀ m ∈ ms, Carried m.length) : lookedUp ms = ms :=
  filter_eq_self.2 fun m hm => decide_eq_true (h m hm).1

theorem carried_announced {ms : List Bytes} {rest t : Bytes} {hi lo : UInt8}
    (hms : ∀ m ∈ ms, Carried m.length) (hrest : Unfinished Carried rest)
    (h : hi :: lo :: t = frames ms ++ rest) : Carried (announced hi lo) := by
  cases ms with
  | nil =>
    rw [frames_nil, nil_append] at h
    rw [← h] at hrest
    exact hrest.1
  | cons m ms =>
    have hm := hms m mem_cons_self
    rw [frames_cons, append_assoc, frame_append] at h
    obtain ⟨hhi, h⟩ := cons.inj h
    obtain ⟨hlo, -⟩ := cons.inj h
    rwa [hhi, hlo, announced_be16 hm.legal.lt]

theorem State.Inv.right (h : s.Inv) (hstream : Stream s.came) : s.Right := by
  obtain ⟨ms, rest, ⟨hcame, hlegal, hproc⟩, hrest⟩ := h.stopped
  obtain ⟨ms', rest', hcame', hms', hrest'⟩ := hstream
  rw [append_assoc] at hcame
  obtain ⟨ms'', rfl, hsplit⟩ := frames_prefix (fun m hm => (hlegal m hm).lt)
    (fun m hm => (hms' m hm).legal.lt) hrest' (hcame.symm.trans hcame')
  have hcarried : ∀ m ∈ ms'', Carried m.length := fun m hm => hms' m (mem_append_right ms hm)
  rw [lookedUp_eq fun m hm => hms' m (mem_append_left ms'' hm)] at hproc
  refine ⟨⟨rest, ?_, ?_⟩, fun ha hw ms rest hms hrest hcame => ?_, h.reassembled.room⟩
  · rw [hproc, append_assoc]
    exact hcame
  · match rest, hrest, hsplit with
    | [], _, _ => trivial
    | [_], _, _ => trivial
    | hi :: lo :: body, hrest, hsplit =>
      have hlen := carried_announced hcarried hrest' hsplit
      rcases hrest with hrest | ⟨_, _, hpair, hno⟩
      · exact ⟨hlen, hrest.2⟩
      · cases hpair
        exact absurd hlen.legal hno
  · have hlegal : Unfinished Legal rest := by
      match rest, hrest with
      | [], _ => trivial
      | [_], _ => trivial
      | _ :: _ :: _, hrest => exact ⟨hrest.1.legal, hrest.2⟩
    rw [h.reassembled.all ha hw ms rest (fun m hm => (hms m hm).legal) hlegal hcame, lookedUp_eq hms]

theorem stream_step {e : Event} (hstream : Stream s.came) (hfair : s.Fair e) (hstep : s.step e = .ok t) :
    Stream t.came := by
  have hnil : Stream [] := ⟨[], [], rfl, by simp, trivial⟩
  have henable (connected : Bool) {u : State} (hu : u.came = s.came) :
      Stream (resEnableDot connected u).came := by
    cases connected with
    | false =>
      rw [resEnableDot]
      dsimp only
      rw [if_neg Bool.false_ne_true]
      show Stream (if u.active then _ else _ : State).came
      split
      · exact hu.symm ▸ hstream
      · exact hu.symm ▸ hstream
    | true => exact hnil
  rcases e with bytes | k | ⟨session, answers⟩ | connected | _ | connected
  · obtain rfl := Except.ok.inj hstep
    show Stream (if s.active then _ else _ : State).came
    split
    · next ha => exact hfair ha
    · exact hstream
  · rw [← Except.ok.inj hstep, sockread_eq hfair]
    exact hstream
  · rw [came_resReadDns hstep]
    exact hstream
  · obtain rfl := Except.ok.inj hstep
    exact henable connected rfl
  · obtain rfl := Except.ok.inj hstep
    exact hstream
  · obtain rfl := Except.ok.inj hstep
    show Stream (resSecondlyCheck connected s).came
    rw [resSecondlyCheck]
    split
    · split
      · dsimp only
        split
        · exact henable connected rfl
        · exact hstream
      · exact hstream
    · exact hstream

/-- In every run of such steps every state is right, and none reads outside the buffer. -/
theorem processed_throughout {es : List Event} (h : Machine.Along State.step State.Fair start es) :
    (∃ t, Machine.run State.step start es = .ok t) ∧
      Machine.Throughout State.step State.Right start es := by
  have hquiet (s : State) (e : Event) (hfair : s.Fair e) : s.Quiet e := by
    cases e with
    | sockread k => exact hfair
    | _ => trivial
  have hstart : start.Inv ∧ Stream start.came := ⟨start_inv, [], [], rfl, by simp, trivial⟩
  have hstep (s : State) (e : Event) (t : State) (hs : s.Inv ∧ Stream s.came) (hfair : s.Fair e)
      (ht : s.step e = .ok t) : t.Inv ∧ Stream t.came := by
    obtain ⟨u, hu, hinv⟩ := hs.1.step (hquiet s e hfair)
    obtain rfl := Except.ok.inj (hu.symm.trans ht)
    exact ⟨hinv, stream_step hs.2 hfair ht⟩
  refine ⟨?_, (Machine.throughout_of_along hstep hstart h).imp fun s hs => hs.1.right hs.2⟩
  obtain ⟨t, ht, -⟩ := reassembled_along (h.imp hquiet)
  exact ⟨t, ht⟩

/-- A message in two parts, and another, read in three reads; `sockread` comes too late. -/
def splitRun : List Event :=
  [.enable true, .arrive (frame (replicate 13 7)), .readDns true [.got 0, .again],
    .readDns true [.got 0, .got 4, .again], .arrive (frame (replicate 14 8)),
    .readDns true [.got 99, .got 99, .got 99], .sockread 99]

/-- What comes in this run. -/
def splitFair (s : State) : Event → Bool
  | .arrive bytes => s.came ++ bytes == frames [replicate 13 7] ||
      s.came ++ bytes == frames [replicate 13 7, replicate 14 8]
  | .sockread _ => s.waiting.isEmpty
  | _ => true

theorem fair_splitRun : Machine.Along State.step State.Fair start splitRun := by
  have hrun : Machine.Along State.step (fun s e => splitFair s e = true) start splitRun := by
    decide +kernel
  refine hrun.imp fun s e h => ?_
  cases e with
  | arrive bytes =>
    rw [splitFair, Bool.or_eq_true, beq_iff_eq, beq_iff_eq] at h
    intro _
    rcases h with h | h
    · exact ⟨_, [], h.trans (append_nil _).symm, by decide, trivial⟩
    · exact ⟨_, [], h.trans (append_nil _).symm, by decide, trivial⟩
  | sockread k => exact fun _ => List.isEmpty_iff.1 h
  | _ => trivial

theorem processed_throughout_split :
    (∃ t, Machine.run State.step start splitRun = .ok t) ∧
      Machine.Throughout State.step State.Right start splitRun :=
  processed_throughout fair_splitRun

/-- A message comes, and `sockread` reads it. -/
def takenRun : List Event := [.enable true, .arrive (frame (replicate 13 7)), .sockread 99]

set_option maxRecDepth 20000 in
theorem takenRun_gives : Gives (Machine.run State.step start takenRun) fun t =>
    (t.active && t.waiting.isEmpty && t.came == frames [replicate 13 7] && t.processed.isEmpty) =
      true :=
  Gives.of_any (by decide +kernel)

/-- What `sockread` takes is not processed. -/
theorem taken_not_processed : ¬ ∀ (es : List Event) (t : State) (ms : List Bytes),
    Machine.run State.step start es = .ok t → t.active = true → t.waiting = [] →
      t.came = frames ms → t.processed = ms := by
  intro h
  obtain ⟨t, hrun, ht⟩ := takenRun_gives
  simp only [Bool.and_eq_true, List.isEmpty_iff, beq_iff_eq] at ht
  obtain ⟨⟨⟨hactive, hwaiting⟩, hcame⟩, hprocessed⟩ := ht
  have hall := h takenRun t _ hrun hactive hwaiting hcame
  rw [hprocessed] at hall
  cases hall

end Eggdrop.Dns.Dot
