import Eggdrop.Lib.SwapRemove
import Eggdrop.Lib.WebSocket
import Eggdrop.Net.Tputs
import Eggdrop.Webui.Json

/-!
# Push — what is written to websockets (webui.c, net.c)

Party-line output goes through `tputs`, which frames it on a websocket.  The broadcasts to the push
clients are framed by `ws_push_broadcast` first and by `tputs` once more, and the second framing
reads the first one's output from the buffer that it writes to.

* `good_tputs_iff`, `good_broadcast_iff`: what one call needs for the client to read what was meant.
* `good_throughout_iff`: whole runs of output, broadcasts, upgrades and dequeue passes.
-/

open List

namespace Eggdrop.Webui

open Net ListEdit
open WebSocket hiding Bytes

/-! ### Texts -/

/-- The bytes of a text. -/
def bytes (s : CStr) : Bytes := s.map fun c => UInt8.ofNat c.toNat

/-- `LOGLINELEN`. -/
def logLineLen : ℕ := loglinelen

/-- The letter of a log line's type. -/
def logFlag (type : ℕ) : CStr :=
  if type &&& 0x1 ≠ 0 then ['m']
  else if type &&& 0x2 ≠ 0 then ['p']
  else if type &&& 0x10 ≠ 0 then ['o']
  else if type &&& 0x4 ≠ 0 then ['j']
  else if type &&& 0x20000 ≠ 0 then ['s']
  else if type &&& 0x40 ≠ 0 then ['b']
  else ['*']

/-- The message of a log entry: cut to the line, and without the newline at its end. -/
def logMsg (msg : CStr) : CStr :=
  let msg := msg.take (logLineLen - 1)
  if msg.getLast? = some '\n' then msg.dropLast else msg

/-- The nick in front of the `!`, cut to `NICKLEN`. -/
def oldNick (mask : CStr) : CStr := (mask.takeWhile (· != '!')).take 33

/-- What is broadcast. -/
inductive Broadcast
  /-- `webui_log_hook`, with the time as `strftime` gives it -/
  | log (time : CStr) (type : ℕ) (msg : CStr)
  /-- `ws_push_status_tick` -/
  | status (uptime channels users : ℤ)
  /-- `tcl_webui_nick_push` -/
  | nick (oldmask newnick host : CStr)

/-- The JSON text of a broadcast. -/
def Broadcast.json : Broadcast → CStr
  | .log time type msg =>
    "\x7b\"type\":\"log\",\"data\":\x7b\"time\":".toList ++ jsonEscape time ++
      ",\"flags\":".toList ++ jsonEscape (logFlag type) ++ ",\"msg\":".toList ++
      jsonEscape (logMsg msg) ++ "\x7d\x7d".toList
  | .status uptime channels users =>
    "\x7b\"type\":\"status\",\"data\":\x7b\"uptime\":".toList ++ showInt uptime ++
      ",\"channels\":".toList ++ showInt channels ++ ",\"users\":".toList ++ showInt users ++
      "\x7d\x7d".toList
  | .nick oldmask newnick host =>
    "\x7b\"event\":\"nick\",\"old\":".toList ++ jsonEscape (oldNick oldmask) ++
      ",\"new\":".toList ++ jsonEscape newnick ++ ",\"host\":".toList ++ jsonEscape host ++
      "\x7d".toList

/-! ### Framing in the buffer -/

/-- One round of the loop of `escape_html` on what is left of its source: what it writes, how far it
moves on and the room it asks for. -/
def escapeOne : Bytes → Bytes × ℕ × ℕ
  | [] => ([], 1, 0)
  | 0x1b :: a :: b :: c :: _ =>
    if a = 0x5b ∧ b = 0x30 ∧ c = 0x6d then ([0x3c, 0x2f, 0x62, 0x3e], 4, 4)
    else if a = 0x5b ∧ b = 0x31 ∧ c = 0x6d then ([0x3c, 0x62, 0x3e], 4, 3)
    else ([], 4, 0)
  | 0x1b :: _ => ([], 1, 0)
  | 0xff :: a :: b :: _ =>
    if a = 251 ∧ b = 1 then ([0x02], 3, 1)
    else if a = 252 ∧ b = 1 then ([0x01], 3, 1)
    else ([], 3, 1)
  | 0xff :: _ => ([], 1, 0)
  | 0x22 :: _ => ([0x26, 0x71, 0x75, 0x6f, 0x74, 0x3b], 1, 6)
  | 0x26 :: _ => ([0x26, 0x61, 0x6d, 0x70, 0x3b], 1, 5)
  | 0x27 :: _ => ([0x26, 0x61, 0x70, 0x6f, 0x73, 0x3b], 1, 6)
  | 0x3c :: _ => ([0x26, 0x6c, 0x74, 0x3b], 1, 4)
  | 0x3e :: _ => ([0x26, 0x67, 0x74, 0x3b], 1, 4)
  | c :: _ => ([c], 1, 1)

/-- `escape_html` round by round. -/
theorem escapeHtml_eq (n : ℕ) {s : Bytes} (hs : s ≠ []) :
    escapeHtml n s =
      if n < (escapeOne s).2.2 then []
      else (escapeOne s).1 ++ escapeHtml (n - (escapeOne s).1.length) (s.drop (escapeOne s).2.1) := by
  fun_cases escapeOne s
  case case4 a b c rest h0 h1 => simp [escapeHtml, if_neg h0, if_neg h1]
  case case8 a b rest h0 h1 => simp [escapeHtml, if_neg h0, if_neg h1]
  all_goals simp_all [escapeHtml, emit]

theorem used_pos {s : Bytes} : 0 < (escapeOne s).2.1 := by
  fun_cases escapeOne s <;> simp

theorem length_out_le {s : Bytes} : (escapeOne s).1.length ≤ (escapeOne s).2.2 := by
  fun_cases escapeOne s <;> simp

/-- `escape_html` stays within its room. -/
theorem length_escapeHtml_le (n : ℕ) (s : Bytes) : (escapeHtml n s).length ≤ n := by
  induction hlen : s.length using Nat.strong_induction_on generalizing s n with
  | _ len ih =>
    by_cases hs : s = []
    · subst hs
      simp [escapeHtml]
    rw [escapeHtml_eq n hs]
    split
    · simp
    next hroom =>
    have hpos : 0 < s.length := length_pos_iff.2 hs
    have hused := used_pos (s := s)
    have hout := length_out_le (s := s)
    have hrest := ih (s.drop (escapeOne s).2.1).length (by rw [length_drop]; omega)
      (n - (escapeOne s).1.length) (s.drop (escapeOne s).2.1) rfl
    rw [length_append]
    omega

/-- Put `data` at an index of the buffer. -/
def writeAt (m : Bytes) (i : ℕ) (data : Bytes) : Bytes :=
  m.take i ++ (data ++ m.drop (i + data.length))

/-- The loop of `escape_html` where source and destination are in one buffer: `left` bytes of the
source are left from index `i` on, and index `d` is next to be written.  Returns the buffer and the
end of what was written. -/
def escapeInPlace : ℕ → Bytes → ℕ → ℕ → ℕ → Bytes × ℕ
  | 0, m, _, _, d => (m, d)
  | fuel + 1, m, left, i, d =>
    if left = 0 then (m, d)
    else
      let (out, used, need) := escapeOne ((m.drop i).take left)
      if logLineLen - d < need then (m, d)
      else escapeInPlace fuel (writeAt m d out) (left - used) (i + used) (d + out.length)

/-- The header in front of the `len` bytes of payload at index 4 of the buffer, and the frame. -/
def closeFrame (m : Bytes) (len : ℕ) : Bytes × Bytes :=
  if len < 0x7e then
    let m := writeAt m 2 [0x81, UInt8.ofNat len]
    (m, (m.drop 2).take (len + 2))
  else
    let m := writeAt m 0 [0x81, 0x7e, UInt8.ofNat (len / 256), UInt8.ofNat len]
    (m, m.take (len + 4))

/-- `webui_frame` of `len` bytes from index `i` of its own buffer. -/
def frameInPlace (m : Bytes) (i len : ℕ) : Bytes × Bytes :=
  let (m, d) := escapeInPlace len m len i 4
  closeFrame m (d - 4)

/-- The buffer after `webui_frame` of a text from elsewhere, and where the frame starts in it. -/
def frameBuffer (m : Bytes) (s : Bytes) : Bytes × ℕ :=
  let i := if (escapeHtml (logLineLen - 4) s).length < 0x7e then 2 else 0
  (writeAt m i (webuiFrame s), i)

/-! ### Clients -/

/-- A connection: its socket, what the kernel took for it, where in that the websocket starts, and
the texts that its client is to read since. -/
structure Client where
  k : Socket
  accepted : Bytes
  upgradedAt : ℕ
  intended : List Bytes
  deriving DecidableEq

/-- A text as the terminal in the browser is to get it. -/
def html (s : Bytes) : Bytes := escapeHtml (6 * s.length) s

namespace Client

/-- What was written or is queued. -/
def wire (c : Client) : Bytes := c.accepted ++ c.k.pending

/-- What was written or is queued since the upgrade. -/
def stream (c : Client) : Bytes := c.wire.drop c.upgradedAt

/-- `tputs` of `s` with what the frame hook makes of it, meant to bring `payload` to the client. -/
def tputs (framed : Bytes) (w : WriteResult) (s payload : Bytes) (c : Client) : Client :=
  let r := c.k.tputs (fun _ => framed) w s
  { c with
    k := r.1, accepted := c.accepted ++ r.2
    intended := if c.k.ws then c.intended ++ [payload] else c.intended }

def dequeue (a : Answer) (c : Client) : Client :=
  let r := (c.k.poll a.ready).drain a.handshake a.write
  { c with k := r.1, accepted := c.accepted ++ r.2 }

/-- The connection becomes a websocket. -/
def upgrade (c : Client) : Client :=
  if c.k.ws then c
  else { c with k := { c.k with ws := true }, upgradedAt := c.wire.length, intended := [] }

/-- The client of a websocket reads the texts that are meant for it. -/
def Good (c : Client) : Prop :=
  c.k.ws → c.upgradedAt ≤ c.wire.length ∧ decode c.stream = some (c.intended.map .text)

/-- Whatever else is written, the client does not read what is meant for it. -/
def Off (c : Client) : Prop :=
  c.k.ws ∧ c.upgradedAt ≤ c.wire.length ∧
    ∀ b l, decode (c.stream ++ b) ≠ some (c.intended.map .text ++ l)

end Client

/-! ### The system -/

/-- The connections, `ws_push_socks` and the buffer of `webui_frame`. -/
structure PushState where
  clients : List Client
  pushSocks : List Int
  buf : Bytes

/-- The socket that `tputs` looks for. -/
def isClient (z : Int) (c : Client) : Bool := !c.k.unused && c.k.sock == z

/-- A connection before anything was written to it. -/
def Client.start (k : Socket) : Client := ⟨{ k with ws := false, outbuf := none }, [], 0, []⟩

/-- `ws_push_remove`: the last one takes the place. -/
def wsPushRemove (socks : List Int) (z : Int) : List Int :=
  match socks.idxOf? z with
  | some i => SwapRemove.removeFast socks i
  | none => socks

inductive PushEvent
  | accept (k : Socket)
  /-- party-line output and the like -/
  | tputs (z : Int) (s : Bytes) (w : WriteResult)
  | broadcast (b : Broadcast) (answers : ℕ → WriteResult)
  | dequeueSockets (answers : ℕ → Answer)
  | handshook (i : ℕ)
  /-- connection `i` goes over to the party line -/
  | upgrade (i : ℕ)
  /-- connection `i` becomes a push client -/
  | upgradePush (i : ℕ)
  /-- a push client is gone -/
  | gone (z : Int)

section System

variable (console : Bool)

/-- The socket that a call of `tputs` writes to. -/
def target (clients : List Client) (z : Int) : Option Client :=
  if z < 0 || toTerminal console z then none else clients.find? (isClient z)

/-- One round of the loop of `ws_push_broadcast`, for the text `j` framed in `len` bytes from index
`i` of the buffer on. -/
def pushRound (j : Bytes) (i len : ℕ) (st : Bytes × List Client) (z : Int) (w : WriteResult) :
    Bytes × List Client :=
  let raw := (st.1.drop i).take len
  match target console st.2 z with
  | none => st
  | some c =>
    if c.k.ws ∧ c.k.outbuf = none then
      let (m, framed) := frameInPlace st.1 i len
      (m, modifyFirst (isClient z) (·.tputs framed w raw j) st.2)
    else (st.1, modifyFirst (isClient z) (·.tputs raw w raw j) st.2)

def wsPushBroadcast (j : Bytes) (answers : ℕ → WriteResult) (s : PushState) : PushState :=
  let (m, i) := frameBuffer s.buf j
  let st := s.pushSocks.zipIdx.foldl
    (fun st z => pushRound console j i (webuiFrame j).length st z.1 (answers z.2)) (m, s.clients)
  { s with buf := st.1, clients := st.2 }

def pushNext (s : PushState) : PushEvent → PushState
  | .accept k => { s with clients := s.clients ++ [Client.start k] }
  | .tputs z t w =>
    match target console s.clients z with
    | none => s
    | some _ =>
      { s with clients := modifyFirst (isClient z) (·.tputs (webuiFrame t) w t (html t)) s.clients }
  | .broadcast b answers => wsPushBroadcast console (bytes b.json) answers s
  | .dequeueSockets answers =>
    { s with clients := s.clients.mapIdx fun i c => c.dequeue (answers i) }
  | .handshook i =>
    { s with clients := s.clients.modify i fun c =>
        { c with k := { c.k with ssl := c.k.ssl.map fun _ => .complete } } }
  | .upgrade i => { s with clients := s.clients.modify i Client.upgrade }
  | .upgradePush i =>
    -- without room for it the socket is closed
    if s.pushSocks.length < 8 then
      { s with
        clients := s.clients.modify i Client.upgrade
        pushSocks := s.pushSocks ++ (s.clients[i]?.map (·.k.sock)).toList }
    else s
  | .gone z =>
    { s with
      pushSocks := wsPushRemove s.pushSocks z
      clients := modifyFirst (isClient z) (fun c => { c with k := { c.k with unused := true } })
        s.clients }

/-- The runs of `pushNext`; no step faults. -/
def pushStep (s : PushState) (e : PushEvent) : Except Empty PushState := .ok (pushNext console s e)

/-- What a text needs to reach the client of a websocket: with nothing queued, room for its escaped
form, which is UTF-8; with a queue it goes out as it is and has to be a frame already. -/
def Carries (c : Client) (t : Bytes) : Prop :=
  if c.k.outbuf = none then escapeHtml (logLineLen - 4) t = html t ∧ validUtf8 (html t) = true
  else decode t = some [.text (html t)]

/-- The condition on a step. -/
def Sendable (s : PushState) : PushEvent → Prop
  | .tputs z t _ => ∀ c, target console s.clients z = some c → c.k.ws → Carries c t
  | .broadcast _ _ => ∀ z ∈ s.pushSocks, ∀ c, target console s.clients z = some c → c.k.ws = false
  | _ => True

end System

/-! ### One call -/

namespace Client

variable {c : Client}

/-- What a call adds to the bytes for the client. -/
def added (framed s : Bytes) (c : Client) : Bytes :=
  if c.k.outbuf = none ∧ c.k.ws then framed else s

theorem wire_tputs (framed : Bytes) (w : WriteResult) (s payload : Bytes) :
    (c.tputs framed w s payload).wire = c.wire ++ c.added framed s := by
  simp only [wire, tputs]
  rw [append_assoc, Socket.tputs_spec, ← append_assoc]
  rfl

theorem ws_socket_tputs (frame : Bytes → Bytes) (w : WriteResult) (s : Bytes) (k : Socket) :
    (k.tputs frame w s).1.ws = k.ws ∧ (k.tputs frame w s).1.unused = k.unused ∧
      (k.tputs frame w s).1.sock = k.sock := by
  unfold Socket.tputs
  dsimp only
  repeat' split
  all_goals exact ⟨rfl, rfl, rfl⟩

theorem ws_tputs (framed : Bytes) (w : WriteResult) (s payload : Bytes) :
    (c.tputs framed w s payload).k.ws = c.k.ws := (ws_socket_tputs _ w s c.k).1

theorem stream_tputs (framed : Bytes) (w : WriteResult) (s payload : Bytes)
    (h : c.upgradedAt ≤ c.wire.length) :
    (c.tputs framed w s payload).stream = c.stream ++ c.added framed s := by
  rw [stream, wire_tputs]
  show (c.wire ++ _).drop c.upgradedAt = _
  rw [drop_append_of_le_length h]
  rfl

/-- What a call needs for the client to stay in step. -/
theorem good_tputs_iff (hgood : c.Good) (framed : Bytes) (w : WriteResult) (s payload : Bytes) :
    (c.tputs framed w s payload).Good ↔
      (c.k.ws → decode (c.added framed s) = some [.text payload]) := by
  by_cases hws : c.k.ws = true
  · obtain ⟨hle, hdecode⟩ := hgood hws
    have hintended : (c.tputs framed w s payload).intended = c.intended ++ [payload] := if_pos hws
    rw [Good, ws_tputs, stream_tputs _ _ _ _ hle, decode_append hdecode, hintended, wire_tputs,
      map_append]
    refine imp_congr_right fun _ => ?_
    constructor
    · rintro ⟨-, h⟩
      obtain ⟨l, hl, happ⟩ := Option.map_eq_some_iff.1 h
      rw [hl, append_cancel_left happ]
      rfl
    · intro h
      refine ⟨?_, by rw [h]; rfl⟩
      show c.upgradedAt ≤ _
      rw [length_append]
      omega
  · have hfalse : (c.tputs framed w s payload).Good := fun h => absurd (ws_tputs framed w s payload ▸ h) hws
    exact iff_of_true hfalse fun h => absurd h hws

theorem off_tputs (hoff : c.Off) (framed : Bytes) (w : WriteResult) (s payload : Bytes) :
    (c.tputs framed w s payload).Off := by
  obtain ⟨hws, hle, hdecode⟩ := hoff
  refine ⟨(ws_tputs framed w s payload).trans hws, ?_, fun b l => ?_⟩
  · rw [wire_tputs, length_append]
    exact Nat.le_add_right_of_le hle
  · have hintended : (c.tputs framed w s payload).intended = c.intended ++ [payload] := if_pos hws
    rw [stream_tputs _ _ _ _ hle, append_assoc, hintended, map_append, append_assoc]
    exact hdecode _ _

theorem Off.not_good (hoff : c.Off) : ¬ c.Good := fun hgood => by
  have := hoff.2.2 [] []
  rw [append_nil, append_nil] at this
  exact this (hgood hoff.1).2

theorem off_of_frame (hgood : c.Good) (hws : c.k.ws = true) {framed s payload data : Bytes}
    (w : WriteResult) (hframe : c.added framed s = (⟨true, .text, data⟩ : Frame).encode)
    (hlen : data.length < 2 ^ 63) (hne : data ≠ payload) : (c.tputs framed w s payload).Off := by
  obtain ⟨hle, hdecode⟩ := hgood hws
  refine ⟨(ws_tputs framed w s payload).trans hws, ?_, fun b l => ?_⟩
  · rw [wire_tputs, length_append]
    exact Nat.le_add_right_of_le hle
  · have hintended : (c.tputs framed w s payload).intended = c.intended ++ [payload] := if_pos hws
    rw [stream_tputs _ _ _ _ hle, hframe, append_assoc, decode_append hdecode, decode_text hlen,
      hintended, map_append, append_assoc]
    intro h
    obtain ⟨l', hl', happ⟩ := Option.map_eq_some_iff.1 h
    split at hl'
    · obtain ⟨l'', -, rfl⟩ := Option.map_eq_some_iff.1 hl'
      have := append_cancel_left happ
      simp only [map_cons, map_nil, cons_append, nil_append, cons.injEq, Message.text.injEq] at this
      exact hne this.1
    · simp at hl'

end Client

/-! ### Frames -/

theorem logLineLen_eq : logLineLen = 9001 := rfl

theorem encode_text {p : Bytes} (h : p.length < 2 ^ 16) :
    (⟨true, .text, p⟩ : Frame).encode =
      if p.length < 0x7e then 0x81 :: UInt8.ofNat p.length :: p
      else 0x81 :: 0x7e :: UInt8.ofNat (p.length / 256) :: UInt8.ofNat p.length :: p := by
  have hzero (b : UInt8) : 0 ||| b = b := by simp
  have hfirst : (⟨true, .text, p⟩ : Frame).firstByte = 0x81 :=
    show ((if true then 0x80 else 0) ||| WebSocket.Opcode.text.code) = 0x81 by decide
  rw [Frame.encode, hfirst, WebSocket.Form.least]
  dsimp only
  by_cases hs : p.length < 0x7e
  · rw [if_pos (by omega), if_pos hs, WebSocket.Form.bytes, hzero]
    rfl
  · rw [if_neg (by omega), if_pos h, if_neg hs, WebSocket.Form.bytes]
    simp only [WebSocket.bigEndian, Nat.pow_one, Nat.pow_zero, Nat.div_one, hzero]
    rfl

/-- `webui_frame` makes one text frame. -/
theorem webuiFrame_eq (s : Bytes) :
    webuiFrame s = (⟨true, .text, escapeHtml (logLineLen - 4) s⟩ : Frame).encode := by
  have hlen := length_escapeHtml_le (logLineLen - 4) s
  have hmax := logLineLen_eq
  rw [encode_text (by omega)]
  rfl

theorem decode_frame (s : Bytes) :
    decode (webuiFrame s) =
      if validUtf8 (escapeHtml (logLineLen - 4) s) = true then
        some [.text (escapeHtml (logLineLen - 4) s)] else none := by
  have hlen := length_escapeHtml_le (logLineLen - 4) s
  have hmax := logLineLen_eq
  have h := @decode_text (escapeHtml (logLineLen - 4) s) (by omega) []
  rw [append_nil] at h
  rw [webuiFrame_eq, h]
  rfl

/-- Output to a websocket. -/
theorem Client.good_output_iff {c : Client} (hgood : c.Good) (w : WriteResult) (t : Bytes) :
    (c.tputs (webuiFrame t) w t (html t)).Good ↔ (c.k.ws → Carries c t) := by
  rw [Client.good_tputs_iff hgood]
  refine forall_congr' fun hws => ?_
  rw [Client.added, Carries]
  by_cases hq : c.k.outbuf = none
  · rw [if_pos ⟨hq, hws⟩, if_pos hq, decode_frame]
    split
    · next hvalid =>
      constructor
      · intro h
        have hp : escapeHtml (logLineLen - 4) t = html t := by simpa using h
        exact ⟨hp, hp ▸ hvalid⟩
      · intro h
        rw [h.1]
    · next hvalid =>
      refine iff_of_false (by simp) fun h => hvalid ?_
      rw [h.1]
      exact h.2
  · rw [if_neg fun h => hq h.1, if_neg hq]

/-! ### The second framing -/

@[simp] theorem length_writeAt {m data : Bytes} {i : ℕ} (h : i + data.length ≤ m.length) :
    (writeAt m i data).length = m.length := by
  simp [writeAt]
  omega

theorem getElem?_writeAt {m data : Bytes} {i k : ℕ} (hk : k < i) (hi : i ≤ m.length) :
    (writeAt m i data)[k]? = m[k]? := by
  rw [writeAt, getElem?_append_left (by simp; omega), getElem?_take_of_lt hk]

/-- The loop stays within the buffer, and leaves alone what it has written. -/
theorem escapeInPlace_spec : ∀ (fuel : ℕ) (m : Bytes) (left i d : ℕ), m.length = logLineLen →
    d ≤ logLineLen →
      (escapeInPlace fuel m left i d).1.length = logLineLen ∧
      d ≤ (escapeInPlace fuel m left i d).2 ∧ (escapeInPlace fuel m left i d).2 ≤ logLineLen ∧
      ∀ k < d, (escapeInPlace fuel m left i d).1[k]? = m[k]?
  | 0, _, _, _, d, hm, hd => ⟨hm, le_refl d, hd, fun _ _ => rfl⟩
  | fuel + 1, m, left, i, d, hm, hd => by
    rw [escapeInPlace]
    by_cases hleft : left = 0
    · rw [if_pos hleft]
      exact ⟨hm, le_refl d, hd, fun _ _ => rfl⟩
    rw [if_neg hleft]
    have hout := length_out_le (s := (m.drop i).take left)
    generalize escapeOne ((m.drop i).take left) = r at hout
    obtain ⟨out, used, need⟩ := r
    dsimp only at hout ⊢
    by_cases hroom : logLineLen - d < need
    · rw [if_pos hroom]
      exact ⟨hm, le_refl d, hd, fun _ _ => rfl⟩
    rw [if_neg hroom]
    obtain ⟨h1, h2, h3, h4⟩ := escapeInPlace_spec fuel (writeAt m d out) (left - used) (i + used)
      (d + out.length) (by rw [length_writeAt (by omega), hm]) (by omega)
    refine ⟨h1, by omega, h3, fun k hk => ?_⟩
    rw [h4 k (by omega), getElem?_writeAt hk (by omega)]

theorem drop_take_writeAt {m data : Bytes} {i n : ℕ} (h : i + data.length ≤ m.length) :
    ((writeAt m i data).drop i).take (data.length + n) =
      data ++ (m.drop (i + data.length)).take n := by
  rw [writeAt, drop_append_of_le_length (by simp; omega), drop_eq_nil_of_le (by simp), nil_append,
    take_append, take_of_length_le (by omega), Nat.add_sub_cancel_left]

theorem closeFrame_spec {m : Bytes} {len : ℕ} (hm : m.length = logLineLen)
    (hlen : 4 + len ≤ logLineLen) :
    (closeFrame m len).1.length = logLineLen ∧
      (closeFrame m len).2 = (⟨true, .text, (m.drop 4).take len⟩ : Frame).encode := by
  have hmax := logLineLen_eq
  have hplen : ((m.drop 4).take len).length = len := by
    rw [length_take, length_drop]
    omega
  rw [encode_text (by omega), hplen, closeFrame]
  by_cases hs : len < 0x7e
  · rw [if_pos hs, if_pos hs]
    refine ⟨by rw [length_writeAt (by simp; omega), hm], ?_⟩
    dsimp only
    rw [show len + 2 = [0x81, UInt8.ofNat len].length + len by simp; omega,
      drop_take_writeAt (by simp; omega)]
    rfl
  · rw [if_neg hs, if_neg hs]
    refine ⟨by rw [length_writeAt (by simp; omega), hm], ?_⟩
    dsimp only
    have h := @drop_take_writeAt m [0x81, 0x7e, UInt8.ofNat (len / 256), UInt8.ofNat len] 0 len
      (by simp; omega)
    rw [drop_zero, show [0x81, 0x7e, UInt8.ofNat (len / 256), UInt8.ofNat len].length + len =
      len + 4 by simp; omega] at h
    rw [h]
    rfl

/-- A frame in the buffer framed again carries the first byte of its own header. -/
theorem frameInPlace_spec {m : Bytes} {i len : ℕ} (hm : m.length = logLineLen) (hlen : 0 < len)
    (hfirst : m[i]? = some 0x81) :
    (frameInPlace m i len).1.length = logLineLen ∧
      ∃ p, (frameInPlace m i len).2 = (⟨true, .text, 0x81 :: p⟩ : Frame).encode ∧
        (0x81 :: p).length < 2 ^ 63 := by
  have hmax := logLineLen_eq
  obtain ⟨n, rfl⟩ : ∃ n, len = n + 1 := ⟨len - 1, by omega⟩
  have hsrc : (m.drop i).take (n + 1) = 0x81 :: (m.drop (i + 1)).take n := by
    obtain ⟨hi, hget⟩ := List.getElem?_eq_some_iff.1 hfirst
    rw [drop_eq_getElem_cons hi, hget, take_succ_cons]
  have hone : escapeOne (0x81 :: (m.drop (i + 1)).take n) = ([0x81], 1, 1) := rfl
  have hloop : escapeInPlace (n + 1) m (n + 1) i 4 =
      escapeInPlace n (writeAt m 4 [0x81]) n (i + 1) 5 := by
    rw [escapeInPlace, if_neg (by omega), hsrc, hone]
    dsimp only
    rw [if_neg (by omega)]
    rfl
  have hwrite : (writeAt m 4 [0x81]).length = logLineLen := by
    rw [length_writeAt (by simp; omega), hm]
  obtain ⟨h1, h2, h3, h4⟩ := escapeInPlace_spec n (writeAt m 4 [0x81]) n (i + 1) 5 hwrite (by omega)
  rw [frameInPlace, hloop]
  generalize escapeInPlace n (writeAt m 4 [0x81]) n (i + 1) 5 = r at h1 h2 h3 h4
  obtain ⟨m', d⟩ := r
  dsimp only at h1 h2 h3 h4 ⊢
  obtain ⟨hsize, hframe⟩ := @closeFrame_spec m' (d - 4) h1 (by omega)
  refine ⟨hsize, ((m'.drop 5).take (d - 5)), ?_, ?_⟩
  · have hfour : m'[4]? = some 0x81 := by
      rw [h4 4 (by omega), writeAt, getElem?_append_right (by simp), length_take,
        Nat.min_eq_left (by omega)]
      rfl
    obtain ⟨hi, hget⟩ := List.getElem?_eq_some_iff.1 hfour
    rw [hframe, drop_eq_getElem_cons hi, hget, show d - 4 = (d - 5) + 1 by omega, take_succ_cons]
  · simp
    omega

/-! ### Broadcasts -/

section Broadcasts

variable (console : Bool)

/-- `tputs` finds a websocket. -/
def hitsWs (clients : List Client) (z : Int) : Bool :=
  (target console clients z).any fun c => c.k.ws

/-- What decides which connection a call finds, and whether it is a websocket. -/
def Client.key (c : Client) : Bool × Int × Bool := (c.k.unused, c.k.sock, c.k.ws)

variable {console}

theorem hitsWs_congr {l l' : List Client} (h : l.map Client.key = l'.map Client.key) (z : Int) :
    hitsWs console l z = hitsWs console l' z := by
  have hfind (l : List Client) : (l.find? (isClient z)).any (fun c => c.k.ws) =
      ((l.map Client.key).find? fun k => !k.1 && k.2.1 == z).any fun k => k.2.2 := by
    rw [find?_map, Option.any_map]
    rfl
  rw [hitsWs, hitsWs, target, target]
  split
  · rfl
  · rw [hfind, hfind, h]

theorem key_tputs (framed : Bytes) (w : WriteResult) (s payload : Bytes) (c : Client) :
    (c.tputs framed w s payload).key = c.key := by
  obtain ⟨hws, hunused, hsock⟩ := Client.ws_socket_tputs (fun _ => framed) w s c.k
  exact Prod.ext hunused (Prod.ext hsock hws)

theorem find_of_target {clients : List Client} {z : Int} {c : Client}
    (h : target console clients z = some c) : clients.find? (isClient z) = some c := by
  rw [target] at h
  split at h
  · simp at h
  · exact h

variable {j m : Bytes} {i len : ℕ} {clients : List Client}

theorem pushRound_quiet (z : Int) (w : WriteResult) (hgood : ∀ c ∈ clients, c.Good)
    (hquiet : hitsWs console clients z = false) :
    (pushRound console j i len (m, clients) z w).1 = m ∧
      (∀ c ∈ (pushRound console j i len (m, clients) z w).2, c.Good) ∧
      (pushRound console j i len (m, clients) z w).2.map Client.key = clients.map Client.key := by
  rw [pushRound]
  dsimp only
  split
  · exact ⟨rfl, hgood, rfl⟩
  next c hc =>
  have hws : ¬ c.k.ws = true := by
    rw [hitsWs, hc] at hquiet
    simpa using hquiet
  rw [if_neg fun h => hws h.1]
  refine ⟨rfl, ?_, map_modifyFirst (fun c => key_tputs _ _ _ _ c) clients⟩
  rw [forall_mem_modifyFirst_iff hgood]
  intro c' hc'
  have hsame : c = c' := by simpa [find_of_target hc] using hc'
  subst hsame
  exact (Client.good_tputs_iff (hgood c (mem_of_find?_eq_some hc')) _ _ _ _).2
    fun h => absurd h hws

theorem pushRound_off (st : Bytes × List Client) (z : Int) (w : WriteResult)
    (h : ∃ c ∈ st.2, c.Off) : ∃ c ∈ (pushRound console j i len st z w).2, c.Off := by
  rw [pushRound]
  dsimp only
  split
  · exact h
  · split
    · exact exists_mem_modifyFirst (Q := Client.Off) (fun c hc => Client.off_tputs hc _ _ _ _) h
    · exact exists_mem_modifyFirst (Q := Client.Off) (fun c hc => Client.off_tputs hc _ _ _ _) h

theorem pushRound_hit (z : Int) (w : WriteResult) (hgood : ∀ c ∈ clients, c.Good)
    (hm : m.length = logLineLen) (hraw : (m.drop i).take len = webuiFrame j) (hlen : 0 < len)
    (hjson : ∃ t, j = 0x7b :: 0x22 :: t) (hhit : hitsWs console clients z = true) :
    ∃ c ∈ (pushRound console j i len (m, clients) z w).2, c.Off := by
  obtain ⟨t, rfl⟩ := hjson
  have hmax := logLineLen_eq
  rw [hitsWs, Option.any_eq_true_iff_get] at hhit
  obtain ⟨hsome, hws⟩ := hhit
  obtain ⟨c, hc⟩ := Option.isSome_iff_exists.1 hsome
  simp only [hc, Option.get_some] at hws
  have hfind := find_of_target hc
  have hcgood := hgood c (mem_of_find?_eq_some hfind)
  -- the frame starts with its own first byte
  have hfirst : m[i]? = some 0x81 := by
    have h0 : ((m.drop i).take len)[0]? = some 0x81 := by
      rw [hraw, webuiFrame]
      split <;> rfl
    rw [getElem?_take_of_lt hlen, getElem?_drop, Nat.add_zero] at h0
    exact h0
  rw [pushRound, hc]
  dsimp only
  by_cases hq : c.k.outbuf = none
  · rw [if_pos ⟨hws, hq⟩]
    obtain ⟨-, p, hp, hplen⟩ := frameInPlace_spec hm hlen hfirst
    refine ⟨_, mem_modifyFirst_of_find hfind, ?_⟩
    refine Client.off_of_frame hcgood hws w ?_ hplen (by simp)
    rw [Client.added, if_pos ⟨hq, hws⟩]
    exact hp
  · rw [if_neg fun h => hq h.2]
    refine ⟨_, mem_modifyFirst_of_find hfind, ?_⟩
    have hescaped : escapeHtml (logLineLen - 4) (0x7b :: 0x22 :: t) ≠ 0x7b :: 0x22 :: t := by
      have hbrace : escapeOne (0x7b :: 0x22 :: t) = ([0x7b], 1, 1) := rfl
      have hquote : escapeOne (0x22 :: t) = ([0x26, 0x71, 0x75, 0x6f, 0x74, 0x3b], 1, 6) := rfl
      rw [escapeHtml_eq _ (cons_ne_nil _ _), hbrace, if_neg (by dsimp only; omega)]
      dsimp only
      rw [drop_succ_cons, drop_zero, escapeHtml_eq _ (cons_ne_nil _ _), hquote,
        if_neg (by simp; omega)]
      simp
    have hplen := length_escapeHtml_le (logLineLen - 4) (0x7b :: 0x22 :: t)
    refine Client.off_of_frame hcgood hws w ?_ (Nat.lt_of_le_of_lt hplen (by decide)) hescaped
    rw [Client.added, if_neg fun h => hq h.1, hraw, webuiFrame_eq]

/-- The loop of the broadcast, over the clients with the answers of their sockets. -/
theorem push_rounds_iff (hm : m.length = logLineLen)
    (hraw : (m.drop i).take len = webuiFrame j) (hlen : 0 < len)
    (hjson : ∃ t, j = 0x7b :: 0x22 :: t) (answers : ℕ → WriteResult) :
    ∀ (zs : List (Int × ℕ)) {clients : List Client}, (∀ c ∈ clients, c.Good) →
      ((zs.foldl (fun st z => pushRound console j i len st z.1 (answers z.2)) (m, clients)).1.length =
          logLineLen ∧
        (∀ c ∈ (zs.foldl (fun st z => pushRound console j i len st z.1 (answers z.2))
          (m, clients)).2, c.Good) ↔ ∀ z ∈ zs, hitsWs console clients z.1 = false)
  | [], clients, hgood => by simpa [hm] using hgood
  | z :: zs, clients, hgood => by
    rw [foldl_cons, forall_mem_cons]
    by_cases hhit : hitsWs console clients z.1 = true
    · refine iff_of_false (fun h => ?_) fun h => by simp [hhit] at h
      have hoff : ∀ (zs : List (Int × ℕ)) (st : Bytes × List Client), (∃ c ∈ st.2, c.Off) →
          ∃ c ∈ (zs.foldl (fun st z => pushRound console j i len st z.1 (answers z.2)) st).2,
            c.Off := by
        intro zs
        induction zs with
        | nil => exact fun _ h => h
        | cons y ys ih => exact fun st h => ih _ (pushRound_off st _ _ h)
      obtain ⟨c, hc, hcoff⟩ := hoff zs _
        (pushRound_hit z.1 (answers z.2) hgood hm hraw hlen hjson hhit)
      exact hcoff.not_good (h.2 c hc)
    · rw [Bool.not_eq_true] at hhit
      obtain ⟨hbuf, hgood', hkeys⟩ := pushRound_quiet (j := j) (m := m) (i := i) z.1 (answers z.2)
        hgood hhit
      rw [← Prod.eta (pushRound console j i len (m, clients) z.1 (answers z.2)), hbuf,
        push_rounds_iff hm hraw hlen hjson answers zs hgood']
      simp only [hitsWs_congr hkeys, hhit, true_and]

theorem take_drop_writeAt {m data : Bytes} {i : ℕ} (h : i + data.length ≤ m.length) :
    ((writeAt m i data).drop i).take data.length = data := by
  have happ := drop_take_writeAt (n := 0) h
  rwa [Nat.add_zero, take_zero, append_nil] at happ

theorem length_webuiFrame (t : Bytes) :
    (webuiFrame t).length =
      (escapeHtml (logLineLen - 4) t).length +
        if (escapeHtml (logLineLen - 4) t).length < 0x7e then 2 else 4 := by
  rw [webuiFrame]
  show (if (escapeHtml (logLineLen - 4) t).length < 0x7e then _ else _ : Bytes).length = _
  split <;> rfl

theorem frameBuffer_spec {m : Bytes} (hm : m.length = logLineLen) (t : Bytes) :
    (frameBuffer m t).1.length = logLineLen ∧
      ((frameBuffer m t).1.drop (frameBuffer m t).2).take (webuiFrame t).length = webuiFrame t := by
  have hmax := logLineLen_eq
  have hlen := length_webuiFrame t
  have hescaped := length_escapeHtml_le (logLineLen - 4) t
  have hroom : (frameBuffer m t).2 + (webuiFrame t).length ≤ m.length := by
    show (if (escapeHtml (logLineLen - 4) t).length < 0x7e then 2 else 0) + _ ≤ _
    rw [hlen]
    split <;> omega
  exact ⟨(length_writeAt hroom).trans hm, take_drop_writeAt hroom⟩

theorem Broadcast.json_eq (b : Broadcast) : ∃ t, bytes b.json = 0x7b :: 0x22 :: t := by
  cases b <;> exact ⟨_, rfl⟩

/-- A broadcast reaches no websocket as it is meant. -/
theorem good_broadcast_iff (b : Broadcast) (answers : ℕ → WriteResult) {s : PushState}
    (hbuf : s.buf.length = logLineLen) (hgood : ∀ c ∈ s.clients, c.Good) :
    ((wsPushBroadcast console (bytes b.json) answers s).buf.length = logLineLen ∧
        ∀ c ∈ (wsPushBroadcast console (bytes b.json) answers s).clients, c.Good) ↔
      ∀ z ∈ s.pushSocks, hitsWs console s.clients z = false := by
  obtain ⟨hsize, hraw⟩ := frameBuffer_spec hbuf (bytes b.json)
  have hpos : 0 < (webuiFrame (bytes b.json)).length := by
    rw [length_webuiFrame]
    split <;> omega
  have hrounds := @push_rounds_iff console _ _ _ _ hsize hraw hpos b.json_eq answers
    s.pushSocks.zipIdx s.clients hgood
  refine hrounds.trans ⟨fun h z hz => ?_, fun h z hz => h z.1 ?_⟩
  · obtain ⟨i, hi, rfl⟩ := mem_iff_getElem.1 hz
    exact h (s.pushSocks[i], i) (by simp [mem_zipIdx_iff_getElem?])
  · exact (mem_zipIdx hz).2.2 ▸ getElem_mem _

end Broadcasts

/-! ### Runs -/

section Runs

variable (console : Bool)

/-- Every websocket's client reads what is meant for it. -/
structure PushState.InStep (s : PushState) : Prop where
  buf : s.buf.length = logLineLen
  good : ∀ c ∈ s.clients, c.Good

namespace Client

variable {c : Client}

theorem ws_dequeue (a : Answer) (c : Client) : (c.dequeue a).k.ws = c.k.ws := by
  have hpoll : (c.k.poll a.ready).ws = c.k.ws := by
    rw [Socket.poll]
    split <;> rfl
  show ((c.k.poll a.ready).drain a.handshake a.write).1.ws = c.k.ws
  rw [← hpoll]
  generalize c.k.poll a.ready = k
  unfold Socket.drain
  dsimp only
  repeat' split
  all_goals rfl

theorem good_dequeue (h : c.Good) (a : Answer) : (c.dequeue a).Good := by
  have hwire : (c.dequeue a).wire = c.wire := by
    have hdrain := Socket.drain_spec (k := c.k.poll a.ready) a.handshake a.write
    rw [Socket.pending_poll] at hdrain
    rw [wire, wire, ← hdrain, ← append_assoc]
    rfl
  rw [Good, ws_dequeue, stream, hwire]
  exact h

theorem good_upgrade (h : c.Good) : c.upgrade.Good := by
  rw [upgrade]
  split
  · exact h
  · intro _
    refine ⟨le_refl c.wire.length, ?_⟩
    show decode (c.wire.drop c.wire.length) = _
    rw [drop_length]
    rfl

end Client

/-- The step lemma. -/
theorem inStep_next_iff {s : PushState} (h : s.InStep) (e : PushEvent) :
    (pushNext console s e).InStep ↔ Sendable console s e := by
  have hkeep {f : Client → Client} (hf : ∀ c, c.Good → (f c).Good) (i : ℕ) :
      ∀ c ∈ s.clients.modify i f, c.Good := forall_mem_modify hf h.good i
  cases e with
  | accept k =>
    refine iff_of_true ⟨h.buf, fun c hc => ?_⟩ trivial
    rcases mem_append.1 hc with hc | hc
    · exact h.good c hc
    · rw [mem_singleton.1 hc]
      exact fun hws => nomatch hws
  | tputs z t w =>
    simp only [pushNext, Sendable]
    rcases htarget : target console s.clients z with _ | c
    · exact iff_of_true h fun c hc => nomatch hc
    · have hfind := find_of_target htarget
      have hiff := Client.good_output_iff (h.good c (mem_of_find?_eq_some hfind)) w t
      dsimp only
      constructor
      · intro hs c' hc'
        obtain rfl : c = c' := Option.some.inj hc'
        exact hiff.1 ((forall_mem_modifyFirst_iff h.good).1 hs.good c hfind)
      · intro hs
        refine ⟨h.buf, (forall_mem_modifyFirst_iff h.good).2 fun c' hc' => ?_⟩
        obtain rfl : c = c' := by simpa [hfind] using hc'
        exact hiff.2 (hs c rfl)
  | broadcast b answers =>
    have hiff := @good_broadcast_iff console b answers s h.buf h.good
    refine ⟨fun hs z hz c hc => ?_, fun hs => ?_⟩
    · have hhit := hiff.1 ⟨hs.buf, hs.good⟩ z hz
      rw [hitsWs, hc] at hhit
      exact hhit
    · have hquiet := hiff.2 fun z hz => by
        rw [hitsWs]
        rcases htarget : target console s.clients z with _ | c
        · rfl
        · exact hs z hz c htarget
      exact ⟨hquiet.1, hquiet.2⟩
  | dequeueSockets answers =>
    refine iff_of_true ⟨h.buf, fun c hc => ?_⟩ trivial
    obtain ⟨i, hi, rfl⟩ := mem_mapIdx.1 hc
    exact Client.good_dequeue (h.good _ (getElem_mem hi)) _
  | handshook i =>
    refine iff_of_true ⟨h.buf, forall_mem_modify (fun c hc => ?_) h.good i⟩ trivial
    exact hc
  | upgrade i => exact iff_of_true ⟨h.buf, hkeep (fun c hc => Client.good_upgrade hc) i⟩ trivial
  | upgradePush i =>
    refine iff_of_true ?_ trivial
    rw [pushNext]
    split
    · exact ⟨h.buf, hkeep (fun c hc => Client.good_upgrade hc) i⟩
    · exact h
  | gone z =>
    refine iff_of_true ⟨h.buf, (forall_mem_modifyFirst_iff h.good).2 fun c hc => ?_⟩ trivial
    exact h.good c (mem_of_find?_eq_some hc)

/-- The bot before anyone has connected. -/
def PushState.init : PushState := ⟨[], [], replicate logLineLen 0⟩

/-- In every state that any run of connections, output, broadcasts, upgrades and dequeue passes
reaches, the client of every websocket reads the texts that are meant for it and no others, exactly
when no broadcast finds a websocket and every other text to a websocket finds no queue, fits the
line when escaped and is UTF-8, or finds a queue and is a frame already. -/
theorem good_throughout_iff (es : List PushEvent) :
    Machine.Throughout (pushStep console) PushState.InStep .init es ↔
      Machine.Along (pushStep console) (Sendable console) .init es := by
  refine Machine.throughout_iff_along (fun s e _ => ⟨_, rfl⟩) (fun s e s' hs h => ?_) ?_ es
  · obtain rfl : pushNext console s e = s' := by simpa [pushStep] using h
    exact inStep_next_iff console hs e
  · exact ⟨length_replicate, fun c hc => absurd hc not_mem_nil⟩

end Runs

/-- The first status tick with a push client there. -/
theorem not_good_status :
    ¬ Machine.Throughout (pushStep false) PushState.InStep .init
        [.accept ⟨5, false, false, false, false, false, none, false, none⟩, .upgradePush 0,
          .broadcast (.status 60 1 2) fun _ => .wrote 4096] := by
  intro h
  have hinit := h.1
  obtain ⟨hupgraded, hlast⟩ := (h.2 _ rfl).2 _ rfl
  have hsend := (inStep_next_iff false hupgraded _).1 (hlast _ rfl)
  have hws := hsend 5 (by decide) _ rfl
  exact absurd hws (by decide)

end Eggdrop.Webui
