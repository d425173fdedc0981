import Eggdrop.Lib.WebSocket
import Eggdrop.Lib.Ensures
import Mathlib.Data.List.GetD

/-!
# Unframe — websocket frames from a client (webui.c, net.c)

`sockread` hands what one read of a websocket brought to `webui_unframe`, which takes it for one
frame.  Every access to the read buffer is checked here: one outside it is a fault.

* `webuiUnframe_gives`: there is none, and what comes out is `unframed` of the bytes read.
* `deliveries_eq_iff`: over any number of frames and reads, what is handed on is what the frames
  carry exactly if every read up to the close frame is one data frame.
-/

open List

namespace Eggdrop.Webui

open WebSocket

/-- `READMAX`. -/
def readMax : ℕ := 16384

/-- The read buffer `xx` of `sockgets`. -/
def bufSize : ℕ := readMax + 2

/-- An access outside the read buffer. -/
inductive Fault
  | outside
  deriving DecidableEq

def load (buf : Bytes) (i : ℕ) : Except Fault UInt8 :=
  match buf[i]? with
  | some b => .ok b
  | none => .error .outside

def store (buf : Bytes) (i : ℕ) (b : UInt8) : Except Fault Bytes :=
  if i < buf.length then .ok (buf.set i b) else .error .outside

/-- `memmove(buf, buf + from, n)`. -/
def memmove (buf : Bytes) (src n : ℕ) : Except Fault Bytes :=
  if src + n ≤ buf.length then .ok ((buf.drop src).take n ++ buf.drop n) else .error .outside

/-- `memcpy(buf + dst, data, n)` from elsewhere. -/
def memcpy (buf : Bytes) (dst : ℕ) (data : Bytes) : Except Fault Bytes :=
  if dst + data.length ≤ buf.length then
    .ok (buf.take dst ++ (data ++ buf.drop (dst + data.length)))
  else .error .outside

/-- The loop over the payload, from byte `i` of it on for `n` bytes. -/
def unmask (key payload : ℕ) : ℕ → ℕ → Bytes → Except Fault Bytes
  | 0, _, buf => .ok buf
  | n + 1, i, buf => do
    let p ← load buf (payload + i)
    let k ← load buf (key + i % 4)
    let buf ← store buf (payload + i) (p ^^^ k)
    unmask key payload n (i + 1) buf

/-- What has become of the socket. -/
inductive Verdict
  /-- there is data in the buffer -/
  | data
  /-- it was closed, with this status code -/
  | closed (status : UInt16)
  /-- it was closed over a frame that is too short -/
  | tooShort
  deriving DecidableEq

/-- Where the payload starts, by the second byte of the frame. -/
def hdrlen (b : UInt8) : ℕ := if b < 0xfe then 6 else if b = 0xfe then 8 else 14

/-- `webui_unframe`, with the new length. -/
def webuiUnframe (buf : Bytes) (len : ℕ) : Except Fault (Bytes × ℕ × Verdict) :=
  if len < 2 then .ok (buf, len, .tooShort)
  else do
    let b1 ← load buf 1
    let hdr := hdrlen b1
    if len < hdr then .ok (buf, len, .tooShort)
    else do
      let n := len - hdr
      let buf ← unmask (hdr - 4) hdr n 0 buf
      let b0 ← load buf 0
      if b0 &&& 0x08 ≠ 0 then do
        let hi ← load buf hdr
        let lo ← load buf (hdr + 1)
        .ok (buf, n, .closed (hi.toUInt16 * 256 + lo.toUInt16))
      else do
        let buf ← memmove buf hdr n
        let buf ← memcpy buf n [0x0d, 0x0a, 0]
        .ok (buf, n + 2, .data)

/-- What becomes of a read. -/
inductive Delivery
  /-- the text goes to the line buffer of the socket -/
  | handed (text : Bytes)
  | closed
  | dropped
  deriving DecidableEq

/-- The part of `sockread` behind the `read` of `chunk` into the buffer, on a websocket. -/
def sockread (buf chunk : Bytes) : Except Fault (Bytes × Delivery) := do
  let buf ← memcpy buf 0 chunk
  let (buf, x, verdict) ← webuiUnframe buf chunk.length
  let buf ← store buf x 0
  match verdict with
  | .data => .ok (buf, .handed (buf.take x))
  | .closed _ => .ok (buf, .closed)
  | .tooShort => .ok (buf, .dropped)

/-! ### One read -/

/-- The key in front of the payload. -/
def keyOf (chunk : Bytes) (hdr : ℕ) (i : Fin 4) : UInt8 := chunk.getD (hdr - 4 + i) 0

/-- What a read amounts to. -/
def unframed (chunk : Bytes) : Delivery :=
  if chunk.length < 2 ∨ chunk.length < hdrlen (chunk.getD 1 0) then .dropped
  else if chunk.headD 0 &&& 0x08 ≠ 0 then .closed
  else
    let hdr := hdrlen (chunk.getD 1 0)
    .handed (mask (keyOf chunk hdr) (chunk.drop hdr) ++ [0x0d, 0x0a])

theorem load_eq {buf : Bytes} {i : ℕ} (h : i < buf.length) : load buf i = .ok (buf.getD i 0) := by
  rw [load, getElem?_eq_getElem h, getD_eq_getElem _ _ h]

theorem store_eq {buf : Bytes} {i : ℕ} (h : i < buf.length) (b : UInt8) :
    store buf i b = .ok (buf.set i b) := if_pos h

theorem load_gives {buf : Bytes} {i : ℕ} (h : i < buf.length) :
    Gives (load buf i) (· = buf.getD i 0) := ⟨_, load_eq h, rfl⟩

/-- The loop lays the key, which is in front of the payload, over the `d` that it passes. -/
theorem unmask_eq {key payload : ℕ} (hkey : key + 4 ≤ payload) (r : Bytes) :
    ∀ (d a : Bytes) (i : ℕ), a.length = payload + i →
      unmask key payload d.length i (a ++ (d ++ r)) =
        .ok (a ++ (d.mapIdx (fun j b => b ^^^ a.getD (key + (i + j) % 4) 0) ++ r))
  | [], a, i, _ => by simp [unmask]
  | x :: d, a, i, ha => by
    have hx : load (a ++ (x :: d ++ r)) (payload + i) = .ok x := by
      rw [load_eq (by simp; omega), ← ha]
      simp
    have hk : load (a ++ (x :: d ++ r)) (key + i % 4) = .ok (a.getD (key + i % 4) 0) := by
      rw [load_eq (by simp; omega), getD_append _ _ _ _ (by omega)]
    have hset (b : UInt8) : store (a ++ (x :: d ++ r)) (payload + i) b =
        .ok ((a ++ [b]) ++ (d ++ r)) := by
      rw [store_eq (by simp; omega), ← ha]
      simp
    have hrest := unmask_eq hkey r d (a ++ [x ^^^ a.getD (key + i % 4) 0]) (i + 1)
      (by simp; omega)
    have hkeys (j : ℕ) : (a ++ [x ^^^ a.getD (key + i % 4) 0]).getD (key + (i + 1 + j) % 4) 0 =
        a.getD (key + (i + (j + 1)) % 4) 0 := by
      rw [getD_append _ _ _ _ (by omega), show i + 1 + j = i + (j + 1) by omega]
    rw [length_cons, unmask, hx]
    show (load _ _ >>= _) = _
    rw [hk]
    show (store _ _ _ >>= _) = _
    rw [hset]
    show unmask _ _ _ _ _ = _
    rw [hrest]
    simp only [hkeys, mapIdx_cons, Nat.add_zero, append_assoc, cons_append, nil_append]

theorem hdrlen_cases (b : UInt8) : hdrlen b = 6 ∨ hdrlen b = 8 ∨ hdrlen b = 14 := by
  rw [hdrlen]
  split
  · exact Or.inl rfl
  · split
    · exact Or.inr (Or.inl rfl)
    · exact Or.inr (Or.inr rfl)

theorem unmask_chunk {chunk rest : Bytes} {hdr : ℕ} (hhdr : 4 ≤ hdr) (hlen : hdr ≤ chunk.length) :
    unmask (hdr - 4) hdr (chunk.length - hdr) 0 (chunk ++ rest) =
      .ok (chunk.take hdr ++ (mask (keyOf chunk hdr) (chunk.drop hdr) ++ rest)) := by
  have hsplit : chunk ++ rest = chunk.take hdr ++ (chunk.drop hdr ++ rest) := by
    rw [← append_assoc, take_append_drop]
  have hn : chunk.length - hdr = (chunk.drop hdr).length := length_drop.symm
  rw [hsplit, hn, unmask_eq (by omega) rest (chunk.drop hdr) (chunk.take hdr) 0 (by simp; omega)]
  have hkey (j : ℕ) : (chunk.take hdr).getD (hdr - 4 + (0 + j) % 4) 0 =
      keyOf chunk hdr (Fin.ofNat 4 j) := by
    rw [keyOf, Nat.zero_add, Fin.val_ofNat, getD_eq_getElem?_getD, getD_eq_getElem?_getD,
      getElem?_take_of_lt (by omega)]
  simp only [hkey, mask]

/-- What a verdict and a buffer with `x` bytes in it are to the socket. -/
def delivered (buf : Bytes) (x : ℕ) : Verdict → Delivery
  | .data => .handed (buf.take x)
  | .closed _ => .closed
  | .tooShort => .dropped

theorem webuiUnframe_gives {chunk rest : Bytes} (hchunk : chunk.length ≤ readMax)
    (hsize : (chunk ++ rest).length = bufSize) :
    Gives (webuiUnframe (chunk ++ rest) chunk.length) fun (buf, x, verdict) =>
      buf.length = bufSize ∧ x < bufSize ∧ delivered buf x verdict = unframed chunk := by
  have hbuf : bufSize = readMax + 2 := rfl
  have hmax : readMax = 16384 := rfl
  rw [webuiUnframe, unframed]
  by_cases h2 : chunk.length < 2
  · rw [if_pos h2, if_pos (Or.inl h2)]
    exact Gives.ok ⟨hsize, by omega, rfl⟩
  rw [if_neg h2]
  refine Gives.bind (load_gives (by omega)) ?_
  rintro _ rfl
  rw [getD_append _ _ _ _ (by omega)]
  set hdr := hdrlen (chunk.getD 1 0) with hhdr
  have hcases : hdr = 6 ∨ hdr = 8 ∨ hdr = 14 := hdrlen_cases _
  by_cases hshort : chunk.length < hdr
  · rw [if_pos hshort, if_pos (Or.inr hshort)]
    exact Gives.ok ⟨hsize, by omega, rfl⟩
  rw [if_neg hshort, if_neg (by omega)]
  have hout : (chunk.take hdr ++ (mask (keyOf chunk hdr) (chunk.drop hdr) ++ rest)).length = bufSize := by
    rw [← hsize]
    simp
    omega
  refine Gives.bind ⟨_, unmask_chunk (by omega) (by omega), rfl⟩ ?_
  rintro _ rfl
  refine Gives.bind (load_gives (by omega)) ?_
  rintro _ rfl
  have hfirst : (chunk.take hdr ++ (mask (keyOf chunk hdr) (chunk.drop hdr) ++ rest)).getD 0 0 =
      chunk.headD 0 := by
    rw [getD_append _ _ _ _ (by simp; omega)]
    cases chunk with
    | nil => simp at h2
    | cons b chunk => rw [show hdr = hdr - 1 + 1 by omega, take_succ_cons]; rfl
  rw [hfirst]
  by_cases hclose : chunk.headD 0 &&& 0x08 ≠ 0
  · rw [if_pos hclose, if_pos hclose]
    refine Gives.bind (load_gives (by omega)) ?_
    rintro hi -
    refine Gives.bind (load_gives (by omega)) ?_
    rintro lo -
    exact Gives.ok ⟨hout, by omega, rfl⟩
  rw [if_neg hclose, if_neg hclose]
  have hmasked : (mask (keyOf chunk hdr) (chunk.drop hdr)).length = chunk.length - hdr := by simp
  have hmove : memmove (chunk.take hdr ++ (mask (keyOf chunk hdr) (chunk.drop hdr) ++ rest)) hdr
      (chunk.length - hdr) = .ok (mask (keyOf chunk hdr) (chunk.drop hdr) ++
        (chunk.take hdr ++ (mask (keyOf chunk hdr) (chunk.drop hdr) ++ rest)).drop
          (chunk.length - hdr)) := by
    rw [memmove, if_pos (by omega), drop_append_of_le_length (by simp; omega)]
    congr 2
    rw [drop_eq_nil_of_le (length_take_le _ _), nil_append, ← hmasked, take_left]
  generalize htail : (chunk.take hdr ++ (mask (keyOf chunk hdr) (chunk.drop hdr) ++ rest)).drop
    (chunk.length - hdr) = tail at hmove
  have htaillen : tail.length = bufSize - (chunk.length - hdr) := by
    rw [← htail, length_drop, hout]
  refine Gives.bind ⟨_, hmove, rfl⟩ ?_
  rintro _ rfl
  have hcopy : memcpy (mask (keyOf chunk hdr) (chunk.drop hdr) ++ tail) (chunk.length - hdr)
      [0x0d, 0x0a, 0] = .ok (mask (keyOf chunk hdr) (chunk.drop hdr) ++ ([0x0d, 0x0a] ++
        (0 :: tail.drop 3))) := by
    rw [memcpy, if_pos (by simp; omega), ← hmasked, take_left]
    simp [drop_append]
  refine Gives.bind ⟨_, hcopy, rfl⟩ ?_
  rintro _ rfl
  refine Gives.ok ⟨by simp; omega, by omega, ?_⟩
  have htext : (mask (keyOf chunk hdr) (chunk.drop hdr) ++ [0x0d, 0x0a]).length =
      chunk.length - hdr + 2 := by simp
  rw [delivered, ← append_assoc, ← htext, take_left]

theorem sockread_gives {buf chunk : Bytes} (hbuf : buf.length = bufSize)
    (hchunk : chunk.length ≤ readMax) :
    Gives (sockread buf chunk) fun (buf', d) => buf'.length = bufSize ∧ d = unframed chunk := by
  have hsize : bufSize = readMax + 2 := rfl
  have hcopy : memcpy buf 0 chunk = .ok (chunk ++ buf.drop chunk.length) := by
    rw [memcpy, if_pos (by omega)]
    simp
  rw [sockread, hcopy]
  refine Gives.bind (Gives.ok rfl) ?_
  rintro _ rfl
  refine Gives.bind (webuiUnframe_gives hchunk (by simp; omega)) ?_
  rintro ⟨buf', x, verdict⟩ ⟨hlen, hx, hdelivered⟩
  refine Gives.bind ⟨_, store_eq (by omega) 0, rfl⟩ ?_
  rintro _ rfl
  have hset : (buf'.set x 0).length = bufSize := by rw [length_set, hlen]
  cases verdict with
  | data =>
    refine Gives.ok ⟨hset, ?_⟩
    rw [← hdelivered, delivered, take_set_of_le (Nat.le_refl x)]
  | closed status => exact Gives.ok ⟨hset, hdelivered⟩
  | tooShort => exact Gives.ok ⟨hset, hdelivered⟩

/-! ### Frames -/

theorem hdrlen_form {form : Form} {n : ℕ} (h : form.holds n) (k : Bytes) :
    hdrlen ((form.bytes 0x80 n ++ k).getD 0 0) = (form.bytes 0x80 n).length + 5 := by
  cases form with
  | short =>
    have hshort : ∀ m < 126, 0x80 ||| UInt8.ofNat m < 0xfe := by decide
    show hdrlen (0x80 ||| UInt8.ofNat n) = 6
    rw [hdrlen, if_pos (hshort n (Nat.lt_succ_of_le h))]
  | medium => rfl
  | long => rfl

theorem hdrlen_encode (f : Masked) : hdrlen (f.encode.getD 1 0) = f.head.length := by
  have hsecond : f.encode.getD 1 0 = (f.form.bytes 0x80 f.payload.length ++
      (List.ofFn f.key ++ mask f.key f.payload)).getD 0 0 := by
    simp only [Masked.encode, Masked.head, cons_append, append_assoc]
    rfl
  rw [hsecond, hdrlen_form f.fits, f.length_head]

theorem headD_encode (f : Masked) : f.encode.headD 0 = f.firstByte := rfl

theorem code_bit (fin : Bool) (opcode : Opcode) :
    ((if fin then 0x80 else 0) ||| opcode.code) &&& 0x08 ≠ 0 ↔ opcode.isData = false := by
  cases fin <;> cases opcode <;> decide

theorem firstByte_bit (f : Frame) : f.firstByte &&& 0x08 ≠ 0 ↔ f.opcode.isData = false :=
  code_bit f.fin f.opcode

theorem keyOf_encode (f : Masked) : keyOf f.encode f.head.length = f.key := by
  funext i
  have hlen := f.length_head
  have hpre : (f.firstByte :: f.form.bytes 0x80 f.payload.length).length = f.head.length - 4 := by
    simp [hlen]
  have hsplit : f.encode = (f.firstByte :: f.form.bytes 0x80 f.payload.length) ++
      (List.ofFn f.key ++ mask f.key f.payload) := by
    simp [Masked.encode, Masked.head]
  rw [keyOf, hsplit, getD_append_right _ _ _ _ (by omega), hpre, Nat.add_sub_cancel_left,
    getD_append _ _ _ _ (by rw [length_ofFn]; exact i.2), getD_eq_getElem _ _ (by rw [length_ofFn]; exact i.2),
    List.getElem_ofFn]

theorem unframed_encode (f : Masked) (hdata : f.opcode.isData = true) :
    unframed f.encode = .handed (f.payload ++ [0x0d, 0x0a]) := by
  have hlen : f.encode.length = f.head.length + f.payload.length := by simp [Masked.encode]
  have hhead := f.length_head
  rw [unframed, hdrlen_encode, headD_encode, if_neg (by omega),
    if_neg fun h => by simp [(firstByte_bit _).1 h] at hdata]
  simp only [keyOf_encode]
  rw [show f.encode.drop f.head.length = mask f.key f.payload from drop_left, mask_mask]

theorem getD_prefix_agree {a b s : Bytes} (ha : a <+: s) (hb : b <+: s) {i : ℕ} (hi : i < a.length)
    (hi' : i < b.length) : a.getD i 0 = b.getD i 0 := by
  obtain ⟨x, rfl⟩ := ha
  obtain ⟨y, hy⟩ := hb
  rw [← getD_append a x 0 i hi, ← hy, getD_append b y 0 i hi']

theorem unframed_of_prefix {f : Masked} {chunk s : Bytes} (hchunk : chunk <+: s)
    (hf : f.encode <+: s) :
    unframed chunk =
      if chunk.length < f.head.length then .dropped
      else if f.opcode.isData = true then
        .handed (mask (keyOf chunk f.head.length) (chunk.drop f.head.length) ++ [0x0d, 0x0a])
      else .closed := by
  have hlen : f.encode.length = f.head.length + f.payload.length := by simp [Masked.encode]
  have hhead := f.length_head
  rw [unframed]
  by_cases h2 : chunk.length < 2
  · rw [if_pos (Or.inl h2), if_pos (by omega)]
  rw [getD_prefix_agree hchunk hf (by omega) (by omega), hdrlen_encode]
  have hfirst : chunk.headD 0 = f.firstByte := by
    rw [← headD_encode, headD_eq_getD, headD_eq_getD]
    exact getD_prefix_agree hchunk hf (by omega) (by omega)
  rw [hfirst]
  by_cases hshort : chunk.length < f.head.length
  · rw [if_pos (Or.inr hshort), if_pos hshort]
  rw [if_neg (by omega), if_neg hshort]
  by_cases hdata : f.opcode.isData = true
  · rw [if_neg fun h => by simp [(firstByte_bit _).1 h] at hdata, if_pos hdata]
  · rw [if_pos ((firstByte_bit _).2 (by simpa using hdata)), if_neg hdata]

/-! ### Runs -/

/-- What one read brings.  Without TLS, and where there are threads for it, the reading is left to
the thread pool, whose callback knows nothing of websockets. -/
structure Read where
  bytes : Bytes
  viaPool : Bool
  deriving DecidableEq

/-- What is handed on from where in the stream on; a read by the thread pool hands on what it is. -/
inductive Entry
  | unframed (start : ℕ) (d : Delivery)
  | raw (start : ℕ) (text : Bytes)
  deriving DecidableEq

/-- The reads of a websocket, from byte `start` of the stream on, up to the one that closes it. -/
def receive (start : ℕ) (buf : Bytes) : List Read → Except Fault (List Entry)
  | [] => .ok []
  | r :: rs =>
    if r.viaPool then (receive (start + r.bytes.length) buf rs).map (.raw start r.bytes :: ·)
    else do
      let (buf, d) ← sockread buf r.bytes
      match d with
      | .handed _ => (receive (start + r.bytes.length) buf rs).map (.unframed start d :: ·)
      | .closed | .dropped => .ok [.unframed start d]

/-- The same without the buffer. -/
def deliveries (start : ℕ) : List Read → List Entry
  | [] => []
  | r :: rs =>
    if r.viaPool then .raw start r.bytes :: deliveries (start + r.bytes.length) rs
    else
      match unframed r.bytes with
      | .handed t => .unframed start (.handed t) :: deliveries (start + r.bytes.length) rs
      | .closed => [.unframed start .closed]
      | .dropped => [.unframed start .dropped]

/-- What the frames of a client are to be: the data frames are handed on, each with the end of a
line behind it, and a close frame closes. -/
def expected (start : ℕ) : List Masked → List Entry
  | [] => []
  | f :: fs =>
    if f.opcode.isData = true then
      .unframed start (.handed (f.payload ++ [0x0d, 0x0a])) :: expected (start + f.encode.length) fs
    else if f.opcode = .close then [.unframed start .closed]
    else expected (start + f.encode.length) fs

/-- Every read up to the close frame is one data frame, and the read in which the close frame
starts has its header. -/
def Aligned : List Masked → List Read → Prop
  | [], _ => True
  | _ :: _, [] => False
  | f :: fs, r :: rs =>
    r.viaPool = false ∧
      if f.opcode.isData = true then r.bytes = f.encode ∧ Aligned fs rs
      else f.opcode = .close ∧ f.head.length ≤ r.bytes.length

theorem receive_eq {rs : List Read} (hrs : ∀ r ∈ rs, r.bytes.length ≤ readMax) :
    ∀ {buf : Bytes} (start : ℕ), buf.length = bufSize →
      receive start buf rs = .ok (deliveries start rs) := by
  induction rs with
  | nil => exact fun _ _ => rfl
  | cons r rs ih =>
    intro buf start hbuf
    rw [forall_mem_cons] at hrs
    rw [receive, deliveries]
    by_cases hpool : r.viaPool = true
    · rw [if_pos hpool, if_pos hpool, ih hrs.2 _ hbuf]
      rfl
    rw [if_neg hpool, if_neg hpool]
    obtain ⟨⟨buf', d⟩, hread, hbuf', rfl⟩ := sockread_gives hbuf hrs.1
    rw [hread]
    show (match unframed r.bytes with
      | .handed _ => _
      | .closed | .dropped => _) = _
    cases unframed r.bytes with
    | handed t =>
      dsimp only
      rw [ih hrs.2 _ hbuf']
      rfl
    | closed => rfl
    | dropped => rfl

theorem start_le_of_mem_expected {fs : List Masked} : ∀ {start : ℕ} {e : Entry},
    e ∈ expected start fs → ∃ at' d, e = .unframed at' d ∧ start ≤ at' := by
  induction fs with
  | nil => exact fun h => absurd h not_mem_nil
  | cons f fs ih =>
    intro start e he
    rw [expected] at he
    have hlater (he : e ∈ expected (start + f.encode.length) fs) :
        ∃ at' d, e = .unframed at' d ∧ start ≤ at' := by
      obtain ⟨at', d, rfl, hle⟩ := ih he
      exact ⟨at', d, rfl, by omega⟩
    split at he
    · rcases mem_cons.1 he with rfl | he
      · exact ⟨start, _, rfl, Nat.le_refl _⟩
      · exact hlater he
    · split at he
      · obtain rfl := mem_singleton.1 he
        exact ⟨start, _, rfl, Nat.le_refl _⟩
      · exact hlater he

theorem encode_pos (f : Masked) : 0 < f.encode.length := by simp [Masked.encode, Masked.head]

/-- What comes of the reads of a stream of frames is what is expected of the frames exactly if
frames and reads are aligned. -/
theorem deliveries_eq_iff {fs : List Masked} : ∀ {rs : List Read} (start : ℕ),
    (∀ r ∈ rs, r.bytes ≠ []) → rs.flatMap Read.bytes = fs.flatMap Masked.encode →
      (deliveries start rs = expected start fs ↔ Aligned fs rs) := by
  induction fs with
  | nil =>
    intro rs start hne hstream
    obtain rfl : rs = [] := by
      cases rs with
      | nil => rfl
      | cons r rs =>
        simp only [flatMap_cons, flatMap_nil, append_eq_nil_iff] at hstream
        exact absurd hstream.1 (hne r mem_cons_self)
    exact ⟨fun _ => trivial, fun _ => rfl⟩
  | cons f fs ih =>
    intro rs start hne hstream
    cases rs with
    | nil =>
      simp only [flatMap_cons, flatMap_nil] at hstream
      have := congrArg length hstream
      have hpos := encode_pos f
      simp at this
      omega
    | cons r rs =>
      rw [forall_mem_cons] at hne
      simp only [flatMap_cons] at hstream
      rw [deliveries, Aligned]
      by_cases hpool : r.viaPool = true
      · rw [if_pos hpool]
        refine iff_of_false (fun h => ?_) fun h => by simp [hpool] at h
        have hmem : Entry.raw start r.bytes ∈ expected start (f :: fs) := h ▸ mem_cons_self
        obtain ⟨_, _, he, -⟩ := start_le_of_mem_expected hmem
        exact Entry.noConfusion he
      rw [if_neg hpool]
      have hunframed := unframed_of_prefix (f := f) (prefix_append r.bytes (rs.flatMap Read.bytes))
        (hstream ▸ prefix_append _ _)
      have hlen : f.encode.length = f.head.length + f.payload.length := by simp [Masked.encode]
      rw [hunframed, expected]
      by_cases hdata : f.opcode.isData = true
      · rw [if_pos hdata, if_pos hdata, if_pos hdata]
        by_cases hshort : r.bytes.length < f.head.length
        · rw [if_pos hshort]
          refine iff_of_false (fun h => by simp at h) fun h => ?_
          rw [h.2.1] at hshort
          omega
        rw [if_neg hshort]
        have hwhole (h : r.bytes = f.encode) :
            rs.flatMap Read.bytes = fs.flatMap Masked.encode := by
          rw [h] at hstream
          exact append_cancel_left hstream
        constructor
        · intro h
          obtain ⟨hhead, hrest⟩ := cons.inj h
          -- the lengths of the payloads agree, and with them the whole frame and the read
          have hpayload : r.bytes.length = f.encode.length := by
            have := congrArg length (append_cancel_right (Delivery.handed.inj (Entry.unframed.inj hhead).2))
            rw [length_mask, length_drop] at this
            omega
          have hbytes : r.bytes = f.encode := append_inj_left hstream hpayload
          rw [hbytes] at hrest
          exact ⟨by simpa using hpool, hbytes, (ih _ hne.2 (hwhole hbytes)).1 hrest⟩
        · rintro ⟨-, hbytes, haligned⟩
          have htext := unframed_encode f hdata
          rw [← hbytes, hunframed, if_neg hshort, if_pos hdata] at htext
          rw [Delivery.handed.inj htext, hbytes, (ih _ hne.2 (hwhole hbytes)).2 haligned]
      rw [if_neg hdata, if_neg hdata, if_neg hdata]
      by_cases hclose : f.opcode = .close
      · rw [if_pos hclose]
        by_cases hshort : r.bytes.length < f.head.length
        · rw [if_pos hshort]
          exact iff_of_false (fun h => by simp at h) fun h => absurd h.2.2 (by omega)
        · rw [if_neg hshort]
          exact iff_of_true rfl ⟨by simpa using hpool, hclose, by omega⟩
      · -- a ping or pong is to be passed over, but closes
        rw [if_neg hclose]
        refine iff_of_false (fun h => ?_) fun h => hclose h.2.1
        have hpos := encode_pos f
        have hmem : ∃ d, Entry.unframed start d ∈ expected (start + f.encode.length) fs := by
          rw [← h]
          by_cases hshort : r.bytes.length < f.head.length
          · rw [if_pos hshort]
            exact ⟨_, mem_singleton_self _⟩
          · rw [if_neg hshort]
            exact ⟨_, mem_singleton_self _⟩
        obtain ⟨d, hmem⟩ := hmem
        obtain ⟨at', d', he, hle⟩ := start_le_of_mem_expected hmem
        obtain ⟨rfl, -⟩ := Entry.unframed.inj he
        omega

/-- For frames of a client and reads of their bytes: no read touches anything outside the buffer,
and the frames are handed on as they should be exactly if the reads are aligned with them. -/
theorem unframe_iff (fs : List Masked) (rs : List Read) (buf : Bytes) (hbuf : buf.length = bufSize)
    (hrs : ∀ r ∈ rs, r.bytes ≠ [] ∧ r.bytes.length ≤ readMax)
    (hstream : rs.flatMap Read.bytes = fs.flatMap Masked.encode) :
    ∃ entries, receive 0 buf rs = .ok entries ∧ (entries = expected 0 fs ↔ Aligned fs rs) :=
  ⟨deliveries 0 rs, receive_eq (fun r hr => (hrs r hr).2) 0 hbuf,
    deliveries_eq_iff 0 (fun r hr => (hrs r hr).1) hstream⟩

/-- `Hi` as a client may send it. -/
def hiFrame : Masked :=
  { fin := true, opcode := .text, payload := [0x48, 0x69], form := .short
    key := fun i => UInt8.ofNat (17 * i.val + 3), fits := by decide }

/-- Two bytes and a close frame, of which the last read has the key only in part. -/
def hiFrames : List Masked :=
  [hiFrame, { hiFrame with fin := false }, { hiFrame with opcode := .close }]

def hiReads : List Read :=
  [⟨hiFrame.encode, false⟩, ⟨Masked.encode { hiFrame with fin := false }, false⟩,
    ⟨(Masked.encode { hiFrame with opcode := .close }).take 7, false⟩,
    ⟨(Masked.encode { hiFrame with opcode := .close }).drop 7, false⟩]

theorem unframe_iff_hi :
    ∃ entries, receive 0 (replicate bufSize 0) hiReads = .ok entries ∧
      (entries = expected 0 hiFrames ↔ Aligned hiFrames hiReads) :=
  unframe_iff hiFrames hiReads (replicate bufSize 0) length_replicate (by decide) (by decide)

def pingFrame : Masked :=
  { fin := true, opcode := .ping, payload := [], form := .short
    key := fun i => UInt8.ofNat (17 * i.val + 3), fits := by decide }

/-- A ping closes the connection, and what comes behind it is lost. -/
theorem not_unframe_ping :
    ¬ ∀ (fs : List Masked) (rs : List Read) (buf : Bytes), buf.length = bufSize →
      (∀ r ∈ rs, r.bytes ≠ [] ∧ r.bytes.length ≤ readMax) →
      rs.flatMap Read.bytes = fs.flatMap Masked.encode →
      receive 0 buf rs = .ok (expected 0 fs) := by
  intro h
  have hrun := h [pingFrame, hiFrame] [⟨pingFrame.encode, false⟩, ⟨hiFrame.encode, false⟩]
    (replicate bufSize 0) length_replicate (by decide) rfl
  rw [receive_eq (by decide) 0 length_replicate] at hrun
  revert hrun
  decide

end Eggdrop.Webui
