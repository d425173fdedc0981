import Mathlib.Data.List.Basic
import Mathlib.Tactic.Common
import Mathlib.Tactic.Ring

/-!
# WebSocket — the frames of RFC 6455

A frame has a first byte of the final bit and the operation, a length in one of three forms, a key
if it comes from a client, and its payload, which the key masks.

* `mask_mask`: the key that masks also unmasks.
* `parse_encode`: a server's frame is read off the front of a stream.
* `decode_append`: a stream of whole messages is read before what comes behind it.
-/

namespace Eggdrop.WebSocket

abbrev Bytes := List UInt8

inductive Opcode
  | continuation | text | binary | close | ping | pong
  deriving DecidableEq

def Opcode.code : Opcode → UInt8
  | .continuation => 0
  | .text => 1
  | .binary => 2
  | .close => 8
  | .ping => 9
  | .pong => 10

/-- The frames that carry parts of a message. -/
def Opcode.isData : Opcode → Bool
  | .continuation | .text | .binary => true
  | .close | .ping | .pong => false

structure Frame where
  fin : Bool
  opcode : Opcode
  payload : Bytes
  deriving DecidableEq

/-- The form of the length: seven bits, 16 bits or 64 bits. -/
inductive Form
  | short | medium | long
  deriving DecidableEq

/-- The lengths that a form has room for. -/
def Form.holds : Form → ℕ → Prop
  | .short, n => n ≤ 125
  | .medium, n => n < 2 ^ 16
  | .long, n => n < 2 ^ 63

instance : (form : Form) → (n : ℕ) → Decidable (form.holds n)
  | .short, n => inferInstanceAs (Decidable (n ≤ 125))
  | .medium, n => inferInstanceAs (Decidable (n < 2 ^ 16))
  | .long, n => inferInstanceAs (Decidable (n < 2 ^ 63))

/-- The low `k` bytes of `n`, the highest first. -/
@[grind =] def bigEndian : ℕ → ℕ → Bytes
  | 0, _ => []
  | k + 1, n => UInt8.ofNat (n / 256 ^ k) :: bigEndian k n

theorem length_bigEndian (k n : ℕ) : (bigEndian k n).length = k := by
  induction k with
  | zero => rfl
  | succ k ih => rw [bigEndian, List.length_cons, ih]

/-- The byte of the form with the mask bit, and the length. -/
def Form.bytes (maskBit : UInt8) (n : ℕ) : Form → Bytes
  | .short => [maskBit ||| UInt8.ofNat n]
  | .medium => (maskBit ||| 126) :: bigEndian 2 n
  | .long => (maskBit ||| 127) :: bigEndian 8 n

@[grind =] def Frame.firstByte (f : Frame) : UInt8 := (if f.fin then 0x80 else 0) ||| f.opcode.code

/-! ### Clients -/

local instance neZero_four : NeZero 4 := ⟨by decide⟩

/-- The payload with the key laid over it again and again. -/
def mask (key : Fin 4 → UInt8) (data : Bytes) : Bytes :=
  data.mapIdx fun i b => b ^^^ key (Fin.ofNat 4 i)

@[simp] theorem length_mask (key : Fin 4 → UInt8) (data : Bytes) :
    (mask key data).length = data.length := by
  rw [mask, List.length_mapIdx]

theorem mask_mask (key : Fin 4 → UInt8) (data : Bytes) : mask key (mask key data) = data := by
  refine List.ext_getElem (by simp) fun i h h' => ?_
  simp only [mask, List.getElem_mapIdx]
  rw [UInt8.xor_assoc, UInt8.xor_self, UInt8.xor_zero]

/-- A frame as a client sends it, in a form of its choice. -/
structure Masked extends Frame where
  form : Form
  key : Fin 4 → UInt8
  fits : form.holds payload.length

def Masked.head (f : Masked) : Bytes :=
  f.firstByte :: (f.form.bytes 0x80 f.payload.length ++ List.ofFn f.key)

theorem Masked.length_head (f : Masked) : f.head.length = (f.form.bytes 0x80 f.payload.length).length + 5 := by
  simp [Masked.head]

def Masked.encode (f : Masked) : Bytes := f.head ++ mask f.key f.payload

/-! ### Servers -/

/-- The shortest form for a length. -/
@[grind =] def Form.least (n : ℕ) : Form := if n ≤ 125 then .short else if n < 2 ^ 16 then .medium else .long

/-- A frame as a server sends it. -/
def Frame.encode (f : Frame) : Bytes :=
  f.firstByte :: ((Form.least f.payload.length).bytes 0 f.payload.length ++ f.payload)

def Opcode.ofCode (b : UInt8) : Option Opcode :=
  if b = 0 then some .continuation
  else if b = 1 then some .text
  else if b = 2 then some .binary
  else if b = 8 then some .close
  else if b = 9 then some .ping
  else if b = 10 then some .pong
  else none

def ofBigEndian (s : Bytes) : ℕ := s.foldl (fun n b => 256 * n + b.toNat) 0

/-- The length that a frame gives, in the shortest form, and what is behind it. -/
@[grind =] def parseLength (b1 : UInt8) (s : Bytes) : Option (ℕ × Bytes) :=
  if b1 < 126 then some (b1.toNat, s)
  else if b1 = 126 then
    let n := ofBigEndian (s.take 2)
    if 2 ≤ s.length ∧ 126 ≤ n then some (n, s.drop 2) else none
  else
    let n := ofBigEndian (s.take 8)
    if 8 ≤ s.length ∧ 2 ^ 16 ≤ n ∧ n < 2 ^ 63 then some (n, s.drop 8) else none

/-- The frame of a server at the front of a stream: no reserved bit is set, it is not masked, and a
control frame is whole and short. -/
@[grind =] def parse : Bytes → Option (Frame × Bytes)
  | b0 :: b1 :: s =>
    if b0 &&& 0x70 ≠ 0 ∨ 0x80 ≤ b1 then none
    else
      match Opcode.ofCode (b0 &&& 0x0f), parseLength b1 s with
      | some opcode, some (n, rest) =>
        if rest.length < n ∨ (opcode.isData = false ∧ (b0 &&& 0x80 = 0 ∨ 125 < n)) then none
        else some (⟨b0 &&& 0x80 ≠ 0, opcode, rest.take n⟩, rest.drop n)
      | _, _ => none
  | _ => none

/-- UTF-8 with `n` more bytes of a character to come, the next one from `lo` to `hi`. -/
def validUtf8From : ℕ → UInt8 → UInt8 → Bytes → Bool
  | 0, _, _, [] => true
  | _ + 1, _, _, [] => false
  | 0, _, _, b :: s =>
    if b < 0x80 then validUtf8From 0 0 0 s
    else if b < 0xc2 then false
    else if b < 0xe0 then validUtf8From 1 0x80 0xbf s
    else if b = 0xe0 then validUtf8From 2 0xa0 0xbf s
    else if b = 0xed then validUtf8From 2 0x80 0x9f s
    else if b < 0xf0 then validUtf8From 2 0x80 0xbf s
    else if b = 0xf0 then validUtf8From 3 0x90 0xbf s
    else if b < 0xf4 then validUtf8From 3 0x80 0xbf s
    else if b = 0xf4 then validUtf8From 3 0x80 0x8f s
    else false
  | n + 1, lo, hi, b :: s => decide (lo ≤ b ∧ b ≤ hi) && validUtf8From n 0x80 0xbf s

def validUtf8 (s : Bytes) : Bool := validUtf8From 0 0 0 s

inductive Message
  | text (data : Bytes)
  | binary (data : Bytes)
  deriving DecidableEq

/-- A message that a client takes: text is UTF-8. -/
@[grind =] def Message.valid : Message → Bool
  | .text data => validUtf8 data
  | .binary _ => true

def Message.append (data : Bytes) : Message → Message
  | .text start => .text (start ++ data)
  | .binary start => .binary (start ++ data)

/-- The message of which a frame is the start or the next part. -/
@[grind =] def Frame.extend (f : Frame) : Option Message → Option Message
  | none =>
    match f.opcode with
    | .text => some (.text f.payload)
    | .binary => some (.binary f.payload)
    | _ => none
  | some m => if f.opcode = .continuation then some (m.append f.payload) else none

/-- The messages in a stream of at most `fuel` frames, the first of them started already if there
is one `begun`; none if the client fails the connection or the stream ends within a message. -/
@[grind =] def decodeFrom : ℕ → Option Message → Bytes → Option (List Message)
  | _, none, [] => some []
  | _, some _, [] => none
  | 0, _, _ :: _ => none
  | fuel + 1, begun, b :: s =>
    match parse (b :: s) with
    | none => none
    | some (f, rest) =>
      if f.opcode.isData = true then
        match f.extend begun with
        | none => none
        | some m =>
          if f.fin = true then
            if m.valid = true then (decodeFrom fuel none rest).map (m :: ·) else none
          else decodeFrom fuel (some m) rest
      else decodeFrom fuel begun rest

/-- The messages that a client reads in a stream. -/
def decode (s : Bytes) : Option (List Message) := decodeFrom s.length none s

/-! ### Reading what a server wrote -/

theorem foldl_bigEndian (k n acc : ℕ) :
    (bigEndian k n).foldl (fun n b => 256 * n + b.toNat) acc = 256 ^ k * acc + n % 256 ^ k := by
  induction k generalizing acc with
  | zero => simp [bigEndian, Nat.mod_one]
  | succ k ih =>
    have hmod : n % 256 ^ (k + 1) = n % 256 ^ k + 256 ^ k * (n / 256 ^ k % 256) := Nat.mod_pow_succ
    rw [bigEndian, List.foldl_cons, ih, UInt8.toNat_ofNat', hmod]
    ring

theorem ofBigEndian_bigEndian {k n : ℕ} (h : n < 256 ^ k) : ofBigEndian (bigEndian k n) = n := by
  rw [ofBigEndian, foldl_bigEndian, Nat.mul_zero, Nat.zero_add, Nat.mod_eq_of_lt h]

theorem parseLength_bytes {n : ℕ} (h : n < 2 ^ 63) (s : Bytes) :
    ∃ b1 t, (Form.least n).bytes 0 n ++ s = b1 :: t ∧ b1 < 0x80 ∧ parseLength b1 t = some (n, s) := by
  rw [Form.least]
  by_cases hs : n ≤ 125
  · have hsmall : ∀ m < 126, 0 ||| UInt8.ofNat m < 0x80 ∧ 0 ||| UInt8.ofNat m < 126 ∧
        (0 ||| UInt8.ofNat m).toNat = m := by decide
    obtain ⟨h1, h2, h3⟩ := hsmall n (by omega)
    rw [if_pos hs]
    exact ⟨0 ||| UInt8.ofNat n, s, rfl, h1, by rw [parseLength, if_pos h2, h3]⟩
  rw [if_neg hs]
  by_cases hm : n < 2 ^ 16
  · rw [if_pos hm]
    refine ⟨126, bigEndian 2 n ++ s, rfl, by decide, ?_⟩
    have hlen := length_bigEndian 2 n
    rw [parseLength, if_neg (by decide), if_pos rfl]
    simp only
    rw [List.take_left' hlen, List.drop_left' hlen, ofBigEndian_bigEndian (by omega),
      if_pos ⟨by simp [hlen], by omega⟩]
  · rw [if_neg hm]
    refine ⟨127, bigEndian 8 n ++ s, rfl, by decide, ?_⟩
    have hlen := length_bigEndian 8 n
    rw [parseLength, if_neg (by decide), if_neg (by decide)]
    simp only
    rw [List.take_left' hlen, List.drop_left' hlen, ofBigEndian_bigEndian (by omega),
      if_pos ⟨by simp [hlen], by omega, h⟩]

theorem firstByte_parts (fin : Bool) (opcode : Opcode) :
    ((if fin then 0x80 else 0) ||| opcode.code) &&& 0x70 = 0 ∧
      Opcode.ofCode (((if fin then 0x80 else 0) ||| opcode.code) &&& 0x0f) = some opcode ∧
      decide (((if fin then 0x80 else 0) ||| opcode.code) &&& 0x80 ≠ 0) = fin := by
  cases fin <;> cases opcode <;> decide

theorem parse_encode (f : Frame) (hdata : f.opcode.isData = true) (h : f.payload.length < 2 ^ 63)
    (s : Bytes) : parse (f.encode ++ s) = some (f, s) := by
  obtain ⟨b1, t, hbytes, hb1, hlength⟩ := parseLength_bytes h (f.payload ++ s)
  obtain ⟨hreserved, hcode, hfin⟩ := firstByte_parts f.fin f.opcode
  have hstream : f.encode ++ s = f.firstByte :: b1 :: t := by
    rw [Frame.encode, List.cons_append, List.append_assoc, hbytes]
  rw [hstream, parse, Frame.firstByte, hreserved, hcode, hlength, hfin]
  rw [if_neg (by simpa using hb1)]
  simp [hdata]

theorem length_of_parseLength {b1 : UInt8} {s rest : Bytes} {n : ℕ}
    (h : parseLength b1 s = some (n, rest)) : rest.length ≤ s.length := by
  rw [parseLength] at h
  split at h
  · obtain ⟨-, rfl⟩ : b1.toNat = n ∧ s = rest := by simpa using h
    exact Nat.le_refl _
  split at h
  · dsimp only at h
    split at h
    · obtain ⟨-, rfl⟩ : _ = n ∧ s.drop 2 = rest := by simpa using h
      simp
    · simp at h
  · dsimp only at h
    split at h
    · obtain ⟨-, rfl⟩ : _ = n ∧ s.drop 8 = rest := by simpa using h
      simp
    · simp at h

theorem length_of_parse {s rest : Bytes} {f : Frame} (h : parse s = some (f, rest)) :
    rest.length < s.length := by
  unfold parse at h
  split at h
  · split at h
    · simp at h
    split at h
    · next b0 b1 t _ opcode n rest' hop hlen =>
      have := length_of_parseLength hlen
      split at h
      · simp at h
      · obtain ⟨-, rfl⟩ : _ = f ∧ rest'.drop n = rest := by simpa using h
        simp
        omega
    · simp at h
  · simp at h

theorem parseLength_append {b1 : UInt8} {s rest : Bytes} {n : ℕ}
    (h : parseLength b1 s = some (n, rest)) (b : Bytes) :
    parseLength b1 (s ++ b) = some (n, rest ++ b) := by
  rw [parseLength] at h ⊢
  split at h
  · next hs =>
    obtain ⟨rfl, rfl⟩ : b1.toNat = n ∧ s = rest := by simpa using h
    rw [if_pos hs]
  next hs =>
  rw [if_neg hs]
  split at h
  · next hm =>
    rw [if_pos hm]
    dsimp only at h ⊢
    split at h
    · next hlen =>
      obtain ⟨rfl, rfl⟩ : _ = n ∧ s.drop 2 = rest := by simpa using h
      rw [List.take_append_of_le_length hlen.1, List.drop_append_of_le_length hlen.1,
        if_pos ⟨by rw [List.length_append]; omega, hlen.2⟩]
    · simp at h
  · next hm =>
    rw [if_neg hm]
    dsimp only at h ⊢
    split at h
    · next hlen =>
      obtain ⟨rfl, rfl⟩ : _ = n ∧ s.drop 8 = rest := by simpa using h
      rw [List.take_append_of_le_length hlen.1, List.drop_append_of_le_length hlen.1,
        if_pos ⟨by rw [List.length_append]; omega, hlen.2⟩]
    · simp at h

theorem parse_append {s rest : Bytes} {f : Frame} (h : parse s = some (f, rest)) (b : Bytes) :
    parse (s ++ b) = some (f, rest ++ b) := by
  unfold parse at h
  split at h
  · next b0 b1 t =>
    split at h
    · simp at h
    next hbits =>
    split at h
    · next opcode n rest' hop hlen =>
      split at h
      · simp at h
      · next hshort =>
        obtain ⟨rfl, rfl⟩ := Prod.mk.inj (Option.some.inj h)
        rw [not_or] at hshort
        rw [List.cons_append, List.cons_append, parse, if_neg hbits, hop, parseLength_append hlen]
        dsimp only
        rw [if_neg (by rw [List.length_append]; rintro (hl | hl); exacts [by omega, hshort.2 hl]),
          List.take_append_of_le_length (by omega), List.drop_append_of_le_length (by omega)]
    · simp at h
  · simp at h

theorem decodeFrom_fuel : ∀ {n m : ℕ} {begun : Option Message} {s : Bytes}, s.length ≤ n →
    s.length ≤ m → decodeFrom n begun s = decodeFrom m begun s
  | _, _, none, [], _, _ => by simp [decodeFrom]
  | _, _, some _, [], _, _ => by simp [decodeFrom]
  | 0, _, _, _ :: _, h, _ => by simp at h
  | _ + 1, 0, _, _ :: _, _, h => by simp at h
  | n + 1, m + 1, begun, b :: s, hn, hm => by
    rw [decodeFrom, decodeFrom]
    cases hparse : parse (b :: s) with
    | none => rfl
    | some p =>
      obtain ⟨f, rest⟩ := p
      have hlt := length_of_parse hparse
      have ih (begun : Option Message) : decodeFrom n begun rest = decodeFrom m begun rest :=
        decodeFrom_fuel (by simp at hlt hn; omega) (by simp at hlt hm; omega)
      simp only [ih]

theorem decode_eq {n : ℕ} {s : Bytes} (h : s.length ≤ n) : decodeFrom n none s = decode s :=
  decodeFrom_fuel h (Nat.le_refl _)

theorem decodeFrom_append : ∀ {n m : ℕ} {begun : Option Message} {a b : Bytes} {l : List Message},
    decodeFrom n begun a = some l → (a ++ b).length ≤ m →
      decodeFrom m begun (a ++ b) = (decode b).map (l ++ ·)
  | _, _, none, [], b, l, h, hm => by
    obtain rfl : l = [] := by simpa [decodeFrom] using h
    show decodeFrom _ none b = _
    rw [decode_eq (show b.length ≤ _ from hm)]
    simp
  | _, _, some _, [], _, _, h, _ => by simp [decodeFrom] at h
  | 0, _, _, _ :: _, _, _, h, _ => by simp [decodeFrom] at h
  | _ + 1, 0, _, _ :: _, _, _, _, hm => by simp at hm
  | n + 1, m + 1, begun, x :: a, b, l, h, hm => by
    rw [decodeFrom] at h
    cases hparse : parse (x :: a) with
    | none => simp [hparse] at h
    | some p =>
      obtain ⟨f, rest⟩ := p
      have hlt := length_of_parse hparse
      have hfuel : (rest ++ b).length ≤ m := by
        simp only [List.length_cons, List.length_append, List.cons_append] at hlt hm ⊢
        omega
      rw [hparse] at h
      rw [List.cons_append, decodeFrom, ← List.cons_append, parse_append hparse]
      dsimp only at h ⊢
      by_cases hdata : f.opcode.isData = true
      · rw [if_pos hdata] at h ⊢
        cases hext : f.extend begun with
        | none => simp [hext] at h
        | some msg =>
          rw [hext] at h
          dsimp only at h ⊢
          by_cases hfin : f.fin = true
          · rw [if_pos hfin] at h ⊢
            by_cases hvalid : msg.valid = true
            · rw [if_pos hvalid] at h ⊢
              obtain ⟨l', hl', rfl⟩ := Option.map_eq_some_iff.1 h
              rw [decodeFrom_append hl' hfuel, Option.map_map]
              rfl
            · simp [hvalid] at h
          · rw [if_neg hfin] at h ⊢
            exact decodeFrom_append h hfuel
      · rw [if_neg hdata] at h ⊢
        exact decodeFrom_append h hfuel

theorem decode_append {a : Bytes} {l : List Message} (h : decode a = some l) (b : Bytes) :
    decode (a ++ b) = (decode b).map (l ++ ·) :=
  decodeFrom_append h (Nat.le_refl _)

theorem decode_text {data : Bytes} (hlen : data.length < 2 ^ 63) (b : Bytes) :
    decode ((⟨true, .text, data⟩ : Frame).encode ++ b) =
      if validUtf8 data = true then (decode b).map (.text data :: ·) else none := by
  have hparse := parse_encode ⟨true, .text, data⟩ rfl hlen b
  have hlt := length_of_parse hparse
  generalize hs : (⟨true, .text, data⟩ : Frame).encode ++ b = s at hparse hlt
  obtain ⟨x, t, rfl⟩ : ∃ x t, s = x :: t := List.exists_cons_of_ne_nil fun h => by
    rw [h] at hlt
    exact absurd hlt (Nat.not_lt_zero _)
  rw [decode, List.length_cons, decodeFrom, hparse]
  simp only [Opcode.isData, Frame.extend, Message.valid, if_true]
  rw [decode_eq (by simpa using Nat.le_of_lt_succ hlt)]
  rfl

end Eggdrop.WebSocket
