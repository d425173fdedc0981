import Mathlib.Data.UInt
import Eggdrop.Lib.Assemble
import Eggdrop.Lib.Run

/-!
# DccGet — what the receiver of a file acknowledges (transfer.mod/transfer.c)

The receiver answers in words of four bytes, the high one first, each with how much it has; when a
transfer is taken up again, there is a header of eight bytes before them.  `dcc_get` keeps what comes
of a word until it is complete; and what it does depends on where the packets end.

* `run_feeds`: while packets keep to the words, the state is that of the bytes, one at a time.
* `dccGet_agree`: so it is the same however they are split.
-/

open List

namespace Eggdrop.Transfer.DccGet

inductive Fault
  /-- a copy outside of the field that is put together -/
  | outside
  deriving DecidableEq

/-- `XFER_SEND` and the others. -/
inductive XferType
  | send
  | resend
  | resendPend
  | resume
  | resumePend
  | get
  deriving DecidableEq

/-- `XFER_ACK_UNKNOWN` and the others. -/
inductive AckType
  | unknown
  | withOffset
  | withoutOffset
  deriving DecidableEq

/-- What is logged, and what is done to the file and the socket. -/
inductive Event
  | regetPacket
  | behindFileend
  | trySkipAhead
  | seek (pos : UInt64)
  | resumeFile (kb : UInt64)
  | pump (l : UInt64)
  | finished
  deriving DecidableEq

/-- The transfer: the fields of `xfer_info` and the `status` of its connection, whose nick is `*users`
or another.  When it is `ended`, the connection is no more. -/
structure Progress where
  users : Bool
  length : UInt64
  acked : UInt64
  offset : UInt64
  status : UInt64
  type : XferType
  ackType : AckType
  ended : Bool
  events : List Event
  deriving DecidableEq

/-- The transfer, with `buf` and `sofar`. -/
structure Xfer extends Progress where
  buf : List UInt8
  sofar : ℕ
  length_buf : buf.length = 4

section Source

variable (bigEndian : Bool) (dccBlock : UInt64)

/-! ### One word, and the header -/

/-- `bbuf`, or a number in memory on a machine with the high byte first. -/
def word (bs : List UInt8) : ℕ := bs.foldl (fun n b => n * 256 + b.toNat) 0

/-- A number in memory. -/
def hostWord (bigEndian : Bool) (bs : List UInt8) : ℕ := word (if bigEndian then bs else bs.reverse)

/-- `TRANSFER_REGET_PACKETID`. -/
def regetPacketid : ℕ := 0xfeab

def byteOrderTest : UInt8 := if bigEndian then 0 else 1

/-- `handle_resend_packet`, for `packet_id`, `byte_order`, a byte of padding and `byte_offset`.  The
bytes of a number are switched where the sender has the other order. -/
def handleResendPacket (s : Progress) (regetData : List UInt8) : Progress :=
  let order := if regetData[2]? = some (byteOrderTest bigEndian) then bigEndian else !bigEndian
  if hostWord order (regetData.take 2) ≠ regetPacketid then
    { s with events := s.events ++ [.regetPacket], type := .resend }
  else { s with offset := UInt64.ofNat (hostWord order (regetData.drop 4)), type := .resend }

/-- `ack_type`, when it is not known yet. -/
def ackTypeFor (s : Progress) (cmp : UInt64) : AckType :=
  if s.ackType = .unknown then if cmp < s.offset then .withoutOffset else .withOffset else s.ackType

/-- What is made of `cmp` before it is compared with the status. -/
def settle (s : Progress) (cmp : UInt64) : Progress × UInt64 :=
  if cmp > s.length ∧ cmp > s.status then ({ s with events := s.events ++ [.behindFileend] }, cmp)
  else if cmp > s.status then
    if s.users then ({ s with events := s.events ++ [.trySkipAhead] }, cmp)
    else ({ s with status := cmp, events := s.events ++ [.seek cmp, .resumeFile (cmp / 1024)] }, cmp)
  else
    let s := { s with ackType := ackTypeFor s cmp }
    (s, if s.ackType = .withoutOffset then cmp + s.offset else cmp)

/-- The next block, or the end. -/
def nextBlock (s : Progress) : Progress :=
  if s.status = s.length then { s with ended := true, events := s.events ++ [.finished] }
  else
    let l := if dccBlock = 0 ∨ s.status + dccBlock > s.length then s.length - s.status else dccBlock
    { s with status := s.status + l, events := s.events ++ [.pump l] }

/-- `dcc_get`, from where `cmp` is known. -/
def answer (s : Progress) (cmp : UInt64) : Progress :=
  let (s, cmp) := settle s cmp
  if cmp ≠ s.status then s else nextBlock dccBlock s

/-- A whole word. -/
def ack (s : Progress) (bbuf : List UInt8) : Progress :=
  let cmp := UInt64.ofNat (word bbuf)
  answer dccBlock { s with acked := cmp } cmp

/-- A whole header. -/
def reget (s : Progress) (regetData : List UInt8) : Progress :=
  let s := handleResendPacket bigEndian s regetData
  answer dccBlock s s.offset

/-! ### A packet -/

/-- `memcpy(&buf[i], bs, …)`. -/
def Xfer.memcpy (s : Xfer) (i : ℕ) (bs : List UInt8) : Except Fault Xfer :=
  if h : i + bs.length ≤ 4 then
    .ok { s with
      buf := s.buf.take i ++ bs ++ s.buf.drop (i + bs.length)
      length_buf := by
        have hlen := s.length_buf
        rw [length_append, length_append, length_take, length_drop]
        omega }
  else .error .outside

/-- The word or header is dealt with, and nothing is kept. -/
def Xfer.taken (s : Xfer) (t : Progress) : Xfer := { s with toProgress := t, sofar := 0 }

/-- `dcc_get`.  `&reget_data + sofar` is a place behind `reget_data`, unless it is `&reget_data`. -/
def dccGet (s : Xfer) (buf : List UInt8) : Except Fault Xfer :=
  let w := buf.length + s.sofar
  if w < 4 ∨ (w < 8 ∧ s.type = .resendPend) then do
    let s ← s.memcpy s.sofar buf
    .ok { s with sofar := s.sofar + buf.length }
  else if s.type = .resendPend then
    if w = 8 then
      if s.sofar = 0 then .ok (s.taken (reget bigEndian dccBlock s.toProgress buf))
      else .error .outside
    else .ok s
  else if w = 4 then .ok (s.taken (ack dccBlock s.toProgress (s.buf.take s.sofar ++ buf)))
  else
    let p := (w - 1) / 4 * 4 - s.sofar
    let w := w - (w - 1) / 4 * 4
    if w < 4 then s.memcpy 0 ((buf.drop p).take w)
    else .ok (s.taken (ack dccBlock s.toProgress ((buf.drop p).take w)))

/-- A packet for a connection, if there is still one. -/
def recv (s : Xfer) (buf : List UInt8) : Except Fault Xfer :=
  if s.ended then .ok s else dccGet bigEndian dccBlock s buf

end Source

/-! ### The stream -/

/-- The size of what comes next. -/
def unit (s : Progress) : ℕ := if s.type = .resendPend then 8 else 4

/-- What a whole word or header does. -/
def complete (bigEndian : Bool) (dccBlock : UInt64) (s : Progress) (bs : List UInt8) : Progress :=
  if s.type = .resendPend then reget bigEndian dccBlock s bs else ack dccBlock s bs

/-- The transfer, and what is kept for the next word, after some bytes. -/
def feeds (bigEndian : Bool) (dccBlock : UInt64) :
    Progress × List UInt8 → List UInt8 → Progress × List UInt8 :=
  Assemble.feeds Progress.ended unit (complete bigEndian dccBlock)

/-- What there is of a word or a header. -/
def Xfer.kept (s : Xfer) : List UInt8 := s.buf.take s.sofar

/-- The transfer, and what is kept. -/
def Xfer.reached (s : Xfer) : Progress × List UInt8 := (s.toProgress, s.kept)

/-- A word that makes no difference but to `acked`: it is not ahead of the file, it is known how blocks
are acknowledged, and it is not the end of a block. -/
def Idle (s : Progress) (cmp : UInt64) : Prop :=
  cmp ≤ s.status ∧ s.ackType ≠ .unknown ∧
    (if s.ackType = .withoutOffset then cmp + s.offset else cmp) ≠ s.status

/-- The packet keeps to the words: it ends with the word that is under way or before, or with a later
one, where those before the last make no difference; and a header is a packet. -/
def Fits (s : Xfer) (buf : List UInt8) : Prop :=
  s.ended = true ∨ buf.length + s.sofar ≤ 4 ∨
    if s.type = .resendPend then s.sofar = 0 ∧ buf.length = 8
    else 4 ∣ buf.length + s.sofar ∧ ∀ i, 4 * (i + 1) < buf.length + s.sofar →
      Idle s.toProgress (UInt64.ofNat (word (((s.kept ++ buf).drop (4 * i)).take 4)))

/-! ### One word -/

section Words

variable {bigEndian : Bool} {dccBlock : UInt64} {s : Progress} {bs : List UInt8}

theorem answer_idle {cmp : UInt64} (h : Idle s cmp) : answer dccBlock s cmp = s := by
  obtain ⟨hle, hknown, hne⟩ := h
  have hnot : ¬ cmp > s.status := UInt64.not_lt.2 hle
  have hsame : ackTypeFor s cmp = s.ackType := if_neg hknown
  rw [answer, settle, if_neg fun hgt => hnot hgt.2, if_neg hnot]
  dsimp only
  rw [hsame]
  exact if_pos hne

theorem ack_acked (a : UInt64) (bbuf : List UInt8) :
    ack dccBlock { s with acked := a } bbuf = ack dccBlock s bbuf := rfl

theorem ack_idle (h : Idle s (UInt64.ofNat (word bs))) :
    ack dccBlock s bs = { s with acked := UInt64.ofNat (word bs) } := by
  rw [ack]
  exact answer_idle h

theorem feeds_word (hover : s.ended = false) (htype : s.type ≠ .resendPend) {kept : List UInt8}
    (hbs : bs ≠ []) (hlen : kept.length + bs.length = 4) :
    feeds bigEndian dccBlock (s, kept) bs = (ack dccBlock s (kept ++ bs), []) := by
  have hunit : unit s = 4 := if_neg htype
  rw [feeds, Assemble.feeds_exact hover hbs (hlen.trans hunit.symm), complete, if_neg htype]

theorem feeds_words (hover : s.ended = false) (htype : s.type ≠ .resendPend) {k : ℕ}
    (hlen : bs.length = 4 * (k + 1))
    (hidle : ∀ i < k, Idle s (UInt64.ofNat (word ((bs.drop (4 * i)).take 4)))) :
    feeds bigEndian dccBlock (s, []) bs = (ack dccBlock s (bs.drop (4 * k)), []) := by
  induction k generalizing s bs with
  | zero =>
    have hne : bs ≠ [] := by
      rintro rfl
      cases hlen
    rw [feeds_word hover htype hne (by rw [hlen]; rfl)]
    rfl
  | succ k ih =>
    have htake : (bs.take 4).length = 4 := length_take_of_le (by omega)
    have hne : bs.take 4 ≠ [] := by
      intro hnil
      rw [hnil] at htake
      cases htake
    have hfirst := hidle 0 (Nat.succ_pos k)
    rw [Nat.mul_zero, drop_zero] at hfirst
    have hstep := @feeds_word bigEndian dccBlock s (bs.take 4) hover htype [] hne
      (by rw [htake]; rfl)
    rw [nil_append, ack_idle hfirst] at hstep
    rw [← take_append_drop 4 bs, feeds, Assemble.feeds_append]
    rw [feeds] at hstep
    rw [hstep, take_append_drop]
    have hrest := @ih { s with acked := UInt64.ofNat (word (bs.take 4)) } (bs.drop 4) hover htype
      (by rw [length_drop]; omega) (by
        intro i hi
        rw [drop_drop, Nat.add_comm 4]
        exact hidle (i + 1) (Nat.succ_lt_succ hi))
    rw [drop_drop, Nat.add_comm 4, ack_acked] at hrest
    exact hrest

end Words

/-! ### One packet -/

section Packets

variable {bigEndian : Bool} {dccBlock : UInt64} {s : Xfer} {buf : List UInt8}

/-- What is kept has room, and is no whole word. -/
structure Ready (s : Xfer) : Prop where
  room : s.sofar ≤ 4
  part : s.type ≠ .resendPend → s.sofar < 4

theorem Ready.length_kept (h : Ready s) : s.kept.length = s.sofar := by
  rw [Xfer.kept, length_take_of_le]
  rw [s.length_buf]
  exact h.room

theorem ready_taken (s : Xfer) (t : Progress) : Ready (s.taken t) :=
  ⟨Nat.zero_le 4, fun _ => Nat.zero_lt_succ 3⟩

theorem reached_taken (s : Xfer) (t : Progress) : (s.taken t).reached = (t, []) := rfl

/-- What is added to what is kept. -/
theorem memcpy_spec (h : Ready s) (hlen : s.sofar + buf.length ≤ 4) :
    ∃ s', s.memcpy s.sofar buf = .ok s' ∧ s'.toProgress = s.toProgress ∧ s'.sofar = s.sofar ∧
      ({ s' with sofar := s.sofar + buf.length } : Xfer).kept = s.kept ++ buf := by
  have hkept := h.length_kept
  rw [Xfer.memcpy, dif_pos hlen]
  refine ⟨_, rfl, rfl, rfl, ?_⟩
  show (s.kept ++ buf ++ s.buf.drop (s.sofar + buf.length)).take (s.sofar + buf.length) = _
  rw [take_left' (by rw [length_append, hkept])]

theorem dccGet_short (h : Ready s) (hover : s.ended = false) (hle : buf.length + s.sofar ≤ 4)
    (hshort : s.type ≠ .resendPend → buf.length + s.sofar < 4) :
    ∃ s', dccGet bigEndian dccBlock s buf = .ok s' ∧ Ready s' ∧
      s'.reached = feeds bigEndian dccBlock s.reached buf := by
  obtain ⟨s', hcopy, hsame, hsofar, hkept⟩ := memcpy_spec h (Nat.add_comm _ s.sofar ▸ hle)
  have hbranch : buf.length + s.sofar < 4 ∨ (buf.length + s.sofar < 8 ∧ s.type = .resendPend) := by
    by_cases htype : s.type = .resendPend
    · exact .inr ⟨by omega, htype⟩
    · exact .inl (hshort htype)
  have hunit : s.kept.length + buf.length < unit s.toProgress := by
    rw [h.length_kept, unit]
    split
    · omega
    · next htype =>
      have hlt := hshort htype
      omega
  refine ⟨{ s' with sofar := s.sofar + buf.length }, ?_, ⟨?_, ?_⟩, ?_⟩
  · rw [dccGet, if_pos hbranch, hcopy, ← hsofar]
    rfl
  · show s.sofar + buf.length ≤ 4
    omega
  · show s'.type ≠ .resendPend → s.sofar + buf.length < 4
    rw [show s'.type = s.type from congrArg Progress.type hsame]
    intro htype
    have hlt := hshort htype
    omega
  · rw [Xfer.reached, hkept, feeds, Xfer.reached, Assemble.feeds_short hover hunit]
    exact Prod.ext hsame rfl

theorem dccGet_word (h : Ready s) (hover : s.ended = false) (htype : s.type ≠ .resendPend)
    (hlen : buf.length + s.sofar = 4) :
    ∃ s', dccGet bigEndian dccBlock s buf = .ok s' ∧ Ready s' ∧
      s'.reached = feeds bigEndian dccBlock s.reached buf := by
  have hlt := h.part htype
  have hne : buf ≠ [] := by
    rintro rfl
    rw [length_nil] at hlen
    omega
  have hbranch : ¬ (buf.length + s.sofar < 4 ∨ (buf.length + s.sofar < 8 ∧ s.type = .resendPend)) := by
    rintro (hlt | ⟨-, hpend⟩)
    · omega
    · exact htype hpend
  refine ⟨s.taken (ack dccBlock s.toProgress (s.kept ++ buf)), ?_, ready_taken s _, ?_⟩
  · rw [dccGet, if_neg hbranch, if_neg htype, if_pos hlen, Xfer.kept]
  · rw [reached_taken, Xfer.reached, feeds_word hover htype hne (by rw [h.length_kept]; omega)]

theorem dccGet_header (hover : s.ended = false) (htype : s.type = .resendPend) (hsofar : s.sofar = 0)
    (hlen : buf.length = 8) :
    ∃ s', dccGet bigEndian dccBlock s buf = .ok s' ∧ Ready s' ∧
      s'.reached = feeds bigEndian dccBlock s.reached buf := by
  have hkept : s.kept = [] := by
    rw [Xfer.kept, hsofar, take_zero]
  have hunit : unit s.toProgress = 8 := if_pos htype
  have hne : buf ≠ [] := by
    rintro rfl
    cases hlen
  refine ⟨s.taken (reget bigEndian dccBlock s.toProgress buf), ?_, ready_taken s _, ?_⟩
  · rw [dccGet, hlen, hsofar, if_neg (by omega), if_pos htype, if_pos rfl, if_pos rfl]
  · rw [reached_taken, Xfer.reached, hkept, feeds,
      Assemble.feeds_exact hover hne (by rw [hunit, hlen]; rfl), complete, if_pos htype]
    rfl

theorem dccGet_words (h : Ready s) (hover : s.ended = false) (htype : s.type ≠ .resendPend)
    (hgt : 4 < buf.length + s.sofar) (hdvd : 4 ∣ buf.length + s.sofar)
    (hidle : ∀ i, 4 * (i + 1) < buf.length + s.sofar →
      Idle s.toProgress (UInt64.ofNat (word (((s.kept ++ buf).drop (4 * i)).take 4)))) :
    ∃ s', dccGet bigEndian dccBlock s buf = .ok s' ∧ Ready s' ∧
      s'.reached = feeds bigEndian dccBlock s.reached buf := by
  have hlt := h.part htype
  have hkept := h.length_kept
  obtain ⟨k, hk⟩ : ∃ k, buf.length + s.sofar = 4 * (k + 1) := by
    obtain ⟨m, hm⟩ := hdvd
    exact ⟨m - 1, by omega⟩
  have hlen : (s.kept ++ buf).length = 4 * (k + 1) := by
    rw [length_append, hkept, Nat.add_comm, hk]
  have hunit : unit s.toProgress = 4 := if_neg htype
  have hp : (buf.length + s.sofar - 1) / 4 * 4 = 4 * k := by omega
  have hrest : buf.length + s.sofar - 4 * k = 4 := by omega
  -- the last word lies in the packet
  have hlast : (buf.drop (4 * k - s.sofar)).take 4 = (s.kept ++ buf).drop (4 * k) := by
    have hdrop : (s.kept ++ buf).drop (4 * k) = buf.drop (4 * k - s.sofar) := by
      rw [drop_append, drop_of_length_le (by omega), nil_append, hkept]
    rw [hdrop, take_of_length_le (by rw [length_drop]; omega)]
  have hbranch : ¬ (buf.length + s.sofar < 4 ∨ (buf.length + s.sofar < 8 ∧ s.type = .resendPend)) := by
    rintro (hlt | ⟨-, hpend⟩)
    · omega
    · exact htype hpend
  refine ⟨s.taken (ack dccBlock s.toProgress ((s.kept ++ buf).drop (4 * k))), ?_,
    ready_taken s _, ?_⟩
  · rw [dccGet, if_neg hbranch, if_neg htype, if_neg (by omega), hp, hrest]
    dsimp only
    rw [hlast]
    exact if_neg (by decide)
  · rw [reached_taken, Xfer.reached, feeds, Assemble.feeds_kept hover (by rw [hkept, hunit]; exact hlt)]
    exact (feeds_words hover htype hlen fun i hi => hidle i (by omega)).symm

theorem recv_feeds (h : Ready s) (hfits : Fits s buf) :
    ∃ s', recv bigEndian dccBlock s buf = .ok s' ∧ Ready s' ∧
      s'.reached = feeds bigEndian dccBlock s.reached buf := by
  by_cases hover : s.ended = true
  · refine ⟨s, if_pos hover, h, ?_⟩
    rw [feeds, Xfer.reached, Assemble.feeds_over hover]
  · rw [recv, if_neg hover]
    have hfits := hfits.resolve_left hover
    have hover := eq_false_of_ne_true hover
    by_cases htype : s.type = .resendPend
    · rw [if_pos htype] at hfits
      rcases hfits with hle | ⟨hsofar, hlen⟩
      · exact dccGet_short h hover hle fun hne => absurd htype hne
      · exact dccGet_header hover htype hsofar hlen
    · rw [if_neg htype] at hfits
      rcases Nat.lt_trichotomy (buf.length + s.sofar) 4 with hlt | heq | hgt
      · exact dccGet_short h hover hlt.le fun _ => hlt
      · exact dccGet_word h hover htype heq
      · obtain ⟨hdvd, hidle⟩ := hfits.resolve_left (by omega)
        exact dccGet_words h hover htype hgt hdvd hidle

theorem run_feeds {packets : List (List UInt8)} (h : Ready s)
    (hfits : Machine.Along (recv bigEndian dccBlock) Fits s packets) :
    ∃ s', Machine.run (recv bigEndian dccBlock) s packets = .ok s' ∧
      s'.reached = feeds bigEndian dccBlock s.reached packets.flatten := by
  induction packets generalizing s with
  | nil => exact ⟨s, rfl, rfl⟩
  | cons buf packets ih =>
    obtain ⟨s₁, hstep, hready, hreached⟩ := @recv_feeds bigEndian dccBlock s buf h hfits.1
    obtain ⟨s', hrun, hreached'⟩ := ih hready (hfits.2 s₁ hstep)
    refine ⟨s', (Machine.run_cons_ok hstep).trans hrun, ?_⟩
    rw [hreached', hreached, flatten_cons, feeds, ← Assemble.feeds_append]

end Packets

/-- When packets keep to the words, nothing is copied out of place, and the transfer is that of the
bytes; so two ways to split the same bytes reach the same transfer. -/
theorem dccGet_agree (bigEndian : Bool) (dccBlock : UInt64) (s : Xfer) (hs : s.sofar = 0) :
    (∀ packets, Machine.Along (recv bigEndian dccBlock) Fits s packets →
      ∃ s', Machine.run (recv bigEndian dccBlock) s packets = .ok s' ∧
        s'.reached = feeds bigEndian dccBlock (s.toProgress, []) packets.flatten) ∧
    ∀ packets packets', Machine.Along (recv bigEndian dccBlock) Fits s packets →
      Machine.Along (recv bigEndian dccBlock) Fits s packets' →
      packets.flatten = packets'.flatten →
      ∃ s₁ s₂, Machine.run (recv bigEndian dccBlock) s packets = .ok s₁ ∧
        Machine.run (recv bigEndian dccBlock) s packets' = .ok s₂ ∧ s₁.reached = s₂.reached := by
  have hready : Ready s := ⟨by omega, fun _ => by omega⟩
  have hstart : s.reached = (s.toProgress, []) := by
    rw [Xfer.reached, Xfer.kept, hs, take_zero]
  have hall (packets : List (List UInt8))
      (hfits : Machine.Along (recv bigEndian dccBlock) Fits s packets) :
      ∃ s', Machine.run (recv bigEndian dccBlock) s packets = .ok s' ∧
        s'.reached = feeds bigEndian dccBlock (s.toProgress, []) packets.flatten := by
    rw [← hstart]
    exact run_feeds hready hfits
  refine ⟨hall, ?_⟩
  intro packets packets' hfits hfits' hsame
  obtain ⟨s₁, hrun, hreached⟩ := hall packets hfits
  obtain ⟨s₂, hrun', hreached'⟩ := hall packets' hfits'
  exact ⟨s₁, s₂, hrun, hrun', by rw [hreached, hreached', hsame]⟩

/-- A file of eight bytes, of which four are sent. -/
def halfSent : Xfer where
  users := false
  length := 8
  acked := 0
  offset := 0
  status := 4
  type := .send
  ackType := .unknown
  ended := false
  events := []
  buf := [0, 0, 0, 0]
  sofar := 0
  length_buf := rfl

/-- The two words that acknowledge the file, in two ways to split them. -/
theorem dccGet_agree_halfSent :
    (∃ s', Machine.run (recv false 4) halfSent [[0, 0, 0, 4], [0, 0, 0, 8]] = .ok s' ∧
      s'.reached = feeds false 4 (halfSent.toProgress, []) [0, 0, 0, 4, 0, 0, 0, 8]) ∧
    ∃ s₁ s₂, Machine.run (recv false 4) halfSent [[0, 0, 0, 4], [0, 0, 0, 8]] = .ok s₁ ∧
      Machine.run (recv false 4) halfSent [[0], [0, 0, 4], [0, 0], [0, 8]] = .ok s₂ ∧
        s₁.reached = s₂.reached := by
  obtain ⟨hall, hsame⟩ := dccGet_agree false 4 halfSent rfl
  have hfits (s : Xfer) (buf : List UInt8) (h : buf.length + s.sofar ≤ 4) : Fits s buf := .inr (.inl h)
  have hwords : Machine.Along (recv false 4) Fits halfSent [[0, 0, 0, 4], [0, 0, 0, 8]] :=
    Machine.Along.imp hfits (by decide +kernel)
  have hsplit : Machine.Along (recv false 4) Fits halfSent [[0], [0, 0, 4], [0, 0], [0, 8]] :=
    Machine.Along.imp hfits (by decide +kernel)
  exact ⟨hall _ hwords, hsame _ _ hwords hsplit rfl⟩

/-- A word and the first byte of the next, in one packet: the word is lost. -/
theorem not_dccGet : ¬ ∀ (bigEndian : Bool) (dccBlock : UInt64) (s : Xfer)
    (packets packets' : List (List UInt8)), s.sofar = 0 → packets.flatten = packets'.flatten →
      ∃ s₁ s₂, Machine.run (recv bigEndian dccBlock) s packets = .ok s₁ ∧
        Machine.run (recv bigEndian dccBlock) s packets' = .ok s₂ ∧ s₁.reached = s₂.reached := by
  intro h
  obtain ⟨s₁, s₂, hrun, hrun', hsame⟩ :=
    h false 4 halfSent [[0, 0, 0, 4, 0]] [[0, 0, 0, 4], [0]] rfl rfl
  obtain rfl := Except.ok.inj hrun
  obtain rfl := Except.ok.inj hrun'
  exact absurd (congrArg (fun r => r.1.acked) hsame) (by decide)

end Eggdrop.Transfer.DccGet
