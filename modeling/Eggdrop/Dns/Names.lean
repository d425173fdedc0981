import Eggdrop.Dns.Wire
import Eggdrop.Lib.Ensures

/-!
# Names — names in DNS packets (dns.mod/res.c)

A name is written label by label, each with its length before it, and read through compression
pointers.  `dns_name_decode` reads a name, `dns_name_skip` only finds its end, and `dns_name_encode`
writes one.

* `decodeChecked_eq`: every byte that is read lies in the packet, and every one that is written
  in the output.
* `decode_encode`: what is written for a name is read as the name.
* `named_iff`: the two readers agree but for packets that end where a label would follow.
-/

open List

namespace Eggdrop.Dns

open Net

/-! ### Reading and writing -/

inductive NameFault where
  /-- A byte behind the packet is read. -/
  | read
  /-- A byte behind the output is written. -/
  | write
deriving DecidableEq

def readByte (msg : Bytes) (p : ℕ) : Except NameFault UInt8 :=
  match msg[p]? with
  | some c => .ok c
  | none => .error .read

/-- One byte more in an output of `dstlen` bytes. -/
def putByte (dstlen : ℕ) (d : Bytes) (c : UInt8) : Except NameFault Bytes :=
  if d.length < dstlen then .ok (d ++ [c]) else .error .write

/-- The bytes of a label. -/
def copyLabel (msg : Bytes) (dstlen : ℕ) : ℕ → ℕ → Bytes → Except NameFault Bytes
  | 0, _, d => .ok d
  | n + 1, p, d => do
    let c ← readByte msg p
    let d ← putByte dstlen d (lowerByte c)
    copyLabel msg dstlen n (p + 1) d

/-- The end of `dns_name_decode`. -/
def finishName (dstlen consumed : ℕ) (d : Bytes) : Except NameFault (Option (ℕ × Bytes)) :=
  if dstlen ≤ d.length then .ok none
  else do
    let _ ← putByte dstlen d 0
    .ok (some (consumed, d))

/-- A dot before every label but the first. -/
def putDot (dstlen : ℕ) (d : Bytes) : Except NameFault Bytes :=
  if d = [] then .ok [] else putByte dstlen d 0x2e

/-- The loop of `dns_name_decode`, with every byte that it reads and writes. -/
def decodeChecked (msg : Bytes) (dstlen off p hops : ℕ) (consumed : Option ℕ) (d : Bytes) :
    Except NameFault (Option (ℕ × Bytes)) :=
  if h : p < msg.length then do
    let c ← readByte msg p
    let n := c.toNat
    if 0xc0 ≤ n then
      if msg.length ≤ p + 1 then .ok none
      else do
        let low ← readByte msg (p + 1)
        let target := n % 0x40 * 256 + low.toNat
        if msg.length ≤ target then .ok none
        else if hops < 16 then
          decodeChecked msg dstlen off target (hops + 1) (some (consumed.getD (p - off + 2))) d
        else .ok none
    else if n < 0x40 then
      if n = 0 then finishName dstlen (consumed.getD (p + 1 - off)) d
      else if msg.length < p + 1 + n then .ok none
      else if d ≠ [] ∧ dstlen - 1 ≤ d.length then .ok none
      else do
        let d ← putDot dstlen d
        if dstlen - d.length ≤ n then .ok none
        else do
          let d ← copyLabel msg dstlen n (p + 1) d
          decodeChecked msg dstlen off (p + 1 + n) hops consumed d
    else .ok none
  else finishName dstlen (consumed.getD (p - off)) d
termination_by (16 - hops) * (msg.length + 1) + (msg.length - p)
decreasing_by
  · next _ hhops =>
    have hmul : (16 - hops) * (msg.length + 1) = (16 - (hops + 1)) * (msg.length + 1) + (msg.length + 1) := by
      rw [← Nat.succ_mul]
      congr 1
      omega
    omega
  · exact Nat.add_lt_add_left (by omega) _

/-- `dns_name_decode` into an output of `dstlen` bytes. -/
def dnsNameDecodeInto (msg : Bytes) (off dstlen : ℕ) : Except NameFault (Option (ℕ × Bytes)) :=
  decodeChecked msg dstlen off off 0 none []

/-- The loop of `dns_name_encode`, with what is written. -/
def encodeFrom (dstlen : ℕ) (d src : Bytes) : Option Bytes :=
  if _h : src = [] then
    if dstlen ≤ d.length then none else some (d ++ [0])
  else
    let label := src.takeWhile (· ≠ 0x2e)
    let rest := (src.dropWhile (· ≠ 0x2e)).drop 1
    if label = [] then encodeFrom dstlen d rest
    else if 63 < label.length then none
    else if dstlen ≤ d.length + 1 + label.length then none
    else encodeFrom dstlen (d ++ UInt8.ofNat label.length :: label) rest
termination_by src.length
decreasing_by
  all_goals
    have hpos := length_pos_iff.2 _h
    have hle := (dropWhile_suffix (l := src) fun c : UInt8 => decide (c ≠ 0x2e)).length_le
    rw [length_drop]
    omega

/-- `dns_name_encode`. -/
def dnsNameEncode (dstlen : ℕ) (name : Bytes) : Option Bytes := encodeFrom dstlen [] name

/-! ### What is to hold -/

/-- A label of a host name. -/
structure Label where
  bytes : Bytes
  pos : 0 < bytes.length
  short : bytes.length ≤ 63
  dot : 0x2e ∉ bytes
  nul : 0 ∉ bytes

/-- The host name of some labels. -/
def dotted (ls : List Label) : Bytes := [0x2e].intercalate (ls.map Label.bytes)

/-- Nothing outside the packet is read and nothing outside the output written; a name that is read has
the length that is skipped, so that one that cannot be skipped cannot be read; a name is written where
there is room for it, and it is read again, in lower case, where there is room. -/
structure Named (msg : Bytes) (off dstlen : ℕ) : Prop where
  safe : ∃ r, dnsNameDecodeInto msg off dstlen = .ok r
  agrees : ∀ consumed d, dnsNameDecodeInto msg off dstlen = .ok (some (consumed, d)) →
    dnsNameSkip msg off = some consumed
  written : ∀ (ls : List Label) (room : ℕ), (dotted ls).length + 2 ≤ room →
    (dnsNameEncode room (dotted ls)).isSome
  roundTrip : ∀ (ls : List Label) (room size : ℕ) (enc : Bytes),
    dnsNameEncode room (dotted ls) = some enc → dnsNameDecodeInto enc 0 size =
      .ok (if (dotted ls).length < size then some (enc.length, (dotted ls).map lowerByte) else none)

/-- Labels as they stand in a packet. -/
def wireLabels (ls : List Bytes) : Bytes := ls.flatMap fun l => UInt8.ofNat l.length :: l

/-- The name that some labels make. -/
def spell (ls : List Bytes) : Bytes := [0x2e].intercalate ls

/-- The packet ends where a label of the name, or its end, would follow, and the labels fit the
output. -/
def Unended (msg : Bytes) (off dstlen : ℕ) : Prop :=
  ∃ ls : List Bytes, (∀ l ∈ ls, 0 < l.length ∧ l.length ≤ 63) ∧ msg.drop off = wireLabels ls ∧
    (spell ls).length < dstlen

/-! ### No byte outside -/

variable {msg : Bytes} {dstlen off p hops n : ℕ} {consumed : Option ℕ} {d : Bytes}

theorem readByte_eq (h : p < msg.length) : readByte msg p = .ok msg[p] := by
  rw [readByte, getElem?_eq_getElem h]

theorem putByte_eq (h : d.length < dstlen) (c : UInt8) : putByte dstlen d c = .ok (d ++ [c]) :=
  if_pos h

theorem copyLabel_eq (hmsg : p + n ≤ msg.length) (hroom : d.length + n ≤ dstlen) :
    copyLabel msg dstlen n p d = .ok (d ++ ((msg.drop p).take n).map lowerByte) := by
  induction n generalizing p d with
  | zero => simp [copyLabel]
  | succ n ih =>
    have hp : p < msg.length := by omega
    have hcopy := @ih (p + 1) (d ++ [lowerByte msg[p]]) (by omega)
      (by rw [length_append, length_singleton]; omega)
    have hlabel : (msg.drop p).take (n + 1) = msg[p] :: (msg.drop (p + 1)).take n := by
      rw [drop_eq_getElem_cons hp, take_succ_cons]
    rw [copyLabel, readByte_eq hp, hlabel, map_cons]
    refine Eq.trans ?_ (hcopy.trans ?_)
    · show (putByte dstlen d (lowerByte msg[p]) >>= _) = _
      rw [putByte_eq (by omega)]
      rfl
    · rw [append_assoc, singleton_append]

theorem finishName_eq (dstlen consumed : ℕ) (d : Bytes) :
    finishName dstlen consumed d = .ok (if dstlen ≤ d.length then none else some (consumed, d)) := by
  unfold finishName
  split
  · rfl
  · next h =>
    rw [putByte_eq (Nat.not_le.1 h)]
    rfl

theorem putDot_eq (h : ¬ (d ≠ [] ∧ dstlen - 1 ≤ d.length)) :
    putDot dstlen d = .ok (if d = [] then [] else d ++ [0x2e]) := by
  unfold putDot
  split
  · rfl
  · next hd => exact putByte_eq (by rw [not_and] at h; have := h hd; omega) _

theorem getD_byte (h : p < msg.length) : msg.getD p 0 = msg[p] := by
  rw [getD_eq_getElem?_getD, getElem?_eq_getElem h, Option.getD_some]

theorem decodeChecked_eq (msg : Bytes) (dstlen off p hops : ℕ) (consumed : Option ℕ) (d : Bytes) :
    decodeChecked msg dstlen off p hops consumed d =
      .ok (decodeFrom msg dstlen off p hops consumed d) := by
  induction p, hops, consumed, d using decodeFrom.induct msg dstlen off with
  | case1 p hops consumed d h n hn target hend =>
    have hbyte (hlow : p + 1 < msg.length) : target = n % 0x40 * 256 + msg[p + 1].toNat := by
      rw [← getD_byte hlow]
    rw [decodeChecked, decodeFrom, dif_pos h, dif_pos h, readByte_eq h]
    show (if 0xc0 ≤ n then _ else _) = _
    rw [if_pos hn, if_pos hn, if_pos hend]
    by_cases hlow : msg.length ≤ p + 1
    · rw [if_pos hlow]
    · have htarget := hend.resolve_left hlow
      rw [hbyte (Nat.not_le.1 hlow)] at htarget
      rw [if_neg hlow, readByte_eq (Nat.not_le.1 hlow)]
      exact if_pos htarget
  | case2 p hops consumed d h n hn target hend hhops ih =>
    have hbyte (hlow : p + 1 < msg.length) : target = n % 0x40 * 256 + msg[p + 1].toNat := by
      rw [← getD_byte hlow]
    have hlow := Nat.not_le.1 (not_or.1 hend).1
    have htarget := (not_or.1 hend).2
    rw [decodeChecked, decodeFrom, dif_pos h, dif_pos h, readByte_eq h]
    show (if 0xc0 ≤ n then _ else _) = _
    rw [if_pos hn, if_pos hn, if_neg hend, if_pos hhops, if_neg (Nat.not_le.2 hlow), readByte_eq hlow]
    have hfollow := ih
    rw [hbyte hlow] at htarget hfollow
    refine (if_neg htarget).trans ((if_pos hhops).trans (hfollow.trans ?_))
    rw [← hbyte hlow]
  | case3 p hops consumed d h n hn target hend hhops =>
    have hbyte (hlow : p + 1 < msg.length) : target = n % 0x40 * 256 + msg[p + 1].toNat := by
      rw [← getD_byte hlow]
    have hlow := Nat.not_le.1 (not_or.1 hend).1
    have htarget := (not_or.1 hend).2
    rw [decodeChecked, decodeFrom, dif_pos h, dif_pos h, readByte_eq h]
    show (if 0xc0 ≤ n then _ else _) = _
    rw [if_pos hn, if_pos hn, if_neg hend, if_neg hhops, if_neg (Nat.not_le.2 hlow), readByte_eq hlow]
    rw [hbyte hlow] at htarget
    exact (if_neg htarget).trans (if_neg hhops)
  | case4 p hops consumed d h n hn hlt hzero =>
    rw [decodeChecked, decodeFrom, dif_pos h, dif_pos h, readByte_eq h]
    show (if 0xc0 ≤ n then _ else _) = _
    rw [if_neg hn, if_neg hn, if_pos hlt, if_pos hlt, if_pos hzero, if_pos hzero, finishName_eq]
  | case5 p hops consumed d h n hn hlt hzero hend =>
    rw [decodeChecked, decodeFrom, dif_pos h, dif_pos h, readByte_eq h]
    show (if 0xc0 ≤ n then _ else _) = _
    rw [if_neg hn, if_neg hn, if_pos hlt, if_pos hlt, if_neg hzero, if_neg hzero, if_pos hend,
      if_pos hend]
  | case6 p hops consumed d h n hn hlt hzero hend hroom =>
    rw [decodeChecked, decodeFrom, dif_pos h, dif_pos h, readByte_eq h]
    show (if 0xc0 ≤ n then _ else _) = _
    rw [if_neg hn, if_neg hn, if_pos hlt, if_pos hlt, if_neg hzero, if_neg hzero, if_neg hend,
      if_neg hend, if_pos hroom, if_pos hroom]
  | case7 p hops consumed d h n hn hlt hzero hend hroom d' hfull =>
    rw [decodeChecked, decodeFrom, dif_pos h, dif_pos h, readByte_eq h]
    show (if 0xc0 ≤ n then _ else _) = _
    rw [if_neg hn, if_neg hn, if_pos hlt, if_pos hlt, if_neg hzero, if_neg hzero, if_neg hend,
      if_neg hend, if_neg hroom, if_neg hroom, putDot_eq hroom]
    exact (if_pos hfull).trans (congrArg Except.ok (if_pos hfull).symm)
  | case8 p hops consumed d h n hn hlt hzero hend hroom d' hfull label ih =>
    rw [decodeChecked, decodeFrom, dif_pos h, dif_pos h, readByte_eq h]
    show (if 0xc0 ≤ n then _ else _) = _
    rw [if_neg hn, if_neg hn, if_pos hlt, if_pos hlt, if_neg hzero, if_neg hzero, if_neg hend,
      if_neg hend, if_neg hroom, if_neg hroom, putDot_eq hroom]
    refine (if_neg hfull).trans (Eq.trans ?_ (congrArg Except.ok (if_neg hfull).symm))
    have hcopy := @copyLabel_eq msg dstlen (p + 1) n d' (Nat.not_lt.1 hend) (by omega)
    show (copyLabel msg dstlen n (p + 1) d' >>= _) = _
    rw [hcopy]
    exact ih
  | case9 p hops consumed d h n hn hlt =>
    rw [decodeChecked, decodeFrom, dif_pos h, dif_pos h, readByte_eq h]
    show (if 0xc0 ≤ n then _ else _) = _
    rw [if_neg hn, if_neg hn, if_neg hlt, if_neg hlt]
  | case10 p hops consumed d h =>
    rw [decodeChecked, decodeFrom, dif_neg h, dif_neg h, finishName_eq]

theorem dnsNameDecodeInto_eq (msg : Bytes) (off dstlen : ℕ) :
    dnsNameDecodeInto msg off dstlen = .ok (decodeFrom msg dstlen off off 0 none []) :=
  decodeChecked_eq msg dstlen off off 0 none []

/-! ### Labels -/

/-- A label behind what there is of a name. -/
def addLabel (d l : Bytes) : Bytes := (if d = [] then [] else d ++ [0x2e]) ++ l

variable {l rest : Bytes} {ls : List Bytes} {r : ℕ × Bytes}

theorem addLabel_ne_nil (d : Bytes) (hl : 0 < l.length) : addLabel d l ≠ [] := by
  intro h
  rw [(append_eq_nil_iff.1 h).2] at hl
  exact absurd hl (Nat.lt_irrefl 0)

theorem foldl_addLabel (hd : d ≠ []) (hls : ∀ l ∈ ls, 0 < l.length) :
    ls.foldl addLabel d = [0x2e].intercalate (d :: ls) := by
  induction ls generalizing d with
  | nil => simp [intercalate]
  | cons l ls ih =>
    rw [forall_mem_cons] at hls
    rw [foldl_cons, ih (addLabel_ne_nil d hls.1) hls.2, addLabel, if_neg hd]
    cases ls with
    | nil => simp [intercalate]
    | cons m ls => simp [intercalate]

theorem foldl_addLabel_nil (hls : ∀ l ∈ ls, 0 < l.length) : ls.foldl addLabel [] = spell ls := by
  cases ls with
  | nil => rfl
  | cons l ls =>
    rw [forall_mem_cons] at hls
    rw [foldl_cons, foldl_addLabel (addLabel_ne_nil [] hls.1) hls.2]
    rfl

theorem map_foldl_addLabel (d : Bytes) (ls : List Bytes) :
    (ls.map (·.map lowerByte)).foldl addLabel (d.map lowerByte) =
      (ls.foldl addLabel d).map lowerByte := by
  induction ls generalizing d with
  | nil => rfl
  | cons l ls ih =>
    rw [map_cons, foldl_cons, foldl_cons, ← ih]
    congr 1
    unfold addLabel
    by_cases hd : d = []
    · simp [hd]
    · have hdot : lowerByte 0x2e = 0x2e := by decide
      simp [hd, hdot]

theorem decodeFrom_label (hmsg : msg.drop p = UInt8.ofNat l.length :: (l ++ rest)) (hpos : 0 < l.length)
    (hshort : l.length ≤ 63) : decodeFrom msg dstlen off p hops consumed d =
      if (addLabel d l).length < dstlen then
        decodeFrom msg dstlen off (p + 1 + l.length) hops consumed (addLabel d (l.map lowerByte))
      else none := by
  have hlen := congrArg length hmsg
  rw [length_drop, length_cons, length_append] at hlen
  have hp : p < msg.length := by omega
  rw [drop_eq_getElem_cons hp, cons.injEq] at hmsg
  have hn : msg[p].toNat = l.length := by
    rw [hmsg.1, UInt8.toNat_ofNat']
    omega
  have hlabel : ((msg.drop (p + 1)).take l.length).map lowerByte = l.map lowerByte := by
    rw [hmsg.2, take_left]
  have hadd : (addLabel d l).length = (if d = [] then 0 else d.length + 1) + l.length := by
    unfold addLabel
    split
    · simp
    · rw [length_append, length_append, length_singleton]
  rw [decodeFrom, dif_pos hp]
  dsimp only
  rw [hn, if_neg (by omega), if_pos (by omega), if_neg (by omega), if_neg (by omega), hadd, hlabel]
  by_cases hd : d = []
  · rw [if_neg (fun h => h.1 hd), if_pos hd, if_pos hd, length_nil, addLabel, if_pos hd]
    by_cases hfit : dstlen ≤ l.length
    · rw [if_pos (by omega), if_neg (by omega)]
    · rw [if_neg (by omega), if_pos (by omega)]
  · rw [if_neg hd, if_neg hd, length_append, length_singleton, addLabel, if_neg hd]
    by_cases hfit : dstlen ≤ d.length + 1 + l.length
    · rw [if_neg (Nat.not_lt.2 hfit)]
      split
      · rfl
      · rw [if_pos (by omega)]
    · rw [if_pos (Nat.not_le.1 hfit), if_neg (fun h => by omega), if_neg (by omega)]

theorem wireLabels_cons (l : Bytes) (ls : List Bytes) :
    wireLabels (l :: ls) = UInt8.ofNat l.length :: (l ++ wireLabels ls) := rfl

theorem length_addLabel_map (d l : Bytes) : (addLabel d (l.map lowerByte)).length = (addLabel d l).length := by
  unfold addLabel
  rw [length_append, length_append, length_map]

theorem length_foldl_addLabel_le (d : Bytes) (ls : List Bytes) :
    d.length ≤ (ls.foldl addLabel d).length := by
  induction ls generalizing d with
  | nil => exact Nat.le_refl _
  | cons l ls ih =>
    refine Nat.le_trans ?_ (ih (addLabel d l))
    unfold addLabel
    split
    · next hd => simp [hd]
    · rw [length_append, length_append]
      omega

theorem length_foldl_addLabel {d e : Bytes} (hlen : d.length = e.length) (ls : List Bytes) :
    (ls.foldl addLabel d).length = (ls.foldl addLabel e).length := by
  induction ls generalizing d e with
  | nil => exact hlen
  | cons l ls ih =>
    refine ih ?_
    have hnil : d = [] ↔ e = [] := by
      rw [← length_eq_zero_iff, ← length_eq_zero_iff, hlen]
    unfold addLabel
    by_cases hd : d = []
    · rw [if_pos hd, if_pos (hnil.1 hd)]
    · rw [if_neg hd, if_neg (mt hnil.2 hd)]
      simp [hlen]

theorem decodeFrom_labels (hmsg : msg.drop p = wireLabels ls ++ rest)
    (hls : ∀ l ∈ ls, 0 < l.length ∧ l.length ≤ 63) (hfit : (ls.foldl addLabel d).length < dstlen) :
    decodeFrom msg dstlen off p hops consumed d =
      decodeFrom msg dstlen off (p + (wireLabels ls).length) hops consumed
        ((ls.map (·.map lowerByte)).foldl addLabel d) := by
  induction ls generalizing p d with
  | nil => rfl
  | cons l ls ih =>
    rw [forall_mem_cons] at hls
    rw [wireLabels_cons, cons_append, append_assoc] at hmsg
    have hone := Nat.lt_of_le_of_lt (length_foldl_addLabel_le (addLabel d l) ls) hfit
    have hdrop : msg.drop (p + 1 + l.length) = wireLabels ls ++ rest := by
      rw [Nat.add_assoc, ← drop_drop, hmsg, Nat.add_comm 1, drop_succ_cons, drop_left]
    rw [foldl_cons, ← length_foldl_addLabel (length_addLabel_map d l) ls] at hfit
    rw [decodeFrom_label hmsg hls.1.1 hls.1.2, if_pos hone, ih hdrop hls.2 hfit, wireLabels_cons,
      length_cons, length_append, map_cons, foldl_cons]
    congr 1
    omega

theorem decodeFrom_labels_some (hmsg : msg.drop p = wireLabels ls ++ rest)
    (hls : ∀ l ∈ ls, 0 < l.length ∧ l.length ≤ 63)
    (hsome : decodeFrom msg dstlen off p hops consumed d = some r) :
    decodeFrom msg dstlen off (p + (wireLabels ls).length) hops consumed
      ((ls.map (·.map lowerByte)).foldl addLabel d) = some r := by
  induction ls generalizing p d with
  | nil => exact hsome
  | cons l ls ih =>
    rw [forall_mem_cons] at hls
    rw [wireLabels_cons, cons_append, append_assoc] at hmsg
    have hdrop : msg.drop (p + 1 + l.length) = wireLabels ls ++ rest := by
      rw [Nat.add_assoc, ← drop_drop, hmsg, Nat.add_comm 1, drop_succ_cons, drop_left]
    rw [decodeFrom_label hmsg hls.1.1 hls.1.2] at hsome
    split at hsome
    · have hread := ih hdrop hls.2 hsome
      rw [wireLabels_cons, length_cons, length_append, map_cons, foldl_cons, ← hread]
      congr 1
      omega
    · cases hsome

theorem decodeFrom_zero (hmsg : msg.drop p = 0 :: rest) :
    decodeFrom msg dstlen off p hops consumed d =
      if dstlen ≤ d.length then none else some (consumed.getD (p + 1 - off), d) := by
  have hlen := congrArg length hmsg
  rw [length_drop, length_cons] at hlen
  have hp : p < msg.length := by omega
  rw [drop_eq_getElem_cons hp, cons.injEq] at hmsg
  rw [decodeFrom, dif_pos hp, hmsg.1]
  rfl

theorem decodeFrom_end (hp : msg.length ≤ p) : decodeFrom msg dstlen off p hops consumed d =
    if dstlen ≤ d.length then none else some (consumed.getD (p - off), d) := by
  rw [decodeFrom, dif_neg (Nat.not_lt.2 hp)]

/-! ### The readers -/

theorem decodeFrom_jumped {c : ℕ} (hc : consumed = some c)
    (hsome : decodeFrom msg dstlen off p hops consumed d = some r) : r.1 = c := by
  induction p, hops, consumed, d using decodeFrom.induct msg dstlen off with
  | case1 p hops consumed d h n hn target hend =>
    rw [decodeFrom, dif_pos h] at hsome
    dsimp only at hsome
    rw [if_pos hn, if_pos hend] at hsome
    cases hsome
  | case2 p hops consumed d h n hn target hend hhops ih =>
    rw [decodeFrom, dif_pos h] at hsome
    dsimp only at hsome
    rw [if_pos hn, if_neg hend, if_pos hhops] at hsome
    refine ih ?_ hsome
    rw [hc]
    rfl
  | case3 p hops consumed d h n hn target hend hhops =>
    rw [decodeFrom, dif_pos h] at hsome
    dsimp only at hsome
    rw [if_pos hn, if_neg hend, if_neg hhops] at hsome
    cases hsome
  | case4 p hops consumed d h n hn hlt hzero =>
    rw [decodeFrom, dif_pos h] at hsome
    dsimp only at hsome
    rw [if_neg hn, if_pos hlt, if_pos hzero] at hsome
    split at hsome
    · cases hsome
    · rw [← Option.some.inj hsome, hc]
      rfl
  | case5 p hops consumed d h n hn hlt hzero hend =>
    rw [decodeFrom, dif_pos h] at hsome
    dsimp only at hsome
    rw [if_neg hn, if_pos hlt, if_neg hzero, if_pos hend] at hsome
    cases hsome
  | case6 p hops consumed d h n hn hlt hzero hend hroom =>
    rw [decodeFrom, dif_pos h] at hsome
    dsimp only at hsome
    rw [if_neg hn, if_pos hlt, if_neg hzero, if_neg hend, if_pos hroom] at hsome
    cases hsome
  | case7 p hops consumed d h n hn hlt hzero hend hroom d' hfull =>
    rw [decodeFrom, dif_pos h] at hsome
    dsimp only at hsome
    rw [if_neg hn, if_pos hlt, if_neg hzero, if_neg hend, if_neg hroom] at hsome
    rw [show (if dstlen - length (if d = [] then [] else d ++ [0x2e]) ≤ msg[p].toNat then _ else _) = _
      from if_pos hfull] at hsome
    cases hsome
  | case8 p hops consumed d h n hn hlt hzero hend hroom d' hfull label ih =>
    rw [decodeFrom, dif_pos h] at hsome
    dsimp only at hsome
    rw [if_neg hn, if_pos hlt, if_neg hzero, if_neg hend, if_neg hroom] at hsome
    rw [show (if dstlen - length (if d = [] then [] else d ++ [0x2e]) ≤ msg[p].toNat then _ else _) = _
      from if_neg hfull] at hsome
    exact ih hc hsome
  | case9 p hops consumed d h n hn hlt =>
    rw [decodeFrom, dif_pos h] at hsome
    dsimp only at hsome
    rw [if_neg hn, if_neg hlt] at hsome
    cases hsome
  | case10 p hops consumed d h =>
    rw [decodeFrom_end (Nat.not_lt.1 h)] at hsome
    split at hsome
    · cases hsome
    · rw [← Option.some.inj hsome, hc]
      rfl

theorem nameEnd_label (hmsg : msg.drop p = UInt8.ofNat l.length :: (l ++ rest)) (hpos : 0 < l.length)
    (hshort : l.length ≤ 63) : nameEnd msg p = nameEnd msg (p + 1 + l.length) := by
  have hlen := congrArg length hmsg
  rw [length_drop, length_cons, length_append] at hlen
  have hp : p < msg.length := by omega
  rw [drop_eq_getElem_cons hp, cons.injEq] at hmsg
  have hn : msg[p].toNat = l.length := by
    rw [hmsg.1, UInt8.toNat_ofNat']
    omega
  rw [nameEnd, dif_pos hp]
  dsimp only
  rw [hn, if_neg (by omega), if_pos (by omega), if_neg (by omega), if_neg (by omega)]

theorem nameEnd_unended (hmsg : msg.drop p = wireLabels ls)
    (hls : ∀ l ∈ ls, 0 < l.length ∧ l.length ≤ 63) : nameEnd msg p = none := by
  induction ls generalizing p with
  | nil =>
    rw [nameEnd, dif_neg]
    exact Nat.not_lt.2 (drop_eq_nil_iff.1 hmsg)
  | cons l ls ih =>
    rw [forall_mem_cons] at hls
    rw [nameEnd_label hmsg hls.1.1 hls.1.2]
    refine ih ?_ hls.2
    rw [Nat.add_assoc, ← drop_drop, hmsg, wireLabels_cons, Nat.add_comm 1, drop_succ_cons, drop_left]

theorem nameEnd_of_decodeFrom (hoff : off ≤ p)
    (hsome : decodeFrom msg dstlen off p 0 none d = some r) :
    nameEnd msg p = some (off + r.1) ∨ (nameEnd msg p = none ∧
      ∃ ls : List Bytes, (∀ l ∈ ls, 0 < l.length ∧ l.length ≤ 63) ∧ msg.drop p = wireLabels ls ∧
        (ls.foldl addLabel d).length < dstlen) := by
  induction hm : msg.length - p using Nat.strongRecOn generalizing p d with
  | ind m ih =>
    by_cases hp : p < msg.length
    · have hsplit := drop_eq_getElem_cons hp
      have hsome' := hsome
      rw [decodeFrom, dif_pos hp] at hsome
      dsimp only at hsome
      split at hsome
      · -- a pointer
        next hptr =>
        split at hsome
        · cases hsome
        · next hend =>
          rw [if_pos (by decide)] at hsome
          have hr := decodeFrom_jumped rfl hsome
          refine .inl ?_
          rw [nameEnd, dif_pos hp]
          dsimp only
          rw [if_pos hptr, if_neg (not_or.1 hend).1, hr, Option.getD_none]
          congr 1
          omega
      · next hptr =>
        split at hsome
        · next hlabel =>
          split at hsome
          · -- the end
            next hzero =>
            split at hsome
            · cases hsome
            · refine .inl ?_
              rw [nameEnd, dif_pos hp]
              dsimp only
              rw [if_neg hptr, if_pos hlabel, if_pos hzero, ← Option.some.inj hsome, Option.getD_none]
              congr 1
              omega
          · -- a label
            next hzero =>
            split at hsome
            · cases hsome
            · next hend =>
              obtain ⟨l, hl⟩ : ∃ l, l = (msg.drop (p + 1)).take msg[p].toNat := ⟨_, rfl⟩
              have hlen : l.length = msg[p].toNat := by
                rw [hl, length_take, length_drop]
                omega
              have hbyte : msg[p] = UInt8.ofNat l.length := by
                rw [hlen, UInt8.ofNat_toNat]
              have hmsg : msg.drop p = UInt8.ofNat l.length :: (l ++ msg.drop (p + 1 + l.length)) := by
                have hrest : l ++ msg.drop (p + 1 + l.length) = msg.drop (p + 1) := by
                  rw [hlen, ← drop_drop, hl]
                  exact take_append_drop _ _
                rw [hsplit, hrest, hbyte]
              have hpos : 0 < l.length := by omega
              have hshort : l.length ≤ 63 := by omega
              rw [decodeFrom_label hmsg hpos hshort] at hsome'
              split at hsome'
              · next hone =>
                rw [nameEnd_label hmsg hpos hshort]
                rcases ih (msg.length - (p + 1 + l.length)) (by omega) (by omega) hsome' rfl with
                  hend' | ⟨hend', ls, hls, hdrop, hfit⟩
                · exact .inl hend'
                · refine .inr ⟨hend', l :: ls, forall_mem_cons.2 ⟨⟨hpos, hshort⟩, hls⟩, ?_, ?_⟩
                  · rw [hmsg, hdrop, wireLabels_cons]
                  · rw [length_foldl_addLabel (length_addLabel_map d l) ls] at hfit
                    exact hfit
              · cases hsome'
        · cases hsome
    · rw [decodeFrom_end (Nat.not_lt.1 hp)] at hsome
      split at hsome
      · cases hsome
      · next hfit =>
        refine .inr ⟨?_, [], fun _ h => absurd h not_mem_nil, ?_, Nat.not_le.1 hfit⟩
        · rw [nameEnd, dif_neg hp]
        · rw [drop_eq_nil_iff.2 (Nat.not_lt.1 hp)]
          rfl

/-- When the readers agree. -/
theorem agrees_iff (msg : Bytes) (off dstlen : ℕ) :
    (∀ consumed d, dnsNameDecodeInto msg off dstlen = .ok (some (consumed, d)) →
      dnsNameSkip msg off = some consumed) ↔ ¬ Unended msg off dstlen := by
  rw [dnsNameDecodeInto_eq]
  constructor
  · rintro hagrees ⟨ls, hls, hdrop, hfit⟩
    rw [← foldl_addLabel_nil fun l hl => (hls l hl).1] at hfit
    have hread := @decodeFrom_labels msg dstlen off off 0 none [] [] ls
      (by rw [hdrop, append_nil]) hls hfit
    have hlen := congrArg length hdrop
    rw [length_drop] at hlen
    have hfit' : ¬ dstlen ≤ ((ls.map (·.map lowerByte)).foldl addLabel []).length := by
      have hsame := congrArg length (map_foldl_addLabel [] ls)
      rw [map_nil, length_map] at hsame
      omega
    have hend : msg.length ≤ off + (wireLabels ls).length := by omega
    rw [decodeFrom_end hend, if_neg hfit'] at hread
    have hskip := hagrees _ _ (congrArg Except.ok hread)
    rw [dnsNameSkip, nameEnd_unended hdrop hls] at hskip
    cases hskip
  · intro hended consumed d hsome
    rcases nameEnd_of_decodeFrom (Nat.le_refl off) (Except.ok.inj hsome) with hend | ⟨-, ls, hls, hdrop, hfit⟩
    · rw [dnsNameSkip, hend, Option.map_some, Nat.add_sub_cancel_left]
    · refine absurd ⟨ls, hls, hdrop, ?_⟩ hended
      rw [← foldl_addLabel_nil fun l hl => (hls l hl).1]
      exact hfit

/-! ### Writing -/

theorem spell_cons_cons (l m : Bytes) (ls : List Bytes) :
    spell (l :: m :: ls) = l ++ 0x2e :: spell (m :: ls) := by
  simp [spell, intercalate]

theorem spell_singleton (l : Bytes) : spell [l] = l := by
  simp [spell, intercalate]

theorem split_spell {l : Bytes} (hdot : 0x2e ∉ l) (ls : List Bytes) :
    (spell (l :: ls)).takeWhile (· ≠ 0x2e) = l ∧
      ((spell (l :: ls)).dropWhile (· ≠ 0x2e)).drop 1 = spell ls := by
  have hall : ∀ c ∈ l, decide (c ≠ 0x2e) = true := by
    intro c hc
    refine decide_eq_true ?_
    rintro rfl
    exact hdot hc
  cases ls with
  | nil =>
    have htake := @takeWhile_append_of_pos _ _ l [] hall
    rw [append_nil, takeWhile_nil, append_nil] at htake
    have hdrop := @dropWhile_append_of_pos _ _ l [] hall
    rw [append_nil, dropWhile_nil] at hdrop
    rw [spell_singleton, htake, hdrop]
    exact ⟨rfl, rfl⟩
  | cons m ls =>
    rw [spell_cons_cons, takeWhile_append_of_pos hall, dropWhile_append_of_pos hall]
    simp

theorem length_wireLabels_le {ls : List Bytes} (hls : ∀ l ∈ ls, 0 < l.length) :
    (wireLabels ls).length ≤ (spell ls).length + 1 := by
  induction ls with
  | nil => exact Nat.zero_le _
  | cons l ls ih =>
    rw [forall_mem_cons] at hls
    have ih := ih hls.2
    rw [wireLabels_cons, length_cons, length_append]
    cases ls with
    | nil => simp [spell_singleton, wireLabels]
    | cons m ls =>
      rw [spell_cons_cons, length_append, length_cons]
      omega

theorem encodeFrom_spell (hls : ∀ l ∈ ls, 0 < l.length ∧ l.length ≤ 63 ∧ 0x2e ∉ l) (d : Bytes) :
    encodeFrom dstlen d (spell ls) =
      if d.length + (wireLabels ls).length < dstlen then some (d ++ (wireLabels ls ++ [0]))
      else none := by
  induction ls generalizing d with
  | nil =>
    rw [show spell [] = [] from rfl, show wireLabels [] = [] from rfl, encodeFrom, dif_pos rfl,
      length_nil, Nat.add_zero, nil_append]
    by_cases hroom : dstlen ≤ d.length
    · rw [if_pos hroom, if_neg (Nat.not_lt.2 hroom)]
    · rw [if_neg hroom, if_pos (Nat.not_le.1 hroom)]
  | cons l ls ih =>
    rw [forall_mem_cons] at hls
    obtain ⟨⟨hpos, hshort, hdot⟩, hls⟩ := hls
    obtain ⟨htake, hdrop⟩ := split_spell hdot ls
    have hne : spell (l :: ls) ≠ [] := by
      intro hnil
      rw [hnil, takeWhile_nil] at htake
      rw [← htake] at hpos
      exact absurd hpos (Nat.lt_irrefl 0)
    rw [encodeFrom, dif_neg hne]
    dsimp only
    rw [htake, hdrop, if_neg (length_pos_iff.1 hpos), if_neg (Nat.not_lt.2 hshort), ih hls,
      wireLabels_cons, length_cons, length_append, length_append, length_cons]
    by_cases hroom : dstlen ≤ d.length + 1 + l.length
    · rw [if_pos hroom, if_neg (by omega)]
    · rw [if_neg hroom]
      by_cases hfit : d.length + (l.length + 1) + (wireLabels ls).length < dstlen
      · rw [if_pos hfit, if_pos (by omega)]
        simp
      · rw [if_neg hfit, if_neg (by omega)]

section Labels

variable (ls : List Label)

theorem sized_labels : ∀ l ∈ ls.map Label.bytes, 0 < l.length ∧ l.length ≤ 63 ∧ 0x2e ∉ l := by
  intro l hl
  obtain ⟨m, -, rfl⟩ := mem_map.1 hl
  exact ⟨m.pos, m.short, m.dot⟩

theorem dnsNameEncode_isSome {room : ℕ} (hroom : (dotted ls).length + 2 ≤ room) :
    (dnsNameEncode room (dotted ls)).isSome := by
  have hlen := length_wireLabels_le fun l hl => (sized_labels ls l hl).1
  have henc : encodeFrom room [] (spell (ls.map Label.bytes)) = _ :=
    encodeFrom_spell (sized_labels ls) []
  unfold dotted at hroom
  unfold spell at hlen henc
  rw [length_nil, Nat.zero_add, if_pos (by omega)] at henc
  rw [dnsNameEncode, dotted, henc]
  rfl

theorem decode_encode {room size : ℕ} {enc : Bytes}
    (henc : dnsNameEncode room (dotted ls) = some enc) : dnsNameDecodeInto enc 0 size =
      .ok (if (dotted ls).length < size then some (enc.length, (dotted ls).map lowerByte) else none) := by
  have hsized : ∀ l ∈ ls.map Label.bytes, 0 < l.length ∧ l.length ≤ 63 :=
    fun l hl => ⟨(sized_labels ls l hl).1, (sized_labels ls l hl).2.1⟩
  have hname : (ls.map Label.bytes).foldl addLabel [] = dotted ls :=
    foldl_addLabel_nil fun l hl => (hsized l hl).1
  have hlower := map_foldl_addLabel [] (ls.map Label.bytes)
  rw [hname, map_nil] at hlower
  have hwire : encodeFrom room [] (spell (ls.map Label.bytes)) = _ :=
    encodeFrom_spell (sized_labels ls) []
  rw [dnsNameEncode, dotted] at henc
  rw [spell, henc] at hwire
  split at hwire
  · obtain rfl := Option.some.inj hwire
    rw [nil_append, dnsNameDecodeInto_eq]
    refine congrArg Except.ok ?_
    have hzero : (wireLabels (ls.map Label.bytes) ++ [0]).drop
        (0 + (wireLabels (ls.map Label.bytes)).length) = [0] := by
      rw [Nat.zero_add, drop_left]
    have hend := @decodeFrom_zero _ size 0 _ 0 none ((dotted ls).map lowerByte) _ hzero
    rw [length_map] at hend
    by_cases hfit : (dotted ls).length < size
    · rw [if_neg (Nat.not_le.2 hfit)] at hend
      rw [if_pos hfit, decodeFrom_labels (drop_zero ..) hsized (by rw [hname]; exact hfit), hlower, hend,
        length_append, length_singleton, Option.getD_none, Nat.zero_add, Nat.sub_zero]
    · rw [if_pos (Nat.not_lt.1 hfit)] at hend
      rw [if_neg hfit, Option.eq_none_iff_forall_ne_some]
      intro r hsome
      have hread := decodeFrom_labels_some (drop_zero ..) hsized hsome
      rw [hlower, hend] at hread
      cases hread
  · cases hwire

end Labels

/-- When the names are read, skipped and written as they should be. -/
theorem named_iff (msg : Bytes) (off dstlen : ℕ) : Named msg off dstlen ↔ ¬ Unended msg off dstlen := by
  rw [← agrees_iff]
  exact ⟨fun h => h.agrees, fun h => ⟨⟨_, dnsNameDecodeInto_eq msg off dstlen⟩, h,
    fun ls _ => dnsNameEncode_isSome ls, fun ls _ _ _ => decode_encode ls⟩⟩

/-- A packet that ends behind a label. -/
theorem not_named : ¬ ∀ (msg : Bytes) (off dstlen : ℕ), Named msg off dstlen := by
  intro h
  have hskip := (h [1, 0x61] 0 257).agrees 2 [0x61] (by decide +kernel)
  revert hskip
  decide +kernel

end Eggdrop.Dns
