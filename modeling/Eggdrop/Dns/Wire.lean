import Eggdrop.Net.Tputs

/-!
# Wire — reading a reply (dns.mod/res.c)

A reply is a header, a question and answer records.  `process_answer` goes through at most 64 of the
records and stops at the first that it can use.

* `answerLoop_addr`, `answerLoop_ptr`: the loop is a search through the records.
* `readAnswer_addr`, `answers_of_readAnswer`, `named_of_readAnswer`: what a reply says to each kind
  of question.
-/

open List

namespace Eggdrop.Dns

open Net

/-- `sockaddr_storage` of an address. -/
inductive SockAddr
  | inet (addr : Bytes)
  | inet6 (addr : Bytes)
  deriving DecidableEq

/-- The types that are asked for: `DNS_TYPE_A`, `DNS_TYPE_AAAA` and `DNS_TYPE_PTR`. -/
inductive BaseType
  | a
  | aaaa
  | ptr
  deriving DecidableEq

/-! ### The header -/

def hdrU16 (pkt : Bytes) (off : ℕ) : ℕ := (pkt.getD off 0).toNat * 256 + (pkt.getD (off + 1) 0).toNat

def hdrId (pkt : Bytes) : ℕ := hdrU16 pkt 0
def hdrFlags (pkt : Bytes) : ℕ := hdrU16 pkt 2
def hdrQdcount (pkt : Bytes) : ℕ := hdrU16 pkt 4
def hdrAncount (pkt : Bytes) : ℕ := hdrU16 pkt 6
def hdrQr (pkt : Bytes) : ℕ := hdrFlags pkt / 2 ^ 15
def hdrOpcode (pkt : Bytes) : ℕ := hdrFlags pkt / 2 ^ 11 % 16
def hdrTc (pkt : Bytes) : Bool := hdrFlags pkt / 2 ^ 9 % 2 == 1
def hdrRcode (pkt : Bytes) : ℕ := hdrFlags pkt % 16

/-! ### Names -/

/-- The loop of `dns_name_skip` from index `p`: where the name ends. -/
def nameEnd (msg : Bytes) (p : ℕ) : Option ℕ :=
  if h : p < msg.length then
    let n := msg[p].toNat
    if 0xc0 ≤ n then
      if msg.length ≤ p + 1 then none else some (p + 2)
    else if n < 0x40 then
      if n = 0 then some (p + 1)
      else if msg.length < p + 1 + n then none
      else nameEnd msg (p + 1 + n)
    else none
  else none
termination_by msg.length - p

def dnsNameSkip (msg : Bytes) (off : ℕ) : Option ℕ := (nameEnd msg off).map (· - off)

/-- `tolower` of a byte. -/
def lowerByte (c : UInt8) : UInt8 := if 0x41 ≤ c ∧ c ≤ 0x5a then c + 0x20 else c

/-- The loop of `dns_name_decode` from index `p`, with what is written, `consumed` once a pointer was
followed, and the number of pointers so far. -/
def decodeFrom (msg : Bytes) (dstlen off p hops : ℕ) (consumed : Option ℕ) (d : Bytes) :
    Option (ℕ × Bytes) :=
  let finish (p : ℕ) := if dstlen ≤ d.length then none else some (consumed.getD (p - off), d)
  if h : p < msg.length then
    let n := msg[p].toNat
    if 0xc0 ≤ n then
      let target := n % 0x40 * 256 + (msg.getD (p + 1) 0).toNat
      if msg.length ≤ p + 1 ∨ msg.length ≤ target then none
      else if hops < 16 then
        decodeFrom msg dstlen off target (hops + 1) (some (consumed.getD (p - off + 2))) d
      else none
    else if n < 0x40 then
      if n = 0 then finish (p + 1)
      else if msg.length < p + 1 + n then none
      else if d ≠ [] ∧ dstlen - 1 ≤ d.length then none
      else
        let d := if d = [] then [] else d ++ [0x2e]
        if dstlen - d.length ≤ n then none
        else
          let label := ((msg.drop (p + 1)).take n).map lowerByte
          decodeFrom msg dstlen off (p + 1 + n) hops consumed (d ++ label)
    else none
  else finish p
termination_by (16 - hops) * (msg.length + 1) + (msg.length - p)
decreasing_by
  · next _ _ hhops =>
    have hmul : (16 - hops) * (msg.length + 1) = (16 - (hops + 1)) * (msg.length + 1) + (msg.length + 1) := by
      rw [← Nat.succ_mul]
      congr 1
      omega
    omega
  · exact Nat.add_lt_add_left (by omega) _

/-- The string in a buffer. -/
def cstr (s : Bytes) : Bytes := s.takeWhile (· ≠ 0)

/-- `IRCD_RES_HOSTLEN`. -/
def hostlen : ℕ := 256

/-- `dns_name_decode` into a buffer for a host name: the bytes of the name that it used, and the
string. -/
def dnsNameDecode (msg : Bytes) (off : ℕ) : Option (ℕ × Bytes) :=
  (decodeFrom msg (hostlen + 1) off off 0 none []).map fun r => (r.1, cstr r.2)

/-! ### Records -/

/-- A record of the answer: its type and where its data is. -/
structure Record where
  type : ℕ
  off : ℕ
  rdlen : ℕ
  deriving DecidableEq

/-- The record at an index, if it lies within the packet. -/
def recordAt (pkt : Bytes) (off : ℕ) : Option Record :=
  match dnsNameSkip pkt off with
  | none => none
  | some n =>
    let off := off + n
    if pkt.length < off + 10 then none
    else
      let rdlen := hdrU16 pkt (off + 8)
      if pkt.length < off + 10 + rdlen then none else some ⟨hdrU16 pkt off, off + 10, rdlen⟩

/-- The records of the answer, up to the first that does not lie within the packet. -/
def records (pkt : Bytes) : ℕ → ℕ → List Record
  | 0, _ => []
  | n + 1, off =>
    match recordAt pkt off with
    | none => []
    | some rr => rr :: records pkt n (rr.off + rr.rdlen)

/-- The data of a record. -/
def Record.rdata (pkt : Bytes) (rr : Record) : Bytes := (pkt.drop rr.off).take rr.rdlen

/-- The address that a record has for a question of type `base`. -/
def Record.addr? (pkt : Bytes) (base : BaseType) (rr : Record) : Option SockAddr :=
  match base with
  | .a => if rr.type = 1 ∧ rr.rdlen = 4 then some (.inet (rr.rdata pkt)) else none
  | .aaaa => if rr.type = 28 ∧ rr.rdlen = 16 then some (.inet6 (rr.rdata pkt)) else none
  | .ptr => none

/-- The alias that a record gives. -/
def Record.cname? (pkt : Bytes) (rr : Record) : Option Bytes :=
  if rr.type = 5 then
    match dnsNameDecode pkt rr.off with
    | some (nc, name) => if 0 < nc ∧ name ≠ [] then some name else none
    | none => none
  else none

/-- The name that a record gives for an address. -/
def Record.name? (pkt : Bytes) (base : BaseType) (rr : Record) : Option Bytes :=
  if rr.type = 12 ∧ base = .ptr then
    match dnsNameDecode pkt rr.off with
    | some (_, name) => if name = [] then none else some name
    | none => none
  else none

/-! ### Replies -/

/-- What `process_answer` makes of a packet. -/
inductive Verdict
  /-- not an answer to the request, or it cannot be read -/
  | dropped
  /-- a failure of the server; the request stays for the next try -/
  | retry
  /-- nothing, or an address -/
  | done (reply : Option SockAddr)
  /-- the name of the address that was asked for -/
  | named (hostname : Bytes)
  /-- no record that is asked for, but an alias -/
  | alias (cname : Bytes)
  deriving DecidableEq

/-- The loop of `process_answer` over `n` records from index `off`, with the alias so far. -/
def answerLoop (pkt : Bytes) (base : BaseType) : ℕ → ℕ → Bytes → Verdict
  | 0, _, cname => if cname = [] then .done none else .alias cname
  | n + 1, off, cname =>
    match recordAt pkt off with
    | none => if cname = [] then .done none else .alias cname
    | some rr =>
      let next := rr.off + rr.rdlen
      if rr.type = 5 then answerLoop pkt base n next ((rr.cname? pkt).getD cname)
      else
        match rr.addr? pkt base, rr.name? pkt base with
        | some addr, _ => .done (some addr)
        | none, some name => .named name
        | none, none => answerLoop pkt base n next cname

/-- The checks of the header. -/
def isReply (id : ℕ) (pkt : Bytes) : Bool :=
  12 ≤ pkt.length && hdrId pkt == id && hdrQr pkt == 1 && hdrOpcode pkt == 0 && hdrQdcount pkt == 1

/-- Where the answer section starts. -/
def answerStart (pkt : Bytes) : Option ℕ :=
  match dnsNameSkip pkt 12 with
  | none => none
  | some n => if pkt.length < 12 + n + 4 then none else some (12 + n + 4)

/-- `DNS_MAX_ANCOUNT`. -/
def maxAncount : ℕ := 64

/-- `process_answer`, up to what it does to the request. -/
def readAnswer (id : ℕ) (base : BaseType) (pkt : Bytes) : Verdict :=
  if !isReply id pkt then .dropped
  else if hdrTc pkt then .retry
  else if hdrRcode pkt = 2 ∨ hdrRcode pkt = 4 ∨ hdrRcode pkt = 5 then .retry
  else if hdrRcode pkt ≠ 0 ∨ hdrAncount pkt = 0 then .done none
  else
    match answerStart pkt with
    | none => .dropped
    | some off => answerLoop pkt base (min (hdrAncount pkt) maxAncount) off []

/-- A reply that answers the question. -/
def Answers (id : ℕ) (pkt : Bytes) : Prop :=
  isReply id pkt = true ∧ hdrTc pkt = false ∧ hdrRcode pkt = 0

/-- The addresses among the first `n` records of the answer. -/
def addresses (base : BaseType) (n : ℕ) (pkt : Bytes) : List SockAddr :=
  match answerStart pkt with
  | none => []
  | some off => (records pkt (min (hdrAncount pkt) n) off).filterMap (Record.addr? pkt base)

/-! ### The search -/

variable {pkt : Bytes} {base : BaseType}

theorem name?_ne_nil {rr : Record} {name : Bytes} (h : rr.name? pkt base = some name) :
    name ≠ [] := by
  rw [Record.name?] at h
  split at h
  · split at h
    · split at h
      · cases h
      · next hname => exact Option.some.inj h ▸ hname
    · cases h
  · cases h

theorem addr?_of_cname {rr : Record} (h : rr.type = 5) : rr.addr? pkt base = none := by
  cases base <;> simp [Record.addr?, h]

theorem answerLoop_end {cname : Bytes} :
    (if cname = [] then Verdict.done none else .alias cname) = .done none ∨
      ∃ c ≠ [], (if cname = [] then Verdict.done none else .alias cname) = .alias c := by
  by_cases hc : cname = []
  · exact .inl (if_pos hc)
  · exact .inr ⟨cname, hc, if_neg hc⟩

theorem answerLoop_addr (hbase : base ≠ .ptr) :
    ∀ (n off : ℕ) (cname : Bytes),
      (∃ x, ((records pkt n off).filterMap (Record.addr? pkt base)).head? = some x ∧
        answerLoop pkt base n off cname = .done (some x)) ∨
      ((records pkt n off).filterMap (Record.addr? pkt base) = [] ∧
        (answerLoop pkt base n off cname = .done none ∨
          ∃ c ≠ [], answerLoop pkt base n off cname = .alias c))
  | 0, _, _ => .inr ⟨rfl, answerLoop_end⟩
  | n + 1, off, cname => by
    rw [records, answerLoop]
    rcases hrr : recordAt pkt off with _ | rr
    · exact .inr ⟨rfl, answerLoop_end⟩
    dsimp only
    rw [filterMap_cons]
    by_cases hcname : rr.type = 5
    · rw [if_pos hcname, addr?_of_cname hcname]
      exact answerLoop_addr hbase n _ _
    · have hname : rr.name? pkt base = none := by simp [Record.name?, hbase]
      rw [if_neg hcname, hname]
      rcases haddr : rr.addr? pkt base with _ | x
      · exact answerLoop_addr hbase n _ _
      · exact .inl ⟨x, rfl, rfl⟩

theorem answerLoop_ptr :
    ∀ (n off : ℕ) (cname : Bytes),
      answerLoop pkt .ptr n off cname = .done none ∨
        (∃ h ≠ [], answerLoop pkt .ptr n off cname = .named h) ∨
        ∃ c ≠ [], answerLoop pkt .ptr n off cname = .alias c
  | 0, _, cname => by
    rcases @answerLoop_end cname with h | h
    · exact .inl h
    · exact .inr (.inr h)
  | n + 1, off, cname => by
    rw [answerLoop]
    rcases hrr : recordAt pkt off with _ | rr
    · rcases @answerLoop_end cname with h | h
      · exact .inl h
      · exact .inr (.inr h)
    dsimp only
    split
    · exact answerLoop_ptr n _ _
    · have haddr : rr.addr? pkt .ptr = none := rfl
      rw [haddr]
      rcases hname : rr.name? pkt .ptr with _ | name
      · exact answerLoop_ptr n _ _
      · exact .inr (.inl ⟨name, name?_ne_nil hname, rfl⟩)

/-- All addresses of the answer. -/
def allAddresses (base : BaseType) (pkt : Bytes) : List SockAddr :=
  addresses base (hdrAncount pkt) pkt

theorem records_sublist {m n : ℕ} (h : m ≤ n) (off : ℕ) :
    (records pkt m off).Sublist (records pkt n off) := by
  induction m generalizing n off with
  | zero => exact nil_sublist _
  | succ m ih =>
    obtain ⟨n, rfl⟩ : ∃ k, n = k + 1 := ⟨n - 1, by omega⟩
    rw [records, records]
    rcases recordAt pkt off with _ | rr
    · exact .refl _
    · exact (ih (by omega) _).cons_cons rr

theorem mem_allAddresses {n : ℕ} {x : SockAddr} (h : x ∈ addresses base n pkt) :
    x ∈ allAddresses base pkt := by
  rw [addresses] at h
  rw [allAddresses, addresses]
  rcases hstart : answerStart pkt with _ | off
  · rw [hstart] at h
    exact absurd h not_mem_nil
  rw [hstart] at h
  dsimp only at h ⊢
  refine ((records_sublist ?_ off).filterMap _).subset h
  rw [Nat.min_self]
  exact Nat.min_le_left _ _

theorem readAnswer_addr (hbase : base ≠ .ptr) {id : ℕ} (h : Answers id pkt)
    (hsome : allAddresses base pkt ≠ []) :
    (∃ x, (addresses base maxAncount pkt).head? = some x ∧ readAnswer id base pkt = .done (some x)) ∨
      (addresses base maxAncount pkt = [] ∧
        (readAnswer id base pkt = .done none ∨ ∃ c ≠ [], readAnswer id base pkt = .alias c)) := by
  obtain ⟨hreply, htc, hrcode⟩ := h
  have hcount : hdrAncount pkt ≠ 0 := by
    intro h0
    rw [allAddresses, addresses, h0] at hsome
    rcases hstart : answerStart pkt with _ | off
    · rw [hstart] at hsome
      exact hsome rfl
    · rw [hstart] at hsome
      exact hsome rfl
  rw [readAnswer, if_neg (by simp [hreply]), if_neg (by simp [htc]), if_neg (by omega),
    if_neg (by simp [hrcode, hcount]), addresses]
  rcases hstart : answerStart pkt with _ | off
  · rw [allAddresses, addresses, hstart] at hsome
    exact absurd rfl hsome
  · exact @answerLoop_addr pkt base hbase (min (hdrAncount pkt) maxAncount) off []

theorem answers_of_readAnswer {id : ℕ} {x : SockAddr} (h : readAnswer id base pkt = .done (some x)) :
    Answers id pkt ∧ base ≠ .ptr ∧ (addresses base maxAncount pkt).head? = some x := by
  rw [readAnswer] at h
  split at h
  · cases h
  next hreply =>
  split at h
  · cases h
  next htc =>
  split at h
  · cases h
  split at h
  · cases h
  next hrcode =>
  split at h
  · cases h
  next off hstart =>
  have hbase : base ≠ .ptr := by
    rintro rfl
    rcases @answerLoop_ptr pkt (min (hdrAncount pkt) maxAncount) off [] with
      hv | ⟨n, -, hv⟩ | ⟨c, -, hv⟩ <;>
    · rw [hv] at h
      cases h
  refine ⟨⟨by simpa using hreply, by simpa using htc, by omega⟩, hbase, ?_⟩
  rw [addresses, hstart]
  dsimp only
  rcases @answerLoop_addr pkt base hbase (min (hdrAncount pkt) maxAncount) off [] with
    ⟨x', hx', hv⟩ | ⟨-, hv | ⟨c, -, hv⟩⟩
  · rw [hv] at h
    obtain rfl : x' = x := by simpa using h
    exact hx'
  · rw [hv] at h
    cases h
  · rw [hv] at h
    cases h

theorem named_of_readAnswer {id : ℕ} {name : Bytes} (h : readAnswer id base pkt = .named name) :
    name ≠ [] ∧ base = .ptr := by
  rw [readAnswer] at h
  split at h
  · cases h
  split at h
  · cases h
  split at h
  · cases h
  split at h
  · cases h
  split at h
  · cases h
  next off _ =>
  by_cases hbase : base = .ptr
  · subst hbase
    rcases @answerLoop_ptr pkt (min (hdrAncount pkt) maxAncount) off [] with
      hv | ⟨n, hn, hv⟩ | ⟨c, -, hv⟩
    · rw [hv] at h
      cases h
    · rw [hv] at h
      obtain rfl : n = name := by simpa using h
      exact ⟨hn, rfl⟩
    · rw [hv] at h
      cases h
  · rcases @answerLoop_addr pkt base hbase (min (hdrAncount pkt) maxAncount) off [] with
      ⟨x, -, hv⟩ | ⟨-, hv | ⟨c, -, hv⟩⟩ <;>
    · rw [hv] at h
      cases h

end Eggdrop.Dns
