import Eggdrop.Base.CString
import Eggdrop.Dns.Wire
import Eggdrop.Lib.Run
import Eggdrop.Lib.SwapRemove

/-!
# Resolver — lookups and their requests (dns.mod/res.c)

A lookup is a query with a callback, and a request in the table asks for it: for the name of an
address first, and with the name in hand for the name's addresses.  Replies, timeouts and restarts
end requests, and the callbacks, which run in the middle of that, may start lookups of their own.

Requests and queries are known by the number of their allocation; what is not there any more when it
is touched is a fault.
-/

open List

namespace Eggdrop.Dns

open Net SwapRemove

/-! ### Requests -/

/-- `egg_dns_ctx`: which callback a query has, and its context. -/
inductive Ctx
  /-- `egg_forward_cb` -/
  | forward (hostn : Bytes)
  /-- `egg_reverse_cb` -/
  | reverse (origAddr : SockAddr)
  deriving DecidableEq

/-- `DNSQuery`. -/
structure Query where
  ptr : ℕ
  ctx : Ctx
  deriving DecidableEq

/-- `dns_req`; `base` and `fcrdns` are the type and its flag. -/
structure Req where
  ptr : ℕ
  id : UInt16
  base : BaseType
  fcrdns : Bool
  retries : ℤ
  sentAt : ℤ
  timeout : ℤ
  cnameDepth : ℕ
  qname : Bytes
  origAddr : Option SockAddr
  hostname : Bytes
  query : ℕ
  deriving DecidableEq

/-- A call of a callback: for which query and from which request, with which address, and the packet
that brought it. -/
structure Called where
  query : Query
  req : Req
  reply : Option SockAddr
  answer : Option Bytes
  deriving DecidableEq

/-- What goes on when the callback returns. -/
inductive Next
  /-- nothing -/
  | answer
  /-- the loop of `timeout_resolver` at time `t`, below slot `i` -/
  | timeouts (i : ℕ) (t : ℤ)
  /-- the loop of `restart_resolver`, below slot `i`; then the resolver starts with `domain` -/
  | restart (i : ℕ) (domain : Bytes)
  deriving DecidableEq

/-- A callback under way, and the request that is freed after it. -/
structure Running where
  query : ℕ
  req : ℕ
  next : Next
  deriving DecidableEq

/-- `req_vec`, the queries, the callback under way and the calls so far. -/
structure Res where
  reqs : List Req
  queries : List Query
  nextReq : ℕ
  nextQuery : ℕ
  running : Option Running
  called : List Called
  domain : Bytes
  deriving DecidableEq

inductive Fault
  /-- a request or a query that is released -/
  | released
  /-- a slot that is not in the table -/
  | outside
  deriving DecidableEq

/-- An access through a pointer. -/
def Res.getReq (p : ℕ) (s : Res) : Except Fault Req :=
  match s.reqs.find? (·.ptr == p) with
  | some req => .ok req
  | none => .error .released

def Res.getQuery (q : ℕ) (s : Res) : Except Fault Query :=
  match s.queries.find? (·.ptr == q) with
  | some query => .ok query
  | none => .error .released

/-- `next_query_id`: numbers are drawn until one is free; `none` while none of those drawn is. -/
def nextQueryId (draws : List UInt16) (s : Res) : Option UInt16 :=
  draws.find? fun id => id != 0 && !s.reqs.any (·.id == id)

/-- `make_req`. -/
def Res.makeReq (id : UInt16) (now : ℤ) (query : ℕ) (base : BaseType) (s : Res) : Req :=
  ⟨s.nextReq, id, base, false, 3, now, 4, 0, [], none, [], query⟩

/-- The request that was made is in the table. -/
def Res.push (req : Req) (s : Res) : Res :=
  { s with reqs := s.reqs ++ [req], nextReq := s.nextReq + 1 }

/-- `free_req`: the last request takes the slot. -/
def Res.freeReq (p : ℕ) (s : Res) : Except Fault Res :=
  match s.reqs.findIdx? (·.ptr == p) with
  | some i => .ok { s with reqs := removeFast s.reqs i }
  | none => .error .released

/-! ### Lookups -/

/-- `%u` and `%x` of a byte's value. -/
def showByte (n : ℕ) : Bytes := (showNat n).map fun c => UInt8.ofNat c.toNat

def hexDigit (n : ℕ) : UInt8 := if n < 10 then UInt8.ofNat (0x30 + n) else UInt8.ofNat (0x57 + n)

/-- `build_rdns` without a suffix. -/
def buildRdns : SockAddr → Bytes
  | .inet addr =>
    addr.reverse.flatMap (fun b => showByte b.toNat ++ [0x2e]) ++
      "in-addr.arpa".toList.map fun c => UInt8.ofNat c.toNat
  | .inet6 addr =>
    addr.reverse.flatMap (fun b => [hexDigit (b.toNat % 16), 0x2e, hexDigit (b.toNat / 16), 0x2e]) ++
      "ip6.arpa".toList.map fun c => UInt8.ofNat c.toNat

/-- The name that `gethost_byname_type` asks for: one without a dot gets the domain, if that fits. -/
def fqdn (name domain : Bytes) : Bytes :=
  let name := name.take hostlen
  if domain ≠ [] ∧ 0x2e ∉ name ∧ name.length + 1 + domain.length < hostlen + 1 then
    name ++ 0x2e :: domain
  else name

/-- A query and its first request. -/
def Res.submit (ctx : Ctx) (req : ℕ → Req) (s : Res) : Res :=
  let s' : Res :=
    { s with queries := s.queries ++ [⟨s.nextQuery, ctx⟩], nextQuery := s.nextQuery + 1 }
  s'.push (req s.nextQuery)

/-- `dns_lookup`; an address of another family is not looked up. -/
def dnsLookup (addr : Option SockAddr) (draws : List UInt16) (now : ℤ) (s : Res) : Res :=
  match addr, nextQueryId draws s with
  | some addr, some id =>
    s.submit (.reverse addr) fun q =>
      { s.makeReq id now q .ptr with origAddr := some addr, qname := buildRdns addr }
  | _, _ => s

/-- `dns_forward` of a name that is no address; `aaaa` is the preference for IPv6. -/
def dnsForward (hostn : Bytes) (aaaa : Bool) (draws : List UInt16) (now : ℤ) (s : Res) : Res :=
  match nextQueryId draws s with
  | some id =>
    if hostn = [] then s
    else
      s.submit (.forward (hostn.take hostlen)) fun q =>
        { s.makeReq id now q (if aaaa then .aaaa else .a) with qname := fqdn hostn s.domain }
  | none => s

/-! ### Callbacks -/

/-- The callback of a request's query begins. -/
def callback (p : ℕ) (reply : Option SockAddr) (answer : Option Bytes) (next : Next) (s : Res) :
    Except Fault Res := do
  let req ← s.getReq p
  let query ← s.getQuery req.query
  .ok
    { s with
      running := some ⟨query.ptr, p, next⟩
      called := ⟨query, req, reply, answer⟩ :: s.called }

/-- The end of both callbacks: the query and its context are released. -/
def release (q : ℕ) (s : Res) : Except Fault Res := do
  let query ← s.getQuery q
  .ok { s with queries := s.queries.erase query }

/-- The loop of `timeout_resolver`. -/
def timeoutLoop (t : ℤ) : ℕ → Res → Except Fault Res
  | 0, s => .ok s
  | i + 1, s =>
    match s.reqs[i]? with
    | none => .error .outside
    | some req =>
      if t < req.sentAt + req.timeout then timeoutLoop t i s
      else
        let req := { req with retries := req.retries - 1 }
        if req.retries ≤ 0 then
          callback req.ptr none none (.timeouts i t) { s with reqs := s.reqs.set i req }
        else
          let req := { req with timeout := req.timeout * 2, sentAt := t }
          timeoutLoop t i { s with reqs := s.reqs.set i req }

/-- The loop of `restart_resolver`. -/
def restartLoop (domain : Bytes) : ℕ → Res → Except Fault Res
  | 0, s => .ok { s with domain := domain }
  | i + 1, s =>
    match s.reqs[i]? with
    | none => .error .outside
    | some req => callback req.ptr none none (.restart i domain) s

/-- The callback returns: the request is freed, and the loop that it was in goes on. -/
def callbackDone (r : Running) (s : Res) : Except Fault Res := do
  let s ← release r.query s
  let s ← { s with running := none }.freeReq r.req
  match r.next with
  | .answer => .ok s
  | .timeouts i t => timeoutLoop t i s
  | .restart i domain => restartLoop domain i s

/-! ### Replies -/

/-- `start_fcrdns_check`. -/
def startFcrdnsCheck (p : ℕ) (hostname : Bytes) (id : UInt16) (now : ℤ) (s : Res) :
    Except Fault Res := do
  let req ← s.getReq p
  let base := match req.origAddr with
    | some (.inet6 _) => .aaaa
    | _ => .a
  let fwd :=
    { s.makeReq id now req.query base with
      fcrdns := true, qname := hostname, hostname := hostname, origAddr := req.origAddr }
  (s.push fwd).freeReq p

/-- A new request for the alias takes the request's place. -/
def followCname (p : ℕ) (cname : Bytes) (id : UInt16) (now : ℤ) (s : Res) : Except Fault Res := do
  let req ← s.getReq p
  let cnameReq :=
    { s.makeReq id now req.query req.base with
      cnameDepth := req.cnameDepth + 1, qname := cname, origAddr := req.origAddr
      fcrdns := req.fcrdns, hostname := if req.fcrdns then req.hostname else [] }
  (s.push cnameReq).freeReq p

/-- `process_answer`. -/
def processAnswer (p : ℕ) (pkt : Bytes) (draws : List UInt16) (now : ℤ) (s : Res) :
    Except Fault Res := do
  let req ← s.getReq p
  match readAnswer req.id.toNat req.base pkt with
  | .dropped | .retry => .ok s
  | .done reply => callback p reply (some pkt) .answer s
  | .named hostname =>
    match nextQueryId draws s with
    | some id => startFcrdnsCheck p hostname id now s
    | none => .ok s
  | .alias cname =>
    if req.cnameDepth < 8 then
      match nextQueryId draws s with
      | some id => followCname p cname id now s
      | none => .ok s
    else callback p none (some pkt) .answer s

/-- `find_req_by_id`. -/
def findReqById (id : ℕ) (s : Res) : Option Req := s.reqs.find? (·.id.toNat == id)

/-- `res_read_dns` for one packet of a server. -/
def resReadDns (pkt : Bytes) (draws : List UInt16) (now : ℤ) (s : Res) : Except Fault Res :=
  if pkt.length ≤ 12 then .ok s
  else
    match findReqById (hdrId pkt) s with
    | none => .ok s
    | some req => processAnswer req.ptr pkt draws now s

/-! ### Runs -/

inductive Op
  | lookup (addr : Option SockAddr) (draws : List UInt16) (now : ℤ)
  | forward (hostn : Bytes) (aaaa : Bool) (draws : List UInt16) (now : ℤ)
  | packet (pkt : Bytes) (draws : List UInt16) (now : ℤ)
  | secondly (now : ℤ)
  | restart (domain : Bytes)
  /-- the callback under way returns -/
  | callbackDone

/-- While a callback is under way, there are only the lookups that it starts. -/
def Res.step (s : Res) : Op → Except Fault Res
  | .lookup addr draws now => .ok (dnsLookup addr draws now s)
  | .forward hostn aaaa draws now => .ok (dnsForward hostn aaaa draws now s)
  | .packet pkt draws now => if s.running = none then resReadDns pkt draws now s else .ok s
  | .secondly now => if s.running = none then timeoutLoop now s.reqs.length s else .ok s
  | .restart domain =>
    if s.running = none then restartLoop domain s.reqs.length s else .ok s
  | .callbackDone =>
    match s.running with
    | none => .ok s
    | some r => callbackDone r s

/-- The resolver when it is started. -/
def Res.init (domain : Bytes) : Res := ⟨[], [], 0, 0, none, [], domain⟩

end Eggdrop.Dns
