import Eggdrop.Dns.Lifetime

/-!
# Confirm — the names that a reverse lookup reports (dns.mod/res.c)

The name of an address is reported when the name has the address: of the addresses in the answer to
the request for the name, the first is compared.

* `told_called_iff`: one call of the callback.
* `told_step_iff`, `told_throughout_iff`: whole runs of the resolver.
-/

open List

namespace Eggdrop.Dns

open Net

/-! ### What is reported -/

/-- The type that `start_fcrdns_check` asks for. -/
def family : SockAddr → BaseType
  | .inet _ => .a
  | .inet6 _ => .aaaa

/-- `h_name` of the reply, which `handle_req_done` sets. -/
def Called.hName (c : Called) : Bytes := if c.req.fcrdns then c.req.hostname else []

/-- The name that `egg_reverse_cb` reports as that of `orig`. -/
def egg_reverse_cb (orig : SockAddr) (c : Called) : Option Bytes :=
  match c.reply with
  | none => none
  | some addr => if c.hName ≠ [] ∧ addr = orig then some c.hName else none

/-- A name is reported for `a` if and only if the answer to the request for the name has `a` among its
addresses.  A request that did not come of an alias asks for the name itself. -/
def Called.ToldOf (c : Called) (a : SockAddr) : Prop :=
  (∀ h, egg_reverse_cb a c = some h →
    c.req.fcrdns = true ∧ c.req.hostname = h ∧ (c.req.cnameDepth = 0 → c.req.qname = h) ∧
      ∃ pkt, c.answer = some pkt ∧ Answers c.req.id.toNat pkt ∧ a ∈ allAddresses (family a) pkt) ∧
  ∀ pkt, c.req.fcrdns = true → c.answer = some pkt → Answers c.req.id.toNat pkt →
    a ∈ allAddresses (family a) pkt → egg_reverse_cb a c = some c.req.hostname

def Called.Told (c : Called) : Prop :=
  match c.query.ctx with
  | .forward _ => True
  | .reverse a => c.ToldOf a

/-- All calls so far. -/
def Res.Told (s : Res) : Prop := ∀ c ∈ s.called, c.Told

/-- An alias is followed, with no callback. -/
def Follows (req : Req) (pkt : Bytes) : Prop :=
  req.cnameDepth < 8 ∧ ∃ cname, readAnswer req.id.toNat req.base pkt = .alias cname

/-- If the packet answers the request for the name of `a`, and `a` is among its addresses, then `a` is
the first of those among its first 64 records. -/
def Req.FirstOf (req : Req) (pkt : Bytes) : Prop :=
  req.fcrdns = true → ∀ a, req.origAddr = some a → Answers req.id.toNat pkt →
    a ∈ allAddresses req.base pkt →
      (addresses req.base maxAncount pkt).head? = some a ∨ Follows req pkt

def FirstIs (s : Res) : Op → Prop
  | .packet pkt _ _ =>
    s.running = none → 12 < pkt.length → ∀ req, findReqById (hdrId pkt) s = some req →
      req.FirstOf pkt
  | _ => True

/-! ### Requests of a query -/

/-- What a request has to do with the query it is for. -/
def Ctx.Fits (req : Req) : Ctx → Prop
  | .forward _ => req.fcrdns = false ∧ req.base ≠ .ptr ∧ req.origAddr = none
  | .reverse a =>
    req.origAddr = some a ∧
      if req.fcrdns then
        req.base = family a ∧ req.hostname ≠ [] ∧ (req.cnameDepth = 0 → req.qname = req.hostname)
      else req.base = .ptr

theorem family_ne_ptr (a : SockAddr) : family a ≠ .ptr := by
  cases a <;> simp [family]

namespace Res

def Linked (s : Res) : Prop :=
  ∀ req ∈ s.reqs, ∀ q ∈ s.queries, q.ptr = req.query → q.ctx.Fits req

variable {s : Res}

theorem Linked.subset (h : s.Linked) {reqs : List Req} {queries : List Query}
    (hreqs : reqs ⊆ s.reqs) (hqueries : queries ⊆ s.queries) :
    ∀ req ∈ reqs, ∀ q ∈ queries, q.ptr = req.query → q.ctx.Fits req :=
  fun req hreq q hq => h req (hreqs hreq) q (hqueries hq)

theorem Linked.submit (h : s.Linked) (hcore : s.Core) {ctx : Ctx} {req : ℕ → Req}
    (hquery : ∀ q, (req q).query = q) (hfits : ctx.Fits (req s.nextQuery)) :
    (s.submit ctx req).Linked := by
  intro r hr q hq hptr
  rcases mem_append.1 hr with hr | hr
  · rcases mem_append.1 hq with hq | hq
    · exact h r hr q hq hptr
    · -- an old request is not for the new query
      obtain ⟨q', hq', hptr'⟩ := hcore.exists_query hr
      have hlt := hcore.queryPtrs_lt q' hq'
      rw [mem_singleton.1 hq] at hptr
      rw [hptr', ← hptr] at hlt
      exact absurd hlt (Nat.lt_irrefl _)
  · rw [mem_singleton.1 hr, hquery] at hptr
    rcases mem_append.1 hq with hq | hq
    · exact absurd (hcore.queryPtrs_lt q hq) (by omega)
    · rw [mem_singleton.1 hq, mem_singleton.1 hr]
      exact hfits

theorem Linked.dnsLookup (h : s.Linked) (hcore : s.Core) (addr : Option SockAddr)
    (draws : List UInt16) (now : ℤ) : (dnsLookup addr draws now s).Linked := by
  unfold Dns.dnsLookup
  split
  · exact h.submit hcore (fun q => rfl) ⟨rfl, rfl⟩
  · exact h

theorem Linked.dnsForward (h : s.Linked) (hcore : s.Core) (hostn : Bytes) (aaaa : Bool)
    (draws : List UInt16) (now : ℤ) : (dnsForward hostn aaaa draws now s).Linked := by
  unfold Dns.dnsForward
  split
  · split
    · exact h
    · refine h.submit hcore (fun q => rfl) ⟨rfl, ?_, rfl⟩
      cases aaaa <;> simp [makeReq]
  · exact h

theorem dnsLookup_called (addr : Option SockAddr) (draws : List UInt16) (now : ℤ) :
    (dnsLookup addr draws now s).called = s.called := by
  unfold Dns.dnsLookup
  split
  · rfl
  · rfl

theorem dnsForward_called (hostn : Bytes) (aaaa : Bool) (draws : List UInt16) (now : ℤ) :
    (dnsForward hostn aaaa draws now s).called = s.called := by
  unfold Dns.dnsForward
  split
  · split
    · rfl
    · rfl
  · rfl

theorem Linked.set (h : s.Linked) {i : ℕ} {req req' : Req} (hget : s.reqs[i]? = some req)
    (hquery : req'.query = req.query) (hfits : ∀ ctx : Ctx, ctx.Fits req → ctx.Fits req') :
    { s with reqs := s.reqs.set i req' }.Linked := by
  intro r hr q hq hptr
  rcases mem_or_eq_of_mem_set hr with hr | rfl
  · exact h r hr q hq hptr
  · exact hfits _ (h req (mem_of_getElem? hget) q hq (hptr.trans hquery))

/-- The requests are linked, and all calls were told what they should. -/
def Tied (s : Res) : Prop := s.Linked ∧ s.Told

theorem told_of_none (query : Query) (req : Req) : (⟨query, req, none, none⟩ : Called).Told := by
  rw [Called.Told]
  split
  · trivial
  · exact ⟨fun h hh => (nomatch hh), fun pkt _ hpkt => (nomatch hpkt)⟩

theorem Tied.callback (h : s.Tied) (p : ℕ) (next : Next) :
    Ensures (callback p none none next s) Tied := by
  refine Ensures.bind' fun req _ => Ensures.bind' fun query _ => Ensures.ok ⟨h.1, ?_⟩
  exact forall_mem_cons.2 ⟨told_of_none query req, h.2⟩

theorem Tied.freeReq (h : s.Tied) (p : ℕ) : Ensures (s.freeReq p) Tied := by
  rw [Res.freeReq]
  split
  · next i hi =>
    obtain ⟨hlt, -⟩ := findIdx?_eq_some_iff_getElem.1 hi
    have hperm := SwapRemove.removeFast_perm (getElem?_eq_getElem hlt)
    refine Ensures.ok ⟨h.1.subset (fun r hr => ?_) (Subset.refl _), h.2⟩
    exact hperm.subset (mem_cons_of_mem _ hr)
  · exact Ensures.error

theorem Tied.timeoutLoop (t : ℤ) (i : ℕ) (h : s.Tied) : Ensures (timeoutLoop t i s) Tied := by
  induction i generalizing s with
  | zero => exact Ensures.ok h
  | succ i ih =>
    rw [Dns.timeoutLoop]
    split
    · exact Ensures.error
    · next req hget =>
      have hset (req' : Req) (hquery : req'.query = req.query)
          (hfits : ∀ ctx : Ctx, ctx.Fits req → ctx.Fits req') :
          { s with reqs := s.reqs.set i req' }.Tied := ⟨h.1.set hget hquery hfits, h.2⟩
      dsimp only
      split
      · exact ih h
      · split
        · exact (hset { req with retries := req.retries - 1 } rfl fun ctx hctx => hctx).callback _ _
        · exact ih (hset _ rfl fun ctx hctx => hctx)

theorem Tied.restartLoop (domain : Bytes) (i : ℕ) (h : s.Tied) :
    Ensures (restartLoop domain i s) Tied := by
  cases i with
  | zero => exact Ensures.ok h
  | succ i =>
    rw [Dns.restartLoop]
    split
    · exact Ensures.error
    · exact h.callback _ _

theorem Tied.callbackDone (r : Running) (h : s.Tied) : Ensures (callbackDone r s) Tied := by
  refine Ensures.bind (P := Tied) ?_ fun s₁ h₁ => Ensures.bind (P := Tied) ?_ fun s₂ h₂ => ?_
  · refine Ensures.bind' fun query _ => Ensures.ok ⟨?_, h.2⟩
    exact h.1.subset (Subset.refl _) (erase_subset)
  · exact Tied.freeReq (s := { s₁ with running := none }) h₁ _
  · split
    · exact Ensures.ok h₂
    · exact h₂.timeoutLoop _ _
    · exact h₂.restartLoop _ _

theorem Tied.replace (h : s.Tied) {req new : Req} (hreq : req ∈ s.reqs) (p : ℕ)
    (hquery : new.query = req.query)
    (hfits : ∀ q ∈ s.queries, q.ptr = req.query → q.ctx.Fits req → q.ctx.Fits new) :
    Ensures ((s.push new).freeReq p) Tied := by
  have hpush : (s.push new).Linked := by
    intro r hr q hq hptr
    rcases mem_append.1 hr with hr | hr
    · exact h.1 r hr q hq hptr
    · rw [mem_singleton.1 hr] at hptr ⊢
      exact hfits q hq (hptr.trans hquery) (h.1 req hreq q hq (hptr.trans hquery))
  exact Tied.freeReq ⟨hpush, h.2⟩ p

theorem Tied.startFcrdnsCheck (h : s.Tied) (hcore : s.Core) {req : Req} (hreq : req ∈ s.reqs)
    (hbase : req.base = .ptr) {hostname : Bytes} (hname : hostname ≠ []) (id : UInt16) (now : ℤ) :
    Ensures (startFcrdnsCheck req.ptr hostname id now s) Tied := by
  refine Ensures.bind' fun req' hreq' => ?_
  obtain rfl : req = req' := Except.ok.inj ((hcore.getReq hreq).symm.trans hreq')
  refine h.replace hreq _ rfl fun q _ _ hfits => ?_
  rcases hctx : q.ctx with hostn | a
  · rw [hctx] at hfits
    exact absurd hbase hfits.2.1
  · rw [hctx] at hfits
    obtain ⟨horig, -⟩ := hfits
    refine ⟨horig, ?_⟩
    rw [if_pos rfl]
    refine ⟨?_, hname, fun _ => rfl⟩
    dsimp only
    rw [horig]
    cases a <;> rfl

theorem Tied.followCname (h : s.Tied) (hcore : s.Core) {req : Req} (hreq : req ∈ s.reqs)
    (cname : Bytes) (id : UInt16) (now : ℤ) :
    Ensures (followCname req.ptr cname id now s) Tied := by
  refine Ensures.bind' fun req' hreq' => ?_
  obtain rfl : req = req' := Except.ok.inj ((hcore.getReq hreq).symm.trans hreq')
  refine h.replace hreq _ rfl fun q _ _ hfits => ?_
  rcases hctx : q.ctx with hostn | a
  · rw [hctx] at hfits
    exact hfits
  · rw [hctx] at hfits
    obtain ⟨horig, hrest⟩ := hfits
    refine ⟨horig, ?_⟩
    by_cases hfcrdns : req.fcrdns = true
    · rw [if_pos hfcrdns] at hrest
      rw [if_pos hfcrdns]
      refine ⟨hrest.1, ?_, fun h0 => absurd h0 (Nat.succ_ne_zero _)⟩
      dsimp only
      rw [if_pos hfcrdns]
      exact hrest.2.1
    · rw [if_neg hfcrdns] at hrest
      rw [if_neg hfcrdns]
      exact hrest

/-! ### Packets -/

theorem tied_cons_iff (h : s.Tied) (running : Option Running) (c : Called) :
    { s with running := running, called := c :: s.called }.Tied ↔ c.Told := by
  refine ⟨fun hs => hs.2 c mem_cons_self, fun hc => ⟨h.1, ?_⟩⟩
  exact forall_mem_cons.2 ⟨hc, h.2⟩

end Res

/-- One call of a callback for a packet that has come in: what is told is right exactly when `a` is
the first address, where it is one. -/
theorem told_called_iff {q : Query} {req : Req} {reply : Option SockAddr} {pkt : Bytes}
    (hfits : q.ctx.Fits req) (hreply : ∀ x, reply = some x →
      Answers req.id.toNat pkt ∧ req.base ≠ .ptr ∧
        (addresses req.base maxAncount pkt).head? = some x)
    (hfirst : req.base ≠ .ptr → Answers req.id.toNat pkt → ∀ x, x ∈ allAddresses req.base pkt →
      (addresses req.base maxAncount pkt).head? = some x → reply = some x) :
    (⟨q, req, reply, some pkt⟩ : Called).Told ↔
      (req.fcrdns = true → ∀ a, req.origAddr = some a → Answers req.id.toNat pkt →
        a ∈ allAddresses req.base pkt → (addresses req.base maxAncount pkt).head? = some a) := by
  rw [Called.Told]
  rcases hctx : q.ctx with hostn | a
  · rw [hctx] at hfits
    refine iff_of_true trivial fun hfcrdns => ?_
    rw [hfits.1] at hfcrdns
    cases hfcrdns
  · rw [hctx] at hfits
    obtain ⟨horig, hrest⟩ := hfits
    dsimp only
    by_cases hfcrdns : req.fcrdns = true
    · rw [if_pos hfcrdns] at hrest
      obtain ⟨hbase, hname, hqname⟩ := hrest
      -- what the callback makes of the address it is given
      have hcb (h : Bytes) : egg_reverse_cb a ⟨q, req, reply, some pkt⟩ = some h ↔
          reply = some a ∧ req.hostname = h := by
        rw [egg_reverse_cb]
        dsimp only
        rw [Called.hName]
        dsimp only
        rw [if_pos hfcrdns]
        rcases reply with _ | x
        · simp
        · by_cases hx : x = a
          · simp [hx, hname]
          · simp [hx]
      rw [Called.ToldOf]
      simp only [hcb]
      constructor
      · rintro ⟨-, hcomplete⟩ - a' ha' hans hmem
        obtain rfl : a = a' := Option.some.inj (horig.symm.trans ha')
        rw [hbase] at hmem
        exact (hreply a (hcomplete pkt hfcrdns rfl hans hmem).1).2.2
      · intro hcond
        refine ⟨?_, fun pkt' _ hpkt hans hmem => ?_⟩
        · rintro h ⟨hx, rfl⟩
          obtain ⟨hans, -, hhead⟩ := hreply a hx
          refine ⟨hfcrdns, rfl, hqname, pkt, rfl, hans, ?_⟩
          rw [← hbase]
          exact mem_allAddresses (mem_of_head? hhead)
        · obtain rfl : pkt = pkt' := Option.some.inj hpkt
          rw [← hbase] at hmem
          have hne : req.base ≠ .ptr := hbase ▸ family_ne_ptr a
          exact ⟨hfirst hne hans a hmem (hcond hfcrdns a horig hans hmem), trivial⟩
    · rw [if_neg hfcrdns] at hrest
      refine iff_of_true ⟨fun h hh => ?_, fun pkt' hf => absurd hf hfcrdns⟩
        fun hf => absurd hf hfcrdns
      rw [egg_reverse_cb] at hh
      rcases reply with _ | x
      · cases hh
      · exact absurd hrest (hreply x rfl).2.1

/-! ### Steps -/

namespace Res

variable {s s' : Res}

theorem firstOf_of_readAnswer {req : Req} {ctx : Ctx} {pkt : Bytes} (hfits : ctx.Fits req)
    (h : ∀ reply, readAnswer req.id.toNat req.base pkt ≠ .done reply)
    (halias : ∀ c, readAnswer req.id.toNat req.base pkt = .alias c → req.cnameDepth < 8) :
    req.FirstOf pkt := by
  intro hfcrdns a ha hans hmem
  have hne : req.base ≠ .ptr := by
    rcases ctx with hostn | a'
    · rw [hfits.1] at hfcrdns
      cases hfcrdns
    · obtain ⟨-, hrest⟩ := hfits
      rw [if_pos hfcrdns] at hrest
      exact hrest.1 ▸ family_ne_ptr a'
  rcases readAnswer_addr hne hans (ne_nil_of_mem hmem) with ⟨x, -, hv⟩ | ⟨-, hv | ⟨c, -, hv⟩⟩
  · exact absurd hv (h _)
  · exact absurd hv (h _)
  · exact .inr ⟨halias c hv, c, hv⟩

/-- The callback gets what the packet brought. -/
theorem callback_told_iff (hcore : s.Core) (h : s.Tied) {req : Req} (hreq : req ∈ s.reqs)
    {reply : Option SockAddr} {pkt : Bytes} {next : Next}
    (hverdict : readAnswer req.id.toNat req.base pkt = .done reply ∨
      reply = none ∧ 8 ≤ req.cnameDepth ∧ ∃ c, readAnswer req.id.toNat req.base pkt = .alias c)
    (hs' : callback req.ptr reply (some pkt) next s = .ok s') :
    s'.Linked ∧ (s'.Told ↔ req.FirstOf pkt) := by
  obtain ⟨q, hq, hptr⟩ := hcore.exists_query hreq
  have heq := hcore.callback_eq hreq hq hptr reply (some pkt) next
  obtain rfl := Except.ok.inj (heq.symm.trans hs')
  refine ⟨h.1, ?_⟩
  -- no alias is followed here
  have hfollows : ¬ Follows req pkt := by
    rintro ⟨hdepth, c, hc⟩
    rcases hverdict with hv | ⟨-, hdeep, -⟩
    · cases hv.symm.trans hc
    · omega
  have htied := tied_cons_iff h (some ⟨q.ptr, req.ptr, next⟩) ⟨q, req, reply, some pkt⟩
  refine Iff.trans ⟨fun ht => htied.1 ⟨h.1, ht⟩, fun hc => (htied.2 hc).2⟩ ?_
  refine (told_called_iff (h.1 req hreq q hq hptr) (fun x hx => ?_)
    fun hne hans x hmem hhead => ?_).trans ?_
  · rcases hverdict with hv | ⟨hnone, -⟩
    · rw [hx] at hv
      exact answers_of_readAnswer hv
    · cases hnone.symm.trans hx
  · rcases readAnswer_addr hne hans (ne_nil_of_mem hmem) with ⟨y, hy, hv'⟩ | ⟨hempty, -⟩
    · obtain rfl : x = y := Option.some.inj (hhead.symm.trans hy)
      rcases hverdict with hv | ⟨-, -, c, hv⟩
      · simpa using hv.symm.trans hv'
      · cases hv.symm.trans hv'
    · rw [hempty] at hhead
      cases hhead
  · refine ⟨fun hf hfcrdns a ha hans hmem => .inl (hf hfcrdns a ha hans hmem),
      fun hf hfcrdns a ha hans hmem => ?_⟩
    exact (hf hfcrdns a ha hans hmem).resolve_right hfollows

theorem processAnswer_told_iff (hcore : s.Core) (h : s.Tied) {req : Req} (hreq : req ∈ s.reqs)
    {pkt : Bytes} {draws : List UInt16} {now : ℤ}
    (hs' : processAnswer req.ptr pkt draws now s = .ok s') :
    s'.Linked ∧ (s'.Told ↔ req.FirstOf pkt) := by
  obtain ⟨q, hq, hptr⟩ := hcore.exists_query hreq
  have hfits := h.1 req hreq q hq hptr
  unfold Dns.processAnswer at hs'
  rw [hcore.getReq hreq, show (Except.ok req : Except Fault Req) = pure req from rfl, pure_bind]
    at hs'
  -- what changes nothing that is told
  have hkept (hs : s'.Tied) (hfirst : req.FirstOf pkt) :
      s'.Linked ∧ (s'.Told ↔ req.FirstOf pkt) := ⟨hs.1, iff_of_true hs.2 hfirst⟩
  rcases hv : readAnswer req.id.toNat req.base pkt with _ | _ | reply | hostname | cname
  · rw [hv] at hs'
    obtain rfl := Except.ok.inj hs'
    exact hkept h (firstOf_of_readAnswer hfits (by simp [hv]) (by simp [hv]))
  · rw [hv] at hs'
    obtain rfl := Except.ok.inj hs'
    exact hkept h (firstOf_of_readAnswer hfits (by simp [hv]) (by simp [hv]))
  · rw [hv] at hs'
    exact callback_told_iff hcore h hreq (.inl hv) hs'
  · rw [hv] at hs'
    obtain ⟨hname, hbase⟩ := named_of_readAnswer hv
    refine hkept ?_ (firstOf_of_readAnswer hfits (by simp [hv]) (by simp [hv]))
    dsimp only at hs'
    split at hs'
    · exact (h.startFcrdnsCheck hcore hreq hbase hname _ now) s' hs'
    · exact Except.ok.inj hs' ▸ h
  · rw [hv] at hs'
    dsimp only at hs'
    split at hs'
    · next hdepth =>
      refine hkept ?_ (firstOf_of_readAnswer hfits (by simp [hv]) fun _ _ => hdepth)
      split at hs'
      · exact (h.followCname hcore hreq cname _ now) s' hs'
      · exact Except.ok.inj hs' ▸ h
    · next hdepth =>
      exact callback_told_iff hcore h hreq (.inr ⟨rfl, not_lt.1 hdepth, cname, hv⟩) hs'

/-- The step lemma. -/
theorem told_step_iff (hinv : s.Inv) (h : s.Tied) {op : Op} (hs' : s.step op = .ok s') :
    s'.Linked ∧ (s'.Told ↔ FirstIs s op) := by
  have hkept (hs : s'.Tied) (hfirst : FirstIs s op) : s'.Linked ∧ (s'.Told ↔ FirstIs s op) :=
    ⟨hs.1, iff_of_true hs.2 hfirst⟩
  cases op with
  | lookup addr draws now =>
    obtain rfl := Except.ok.inj hs'
    exact hkept ⟨h.1.dnsLookup hinv.core _ _ _, by rw [Told, dnsLookup_called]; exact h.2⟩ trivial
  | forward hostn aaaa draws now =>
    obtain rfl := Except.ok.inj hs'
    exact hkept ⟨h.1.dnsForward hinv.core _ _ _ _, by rw [Told, dnsForward_called]; exact h.2⟩ trivial
  | packet pkt draws now =>
    rw [Res.step] at hs'
    split at hs'
    · next hidle =>
      rw [resReadDns] at hs'
      split at hs'
      · next hlen =>
        obtain rfl := Except.ok.inj hs'
        exact hkept h fun _ hlt => absurd hlen (by omega)
      · next hlen =>
        split at hs'
        · next hfind =>
          obtain rfl := Except.ok.inj hs'
          exact hkept h fun _ _ req hreq => absurd (hfind.symm.trans hreq) (Option.some_ne_none _).symm
        · next req hfind =>
          have hreq := mem_of_find?_eq_some hfind
          obtain ⟨hlinked, htold⟩ := processAnswer_told_iff hinv.core h hreq hs'
          refine ⟨hlinked, htold.trans ⟨fun hf _ _ req' hreq' => ?_, fun hf => ?_⟩⟩
          · exact Option.some.inj (hfind.symm.trans hreq') ▸ hf
          · exact hf hidle (not_le.1 hlen) req hfind
    · next hbusy =>
      obtain rfl := Except.ok.inj hs'
      exact hkept h fun hidle => absurd hidle hbusy
  | secondly now =>
    rw [Res.step] at hs'
    split at hs'
    · exact hkept (h.timeoutLoop now _ s' hs') trivial
    · exact hkept (Except.ok.inj hs' ▸ h) trivial
  | restart domain =>
    rw [Res.step] at hs'
    split at hs'
    · exact hkept (h.restartLoop domain _ s' hs') trivial
    · exact hkept (Except.ok.inj hs' ▸ h) trivial
  | callbackDone =>
    rw [Res.step] at hs'
    split at hs'
    · exact hkept (Except.ok.inj hs' ▸ h) trivial
    · exact hkept (h.callbackDone _ s' hs') trivial

end Res

/-! ### Runs -/

/-- In every run of the resolver, what is reported for an address is right in every state exactly
when, at each packet that answers the request for its name, the address is not there or is the
first. -/
theorem told_throughout_iff (domain : Bytes) (ops : List Op) :
    Machine.Throughout Res.step Res.Told (.init domain) ops ↔
      Machine.Along Res.step FirstIs (.init domain) ops := by
  have hinit : (Res.init domain).Inv := .inl (Res.idle_init domain)
  have hstep (s s' : Res) (op : Op) (hs : s.Inv ∧ s.Linked) (ht : s.Told)
      (hs' : s.step op = .ok s') : s'.Linked ∧ (s'.Told ↔ FirstIs s op) :=
    Res.told_step_iff hs.1 ⟨hs.2, ht⟩ hs'
  have hok (s : Res) (op : Op) (hs : s.Inv ∧ s.Linked) : ∃ s', s.step op = .ok s' := by
    obtain ⟨s', hs', -⟩ := hs.1.step op
    exact ⟨s', hs'⟩
  have hinv (s : Res) (op : Op) (s' : Res) (hs : s.Inv ∧ s.Linked) (ht : s.Told)
      (hs' : s.step op = .ok s') : s'.Inv ∧ s'.Linked := by
    obtain ⟨t, ht', hinv⟩ := hs.1.step op
    obtain rfl : t = s' := Except.ok.inj (ht'.symm.trans hs')
    exact ⟨hinv, (hstep s t op hs ht hs').1⟩
  refine Machine.throughout_iff_along_of_inv hok hinv
    (fun s op s' hs ht hs' => (hstep s s' op hs ht hs').2) ⟨hinit, ?_⟩ ?_ ops
  · exact fun req hreq => absurd hreq not_mem_nil
  · exact fun c hc => absurd hc not_mem_nil

/-- The name of 1.2.3.4 is `a.b`. -/
def ptrAnswer : Bytes :=
  [0, 7, 0x81, 0x80, 0, 1, 0, 1, 0, 0, 0, 0,
    1, 0x34, 1, 0x33, 1, 0x32, 1, 0x31, 7, 0x69, 0x6e, 0x2d, 0x61, 0x64, 0x64, 0x72,
    4, 0x61, 0x72, 0x70, 0x61, 0, 0, 12, 0, 1,
    0xc0, 12, 0, 12, 0, 1, 0, 0, 0, 60, 0, 5, 1, 0x61, 1, 0x62, 0]

/-- The addresses of `a.b` are 9.9.9.9 and 1.2.3.4. -/
def twoAddresses : Bytes :=
  [0, 8, 0x81, 0x80, 0, 1, 0, 2, 0, 0, 0, 0,
    1, 0x61, 1, 0x62, 0, 0, 1, 0, 1,
    0xc0, 12, 0, 1, 0, 1, 0, 0, 0, 60, 0, 4, 9, 9, 9, 9,
    0xc0, 12, 0, 1, 0, 1, 0, 0, 0, 60, 0, 4, 1, 2, 3, 4]

/-- The second address of a name is not confirmed. -/
theorem not_told :
    ¬ ∀ (domain : Bytes) (ops : List Op),
      Machine.Throughout Res.step Res.Told (.init domain) ops := by
  intro h
  let ops : List Op :=
    [.lookup (some (.inet [1, 2, 3, 4])) [7] 0, .packet ptrAnswer [8] 0, .packet twoAddresses [] 0]
  have hrun : ((Machine.run Res.step (.init []) ops).toOption.any fun s => s.called.any fun c =>
      c.query.ctx = .reverse (.inet [1, 2, 3, 4]) ∧ c.req.fcrdns ∧ c.answer = some twoAddresses ∧
        c.req.id = 8 ∧ egg_reverse_cb (.inet [1, 2, 3, 4]) c = none) = true := by
    decide +kernel
  have hmem : SockAddr.inet [1, 2, 3, 4] ∈ allAddresses .a twoAddresses := by decide +kernel
  have hans : isReply 8 twoAddresses = true ∧ hdrTc twoAddresses = false ∧ hdrRcode twoAddresses = 0 := by
    decide +kernel
  rw [Option.any_eq_true] at hrun
  obtain ⟨s, hs, hcalled⟩ := hrun
  obtain ⟨c, hc, hfacts⟩ := any_eq_true.1 hcalled
  obtain ⟨hctx, hfcrdns, hpkt, hid, hnone⟩ := of_decide_eq_true hfacts
  have hlast : Machine.run Res.step (.init []) ops = .ok s := by
    rcases hr : Machine.run Res.step (.init []) ops with f | t
    · rw [hr] at hs
      cases hs
    · rw [hr] at hs
      exact congrArg Except.ok (Option.some.inj hs)
  have htold := (h [] ops).last hlast c hc
  rw [Called.Told, hctx] at htold
  have hsome := htold.2 twoAddresses hfcrdns hpkt (by rw [hid]; exact hans) hmem
  rw [hnone] at hsome
  cases hsome

end Eggdrop.Dns
