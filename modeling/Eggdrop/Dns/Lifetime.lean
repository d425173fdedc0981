import Eggdrop.Dns.Resolver
import Eggdrop.Lib.Ensures
import Eggdrop.Lib.ListEdit
import Mathlib.Data.List.Nodup
import Mathlib.Data.List.Perm.Basic

/-!
# Lifetime — every query is called back once (dns.mod/res.c)

Each live query has one request in the table, and its callback has not been called, but for the one
that is under way.

* `Idle.replace`, `Idle.callback`, `Busy.callbackDone`: what each step does to that.
* `Inv.step`, `resolver_sound`: it holds in all runs, and nothing is touched after its release.
-/

open List

namespace Eggdrop.Dns

open Net ListEdit SwapRemove

/-! ### What is asked of a run -/

/-- No callback is called twice; a query without its callback called has a request; and no two
requests share an id or a query. -/
structure Res.Sound (s : Res) : Prop where
  once : (s.called.map (·.query.ptr)).Nodup
  kept : ∀ q < s.nextQuery, q ∈ s.called.map (·.query.ptr) ∨ ∃ req ∈ s.reqs, req.query = q
  ids : (s.reqs.map Req.id).Nodup
  queries : (s.reqs.map Req.query).Nodup

/-! ### The invariant -/

/-- The slot below which a loop goes on. -/
def Next.slot : Next → ℕ
  | .answer => 0
  | .timeouts i _ => i
  | .restart i _ => i

namespace Res

structure Core (s : Res) : Prop where
  ptrs : (s.reqs.map Req.ptr).Nodup
  ptrs_lt : ∀ req ∈ s.reqs, req.ptr < s.nextReq
  ids : (s.reqs.map Req.id).Nodup
  queryPtrs : (s.queries.map Query.ptr).Nodup
  queryPtrs_lt : ∀ q ∈ s.queries, q.ptr < s.nextQuery
  /-- every live query has one request -/
  owned : (s.reqs.map Req.query).Perm (s.queries.map Query.ptr)
  once : (s.called.map (·.query.ptr)).Nodup
  called_lt : ∀ c ∈ s.called, c.query.ptr < s.nextQuery
  kept : ∀ q < s.nextQuery, q ∈ s.called.map (·.query.ptr) ∨ q ∈ s.queries.map Query.ptr

/-- No callback is under way, and no live query has been called back. -/
structure Idle (s : Res) : Prop extends Core s where
  running : s.running = none
  fresh : ∀ q ∈ s.queries, q.ptr ∉ s.called.map (·.query.ptr)

/-- The callback of a request's query is under way. -/
structure Busy (s : Res) (r : Running) : Prop extends Core s where
  running : s.running = some r
  req : ∃ req ∈ s.reqs, req.ptr = r.req ∧ req.query = r.query
  fresh : ∀ q ∈ s.queries, q.ptr ∈ s.called.map (·.query.ptr) ↔ q.ptr = r.query
  slot : r.next.slot < s.reqs.length

def Inv (s : Res) : Prop := s.Idle ∨ ∃ r, s.Busy r

variable {s : Res}

theorem Inv.core (h : s.Inv) : s.Core := by
  rcases h with h | ⟨r, h⟩
  · exact h.toCore
  · exact h.toCore

theorem Core.sound (h : s.Core) : s.Sound where
  once := h.once
  kept q hq := by
    rcases h.kept q hq with hcalled | hlive
    · exact .inl hcalled
    · obtain ⟨req, hreq, hquery⟩ := mem_map.1 (h.owned.mem_iff.2 hlive)
      exact .inr ⟨req, hreq, hquery⟩
  ids := h.ids
  queries := h.owned.nodup_iff.2 h.queryPtrs

theorem idle_init (domain : Bytes) : (init domain).Idle where
  ptrs := nodup_nil
  ptrs_lt _ h := absurd h not_mem_nil
  ids := nodup_nil
  queryPtrs := nodup_nil
  queryPtrs_lt _ h := absurd h not_mem_nil
  owned := .nil
  once := nodup_nil
  called_lt _ h := absurd h not_mem_nil
  kept q h := absurd h (Nat.not_lt_zero q)
  running := rfl
  fresh _ h := absurd h not_mem_nil

/-! ### Requests -/

theorem Core.getReq (h : s.Core) {req : Req} (hreq : req ∈ s.reqs) :
    s.getReq req.ptr = .ok req := by
  rw [Res.getReq, find?_key h.ptrs hreq]

theorem Core.getQuery (h : s.Core) {q : Query} (hq : q ∈ s.queries) :
    s.getQuery q.ptr = .ok q := by
  rw [Res.getQuery, find?_key h.queryPtrs hq]

theorem Core.exists_query (h : s.Core) {req : Req} (hreq : req ∈ s.reqs) :
    ∃ q ∈ s.queries, q.ptr = req.query :=
  mem_map.1 (h.owned.mem_iff.1 (mem_map_of_mem hreq))

theorem freeReq_spec (hptrs : (s.reqs.map Req.ptr).Nodup) {req : Req} (hreq : req ∈ s.reqs) :
    ∃ rest, s.freeReq req.ptr = .ok { s with reqs := rest } ∧ (req :: rest).Perm s.reqs := by
  obtain ⟨i, hi, hget⟩ := findIdx?_key hptrs hreq
  refine ⟨removeFast s.reqs i, ?_, removeFast_perm hget⟩
  rw [freeReq, hi]

theorem Core.withReqs (h : s.Core) {reqs : List Req} (hptrs : reqs.map Req.ptr = s.reqs.map Req.ptr)
    (hids : reqs.map Req.id = s.reqs.map Req.id)
    (hqueries : reqs.map Req.query = s.reqs.map Req.query) : { s with reqs := reqs }.Core where
  ptrs := hptrs ▸ h.ptrs
  ptrs_lt req hreq := by
    obtain ⟨req', hreq', heq⟩ := mem_map.1 (hptrs ▸ mem_map_of_mem hreq)
    exact heq ▸ h.ptrs_lt req' hreq'
  ids := hids ▸ h.ids
  queryPtrs := h.queryPtrs
  queryPtrs_lt := h.queryPtrs_lt
  owned := hqueries ▸ h.owned
  once := h.once
  called_lt := h.called_lt
  kept := h.kept

/-! ### Lookups -/

theorem nextQueryId_spec {draws : List UInt16} {id : UInt16} (h : nextQueryId draws s = some id) :
    id ∉ s.reqs.map Req.id := by
  intro hmem
  have hfree := find?_some h
  obtain ⟨req, hreq, rfl⟩ := mem_map.1 hmem
  simp only [Bool.and_eq_true, Bool.not_eq_true', any_eq_false] at hfree
  exact hfree.2 req hreq (beq_self_eq_true _)

theorem Core.push_ptrs (h : s.Core) {new : Req} (hptr : new.ptr = s.nextReq) :
    ((s.reqs ++ [new]).map Req.ptr).Nodup := by
  rw [map_append, map_singleton, hptr, nodup_append]
  refine ⟨h.ptrs, nodup_singleton _, fun p hp p' hp' => ?_⟩
  obtain ⟨req, hreq, rfl⟩ := mem_map.1 hp
  rw [mem_singleton.1 hp']
  exact Nat.ne_of_lt (h.ptrs_lt req hreq)

theorem Core.push_ptrs_lt (h : s.Core) {new : Req} (hptr : new.ptr = s.nextReq) :
    ∀ req ∈ s.reqs ++ [new], req.ptr < s.nextReq + 1 := by
  refine forall_mem_append.2 ⟨fun req hreq => Nat.lt_succ_of_lt (h.ptrs_lt req hreq), ?_⟩
  intro req hreq
  rw [mem_singleton.1 hreq, hptr]
  exact Nat.lt_succ_self _

theorem Core.push_ids (h : s.Core) {new : Req} (hid : new.id ∉ s.reqs.map Req.id) :
    ((s.reqs ++ [new]).map Req.id).Nodup := by
  rw [map_append, map_singleton, nodup_append]
  refine ⟨h.ids, nodup_singleton _, fun i hi i' hi' => ?_⟩
  rw [mem_singleton.1 hi']
  rintro rfl
  exact hid hi

theorem Core.submit (h : s.Core) (ctx : Ctx) {req : ℕ → Req} {id : UInt16}
    (hid : id ∉ s.reqs.map Req.id)
    (hreq : ∀ q, (req q).ptr = s.nextReq ∧ (req q).id = id ∧ (req q).query = q) :
    (s.submit ctx req).Core := by
  obtain ⟨hptr, hreqid, hquery⟩ := hreq s.nextQuery
  refine ⟨?_, ?_, ?_, ?_, ?_, ?_, h.once, fun c hc => Nat.lt_succ_of_lt (h.called_lt c hc), ?_⟩
  · exact h.push_ptrs hptr
  · exact h.push_ptrs_lt hptr
  · exact h.push_ids (hreqid ▸ hid)
  · show ((s.queries ++ [_]).map Query.ptr).Nodup
    rw [map_append, map_singleton, nodup_append]
    refine ⟨h.queryPtrs, nodup_singleton _, fun p hp p' hp' => ?_⟩
    obtain ⟨q, hq, rfl⟩ := mem_map.1 hp
    rw [mem_singleton.1 hp']
    exact Nat.ne_of_lt (h.queryPtrs_lt q hq)
  · refine forall_mem_append.2 ⟨fun q hq => Nat.lt_succ_of_lt (h.queryPtrs_lt q hq), fun q hq => ?_⟩
    rw [mem_singleton.1 hq]
    exact Nat.lt_succ_self _
  · show ((s.reqs ++ [req s.nextQuery]).map Req.query).Perm ((s.queries ++ [_]).map Query.ptr)
    rw [map_append, map_append, map_singleton, hquery]
    exact h.owned.append_right _
  · intro q hq
    rcases Nat.lt_or_eq_of_le (Nat.le_of_lt_succ hq) with hlt | rfl
    · rcases h.kept q hlt with hcalled | hlive
      · exact .inl hcalled
      · exact .inr (mem_map.2 (by
          obtain ⟨q', hq', heq⟩ := mem_map.1 hlive
          exact ⟨q', mem_append_left _ hq', heq⟩))
    · exact .inr (mem_map.2 ⟨⟨s.nextQuery, ctx⟩, mem_append_right _ mem_cons_self, rfl⟩)

theorem Inv.submit (h : s.Inv) (ctx : Ctx) {req : ℕ → Req} {id : UInt16}
    (hid : id ∉ s.reqs.map Req.id)
    (hreq : ∀ q, (req q).ptr = s.nextReq ∧ (req q).id = id ∧ (req q).query = q) :
    (s.submit ctx req).Inv := by
  have hcore := h.core.submit ctx hid hreq
  have hnew : s.nextQuery ∉ s.called.map (·.query.ptr) := by
    intro hmem
    obtain ⟨c, hc, heq⟩ := mem_map.1 hmem
    exact absurd (h.core.called_lt c hc) (by omega)
  rcases h with h | ⟨r, h⟩
  · refine .inl ⟨hcore, h.running, forall_mem_append.2 ⟨h.fresh, fun q hq => ?_⟩⟩
    rw [mem_singleton.1 hq]
    exact hnew
  · refine .inr ⟨r, hcore, h.running, ?_, forall_mem_append.2 ⟨h.fresh, fun q hq => ?_⟩, ?_⟩
    · obtain ⟨req', hreq', heq⟩ := h.req
      exact ⟨req', mem_append_left _ hreq', heq⟩
    · obtain ⟨req', hreq', -, hquery⟩ := h.req
      obtain ⟨q', hq', hptr⟩ := h.toCore.exists_query hreq'
      rw [mem_singleton.1 hq]
      refine iff_of_false hnew fun heq => ?_
      have hlt := h.queryPtrs_lt q' hq'
      rw [hptr, hquery, ← heq] at hlt
      exact absurd hlt (Nat.lt_irrefl _)
    · show r.next.slot < (s.reqs ++ [_]).length
      rw [length_append]
      exact Nat.lt_add_right _ h.slot

theorem Inv.dnsLookup (h : s.Inv) (addr : Option SockAddr) (draws : List UInt16) (now : ℤ) :
    (dnsLookup addr draws now s).Inv := by
  unfold Dns.dnsLookup
  split
  · next hid => exact h.submit _ (nextQueryId_spec hid) fun q => ⟨rfl, rfl, rfl⟩
  · exact h

theorem Inv.dnsForward (h : s.Inv) (hostn : Bytes) (aaaa : Bool) (draws : List UInt16) (now : ℤ) :
    (dnsForward hostn aaaa draws now s).Inv := by
  unfold Dns.dnsForward
  split
  · next hid =>
    split
    · exact h
    · exact h.submit _ (nextQueryId_spec hid) fun q => ⟨rfl, rfl, rfl⟩
  · exact h

/-! ### Callbacks -/

theorem Core.callback_eq (h : s.Core) {req : Req} (hreq : req ∈ s.reqs) {q : Query}
    (hq : q ∈ s.queries) (hptr : q.ptr = req.query) (reply : Option SockAddr)
    (answer : Option Bytes) (next : Next) :
    callback req.ptr reply answer next s = .ok
      { s with
        running := some ⟨q.ptr, req.ptr, next⟩
        called := ⟨q, req, reply, answer⟩ :: s.called } := by
  have hget : s.getQuery req.query = .ok q := hptr ▸ h.getQuery hq
  rw [Dns.callback, h.getReq hreq]
  show (s.getQuery req.query >>= _) = _
  rw [hget]
  rfl

theorem Idle.callback (h : s.Idle) {req : Req} (hreq : req ∈ s.reqs) (reply : Option SockAddr)
    (answer : Option Bytes) {next : Next} (hslot : next.slot < s.reqs.length) :
    Gives (callback req.ptr reply answer next s) Inv := by
  obtain ⟨q, hq, hptr⟩ := h.toCore.exists_query hreq
  refine ⟨_, h.toCore.callback_eq hreq hq hptr reply answer next,
    .inr ⟨⟨q.ptr, req.ptr, next⟩, ?_, rfl, ⟨req, hreq, rfl, hptr.symm⟩, ?_, hslot⟩⟩
  · refine ⟨h.ptrs, h.ptrs_lt, h.ids, h.queryPtrs, h.queryPtrs_lt, h.owned, ?_, ?_, ?_⟩
    · exact nodup_cons.2 ⟨h.fresh q hq, h.once⟩
    · exact forall_mem_cons.2 ⟨h.queryPtrs_lt q hq, h.called_lt⟩
    · intro q' hq'
      rcases h.kept q' hq' with hcalled | hlive
      · exact .inl (mem_cons_of_mem _ hcalled)
      · exact .inr hlive
  · intro q' hq'
    show q'.ptr ∈ q.ptr :: s.called.map (·.query.ptr) ↔ q'.ptr = q.ptr
    rw [mem_cons]
    exact or_iff_left (h.fresh q' hq')

theorem Busy.release (r : Running) (h : s.Busy r) :
    ∃ s₁ s₂, release r.query s = .ok s₁ ∧ { s₁ with running := none }.freeReq r.req = .ok s₂ ∧
      s₂.Idle ∧ r.next.slot ≤ s₂.reqs.length := by
  obtain ⟨req, hreq, hptr, hquery⟩ := h.req
  obtain ⟨q, hq, hqptr⟩ := h.toCore.exists_query hreq
  have hget : s.getQuery r.query = .ok q := by
    rw [← hquery, ← hqptr]
    exact h.toCore.getQuery hq
  obtain ⟨rest, hfree, hperm⟩ :=
    freeReq_spec (s := { s with queries := s.queries.erase q, running := none }) h.ptrs hreq
  have hqueries := perm_cons_erase hq
  have hlive : q.ptr ∉ (s.queries.erase q).map Query.ptr := by
    have hnodup := (hqueries.map Query.ptr).nodup_iff.1 h.queryPtrs
    exact (nodup_cons.1 hnodup).1
  have hptrs := (hperm.map Req.ptr).nodup_iff.2 h.ptrs
  have hids := (hperm.map Req.id).nodup_iff.2 h.ids
  have howned : (rest.map Req.query).Perm ((s.queries.erase q).map Query.ptr) := by
    have hall := ((hperm.map Req.query).trans h.owned).trans (hqueries.map Query.ptr)
    rw [map_cons, map_cons, ← hqptr] at hall
    exact (perm_cons _).1 hall
  rw [hptr] at hfree
  refine ⟨{ s with queries := s.queries.erase q }, _, ?_, hfree, ⟨⟨(nodup_cons.1 hptrs).2,
      fun r hr => ?_, (nodup_cons.1 hids).2, ?_, ?_, howned, h.once, h.called_lt, fun q' hq' => ?_⟩,
    rfl, fun q' hq' => ?_⟩, ?_⟩
  · rw [Dns.release, hget]
    rfl
  · exact h.ptrs_lt r (hperm.subset (mem_cons_of_mem _ hr))
  · exact (h.queryPtrs.sublist ((erase_sublist).map _))
  · exact fun q' hq' => h.queryPtrs_lt q' (mem_of_mem_erase hq')
  · rcases h.kept q' hq' with hcalled | hmem
    · exact .inl hcalled
    · rcases mem_cons.1 ((hqueries.map Query.ptr).mem_iff.1 hmem) with rfl | hmem
      · exact .inl ((h.fresh q hq).2 (hqptr.trans hquery))
      · exact .inr hmem
  · rw [h.fresh q' (mem_of_mem_erase hq'), ← hquery, ← hqptr]
    intro heq
    exact hlive (heq ▸ mem_map_of_mem hq')
  · have hlen : (req :: rest).length = s.reqs.length := hperm.length_eq
    have hslot := h.slot
    rw [length_cons] at hlen
    show r.next.slot ≤ rest.length
    omega

/-! ### Loops -/

/-- The rest of the loop of `timeout_resolver`. -/
theorem Idle.timeoutLoop {t : ℤ} {i : ℕ} (h : s.Idle) (hi : i ≤ s.reqs.length) :
    Gives (timeoutLoop t i s) Inv := by
  induction i generalizing s with
  | zero => exact .ok (.inl h)
  | succ i ih =>
    obtain ⟨req, hget⟩ : ∃ req, s.reqs[i]? = some req := ⟨_, getElem?_eq_getElem hi⟩
    rw [Dns.timeoutLoop, hget]
    dsimp only
    -- a request that is changed in its slot
    have hset (req' : Req) (hptr : req'.ptr = req.ptr) (hid : req'.id = req.id)
        (hquery : req'.query = req.query) : { s with reqs := s.reqs.set i req' }.Idle := by
      refine ⟨h.toCore.withReqs ?_ ?_ ?_, h.running, h.fresh⟩
      · exact map_set_of_eq hget hptr
      · exact map_set_of_eq hget hid
      · exact map_set_of_eq hget hquery
    have hlen (req' : Req) : i < (s.reqs.set i req').length := by
      rw [length_set]
      exact hi
    split
    · exact ih h (Nat.le_of_lt hi)
    · split
      · have hidle := hset { req with retries := req.retries - 1 } rfl rfl rfl
        exact hidle.callback (mem_set hi _) none none (hlen _)
      · exact ih (hset _ rfl rfl rfl) (Nat.le_of_lt (hlen _))

/-- The rest of the loop of `restart_resolver`. -/
theorem Idle.restartLoop {domain : Bytes} {i : ℕ} (h : s.Idle) (hi : i ≤ s.reqs.length) :
    Gives (restartLoop domain i s) Inv := by
  cases i with
  | zero =>
    refine .ok (.inl ⟨?_, h.running, h.fresh⟩)
    exact ⟨h.ptrs, h.ptrs_lt, h.ids, h.queryPtrs, h.queryPtrs_lt, h.owned, h.once, h.called_lt, h.kept⟩
  | succ i =>
    have hget : s.reqs[i]? = some s.reqs[i] := getElem?_eq_getElem hi
    rw [Dns.restartLoop, hget]
    exact h.callback (getElem_mem hi) none none hi

theorem Busy.callbackDone {r : Running} (h : s.Busy r) : Gives (callbackDone r s) Inv := by
  obtain ⟨s₁, s₂, hrelease, hfree, hidle, hslot⟩ := h.release
  refine Gives.bind ⟨s₁, hrelease, rfl⟩ ?_
  rintro _ rfl
  refine Gives.bind ⟨s₂, hfree, rfl⟩ ?_
  rintro _ rfl
  rcases hnext : r.next with _ | ⟨i, t⟩ | ⟨i, domain⟩
  · exact .ok (.inl hidle)
  · rw [hnext] at hslot
    exact hidle.timeoutLoop hslot
  · rw [hnext] at hslot
    exact hidle.restartLoop hslot

/-! ### Replies -/

theorem Idle.replace (h : s.Idle) {req new : Req} (hreq : req ∈ s.reqs)
    (hptr : new.ptr = s.nextReq) (hid : new.id ∉ s.reqs.map Req.id)
    (hquery : new.query = req.query) :
    Gives ((s.push new).freeReq req.ptr) Idle := by
  have hptrs : ((s.push new).reqs.map Req.ptr).Nodup := h.push_ptrs hptr
  have hids : ((s.push new).reqs.map Req.id).Nodup := h.push_ids hid
  obtain ⟨rest, hfree, hperm⟩ := freeReq_spec hptrs (mem_append_left [new] hreq)
  refine ⟨_, hfree, ⟨(nodup_cons.1 ((hperm.map Req.ptr).nodup_iff.2 hptrs)).2, fun r hr => ?_,
    (nodup_cons.1 ((hperm.map Req.id).nodup_iff.2 hids)).2, h.queryPtrs, h.queryPtrs_lt, ?_, h.once,
    h.called_lt, h.kept⟩, h.running, h.fresh⟩
  · exact h.push_ptrs_lt hptr r (hperm.subset (mem_cons_of_mem _ hr))
  · -- the query has lost one request and got one
    have hall : (req.query :: rest.map Req.query).Perm (req.query :: s.reqs.map Req.query) := by
      have := hperm.map Req.query
      rw [map_cons] at this
      refine this.trans ?_
      show ((s.reqs ++ [new]).map Req.query).Perm _
      rw [map_append, map_singleton, hquery]
      exact perm_append_singleton _ _
    exact ((perm_cons _).1 hall).trans h.owned

theorem Idle.startFcrdnsCheck (h : s.Idle) {req : Req} (hreq : req ∈ s.reqs) (hostname : Bytes)
    {draws : List UInt16} {id : UInt16} (hid : nextQueryId draws s = some id) (now : ℤ) :
    Gives (startFcrdnsCheck req.ptr hostname id now s) Idle := by
  refine Gives.bind ⟨req, h.toCore.getReq hreq, rfl⟩ ?_
  rintro _ rfl
  exact h.replace hreq rfl (nextQueryId_spec hid) rfl

theorem Idle.followCname (h : s.Idle) {req : Req} (hreq : req ∈ s.reqs) (cname : Bytes)
    {draws : List UInt16} {id : UInt16} (hid : nextQueryId draws s = some id) (now : ℤ) :
    Gives (followCname req.ptr cname id now s) Idle := by
  refine Gives.bind ⟨req, h.toCore.getReq hreq, rfl⟩ ?_
  rintro _ rfl
  exact h.replace hreq rfl (nextQueryId_spec hid) rfl

theorem Idle.processAnswer (h : s.Idle) {req : Req} (hreq : req ∈ s.reqs) (pkt : Bytes)
    (draws : List UInt16) (now : ℤ) : Gives (processAnswer req.ptr pkt draws now s) Inv := by
  have hpos : 0 < s.reqs.length := length_pos_of_mem hreq
  refine Gives.bind ⟨req, h.toCore.getReq hreq, rfl⟩ ?_
  rintro _ rfl
  split
  · exact .ok (.inl h)
  · exact .ok (.inl h)
  · exact h.callback hreq _ _ hpos
  · split
    · next hid => exact (h.startFcrdnsCheck hreq _ hid now).mono fun s' hs' => .inl hs'
    · exact .ok (.inl h)
  · split
    · split
      · next hid => exact (h.followCname hreq _ hid now).mono fun s' hs' => .inl hs'
      · exact .ok (.inl h)
    · exact h.callback hreq _ _ hpos

theorem Idle.resReadDns (h : s.Idle) (pkt : Bytes) (draws : List UInt16) (now : ℤ) :
    Gives (resReadDns pkt draws now s) Inv := by
  rw [Dns.resReadDns]
  split
  · exact .ok (.inl h)
  · split
    · exact .ok (.inl h)
    · next req hfind => exact h.processAnswer (mem_of_find?_eq_some hfind) pkt draws now

/-! ### Runs -/

theorem Inv.step (h : s.Inv) (op : Op) : Gives (s.step op) Inv := by
  -- while a callback is under way, nothing else happens
  have hidle {x : Except Fault Res} (hx : s.Idle → Gives x Inv) :
      Gives (if s.running = none then x else .ok s) Inv := by
    rcases h with h | ⟨r, hbusy⟩
    · rw [if_pos h.running]
      exact hx h
    · rw [if_neg (by simp [hbusy.running])]
      exact .ok (.inr ⟨r, hbusy⟩)
  cases op with
  | lookup addr draws now => exact .ok (h.dnsLookup addr draws now)
  | forward hostn aaaa draws now => exact .ok (h.dnsForward hostn aaaa draws now)
  | packet pkt draws now => exact hidle fun hs => hs.resReadDns pkt draws now
  | secondly now => exact hidle fun hs => hs.timeoutLoop (le_refl _)
  | restart domain => exact hidle fun hs => hs.restartLoop (le_refl _)
  | callbackDone =>
    rw [Res.step]
    rcases h with h | ⟨r, hbusy⟩
    · rw [h.running]
      exact .ok (.inl h)
    · rw [hbusy.running]
      exact hbusy.callbackDone

end Res

/-- For every run of lookups, packets, timeouts, restarts and returning callbacks: nothing is touched
after it is released, and in every state no callback was called twice, every query was called back or
has a request, and no two requests share an id or a query. -/
theorem resolver_sound (domain : Bytes) (ops : List Op) :
    (∃ s, Machine.run Res.step (.init domain) ops = .ok s) ∧
      Machine.Throughout Res.step Res.Sound (.init domain) ops := by
  have hinit : (Res.init domain).Inv := .inl (Res.idle_init domain)
  constructor
  · obtain ⟨s, hs, -⟩ := Gives.run (fun s op h => Res.Inv.step h op) hinit ops
    exact ⟨s, hs⟩
  · refine (Machine.throughout_of_step (fun s op s' h hs' => ?_) hinit ops).imp
      fun s h => (Res.Inv.core h).sound
    obtain ⟨t, ht, hinv⟩ := Res.Inv.step h op
    obtain rfl : t = s' := Except.ok.inj (ht.symm.trans hs')
    exact hinv

end Eggdrop.Dns
