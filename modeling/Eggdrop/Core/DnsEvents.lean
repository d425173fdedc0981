import Eggdrop.Base.CString
import Eggdrop.Lib.Run
import Eggdrop.Lib.SwapRemove
import Mathlib.Data.List.Nodup

/-!
# DnsEvents — the lookups that wait for an answer (dns.c)

A lookup files an event and hands the question on; where that is answered at once, the events for
the answer are run before the lookup returns.  `call_hostbyip` and `call_ipbyhost` go through the
events from the last slot down, and the action of an event may make lookups of its own: a call can
be under way inside another.

* `goOn_ok_iff`, `goOn_inv`: the loop from where an action has returned to it.
* `served_iff`: when no run leaves the table, and every event is run as it should.
-/

namespace Eggdrop.Core

open SwapRemove

/-! ### Events -/

/-- `sockname_t`. -/
inductive SockName
  | unspec
  | v4 (addr : UInt32)
  | v6 (addr : BitVec 128)
  deriving DecidableEq

def ipaddrEqual : SockName → SockName → Bool
  | .v6 a, .v6 b => a == b
  | .v4 a, .v4 b => a == b
  | _, _ => false

/-- Whose the event is. -/
inductive DeventType
  | dcc
  | tcl
  deriving DecidableEq

/-- `lookup` and `res_data`. -/
inductive Lookup
  | hostbyip (ipAddr : SockName)
  | ipbyhost (hostname : Option CStr)
  deriving DecidableEq

/-- `devent_t`; the serial number stands for its address. -/
structure Devent where
  serial : ℕ
  type : DeventType
  lookup : Lookup
  deriving DecidableEq

/-- The arguments of `call_hostbyip` and of `call_ipbyhost`. -/
inductive Answer
  | hostbyip (ip : SockName) (hostn : CStr) (ok : Bool)
  | ipbyhost (hostn : CStr) (ip : SockName) (ok : Bool)
  deriving DecidableEq

/-- The test of the loops. -/
def Answer.isFor (a : Answer) (de : Devent) : Bool :=
  match a, de.lookup with
  | .hostbyip ip _ _, .hostbyip ipAddr => ipaddrEqual ip ipAddr
  | .ipbyhost hostn _ _, .ipbyhost hostname => hostname.all (strcaseEq · hostn)
  | _, _ => false

/-! ### The resolver of the core -/

/-- `dns_retry_count` and `dns_retry_next`. -/
structure Retry where
  count : ℕ
  next : ℤ
  deriving DecidableEq

namespace Retry

def allowed (now : ℤ) (r : Retry) : Bool := r.next == 0 || r.next ≤ now

def onFailure (now : ℤ) (r : Retry) : Retry :=
  let count := r.count + 1
  let delay := 2 ^ ((if count ≤ 6 then count else 6) - 1)
  ⟨count, now + if 32 < delay then 32 else delay⟩

def onSuccess (r : Retry) : Retry := if 0 < r.count then ⟨0, 0⟩ else r

end Retry

/-- How `dns_hostbyip` and `dns_ipbyhost` deal with a question. -/
inductive Way (α : Type)
  /-- a thread or the resolver module has it -/
  | later
  /-- a cached answer, or the name is an address -/
  | known (r : α) (ok : Bool)
  /-- the functions of the core, with what the library finds -/
  | core (now : ℤ) (found : Option α)

section System

variable (iptostr : SockName → CStr)

def coreDnsHostbyip (now : ℤ) (found : Option CStr) (addr : SockName) (r : Retry) :
    Retry × Answer :=
  if !r.allowed now then (r, .hostbyip addr (iptostr addr) false)
  else
    match found with
    | none => (r.onFailure now, .hostbyip addr (iptostr addr) false)
    | some host => (r.onSuccess, .hostbyip addr host true)

def coreDnsIpbyhost (now : ℤ) (found : Option SockName) (host : CStr) (r : Retry) :
    Retry × Answer :=
  if !r.allowed now then (r, .ipbyhost host .unspec false)
  else
    match found with
    | none => (r.onFailure now, .ipbyhost host .unspec false)
    | some name => (r.onSuccess, .ipbyhost host name true)

/-! ### Calls -/

/-- A call under way: the slots below `i` are still to be visited.  `start` is what was pending when
it began. -/
structure Call where
  answer : Answer
  i : ℕ
  start : List Devent
  deriving DecidableEq

/-- The events, the calls under way, the innermost first, and what has happened: every event that was
filed, what was run for which answer, and the calls that have returned. -/
structure DnsState where
  events : List Devent
  retry : Retry
  calls : List Call
  submitted : List Devent
  ran : List (Devent × Answer)
  returned : List Call
  deriving DecidableEq

/-- A slot that is not in the table is read. -/
inductive Fault
  | outside
  deriving DecidableEq

/-- The loop from slot `i` down to the next event that the answer is for. -/
def scan (a : Answer) (events : List Devent) : ℕ → Except Fault (Option (ℕ × Devent))
  | 0 => .ok none
  | i + 1 =>
    match events[i]? with
    | none => .error .outside
    | some de => if a.isFor de then .ok (some (i, de)) else scan a events i

/-- The call goes on below slot `c.i`, up to the next action. -/
def goOn (c : Call) (s : DnsState) : Except Fault DnsState :=
  match scan c.answer s.events c.i with
  | .error f => .error f
  | .ok none => .ok { s with returned := c :: s.returned }
  | .ok (some (i, de)) => .ok
    { s with
      events := removeFast s.events i
      calls := { c with i := i } :: s.calls
      ran := (de, c.answer) :: s.ran }

/-- `call_hostbyip` and `call_ipbyhost`, up to the first action. -/
def call (a : Answer) (s : DnsState) : Except Fault DnsState :=
  goOn ⟨a, s.events.length, s.events⟩ s

/-- File an event. -/
def DnsState.push (type : DeventType) (lookup : Lookup) (s : DnsState) : DnsState :=
  let de := ⟨s.submitted.length, type, lookup⟩
  { s with events := s.events ++ [de], submitted := s.submitted ++ [de] }

def dnsHostbyip (ip : SockName) (way : Way CStr) (s : DnsState) : Except Fault DnsState :=
  match way with
  | .later => .ok s
  | .known hostn ok => call (.hostbyip ip hostn ok) s
  | .core now found =>
    let (r, a) := coreDnsHostbyip iptostr now found ip s.retry
    call a { s with retry := r }

def dnsIpbyhost (hostn : CStr) (way : Way SockName) (s : DnsState) : Except Fault DnsState :=
  match way with
  | .later => .ok s
  | .known ip ok => call (.ipbyhost hostn ip ok) s
  | .core now found =>
    let (r, a) := coreDnsIpbyhost now found hostn s.retry
    call a { s with retry := r }

/-- What the main loop or the action that is under way does. -/
inductive DnsOp
  | tclDnsHostbyip (ip : SockName) (way : Way CStr)
  | tclDnsIpbyhost (hostn : CStr) (way : Way SockName)
  | dccDnsHostbyip (ip : SockName) (way : Way CStr)
  | dccDnsIpbyhost (hostn : CStr) (way : Way SockName)
  /-- an answer comes in -/
  | answer (a : Answer)
  /-- the action of the innermost call returns -/
  | actionDone

def DnsState.step (s : DnsState) : DnsOp → Except Fault DnsState
  | .tclDnsHostbyip ip way => dnsHostbyip iptostr ip way (s.push .tcl (.hostbyip ip))
  | .tclDnsIpbyhost hostn way => dnsIpbyhost hostn way (s.push .tcl (.ipbyhost (some hostn)))
  | .dccDnsHostbyip ip way =>
    if s.events.any fun de => de.type == .dcc && match de.lookup with
        | .hostbyip ipAddr => ipaddrEqual ip ipAddr
        | .ipbyhost _ => false
    then .ok s
    else dnsHostbyip iptostr ip way (s.push .dcc (.hostbyip ip))
  | .dccDnsIpbyhost hostn way =>
    if s.events.any fun de => de.type == .dcc && match de.lookup with
        | .hostbyip _ => false
        | .ipbyhost hostname => hostname.any (strcaseEq · hostn)
    then .ok s
    else dnsIpbyhost hostn way (s.push .dcc (.ipbyhost (some hostn)))
  | .answer a => call a s
  | .actionDone =>
    match s.calls with
    | [] => .ok s
    | c :: calls => goOn c { s with calls := calls }

/-- The events that are pending at first. -/
def DnsState.start (ls : List (DeventType × Lookup)) (r : Retry) : DnsState :=
  let es := ls.mapIdx fun i l => ⟨i, l.1, l.2⟩
  ⟨es, r, [], es, [], []⟩

end System

/-! ### What is asked of a run -/

/-- Every event is pending or was run, and that once, for an answer that is for it; and a call has run
all that were for it. -/
structure DnsState.Served (s : DnsState) : Prop where
  once : (s.events ++ s.ran.map Prod.fst).Nodup
  kept : ∀ de, de ∈ s.submitted ↔ de ∈ s.events ∨ de ∈ s.ran.map Prod.fst
  right : ∀ r ∈ s.ran, r.2.isFor r.1 = true
  all : ∀ c ∈ s.returned, ∀ de ∈ c.start, c.answer.isFor de = true → de ∈ s.ran.map Prod.fst

/-- When an action returns to a call that has slots below `i` to visit, the table has `i` events. -/
def Roomy (s : DnsState) : DnsOp → Prop
  | .actionDone => ∀ c ∈ s.calls.head?, c.i ≤ s.events.length
  | _ => True

/-! ### The loop -/

section Loop

variable {a : Answer} {events : List Devent}

theorem scan_outside {i : ℕ} (h : events.length < i) : scan a events i = .error .outside := by
  obtain ⟨i, rfl⟩ : ∃ n, i = n + 1 := ⟨i - 1, by omega⟩
  rw [scan, List.getElem?_eq_none (by omega)]

/-- Within the table the loop ends or finds the last event that the answer is for. -/
theorem scan_spec {i : ℕ} (h : i ≤ events.length) :
    (scan a events i = .ok none ∧
        ∀ k < i, ∀ de, events[k]? = some de → a.isFor de = false) ∨
      ∃ j de, scan a events i = .ok (some (j, de)) ∧ j < i ∧ events[j]? = some de ∧
        a.isFor de = true ∧ ∀ k < i, j < k → ∀ de, events[k]? = some de → a.isFor de = false := by
  induction i with
  | zero => exact .inl ⟨rfl, fun k hk => absurd hk (Nat.not_lt_zero k)⟩
  | succ i ih =>
    have hget : events[i]? = some events[i] := List.getElem?_eq_getElem h
    rw [scan, hget]
    dsimp only
    by_cases hfor : a.isFor events[i] = true
    · rw [if_pos hfor]
      exact .inr ⟨i, _, rfl, by omega, hget, hfor, fun k hk hlt => by omega⟩
    · rw [if_neg hfor]
      -- the slot that was passed
      have hpassed (k : ℕ) (hk : k < i + 1) (hle : i ≤ k) (de : Devent) (hde : events[k]? = some de) :
          a.isFor de = false := by
        obtain rfl : k = i := by omega
        obtain rfl := Option.some.inj (hget.symm.trans hde)
        simpa using hfor
      rcases ih (by omega) with ⟨hscan, hnone⟩ | ⟨j, de, hscan, hj, hde, hmatch, hnone⟩
      · refine .inl ⟨hscan, fun k hk de hde => ?_⟩
        by_cases hlt : k < i
        · exact hnone k hlt de hde
        · exact hpassed k hk (by omega) de hde
      · refine .inr ⟨j, de, hscan, by omega, hde, hmatch, fun k hk hjk de hde => ?_⟩
        by_cases hlt : k < i
        · exact hnone k hlt hjk de hde
        · exact hpassed k hk (by omega) de hde

end Loop

/-! ### The invariant -/

namespace DnsState

/-- The events that a call has still to run are in the slots it has still to visit. -/
def Waiting (s : DnsState) (c : Call) : Prop :=
  ∀ de ∈ c.start, c.answer.isFor de = true →
    de ∈ s.ran.map Prod.fst ∨ ∃ k < c.i, s.events[k]? = some de

structure Inv (s : DnsState) : Prop where
  perm : (s.events ++ s.ran.map Prod.fst).Perm s.submitted
  serials : s.submitted.map Devent.serial = List.range s.submitted.length
  right : ∀ r ∈ s.ran, r.2.isFor r.1 = true
  waiting : ∀ c ∈ s.calls, s.Waiting c
  all : ∀ c ∈ s.returned, ∀ de ∈ c.start, c.answer.isFor de = true → de ∈ s.ran.map Prod.fst

theorem Inv.served {s : DnsState} (h : s.Inv) : s.Served where
  once := by
    have hnodup : (s.submitted.map Devent.serial).Nodup := h.serials ▸ List.nodup_range
    exact h.perm.nodup_iff.2 (List.Nodup.of_map Devent.serial hnodup)
  kept de := by rw [← h.perm.mem_iff, List.mem_append]
  right := h.right
  all := h.all

theorem inv_start (ls : List (DeventType × Lookup)) (r : Retry) : (start ls r).Inv where
  perm := by
    show (_ ++ []).Perm _
    rw [List.append_nil]
    exact .refl _
  serials := by
    show ((ls.mapIdx fun i l => (⟨i, l.1, l.2⟩ : Devent)).map Devent.serial) = List.range _
    exact List.ext_getElem (by simp [start]) fun i h1 h2 => by simp
  right r hr := absurd hr List.not_mem_nil
  waiting c hc := absurd hc List.not_mem_nil
  all c hc := absurd hc List.not_mem_nil

theorem Inv.push {s : DnsState} (h : s.Inv) (type : DeventType) (lookup : Lookup) :
    (s.push type lookup).Inv where
  perm := by
    show ((s.events ++ [_]) ++ _).Perm (s.submitted ++ [_])
    rw [List.append_assoc]
    refine List.Perm.trans (List.perm_append_comm.append_left _) ?_
    rw [← List.append_assoc]
    exact h.perm.append_right _
  serials := by
    show (s.submitted ++ [_]).map Devent.serial = List.range (s.submitted ++ [_]).length
    rw [List.map_append, h.serials, List.length_append, List.length_singleton, List.range_succ]
    rfl
  right := h.right
  waiting c hc de hde hfor := by
    rcases h.waiting c hc de hde hfor with hran | ⟨k, hk, hget⟩
    · exact .inl hran
    · refine .inr ⟨k, hk, ?_⟩
      show (s.events ++ [_])[k]? = _
      rw [List.getElem?_append_left (List.getElem?_eq_some_iff.1 hget).1, hget]
  all := h.all

/-- The loop reads outside the table exactly when it has more slots to visit than there are. -/
theorem goOn_ok_iff (c : Call) (s : DnsState) :
    (∃ s', goOn c s = .ok s') ↔ c.i ≤ s.events.length := by
  rw [goOn]
  constructor
  · rintro ⟨s', hs'⟩
    by_contra hlt
    rw [scan_outside (by omega)] at hs'
    cases hs'
  · intro h
    rcases scan_spec (a := c.answer) h with ⟨hscan, -⟩ | ⟨j, de, hscan, -⟩
    · rw [hscan]
      exact ⟨_, rfl⟩
    · rw [hscan]
      exact ⟨_, rfl⟩

theorem goOn_inv {c : Call} {s s' : DnsState} (h : s.Inv) (hwait : s.Waiting c)
    (hs' : goOn c s = .ok s') : s'.Inv := by
  have hroom : c.i ≤ s.events.length := (goOn_ok_iff c s).1 ⟨s', hs'⟩
  rw [goOn] at hs'
  rcases scan_spec (a := c.answer) hroom with ⟨hscan, hnone⟩ | ⟨j, de, hscan, hj, hde, hfor, hnone⟩
  · rw [hscan] at hs'
    obtain rfl := Except.ok.inj hs'
    refine ⟨h.perm, h.serials, h.right, h.waiting, List.forall_mem_cons.2 ⟨fun e he hfor => ?_, h.all⟩⟩
    rcases hwait e he hfor with hran | ⟨k, hk, hget⟩
    · exact hran
    · rw [hnone k hk e hget] at hfor
      cases hfor
  · rw [hscan] at hs'
    obtain rfl := Except.ok.inj hs'
    have hperm := removeFast_perm hde
    have hjlt := (List.getElem?_eq_some_iff.1 hde).1
    -- an event in a slot that a call has still to visit is run or stays in such a slot
    have hslot (b : ℕ) (e : Devent) (he : ∃ k < b, s.events[k]? = some e) :
        e ∈ de :: s.ran.map Prod.fst ∨ ∃ k < b, (removeFast s.events j)[k]? = some e := by
      obtain ⟨k, hk, hget⟩ := he
      by_cases hkj : k = j
      · subst hkj
        obtain rfl := Option.some.inj (hget.symm.trans hde)
        exact .inl List.mem_cons_self
      · obtain ⟨k', hle, hget'⟩ := getElem?_removeFast hjlt hkj hget
        exact .inr ⟨k', by omega, hget'⟩
    refine ⟨?_, h.serials, List.forall_mem_cons.2 ⟨hfor, h.right⟩,
      List.forall_mem_cons.2 ⟨fun e he hfor' => ?_, fun c' hc' e he hfor' => ?_⟩,
      fun c' hc' e he hfor' => List.mem_cons_of_mem _ (h.all c' hc' e he hfor')⟩
    · exact List.perm_middle.trans ((hperm.append_right _).trans h.perm)
    · rcases hwait e he hfor' with hran | ⟨k, hk, hget⟩
      · exact .inl (List.mem_cons_of_mem _ hran)
      · rcases Nat.lt_trichotomy k j with hkj | rfl | hkj
        · exact hslot j e ⟨k, hkj, hget⟩
        · obtain rfl := Option.some.inj (hget.symm.trans hde)
          exact .inl List.mem_cons_self
        · rw [hnone k hk hkj e hget] at hfor'
          cases hfor'
    · rcases h.waiting c' hc' e he hfor' with hran | hget
      · exact .inl (List.mem_cons_of_mem _ hran)
      · exact hslot _ e hget

theorem call_inv {a : Answer} {s s' : DnsState} (h : s.Inv) (hs' : call a s = .ok s') : s'.Inv := by
  refine goOn_inv h (fun de hde _ => ?_) hs'
  obtain ⟨k, hk, hget⟩ := List.mem_iff_getElem.1 hde
  exact .inr ⟨k, hk, List.getElem?_eq_some_iff.2 ⟨hk, hget⟩⟩

theorem call_ok (a : Answer) (s : DnsState) : ∃ s', call a s = .ok s' :=
  (goOn_ok_iff _ s).2 (Nat.le_refl _)

section Steps

variable (iptostr : SockName → CStr)

theorem Inv.withRetry {s : DnsState} (h : s.Inv) (r : Retry) : { s with retry := r }.Inv :=
  ⟨h.perm, h.serials, h.right, h.waiting, h.all⟩

theorem dnsHostbyip_ok (ip : SockName) (way : Way CStr) (s : DnsState) :
    ∃ s', dnsHostbyip iptostr ip way s = .ok s' := by
  cases way with
  | later => exact ⟨s, rfl⟩
  | known hostn ok => exact call_ok _ s
  | core now found => exact call_ok _ _

theorem dnsIpbyhost_ok (hostn : CStr) (way : Way SockName) (s : DnsState) :
    ∃ s', dnsIpbyhost hostn way s = .ok s' := by
  cases way with
  | later => exact ⟨s, rfl⟩
  | known ip ok => exact call_ok _ s
  | core now found => exact call_ok _ _

theorem dnsHostbyip_inv {ip : SockName} {way : Way CStr} {s s' : DnsState} (h : s.Inv)
    (hs' : dnsHostbyip iptostr ip way s = .ok s') : s'.Inv := by
  cases way with
  | later => exact Except.ok.inj hs' ▸ h
  | known hostn ok => exact call_inv h hs'
  | core now found => exact call_inv (h.withRetry _) hs'

theorem dnsIpbyhost_inv {hostn : CStr} {way : Way SockName} {s s' : DnsState} (h : s.Inv)
    (hs' : dnsIpbyhost hostn way s = .ok s') : s'.Inv := by
  cases way with
  | later => exact Except.ok.inj hs' ▸ h
  | known ip ok => exact call_inv h hs'
  | core now found => exact call_inv (h.withRetry _) hs'

/-- Only an action that returns can send a call out of the table. -/
theorem step_ok_iff (s : DnsState) (op : DnsOp) :
    (∃ s', s.step iptostr op = .ok s') ↔ Roomy s op := by
  cases op with
  | tclDnsHostbyip ip way => exact iff_of_true (dnsHostbyip_ok iptostr ip way _) trivial
  | tclDnsIpbyhost hostn way => exact iff_of_true (dnsIpbyhost_ok hostn way _) trivial
  | dccDnsHostbyip ip way =>
    refine iff_of_true ?_ trivial
    rw [step]
    split
    · exact ⟨s, rfl⟩
    · exact dnsHostbyip_ok iptostr ip way _
  | dccDnsIpbyhost hostn way =>
    refine iff_of_true ?_ trivial
    rw [step]
    split
    · exact ⟨s, rfl⟩
    · exact dnsIpbyhost_ok hostn way _
  | answer a => exact iff_of_true (call_ok a s) trivial
  | actionDone =>
    rw [step, Roomy]
    rcases hcalls : s.calls with _ | ⟨c, calls⟩
    · exact iff_of_true ⟨s, rfl⟩ fun c hc => nomatch hc
    · refine (goOn_ok_iff c _).trans ⟨fun h c' hc' => ?_, fun h => h c rfl⟩
      obtain rfl : c = c' := Option.some.inj hc'
      exact h

theorem step_inv {s s' : DnsState} {op : DnsOp} (h : s.Inv) (hs' : s.step iptostr op = .ok s') :
    s'.Inv := by
  cases op with
  | tclDnsHostbyip ip way => exact dnsHostbyip_inv iptostr (h.push _ _) hs'
  | tclDnsIpbyhost hostn way => exact dnsIpbyhost_inv (h.push _ _) hs'
  | dccDnsHostbyip ip way =>
    rw [step] at hs'
    split at hs'
    · exact Except.ok.inj hs' ▸ h
    · exact dnsHostbyip_inv iptostr (h.push _ _) hs'
  | dccDnsIpbyhost hostn way =>
    rw [step] at hs'
    split at hs'
    · exact Except.ok.inj hs' ▸ h
    · exact dnsIpbyhost_inv (h.push _ _) hs'
  | answer a => exact call_inv h hs'
  | actionDone =>
    rw [step] at hs'
    rcases hcalls : s.calls with _ | ⟨c, calls⟩
    · rw [hcalls] at hs'
      exact Except.ok.inj hs' ▸ h
    · rw [hcalls] at hs'
      have hwait := List.forall_mem_cons.1 (hcalls ▸ h.waiting)
      have hinner : { s with calls := calls }.Inv :=
        ⟨h.perm, h.serials, h.right, hwait.2, h.all⟩
      exact goOn_inv hinner hwait.1 hs'

end Steps

end DnsState

open DnsState in
/-- From any pending events, over any run of lookups, answers and actions, however the calls lie in
each other: no call reads outside the table, every event is run once at most and only for an answer
that is for it, and a call that returns has run all that were pending for it when it began, exactly
when the table has `i` events at least whenever an action returns to a call with the slots below `i`
to visit. -/
theorem served_iff (iptostr : SockName → CStr) (ls : List (DeventType × Lookup)) (r : Retry)
    (ops : List DnsOp) :
    ((∃ s', Machine.run (step iptostr) (start ls r) ops = .ok s') ∧
        Machine.Throughout (step iptostr) Served (start ls r) ops) ↔
      Machine.Along (step iptostr) Roomy (start ls r) ops := by
  have hinv (s : DnsState) (op : DnsOp) (s' : DnsState) (h : s.Inv)
      (hs' : s.step iptostr op = .ok s') : s'.Inv := step_inv iptostr h hs'
  rw [Machine.run_ok_iff_along (fun s op _ => step_ok_iff iptostr s op) hinv (inv_start ls r)]
  have hthroughout := Machine.throughout_of_step hinv (inv_start ls r) ops
  exact and_iff_left (hthroughout.imp fun s h => DnsState.Inv.served h)

/-- The action for one address looks up another that has been asked for before, and the answer to
that is known: two events leave the table, and the call for the first address goes on above its end.
-/
theorem not_served :
    ¬ ((∃ s', Machine.run (DnsState.step fun _ => [])
          (.start [(.tcl, .hostbyip (.v4 1)), (.tcl, .hostbyip (.v4 2)), (.tcl, .hostbyip (.v4 1))]
            ⟨0, 0⟩)
          [.answer (.hostbyip (.v4 1) ['a'] true), .tclDnsHostbyip (.v4 2) (.known ['b'] true),
            .actionDone, .actionDone, .actionDone] = .ok s') ∧
        Machine.Throughout (DnsState.step fun _ => []) DnsState.Served
          (.start [(.tcl, .hostbyip (.v4 1)), (.tcl, .hostbyip (.v4 2)), (.tcl, .hostbyip (.v4 1))]
            ⟨0, 0⟩)
          [.answer (.hostbyip (.v4 1) ['a'] true), .tclDnsHostbyip (.v4 2) (.known ['b'] true),
            .actionDone, .actionDone, .actionDone]) := by
  rintro ⟨⟨s', hs'⟩, -⟩
  have hfault : Machine.run (DnsState.step fun _ => [])
      (.start [(.tcl, .hostbyip (.v4 1)), (.tcl, .hostbyip (.v4 2)), (.tcl, .hostbyip (.v4 1))]
        ⟨0, 0⟩)
      [.answer (.hostbyip (.v4 1) ['a'] true), .tclDnsHostbyip (.v4 2) (.known ['b'] true),
        .actionDone, .actionDone, .actionDone] = .error .outside := rfl
  rw [hfault] at hs'
  cases hs'

end Eggdrop.Core
