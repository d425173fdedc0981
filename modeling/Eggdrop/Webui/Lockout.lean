import Eggdrop.Webui.Auth
import Mathlib.Data.List.Basic

/-!
# Lockout — addresses that failed too often

Every request that is asked for the token goes through the record of its address: in front of the
paths of the API, in front of `/ws` and in `api_auth_post`.  An address that has failed three times
within a minute is to be refused for half a minute, with whatever it comes.  The record knows one
window only, which starts with a failure and is given up by the first failure more than a minute
later; failures on both sides of its end are not counted together.

* `Watch.visit_ledger`: a request changes the record of its own address only, and there as
  `Ledger.visit` says.
* `Ledger.Inv.visit`: what a request preserves, where no third failure is missed.
* `lockout`: the refusals along a run, and what other addresses have to do with them.
-/

open List

namespace Eggdrop.Webui

/-! ### Requests in time -/

/-- A read of a socket of the web interface: the time of it in seconds since the epoch, how many push
clients there are, the address, what was read, and what the buffer holds behind it. -/
structure Visit where
  time : ℕ
  clients : ℕ
  ip : CStr
  buf : CStr
  stale : CStr

namespace Visit

def mem (v : Visit) : CStr := v.buf ++ '\x00' :: v.stale

/-- The state of the server when the request comes. -/
def found (v : Visit) (s : State) : State := { s with now := v.time, wsPushCount := v.clients }

def serve (sha1 : CStr → CStr) (v : Visit) (s : State) : State × Reply :=
  webuiHttpActivity sha1 (v.found s) v.ip v.buf v.stale

end Visit

/-- What `api_auth_post` takes for the right token. -/
def authBody (token : CStr) (body : Option CStr) : Bool :=
  body.any fun body => decide (token = [] ∨ (jsonGetStr body "token".toList 65).getD [] = token)

/-- Whether the request is one that is asked for the token, and whether it has it. -/
def Visit.attempt (token : CStr) (v : Visit) : Option Bool :=
  match asked v.buf v.stale with
  | none => none
  | some (method, path) =>
    if isGuarded path = true then some (checkAuth token (cstr v.mem))
    else if method = .post ∧ path = authPath then some (authBody token (getBody (cstr v.mem)))
    else none

/-! ### One address -/

/-- The record of an address, and the times of its failures since it last had the token, the latest
first.  A request that is refused for the block is not tried, and is no failure. -/
structure Ledger where
  record : Option AuthFail
  failures : List ℕ

namespace Ledger

def isBlocked (l : Ledger) (now : ℤ) : Bool :=
  l.record.any fun af => af.blockedUntil != 0 && decide (now < af.blockedUntil)

/-- The record behind `auth_ip_check`, where it does not refuse. -/
def lapsed (now : ℤ) (af : AuthFail) : AuthFail :=
  if af.blockedUntil ≠ 0 ∧ af.blockedUntil ≤ now then { af with blockedUntil := 0 } else af

/-- The record behind `auth_ip_fail`. -/
def failed (now : ℤ) (record : Option AuthFail) : AuthFail :=
  let af := record.getD ⟨0, now, 0⟩
  let af := if 60 < now - af.windowStart then ⟨0, now, 0⟩ else af
  let count := (af.count + 1) % 2 ^ 32
  { af with count := count, blockedUntil := if 3 ≤ count then now + 30 else af.blockedUntil }

def visit (token : CStr) (l : Ledger) (v : Visit) : Ledger :=
  match v.attempt token with
  | none => l
  | some right =>
    if l.isBlocked v.time = true then l
    else if right = true then ⟨l.record.map fun _ => ⟨0, 0, 0⟩, []⟩
    else ⟨some (failed v.time (l.record.map (lapsed v.time))), v.time :: l.failures⟩

end Ledger

/-! ### All addresses -/

/-- The server, with the failures of every address. -/
structure Watch where
  state : State
  failures : CStr → List ℕ

namespace Watch

def ledger (w : Watch) (ip : CStr) : Ledger := ⟨w.state.authFail ip, w.failures ip⟩

/-- Nobody has failed yet. -/
def start (token : CStr) (now : ℕ) : Watch := ⟨⟨token, now, fun _ => none, 0⟩, fun _ => []⟩

def visit (sha1 : CStr → CStr) (w : Watch) (v : Visit) : Watch where
  state := (v.serve sha1 w.state).1
  failures ip :=
    if ip = v.ip then ((w.ledger ip).visit w.state.token v).failures else w.failures ip

def run (sha1 : CStr → CStr) (w : Watch) (vs : List Visit) : Watch := vs.foldl (visit sha1) w

/-- Every request of a run comes to a state in which `P` holds of it. -/
def Along (sha1 : CStr → CStr) (P : Watch → Visit → Prop) : Watch → List Visit → Prop
  | _, [] => True
  | w, v :: vs => P w v ∧ Along sha1 P (w.visit sha1 v) vs

/-- The clock does not go back. -/
def Timely (w : Watch) (v : Visit) : Prop := w.state.now ≤ v.time

/-- Where the address has failed three times within a minute, whatever is asked for the token comes
to nothing for half a minute. -/
def Shut (sha1 : CStr → CStr) (w : Watch) : Prop :=
  ∀ v : Visit, (v.attempt w.state.token).isSome = true → w.Timely v →
    ∀ t₃ t₂ t₁, [t₃, t₂, t₁] <+ w.failures v.ip → t₃ ≤ t₁ + 60 → v.time < t₃ + 30 →
      (v.serve sha1 w.state).2 = .unauthorized

/-- A failure, two more of which lie within the minute before it, falls into a window that holds two
of them. -/
def Counted (w : Watch) (v : Visit) : Prop :=
  v.attempt w.state.token = some false → (w.ledger v.ip).isBlocked v.time = false →
    (∃ t₂ t₁, [t₂, t₁] <+ w.failures v.ip ∧ v.time ≤ t₁ + 60) →
    ∃ af, w.state.authFail v.ip = some af ∧ 2 ≤ af.count ∧ v.time - af.windowStart ≤ 60

end Watch

/-! ### What a request does to the record of its address -/

section Serve

variable {sha1 : CStr → CStr} {s : State} {ip : CStr}

@[simp] theorem setFail_authFail (af : AuthFail) (i : CStr) :
    (s.setFail ip af).authFail i = if i = ip then some af else s.authFail i := rfl

@[simp] theorem setFail_token (af : AuthFail) : (s.setFail ip af).token = s.token := rfl

@[simp] theorem setFail_now (af : AuthFail) : (s.setFail ip af).now = s.now := rfl

theorem authIpCheck_now : (s.authIpCheck ip).1.now = s.now := by
  rw [State.authIpCheck]
  repeat' split
  all_goals rfl

theorem authIpCheck_blocked (h : s.isBlocked ip = true) : s.authIpCheck ip = (s, true) := by
  rw [State.isBlocked] at h
  rw [State.authIpCheck]
  cases haf : s.authFail ip with
  | none => simp [haf] at h
  | some af =>
    have hblock : af.blockedUntil ≠ 0 ∧ s.now < af.blockedUntil := by simpa [haf] using h
    simp only [if_pos hblock]

theorem authIpCheck_authFail (h : s.isBlocked ip = false) (i : CStr) :
    (s.authIpCheck ip).1.authFail i =
      if i = ip then (s.authFail ip).map (Ledger.lapsed s.now) else s.authFail i := by
  rw [State.isBlocked] at h
  rw [State.authIpCheck]
  cases haf : s.authFail ip with
  | none =>
    by_cases hi : i = ip
    · simp [hi, haf]
    · simp [hi]
  | some af =>
    have hblock : ¬ (af.blockedUntil ≠ 0 ∧ s.now < af.blockedUntil) := by simpa [haf] using h
    by_cases hover : af.blockedUntil ≠ 0 ∧ af.blockedUntil ≤ s.now
    · simp only [if_neg hblock, if_pos hover, setFail_authFail, Option.map_some, Ledger.lapsed]
    · by_cases hi : i = ip
      · simp only [if_neg hblock, if_neg hover, hi, haf, Option.map_some, Ledger.lapsed, if_true]
      · simp only [if_neg hblock, if_neg hover, if_neg hi]

theorem authIpFail_authFail (i : CStr) :
    (s.authIpFail ip).authFail i =
      if i = ip then some (Ledger.failed s.now (s.authFail ip)) else s.authFail i := rfl

theorem authIpSucceed_authFail (i : CStr) :
    (s.authIpSucceed ip).authFail i =
      if i = ip then (s.authFail ip).map fun _ => ⟨0, 0, 0⟩ else s.authFail i := by
  rw [State.authIpSucceed]
  cases haf : s.authFail ip with
  | none =>
    by_cases hi : i = ip
    · simp [hi, haf]
    · simp [hi]
  | some af => simp

theorem authIpSucceed_token : (s.authIpSucceed ip).token = s.token := by
  rw [State.authIpSucceed]
  split <;> rfl

theorem authIpSucceed_now : (s.authIpSucceed ip).now = s.now := by
  rw [State.authIpSucceed]
  split <;> rfl

/-- The records behind an attempt. -/
def State.tried (s : State) (ip : CStr) (right : Bool) : State :=
  if s.isBlocked ip = true then s
  else if right = true then (s.authIpCheck ip).1.authIpSucceed ip
  else (s.authIpCheck ip).1.authIpFail ip

theorem tried_token (right : Bool) : (s.tried ip right).token = s.token := by
  rw [State.tried]
  split
  · rfl
  split
  · exact authIpSucceed_token.trans authIpCheck_token
  · exact authIpCheck_token

theorem tried_now (right : Bool) : (s.tried ip right).now = s.now := by
  rw [State.tried]
  split
  · rfl
  split
  · exact authIpSucceed_now.trans authIpCheck_now
  · exact authIpCheck_now

theorem authGate_fst (buf : CStr) : (s.authGate ip buf).1 = s.tried ip (checkAuth s.token buf) := by
  have htok : (s.authIpCheck ip).1.token = s.token := authIpCheck_token
  rw [State.authGate, State.tried]
  by_cases hblock : s.isBlocked ip = true
  · simp only [authIpCheck_blocked hblock, hblock, if_true]
  · have hsnd : (s.authIpCheck ip).2 = false := by
      rw [authIpCheck_snd]
      simpa using hblock
    simp only [hsnd, htok, if_neg hblock, Bool.false_eq_true, if_false]
    split <;> rfl

/-- `api_auth_post` tries the token in the body. -/
theorem apiAuthPost_eq (body : Option CStr) :
    apiAuthPost s ip body =
      (s.tried ip (authBody s.token body),
        if s.isBlocked ip = true ∨ authBody s.token body = false then .unauthorized else .authOk) := by
  have htok : (s.authIpCheck ip).1.token = s.token := authIpCheck_token
  rw [apiAuthPost, State.tried]
  by_cases hblock : s.isBlocked ip = true
  · simp only [authIpCheck_blocked hblock, hblock, if_true, true_or]
  have hsnd : (s.authIpCheck ip).2 = false := by
    rw [authIpCheck_snd]
    simpa using hblock
  simp only [hsnd, htok, hblock, Bool.false_eq_true, if_false, false_or]
  cases body with
  | none => rfl
  | some body =>
    simp only [authBody, Option.any_some, decide_eq_true_eq, decide_eq_false_iff_not]
    by_cases hright : s.token = [] ∨ (jsonGetStr body "token".toList 65).getD [] = s.token
    · simp only [hright, not_true_eq_false, if_false, if_true]
    · simp only [hright, not_false_eq_true, if_true, if_false]

theorem route_fst {method : Method} {path : CStr} (h : ¬ (method = .post ∧ path = authPath))
    (mem : CStr) : (route sha1 s ip method path mem).1 = s := by
  cases method with
  | get => rfl
  | post => rw [route, if_neg fun hpath => h ⟨rfl, hpath⟩]
  | delete => rfl
  | options => rfl

theorem activity_fst_none {buf stale : CStr} (h : asked buf stale = none) :
    (webuiHttpActivity sha1 s ip buf stale).1 = s := by
  rw [asked] at h
  unfold webuiHttpActivity
  by_cases htls : buf.head? = some '\x16'
  · simp only [if_pos htls]
  simp only [if_neg htls]
  by_cases hlen : buf.length < 16
  · simp only [if_pos hlen]
    split <;> rfl
  rw [if_neg (by simp [htls, hlen])] at h
  split at h
  · next hm => simp only [hm]
  · next hm => simp [hm, hlen]
  · simp at h

end Serve

/-! ### Requests and ledgers -/

section Visits

variable {sha1 : CStr → CStr} {s : State} {v : Visit}

theorem serve_fst : (v.serve sha1 s).1 =
    match v.attempt s.token with
    | none => v.found s
    | some right => (v.found s).tried v.ip right := by
  rw [Visit.serve, Visit.attempt]
  cases hasked : asked v.buf v.stale with
  | none => exact activity_fst_none hasked
  | some mp =>
    obtain ⟨method, path⟩ := mp
    rw [activity_eq sha1 _ v.ip hasked]
    dsimp only
    by_cases hguard : isGuarded path = true
    · have hpath : ¬ (method = .post ∧ path = authPath) := fun h => ne_authPath_of_guarded hguard h.2
      rw [if_pos hguard, if_pos hguard]
      have hgate : ((v.found s).authGate v.ip (cstr v.mem)).1 =
          (v.found s).tried v.ip (checkAuth s.token (cstr v.mem)) := authGate_fst _
      split
      · exact (route_fst hpath _).trans hgate
      · exact hgate
    rw [if_neg hguard, if_neg hguard]
    by_cases hauth : method = .post ∧ path = authPath
    · rw [if_pos hauth, hauth.1, hauth.2, route, if_pos rfl, apiAuthPost_eq]
      rfl
    · rw [if_neg hauth]
      exact route_fst hauth _

theorem serve_unauthorized {right : Bool} (h : v.attempt s.token = some right)
    (hno : (v.found s).isBlocked v.ip = true ∨ right = false) :
    (v.serve sha1 s).2 = .unauthorized := by
  rw [Visit.attempt] at h
  rw [Visit.serve]
  cases hasked : asked v.buf v.stale with
  | none => simp [hasked] at h
  | some mp =>
    obtain ⟨method, path⟩ := mp
    rw [hasked] at h
    dsimp only at h
    rw [activity_eq sha1 _ v.ip hasked]
    by_cases hguard : isGuarded path = true
    · rw [if_pos hguard, Option.some.injEq] at h
      have hgate : ((v.found s).authGate v.ip (cstr v.mem)).2 = false := by
        rw [authGate_snd]
        rcases hno with hno | hno
        · rw [hno]
          rfl
        · rw [show (v.found s).token = s.token from rfl, h, hno, Bool.and_false]
      rw [if_pos hguard, if_neg (by simpa [Visit.mem] using hgate)]
    rw [if_neg hguard] at h ⊢
    by_cases hauth : method = .post ∧ path = authPath
    · rw [if_pos hauth, Option.some.injEq] at h
      rw [hauth.1, hauth.2, route, if_pos rfl, apiAuthPost_eq]
      exact if_pos (hno.imp_right fun hno => by rw [← hno, ← h]; rfl)
    · simp [if_neg hauth] at h

theorem serve_snd_congr {s' : State} (htok : s'.token = s.token)
    (hrec : s'.authFail v.ip = s.authFail v.ip) : (v.serve sha1 s').2 = (v.serve sha1 s).2 := by
  have hblock : (v.found s').isBlocked v.ip = (v.found s).isBlocked v.ip := by
    rw [State.isBlocked, State.isBlocked, show (v.found s').authFail v.ip = s'.authFail v.ip from rfl,
      hrec]
    rfl
  rw [Visit.serve, Visit.serve]
  cases hasked : asked v.buf v.stale with
  | none => rw [activity_none sha1 _ v.ip hasked, activity_none sha1 _ v.ip hasked]
  | some mp =>
    obtain ⟨method, path⟩ := mp
    rw [activity_eq sha1 _ v.ip hasked, activity_eq sha1 _ v.ip hasked]
    have hpass := authGate_snd (v.found s') v.ip (cstr v.mem)
    rw [hblock, show (v.found s').token = (v.found s).token from htok, ← authGate_snd] at hpass
    have hcount (s : State) : ((v.found s).authGate v.ip (cstr v.mem)).1.wsPushCount = v.clients :=
      authGate_wsPushCount _ _ _
    by_cases hguard : isGuarded path = true
    · rw [if_pos hguard, if_pos hguard, show v.buf ++ '\x00' :: v.stale = v.mem from rfl, hpass]
      split
      · exact route_congr sha1 v.ip ((hcount s').trans (hcount s).symm)
          (ne_authPath_of_guarded hguard) method _
      · rfl
    rw [if_neg hguard, if_neg hguard]
    by_cases hauth : method = .post ∧ path = authPath
    · rw [hauth.1, hauth.2, route, route, if_pos rfl, if_pos rfl, apiAuthPost_eq, apiAuthPost_eq,
        hblock, show (v.found s').token = (v.found s).token from htok]
    · cases method with
      | get => rfl
      | post =>
        have hpath : path ≠ authPath := fun h => hauth ⟨rfl, h⟩
        rw [route, route, if_neg hpath, if_neg hpath]
      | delete => rfl
      | options => rfl

end Visits

/-! ### Runs -/

section Runs

variable {sha1 : CStr → CStr} {w : Watch} {v : Visit}

theorem serve_token (s : State) : (v.serve sha1 s).1.token = s.token := by
  rw [serve_fst]
  cases v.attempt s.token with
  | none => rfl
  | some right => exact tried_token right

theorem serve_now (s : State) : (v.serve sha1 s).1.now = v.time := by
  rw [serve_fst]
  cases v.attempt s.token with
  | none => rfl
  | some right => exact tried_now right

@[simp] theorem visit_token : (w.visit sha1 v).state.token = w.state.token := serve_token _

@[simp] theorem visit_now : (w.visit sha1 v).state.now = v.time := serve_now _

theorem Watch.visit_ledger (ip : CStr) :
    (w.visit sha1 v).ledger ip =
      if ip = v.ip then (w.ledger ip).visit w.state.token v else w.ledger ip := by
  have hrecord : (w.visit sha1 v).state.authFail ip =
      if ip = v.ip then ((w.ledger ip).visit w.state.token v).record else w.state.authFail ip := by
    rw [show (w.visit sha1 v).state = (v.serve sha1 w.state).1 from rfl, serve_fst, Ledger.visit]
    cases v.attempt w.state.token with
    | none => by_cases hip : ip = v.ip <;> simp [hip, Visit.found, Watch.ledger]
    | some right =>
      have hblocked : (v.found w.state).isBlocked v.ip = (w.ledger v.ip).isBlocked v.time := rfl
      dsimp only
      by_cases hip : ip = v.ip
      · subst hip
        rw [if_pos rfl, State.tried, hblocked]
        by_cases hb : (w.ledger v.ip).isBlocked v.time = true
        · rw [if_pos hb, if_pos hb]
          rfl
        have hfree : (v.found w.state).isBlocked v.ip = false := by simpa [hblocked] using hb
        rw [if_neg hb, if_neg hb]
        cases right with
        | true =>
          rw [if_pos rfl, if_pos rfl, authIpSucceed_authFail, if_pos rfl, authIpCheck_authFail hfree,
            if_pos rfl, Option.map_map]
          rfl
        | false =>
          rw [if_neg (by decide), if_neg (by decide), authIpFail_authFail, if_pos rfl,
            authIpCheck_authFail hfree, if_pos rfl, authIpCheck_now]
          rfl
      · rw [if_neg hip, State.tried]
        split
        · rfl
        next hb =>
        have hfree : (v.found w.state).isBlocked v.ip = false := by simpa using hb
        split
        · rw [authIpSucceed_authFail, if_neg hip, authIpCheck_authFail hfree, if_neg hip]
          rfl
        · rw [authIpFail_authFail, if_neg hip, authIpCheck_authFail hfree, if_neg hip]
          rfl
  rw [Watch.ledger, hrecord]
  by_cases hip : ip = v.ip
  · rw [if_pos hip, if_pos hip, Watch.visit]
    simp only [if_pos hip]
  · rw [if_neg hip, if_neg hip, Watch.visit]
    simp only [if_neg hip]
    rfl

theorem run_token (vs : List Visit) : ∀ w : Watch, (w.run sha1 vs).state.token = w.state.token := by
  induction vs with
  | nil => exact fun _ => rfl
  | cons v vs ih =>
    intro w
    exact (ih (w.visit sha1 v)).trans visit_token

theorem run_ledger (ip : CStr) (vs : List Visit) : ∀ w : Watch,
    (w.run sha1 vs).ledger ip =
      (vs.filter (·.ip = ip)).foldl (Ledger.visit w.state.token) (w.ledger ip) := by
  induction vs with
  | nil => exact fun _ => rfl
  | cons v vs ih =>
    intro w
    have htail := ih (w.visit sha1 v)
    rw [visit_token, Watch.visit_ledger] at htail
    rw [show w.run sha1 (v :: vs) = (w.visit sha1 v).run sha1 vs from rfl, htail, filter_cons]
    by_cases hip : v.ip = ip
    · rw [if_pos hip.symm, if_pos (by simpa using hip), foldl_cons]
    · rw [if_neg fun h => hip h.symm, if_neg (by simpa using hip)]

theorem run_ledger_own (ip : CStr) (vs : List Visit) :
    (w.run sha1 vs).ledger ip = (w.run sha1 (vs.filter (·.ip = ip))).ledger ip := by
  rw [run_ledger, run_ledger, filter_filter]
  simp

theorem run_serve_own (vs : List Visit) (v : Visit) :
    (v.serve sha1 (w.run sha1 vs).state).2 =
      (v.serve sha1 (w.run sha1 (vs.filter (·.ip = v.ip))).state).2 := by
  apply serve_snd_congr
  · rw [run_token, run_token]
  · exact congrArg Ledger.record (run_ledger_own v.ip vs)

end Runs

/-! ### What holds of every record -/

namespace Ledger

/-- A block that began with the last of three failures within a minute is on, or over.  The window
holds the failures that it counts, and there are at most five of them, for each from the third on
keeps the next one off for half a minute. -/
structure Inv (l : Ledger) (now : ℤ) : Prop where
  shut : ∀ t₃ t₂ t₁, [t₃, t₂, t₁] <+ l.failures → t₃ ≤ t₁ + 60 → now < t₃ + 30 →
    ∃ af, l.record = some af ∧ af.blockedUntil = t₃ + 30
  past : ∀ t ∈ l.failures, (t : ℤ) ≤ now
  within : ∀ af, l.record = some af →
    af.count ≤ l.failures.length ∧ af.windowStart ≤ now ∧
      ∀ t ∈ l.failures.take af.count, af.windowStart ≤ t
  spaced : ∀ af, l.record = some af → 3 ≤ af.count →
    (af.blockedUntil ≠ 0 ∧ af.windowStart + 30 * (af.count - 2) ≤ af.blockedUntil) ∨
      af.windowStart + 30 * (af.count - 2) ≤ now

variable {l : Ledger} {now : ℤ}

theorem inv_start (now : ℤ) : Inv ⟨none, []⟩ now where
  shut t₃ t₂ t₁ h := by simp at h
  past t h := by simp at h
  within af h := by simp at h
  spaced af h := by simp at h

theorem Inv.mono {now' : ℤ} (h : Inv l now) (hle : now ≤ now') : Inv l now' where
  shut t₃ t₂ t₁ hsub hspan hlt := h.shut t₃ t₂ t₁ hsub hspan (by omega)
  past t ht := by
    have := h.past t ht
    omega
  within af haf := by
    obtain ⟨hlength, hstart, hwithin⟩ := h.within af haf
    exact ⟨hlength, Int.le_trans hstart hle, hwithin⟩
  spaced af haf hcount := by
    have := h.spaced af haf hcount
    omega

theorem isBlocked_eq_true_iff :
    l.isBlocked now = true ↔ ∃ af, l.record = some af ∧ af.blockedUntil ≠ 0 ∧ now < af.blockedUntil := by
  rw [isBlocked]
  cases l.record with
  | none => simp
  | some af => simp

theorem inv_succeed (record : Option AuthFail) (now : ℕ) :
    Inv ⟨record.map fun _ => ⟨0, 0, 0⟩, []⟩ now where
  shut t₃ t₂ t₁ hsub := by simp at hsub
  past t ht := by simp at ht
  within af haf := by
    obtain ⟨-, -, rfl⟩ := Option.map_eq_some_iff.1 haf
    simp
  spaced af haf hcount := by
    obtain ⟨-, -, rfl⟩ := Option.map_eq_some_iff.1 haf
    simp at hcount

/-- What stands in the record when a failure is about to be counted. -/
def windowAt (now : ℤ) (record : Option AuthFail) : AuthFail :=
  let af := (record.map (lapsed now)).getD ⟨0, now, 0⟩
  if 60 < now - af.windowStart then ⟨0, now, 0⟩ else af

theorem failed_eq (now : ℤ) (record : Option AuthFail) :
    failed now (record.map (lapsed now)) =
      { windowAt now record with
        count := ((windowAt now record).count + 1) % 2 ^ 32
        blockedUntil :=
          if 3 ≤ ((windowAt now record).count + 1) % 2 ^ 32 then now + 30
          else (windowAt now record).blockedUntil } := rfl

theorem lapsed_count (af : AuthFail) : (lapsed now af).count = af.count := by
  rw [lapsed]
  split <;> rfl

theorem lapsed_windowStart (af : AuthFail) : (lapsed now af).windowStart = af.windowStart := by
  rw [lapsed]
  split <;> rfl

theorem windowAt_of_young {af : AuthFail} (hyoung : now - af.windowStart ≤ 60) :
    (windowAt now (some af)).count = af.count ∧
      (windowAt now (some af)).windowStart = af.windowStart := by
  have hold : ¬ 60 < now - af.windowStart := by omega
  simp only [windowAt, Option.map_some, Option.getD_some, lapsed_windowStart, if_neg hold,
    lapsed_count, and_self]

theorem windowAt_cases (now : ℤ) (record : Option AuthFail) :
    windowAt now record = ⟨0, now, 0⟩ ∨
      ∃ af, record = some af ∧ now - af.windowStart ≤ 60 := by
  cases record with
  | none =>
    left
    simp [windowAt]
  | some af =>
    by_cases hold : 60 < now - af.windowStart
    · left
      simp [windowAt, lapsed_windowStart, hold]
    · right
      exact ⟨af, rfl, by omega⟩

/-- The window at a failure that is not refused. -/
structure Open (l : Ledger) (now : ℕ) (af : AuthFail) : Prop where
  length : af.count ≤ l.failures.length
  le_now : af.windowStart ≤ now
  within : ∀ t ∈ l.failures.take af.count, af.windowStart ≤ t
  spaced : 3 ≤ af.count → af.windowStart + 30 * (af.count - 2) ≤ now
  count_le : af.count ≤ 4

theorem Inv.windowAt {now : ℕ} (h : Inv l now) (hfree : l.isBlocked now = false) :
    Open l now (windowAt now l.record) := by
  rcases windowAt_cases now l.record with hnew | ⟨af, haf, hyoung⟩
  · rw [hnew]
    constructor <;> simp
  obtain ⟨hcount, hstart⟩ := windowAt_of_young hyoung
  rw [← haf] at hcount hstart
  obtain ⟨hlength, hle, hwithin⟩ := h.within af haf
  -- a block that is over ended before now
  have hspaced : 3 ≤ af.count → af.windowStart + 30 * (af.count - 2) ≤ now := by
    intro h3
    rcases h.spaced af haf h3 with ⟨hne, hle⟩ | hle
    · by_contra hlt
      have hblocked : l.isBlocked now = true :=
        isBlocked_eq_true_iff.2 ⟨af, haf, hne, by omega⟩
      simp [hfree] at hblocked
    · exact hle
  constructor
  · rw [hcount]
    exact hlength
  · rw [hstart]
    exact hle
  · rw [hcount, hstart]
    exact hwithin
  · rw [hcount, hstart]
    exact hspaced
  · rw [hcount]
    omega

theorem failed_record {now : ℕ} (h : Open l now (windowAt now l.record)) :
    failed now (l.record.map (lapsed now)) =
      { windowAt now l.record with
        count := (windowAt now l.record).count + 1
        blockedUntil :=
          if 2 ≤ (windowAt now l.record).count then now + 30
          else (windowAt now l.record).blockedUntil } := by
  have hcount := h.count_le
  rw [failed_eq, Nat.mod_eq_of_lt (by omega)]
  simp

theorem Inv.fail {now : ℕ} (h : Inv l now) (hfree : l.isBlocked now = false)
    (hcounted : (∃ t₂ t₁, [t₂, t₁] <+ l.failures ∧ now ≤ t₁ + 60) →
      ∃ af, l.record = some af ∧ 2 ≤ af.count ∧ now - af.windowStart ≤ 60) :
    Inv ⟨some (failed now (l.record.map (lapsed now))), now :: l.failures⟩ now := by
  have hopen := h.windowAt hfree
  have hrecord := failed_record hopen
  set af := Ledger.windowAt now l.record with haf
  constructor
  · intro t₃ t₂ t₁ hsub hspan hlt
    rcases sublist_cons_iff.1 hsub with hold | ⟨r, hr, hnew⟩
    · -- the block of earlier failures would have refused this one
      exfalso
      obtain ⟨af', haf', huntil⟩ := h.shut t₃ t₂ t₁ hold hspan hlt
      have hblocked : l.isBlocked now = true := by
        apply isBlocked_eq_true_iff.2
        refine ⟨af', haf', ?_, ?_⟩
        · omega
        · omega
      simp [hfree] at hblocked
    · obtain ⟨rfl, rfl⟩ := cons.inj hr
      obtain ⟨af', haf', hcount, hyoung⟩ := hcounted ⟨t₂, t₁, hnew, hspan⟩
      obtain ⟨hsame, -⟩ := windowAt_of_young hyoung
      rw [← haf', ← haf] at hsame
      refine ⟨_, rfl, ?_⟩
      rw [hrecord, if_pos (by omega)]
  · intro t ht
    rcases mem_cons.1 ht with rfl | ht
    · exact Int.le_refl _
    · exact h.past t ht
  · intro af' haf'
    obtain rfl := Option.some.inj haf'
    rw [hrecord]
    refine ⟨by simpa using hopen.length, hopen.le_now, ?_⟩
    intro t ht
    rw [take_succ_cons] at ht
    rcases mem_cons.1 ht with rfl | ht
    · exact hopen.le_now
    · exact hopen.within t ht
  · intro af' haf' h3
    obtain rfl := Option.some.inj haf'
    rw [hrecord] at h3 ⊢
    have h2 : 2 ≤ af.count := by simpa using h3
    have hle := hopen.le_now
    have hspaced := hopen.spaced
    left
    rw [if_pos h2]
    push_cast
    omega

theorem Inv.visit {token : CStr} {v : Visit} (h : Inv l now) (htime : now ≤ v.time)
    (hcounted : v.attempt token = some false → l.isBlocked v.time = false →
      (∃ t₂ t₁, [t₂, t₁] <+ l.failures ∧ v.time ≤ t₁ + 60) →
      ∃ af, l.record = some af ∧ 2 ≤ af.count ∧ v.time - af.windowStart ≤ 60) :
    Inv (l.visit token v) v.time := by
  have hnow := h.mono htime
  rw [Ledger.visit]
  cases hattempt : v.attempt token with
  | none => exact hnow
  | some right =>
    dsimp only
    by_cases hblocked : l.isBlocked v.time = true
    · rw [if_pos hblocked]
      exact hnow
    rw [if_neg hblocked]
    cases right with
    | true =>
      rw [if_pos rfl]
      exact inv_succeed l.record v.time
    | false =>
      rw [if_neg (by decide)]
      have hfree : l.isBlocked v.time = false := by simpa using hblocked
      exact hnow.fail hfree (hcounted hattempt hfree)

end Ledger

/-! ### Addresses that are shut out -/

section Shut

variable {sha1 : CStr → CStr} {w : Watch}

theorem Watch.Along.inv {vs : List Visit} : ∀ {w : Watch},
    w.Along sha1 Timely vs → w.Along sha1 Counted vs →
      (∀ ip, (w.ledger ip).Inv w.state.now) →
        ∀ ip, ((w.run sha1 vs).ledger ip).Inv (w.run sha1 vs).state.now := by
  induction vs with
  | nil => exact fun _ _ h => h
  | cons v vs ih =>
    intro w htimely hcounted hinv
    apply ih htimely.2 hcounted.2
    intro ip
    rw [Watch.visit_ledger, visit_now]
    by_cases hip : ip = v.ip
    · subst hip
      rw [if_pos rfl]
      exact (hinv v.ip).visit htimely.1 hcounted.1
    · rw [if_neg hip]
      exact (hinv ip).mono htimely.1

theorem Watch.shut_of_inv (h : ∀ ip, (w.ledger ip).Inv w.state.now) : w.Shut sha1 := by
  intro v hattempt htimely t₃ t₂ t₁ hsub hspan hlt
  obtain ⟨right, hright⟩ := Option.isSome_iff_exists.1 hattempt
  apply serve_unauthorized hright
  left
  have hnow : w.state.now < t₃ + 30 := by
    have : w.state.now ≤ v.time := htimely
    omega
  obtain ⟨af, haf, huntil⟩ := (h v.ip).shut t₃ t₂ t₁ hsub hspan hnow
  have hblocked : (w.ledger v.ip).isBlocked v.time = true :=
    Ledger.isBlocked_eq_true_iff.2 ⟨af, haf, by omega, by omega⟩
  exact hblocked

end Shut

/-- From a start at which nobody has failed: an address is shut out as it should be in every run in
which no third failure within a minute is missed, and what other addresses do makes no difference to
it, nor to how its requests are answered. -/
theorem lockout (sha1 : CStr → CStr) (token : CStr) (now : ℕ) (vs : List Visit) :
    ((Watch.start token now).Along sha1 Watch.Timely vs →
      (Watch.start token now).Along sha1 Watch.Counted vs →
        ((Watch.start token now).run sha1 vs).Shut sha1) ∧
    ∀ v : Visit, (v.serve sha1 ((Watch.start token now).run sha1 vs).state).2 =
      (v.serve sha1 ((Watch.start token now).run sha1 (vs.filter (·.ip = v.ip))).state).2 := by
  constructor
  · intro htimely hcounted
    apply Watch.shut_of_inv
    apply htimely.inv hcounted
    exact fun ip => Ledger.inv_start now
  · exact run_serve_own vs

/-- A request to the authentication endpoint without a token. -/
def emptyPost (time : ℕ) : Visit :=
  ⟨time, 0, "10.0.0.1".toList, "POST /api/auth HTTP/1.1\r\n\r\n".toList, []⟩

/-- A request for `/ws` with the token `a`. -/
def rightGet (time : ℕ) : Visit :=
  ⟨time, 0, "10.0.0.1".toList, "GET /ws?token=a HTTP/1.1\r\n\r\n".toList, []⟩

theorem rightGet_attempt (time : ℕ) : (rightGet time).attempt ['a'] = some true := by
  show (rightGet 0).attempt ['a'] = some true
  decide

def thrice : List Visit := [emptyPost 1000, emptyPost 1001, emptyPost 1002]

theorem timely_thrice : (Watch.start ['a'] 1000).Along id Watch.Timely thrice := by
  simp [thrice, Watch.Along, Watch.Timely, Watch.start, emptyPost]

theorem counted_thrice : (Watch.start ['a'] 1000).Along id Watch.Counted thrice := by
  refine ⟨?_, ?_, ?_, trivial⟩
  · rintro - - ⟨t₂, t₁, hsub, -⟩
    have hlen : 2 ≤ ((Watch.start ['a'] 1000).failures (emptyPost 1000).ip).length := hsub.length_le
    exact absurd hlen (by decide)
  · rintro - - ⟨t₂, t₁, hsub, -⟩
    have hlen : 2 ≤ (((Watch.start ['a'] 1000).visit id (emptyPost 1000)).failures
      (emptyPost 1001).ip).length := hsub.length_le
    exact absurd hlen (by decide)
  · rintro - - -
    exact ⟨⟨2, 1000, 0⟩, by decide, by decide, by decide⟩

/-- After three failures in three seconds the token is of no use. -/
theorem lockout_thrice :
    ((rightGet 1003).serve id ((Watch.start ['a'] 1000).run id thrice).state).2 = .unauthorized := by
  have hshut := (lockout id ['a'] 1000 thrice).1 timely_thrice counted_thrice
  exact hshut (rightGet 1003) (by simp [run_token, Watch.start, rightGet_attempt])
    (by simp [Watch.run, Watch.Timely, thrice, emptyPost, rightGet]) 1002 1001 1000 (by decide)
    (by decide) (by decide)

/-- The window of a failure at 1000 ends with 1060; three failures from 1050 on do not lie in one
window, and the token is good a second after the last. -/
theorem not_lockout :
    ¬ ∀ (sha1 : CStr → CStr) (token : CStr) (now : ℕ) (vs : List Visit),
      (Watch.start token now).Along sha1 Watch.Timely vs →
        ((Watch.start token now).run sha1 vs).Shut sha1 := by
  intro h
  have hshut := h id ['a'] 1000 [emptyPost 1000, emptyPost 1050, emptyPost 1061, emptyPost 1062]
    (by simp [Watch.Along, Watch.Timely, Watch.start, emptyPost])
  have hrefused := hshut (rightGet 1063) (by simp [run_token, Watch.start, rightGet_attempt])
    (by simp [Watch.run, Watch.Timely, emptyPost, rightGet]) 1062 1061 1050 (by decide)
    (by decide) (by decide)
  exact absurd hrefused (by decide)

end Eggdrop.Webui
