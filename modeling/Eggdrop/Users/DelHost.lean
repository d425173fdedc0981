import Eggdrop.Users.RecordEntries

/-!
# DelHost — hostmasks and accounts that are taken away (src/userrec.c)

`del_host_or_account` takes hostmasks out of a vector, from its end on, and accounts out of a list.
Where it is done with the masks it sets the entry to `none` if it has found nothing, and with the
accounts if nothing is left.  The nodes of the list lie in a slab, and it gives them to `op_free`.

* `hostsLoop_length`, `accountsLoop_eq`: the two walks.
* `setUser_none`: what becomes of the entry that is set to `none`.
* `delHost_snd`, `delAccount_snd`: the records are those of `State.delHostOrAccount`.
* `deletes_iff`: when what is equal goes, and nothing else.  The lookup must meet no entry without a
  type; the hostmasks must have one that is equal, or be none; the accounts must be none, or a list,
  which `account_set` never makes, without one that is equal.
-/

open List

namespace Eggdrop.Users

/-! ### The source -/

/-- The loop over the vector, from `n` down: what is left, and how many are gone. -/
@[grind =] def hostsLoop (host : CStr) : ℕ → List CStr → ℕ → List CStr × ℕ
  | 0, hv, i => (hv, i)
  | n + 1, hv, i =>
    if rfcCaseEq (hv.getD n []) host then hostsLoop host n (hv.eraseIdx n) (i + 1)
    else hostsLoop host n hv i

/-- The walk over the list.  The node of the first account that is equal is given to `op_free`. -/
@[grind =] def accountsLoop (acct : CStr) : List CStr → Except Fault Unit
  | [] => .ok ()
  | q :: qnext => if rfcCaseEq q acct then .error .badFree else accountsLoop acct qnext

namespace Userrec

variable (env : Env)

/-- The hostmasks of `del_host_or_account`: the number and the record. -/
def delHost (u : Userrec) (host : CStr) : Except Fault (ℕ × Userrec) := do
  let (v, u) ← u.getUser env .hosts
  let hv ← walkVec v
  let (hv, i) := hostsLoop host hv.length hv 0
  if i = 0 then
    let u ← u.setUser env .hosts (.string (some "none".toList))
    pure (i, u)
  else pure (i, { u.withHead (.vec hv) with dirty := true })

/-- The accounts of `del_host_or_account`: the number, whether `account_set` drops the dictionary,
and the record. -/
def delAccount (u : Userrec) (acct : CStr) : Except Fault (ℕ × Bool × Userrec) := do
  let (v, u) ← u.getUser env .account
  let q ← walkList v
  accountsLoop acct q
  -- nothing was taken out of the list
  if q = [] then
    let u ← u.setUser env .account (.string (some "none".toList))
    pure (0, true, u)
  else pure (0, false, u)

end Userrec

namespace State

variable (env : Env) (st : State)

/-- The line that `del_host_or_account` shares. -/
def delLine (noshare : Bool) (letter : Char) (handle arg : CStr) (i : ℕ) (u : Userrec) :
    Option CStr :=
  if !noshare && i ≠ 0 && !u.flags.has userUnshared then
    some ('-' :: letter :: ' ' :: (handle ++ ' ' :: arg) ++ ['\n'])
  else none

/-- `delhost_by_handle`: the number that is returned, what is shared, and the users. -/
def delhostByHandle (noshare : Bool) (handle host : CStr) :
    Except Fault (ℕ × Option CStr × State) := do
  let (id, st) ← st.getUserByHandle none handle
  match id with
  | none => pure (0, none, st)
  | some id =>
    let u ← st.recordAt id
    let (i, u) ← u.delHost env host
    pure (i, delLine noshare 'h' handle host i u, st.putRecord u)

/-- `delaccount_by_handle`. -/
def delaccountByHandle (noshare : Bool) (handle acct : CStr) :
    Except Fault (ℕ × Option CStr × State) := do
  let (id, st) ← st.getUserByHandle none handle
  match id with
  | none => pure (0, none, st)
  | some id =>
    let u ← st.recordAt id
    let (i, drop, u) ← u.delAccount env acct
    let st := st.putRecord u
    pure (i, delLine noshare 'a' handle acct i u,
      if drop || i ≠ 0 then st.userAccountDictInvalidate else st)

end State

/-! ### What is meant -/

/-- The strings of a value, as a vector or as a list; no value is none of them. -/
def Value.strings : Value → Option (List CStr)
  | .null => some []
  | .vec v => some v
  | .list l => some l
  | _ => none

section Spec

variable (env : Env)

/-- What `get_user` is to find. -/
def Userrec.stored (et : EntryType) (u : Userrec) : Value :=
  ((u.entries.find? (Entry.isFor (entryOps env.hooks u.flags) et)).map Entry.u).getD .null

/-- The other entries. -/
def Userrec.others (et : EntryType) (u : Userrec) : List (Entry EntryType Value) :=
  u.entries.eraseP (Entry.isFor (entryOps env.hooks u.flags) et)

/-- Of the strings stored for `et` those equal to `arg` are gone, `i` of them; the other ones are
there in their order, and so are the other entries and fields of the record. -/
structure Deletes (et : EntryType) (arg : CStr) (u : Userrec) (i : ℕ) (u' : Userrec) : Prop where
  strings : ∃ (q : List CStr) (e : Option (Entry EntryType Value)),
    (u.stored env et).strings = some q ∧ u'.entries = e.toList ++ u.others env et ∧
      ((e.map Entry.u).getD .null).strings = some (q.filter fun m => !rfcCaseEq m arg) ∧
      i = q.countP (rfcCaseEq · arg)
  fields : u.SameBut u'

/-- The lookup of the hostmasks meets no entry without a type, what it finds is a vector, and this
is empty or has a mask equal to `host`. -/
def HostGoes (host : CStr) (u : Userrec) : Prop :=
  Clear (entryOps env.hooks u.flags) .hosts u.entries ∧
    ∃ hv, walkVec (u.stored env .hosts) = .ok hv ∧ (hv = [] ∨ ∃ m ∈ hv, rfcCaseEq m host = true)

/-- The lookup of the accounts meets no entry without a type, and what it finds is a null pointer, or
a list that is not empty and has no account equal to `acct`. -/
def AccountGoes (acct : CStr) (u : Userrec) : Prop :=
  Clear (entryOps env.hooks u.flags) .account u.entries ∧
    (u.stored env .account = .null ∨
      ∃ q, q ≠ [] ∧ u.stored env .account = .list q ∧ ∀ a ∈ q, rfcCaseEq a acct = false)

end Spec

/-! ### The walks -/

section Walks

variable {host acct : CStr}

theorem hostsLoop_eq (n : ℕ) {hv : List CStr} (h : n ≤ hv.length) (i : ℕ) :
    hostsLoop host n hv i =
      ((hv.take n).filter (fun m => !rfcCaseEq m host) ++ hv.drop n,
        i + (hv.take n).countP (rfcCaseEq · host)) := by
  induction n generalizing hv i with
  | zero => simp [hostsLoop]
  | succ n ih =>
    have hlt : n < hv.length := h
    have hget : hv.getD n [] = hv[n] := by
      rw [List.getD_eq_getElem?_getD, List.getElem?_eq_getElem hlt]
      rfl
    have htake : hv.take (n + 1) = hv.take n ++ [hv[n]] := (List.take_concat_get' hv n hlt).symm
    rw [hostsLoop, hget, htake, List.filter_append, List.countP_append]
    split
    · next heq =>
      have htake' : (hv.eraseIdx n).take n = hv.take n := by
        rw [List.eraseIdx_eq_take_drop_succ, List.take_append_of_le_length (by simp; omega),
          List.take_take, Nat.min_self]
      have hdrop : (hv.eraseIdx n).drop n = hv.drop (n + 1) := by
        rw [List.eraseIdx_eq_take_drop_succ, List.drop_append_of_le_length (by simp; omega)]
        simp
      rw [ih (by rw [List.length_eraseIdx_of_lt hlt]; omega), htake', hdrop]
      simp [heq]
      omega
    · next hne =>
      rw [ih hlt.le, List.drop_eq_getElem_cons hlt]
      simp [hne]

theorem hostsLoop_length (hv : List CStr) :
    hostsLoop host hv.length hv 0 =
      (hv.filter fun m => !rfcCaseEq m host, hv.countP (rfcCaseEq · host)) := by
  rw [hostsLoop_eq hv.length le_rfl]
  simp

theorem accountsLoop_eq (q : List CStr) :
    accountsLoop acct q = if q.any (rfcCaseEq · acct) then .error .badFree else .ok () := by
  induction q with
  | nil => rfl
  | cons a q ih =>
    rw [accountsLoop, ih, List.any_cons]
    cases rfcCaseEq a acct <;> rfl

theorem accountsLoop_of_none {q : List CStr} (h : ∀ a ∈ q, rfcCaseEq a acct = false) :
    accountsLoop acct q = .ok () := by
  rw [accountsLoop_eq, if_neg (by simpa using h)]

end Walks

/-! ### The entry -/

section Record

variable (env : Env) {et : EntryType} {u : Userrec}

/-- The record as the search for `et` leaves it. -/
def Userrec.found (et : EntryType) (u : Userrec) : Userrec :=
  { u with entries :=
      (u.entries.find? (Entry.isFor (entryOps env.hooks u.flags) et)).toList ++ u.others env et }

theorem getUser_of_clear (h : Clear (entryOps env.hooks u.flags) et u.entries) :
    u.getUser env et = .ok (u.stored env et, u.found env et) := by
  unfold Userrec.getUser Users.getUser
  rw [findUserEntry_of_clear _ _ h]
  unfold Userrec.found Userrec.others Userrec.stored
  cases hfind : u.entries.find? (Entry.isFor (entryOps env.hooks u.flags) et) with
  | none =>
    have hself := List.eraseP_of_forall_not (List.find?_eq_none.1 hfind)
    rw [hself]
    rfl
  | some e => rfl

theorem getUser_of_not_clear (h : ¬Clear (entryOps env.hooks u.flags) et u.entries) :
    u.getUser env et = .error .missingType := by
  unfold Userrec.getUser Users.getUser
  rw [findUserEntry_of_not_clear _ _ h]
  rfl

theorem typed_of_find? (h : Clear (entryOps env.hooks u.flags) et u.entries)
    {e : Entry EntryType Value}
    (hfind : u.entries.find? (Entry.isFor (entryOps env.hooks u.flags) et) = some e) :
    ∃ v, e = .typed et v := by
  have hspec := findUserEntry_spec env _ (findUserEntry_of_clear _ _ h)
  rw [hfind] at hspec
  rcases hspec with ⟨hnone, -⟩ | ⟨v, rest, hsome, -⟩
  · cases hnone
  · cases hsome
    exact ⟨v, rfl⟩

theorem isFor_self (ops : EntryOps EntryType Value SetData) (et : EntryType) (v : Value) :
    Entry.isFor ops et (.typed et v) = true := strcaseEq_refl _

/-- A record with its entry at the head. -/
theorem head_spec {v : Value} {rest : List (Entry EntryType Value)}
    (h : u.entries = .typed et v :: rest) :
    Clear (entryOps env.hooks u.flags) et u.entries ∧ u.stored env et = v ∧
      u.others env et = rest := by
  have hfor := isFor_self (entryOps env.hooks u.flags) et v
  unfold Userrec.stored Userrec.others
  rw [h]
  refine ⟨(clear_typed_cons _ _ _ _ _).2 (.inl hfor), ?_, ?_⟩
  · rw [List.find?_cons_of_pos hfor]
    rfl
  · rw [List.eraseP_cons_of_pos hfor]

theorem found_cases (h : Clear (entryOps env.hooks u.flags) et u.entries) :
    (u.found env et = u ∧ u.stored env et = .null ∧ u.others env et = u.entries) ∨
      (u.found env et).entries = .typed et (u.stored env et) :: u.others env et := by
  unfold Userrec.found Userrec.stored Userrec.others
  cases hfind : u.entries.find? (Entry.isFor (entryOps env.hooks u.flags) et) with
  | none =>
    rw [List.eraseP_of_forall_not (List.find?_eq_none.1 hfind)]
    exact .inl ⟨rfl, rfl, rfl⟩
  | some e =>
    obtain ⟨v, rfl⟩ := typed_of_find? env h hfind
    exact .inr rfl

/-- What is found is found again, and the other entries are the same. -/
theorem found_spec (h : Clear (entryOps env.hooks u.flags) et u.entries) :
    Clear (entryOps env.hooks u.flags) et (u.found env et).entries ∧
      (u.found env et).stored env et = u.stored env et ∧
      (u.found env et).others env et = u.others env et := by
  rcases found_cases env h with ⟨hself, -, -⟩ | hhead
  · rw [hself]
    exact ⟨h, rfl, rfl⟩
  · exact head_spec env hhead

/-- Set to `none`, the entry goes. -/
theorem setUser_none (het : et = .hosts ∨ et = .account)
    (h : Clear (entryOps env.hooks u.flags) et u.entries)
    (hv : u.stored env et = .null ∨ ∃ v, u.stored env et = .vec v) :
    u.setUser env et (.string (some "none".toList)) =
      .ok { u with entries := u.others env et, dirty := true } := by
  have hset (w : Value) (hw : w = .null ∨ ∃ v, w = .vec v) :
      et.set env.hooks u.flags (.string (some "none".toList)) w = some (.null, true) := by
    rcases het with rfl | rfl <;> rcases hw with rfl | ⟨v, rfl⟩ <;> rfl
  have halso (w : Value) :
      (entryOps env.hooks u.flags).also et (.string (some "none".toList)) w = none := by
    rcases het with rfl | rfl <;> rfl
  have hone (e : Entry EntryType Value) (he : e.u = .null ∨ ∃ v, e.u = .vec v) :
      setOne (entryOps env.hooks u.flags) et (.string (some "none".toList)) e = .ok (none, true) := by
    unfold setOne
    rw [show (entryOps env.hooks u.flags).set et (.string (some "none".toList)) e.u =
      some (.null, true) from hset e.u he]
    rfl
  obtain ⟨e, hentry, hstored⟩ := entryFor_of_clear (entryOps env.hooks u.flags) et h
  have he : e.u = u.stored env et := hstored
  unfold Userrec.setUser
  rw [setUser_of_entryFor _ _ hentry, halso, hone e (he ▸ hv)]
  cases u.dirty <;> rfl

end Record

/-! ### One record -/

section Deletes

variable (env : Env) {u : Userrec} {host acct : CStr}

theorem delHost_of_clear (h : Clear (entryOps env.hooks u.flags) .hosts u.entries) :
    u.delHost env host = (walkVec (u.stored env .hosts)).bind fun hv =>
      if hv.countP (rfcCaseEq · host) = 0 then
        .ok (0, { u with entries := u.others env .hosts, dirty := true })
      else .ok (hv.countP (rfcCaseEq · host), { (u.found env .hosts).withHead
        (.vec (hv.filter fun m => !rfcCaseEq m host)) with dirty := true }) := by
  obtain ⟨hclear, hstored, hothers⟩ := found_spec env h
  unfold Userrec.delHost
  rw [getUser_of_clear env h]
  show (walkVec (u.stored env .hosts)).bind _ = _
  cases hwalk : walkVec (u.stored env .hosts) with
  | error f => rfl
  | ok hv =>
    have hnull : u.stored env .hosts = .null ∨ ∃ v, u.stored env .hosts = .vec v := by
      cases hval : u.stored env .hosts <;> rw [hval] at hwalk <;> simp [walkVec] at hwalk ⊢
    have hset := setUser_none env (.inl rfl) hclear (hstored ▸ hnull)
    rw [hothers] at hset
    show Except.bind (.ok hv) _ = Except.bind (.ok hv) _
    simp only [Except.bind, hostsLoop_length]
    split
    · next hi =>
      rw [hset, hi]
      rfl
    · rfl

theorem strings_of_walkVec {v : Value} {q : List CStr} (h : walkVec v = .ok q) :
    v.strings = some q := by
  cases v <;> simp [walkVec] at h
  · rw [h]
    rfl
  · rw [h]
    rfl

theorem strings_of_walkList {v : Value} {q : List CStr} (h : walkList v = .ok q) :
    v.strings = some q := by
  cases v <;> simp [walkList] at h
  · rw [h]
    rfl
  · rw [h]
    rfl

theorem deletes_withHead {et : EntryType} {arg : CStr} {q : List CStr} {v : Value} {d : Bool}
    (h : (u.found env et).entries = .typed et (u.stored env et) :: u.others env et)
    (hq : (u.stored env et).strings = some q)
    (hv : v.strings = some (q.filter fun m => !rfcCaseEq m arg)) :
    Deletes env et arg u (q.countP (rfcCaseEq · arg))
      { (u.found env et).withHead v with dirty := d } := by
  refine ⟨⟨q, some (.typed et v), hq, ?_, hv, rfl⟩, rfl⟩
  show (u.found env et).entries.modifyHead _ = _
  rw [h]
  rfl

theorem deletes_gone {et : EntryType} {arg : CStr} {q : List CStr} {d : Bool}
    (hq : (u.stored env et).strings = some q) (hall : ∀ m ∈ q, rfcCaseEq m arg = true) :
    Deletes env et arg u (q.countP (rfcCaseEq · arg))
      { u with entries := u.others env et, dirty := d } := by
  refine ⟨⟨q, none, hq, rfl, ?_, rfl⟩, rfl⟩
  rw [List.filter_eq_nil_iff.2 fun m hm => by simp [hall m hm]]
  rfl

/-- When the masks equal to `host` go from a record, and nothing else. -/
theorem delHost_iff :
    (∃ i u', u.delHost env host = .ok (i, u') ∧ Deletes env .hosts host u i u') ↔
      HostGoes env host u := by
  by_cases h : Clear (entryOps env.hooks u.flags) .hosts u.entries
  · rw [delHost_of_clear env h]
    cases hwalk : walkVec (u.stored env .hosts) with
    | error f =>
      refine iff_of_false ?_ ?_
      · intro hex
        obtain ⟨i, u', hok, -⟩ := hex
        cases hok
      · intro hgoes
        obtain ⟨-, hv, hok, -⟩ := hgoes
        rw [hwalk] at hok
        cases hok
    | ok hv =>
      have hq := strings_of_walkVec hwalk
      have hgoes : HostGoes env host u ↔ hv = [] ∨ ∃ m ∈ hv, rfcCaseEq m host = true := by
        constructor
        · intro hgoes
          obtain ⟨-, hv', hok, hor⟩ := hgoes
          rw [hwalk] at hok
          cases hok
          exact hor
        · intro hor
          exact ⟨h, hv, hwalk, hor⟩
      rw [hgoes]
      simp only [Except.bind]
      by_cases hcount : hv.countP (rfcCaseEq · host) = 0
      · have hnone := List.countP_eq_zero.1 hcount
        rw [if_pos hcount]
        constructor
        · intro hex
          obtain ⟨i, u', hok, hdel⟩ := hex
          cases hok
          obtain ⟨q, e, hq', hentries, hstr, -⟩ := hdel.strings
          -- the entry has gone, and with it every mask there was
          have he : e = none := by
            cases e with
            | none => rfl
            | some e =>
              have hlen := congrArg List.length hentries
              simp at hlen
          rw [hq] at hq'
          cases hq'
          rw [he, List.filter_eq_self.2 fun m hm => by simpa using hnone m hm] at hstr
          exact .inl (Option.some.inj hstr).symm
        · intro hor
          rcases hor with rfl | ⟨m, hm, heq⟩
          · exact ⟨_, _, rfl, deletes_gone env hq (by simp)⟩
          · exact absurd heq (hnone m hm)
      · rw [if_neg hcount]
        have hpos : ∃ m ∈ hv, rfcCaseEq m host = true := by
          rw [← List.countP_pos_iff]
          omega
        refine iff_of_true ⟨_, _, rfl, ?_⟩ (.inr hpos)
        rcases found_cases env h with ⟨-, hnull, -⟩ | hhead
        · obtain ⟨m, hm, -⟩ := hpos
          rw [hnull] at hwalk
          cases hwalk
          cases hm
        · exact deletes_withHead env hhead hq rfl
  · refine iff_of_false ?_ fun hgoes => h hgoes.1
    intro hex
    obtain ⟨i, u', hok, -⟩ := hex
    unfold Userrec.delHost at hok
    rw [getUser_of_not_clear env h] at hok
    cases hok

theorem delAccount_of_clear (h : Clear (entryOps env.hooks u.flags) .account u.entries)
    {q : List CStr} (hq : walkList (u.stored env .account) = .ok q) :
    u.delAccount env acct = (accountsLoop acct q).bind fun _ =>
      if q = [] then
        ((u.found env .account).setUser env .account (.string (some "none".toList))).map
          fun u => (0, true, u)
      else .ok (0, false, u.found env .account) := by
  unfold Userrec.delAccount
  rw [getUser_of_clear env h]
  show (walkList (u.stored env .account)).bind _ = _
  rw [hq]
  rfl

/-- A list with no element is no value that is there, and `account_set` does not know it. -/
theorem setUser_none_of_list (h : Clear (entryOps env.hooks u.flags) .account u.entries)
    (hv : u.stored env .account = .list []) :
    u.setUser env .account (.string (some "none".toList)) = .error .badRepr := by
  obtain ⟨e, hentry, hstored⟩ := entryFor_of_clear (entryOps env.hooks u.flags) .account h
  have he : e.u = u.stored env .account := hstored
  have hone : setOne (entryOps env.hooks u.flags) .account (.string (some "none".toList)) e =
      .error .badRepr := by
    unfold setOne
    rw [he, hv]
    rfl
  unfold Userrec.setUser
  rw [setUser_of_entryFor _ _ hentry, hone]
  rfl

theorem delAccount_of_null (h : Clear (entryOps env.hooks u.flags) .account u.entries)
    (hval : u.stored env .account = .null) :
    ∃ i drop u', u.delAccount env acct = .ok (i, drop, u') ∧ Deletes env .account acct u i u' := by
  obtain ⟨hclear, hstored, hothers⟩ := found_spec env h
  have hwalk : walkList (u.stored env .account) = .ok [] := by
    rw [hval]
    rfl
  have hset := setUser_none env (.inr rfl) hclear (.inl (hstored.trans hval))
  rw [hothers] at hset
  refine ⟨0, true, { u with entries := u.others env .account, dirty := true }, ?_,
    deletes_gone env (strings_of_walkList hwalk) (by simp)⟩
  rw [delAccount_of_clear env h hwalk]
  show ((u.found env .account).setUser env .account _).map _ = _
  rw [hset]
  rfl

theorem delAccount_of_list (h : Clear (entryOps env.hooks u.flags) .account u.entries)
    {q : List CStr} (hne : q ≠ []) (hval : u.stored env .account = .list q)
    (hnone : ∀ a ∈ q, rfcCaseEq a acct = false) :
    ∃ i drop u', u.delAccount env acct = .ok (i, drop, u') ∧ Deletes env .account acct u i u' := by
  have hwalk : walkList (u.stored env .account) = .ok q := by
    rw [hval]
    rfl
  have hstr := strings_of_walkList hwalk
  have hhead : (u.found env .account).entries =
      .typed .account (u.stored env .account) :: u.others env .account := by
    rcases found_cases env h with ⟨-, hnull, -⟩ | hhead
    · rw [hval] at hnull
      cases hnull
    · exact hhead
  have hsame : (q.filter fun m => !rfcCaseEq m acct) = q :=
    List.filter_eq_self.2 fun m hm => by simp [hnone m hm]
  have hcount : q.countP (rfcCaseEq · acct) = 0 :=
    List.countP_eq_zero.2 fun m hm => by simp [hnone m hm]
  refine ⟨0, false, u.found env .account, ?_, ?_⟩
  · rw [delAccount_of_clear env h hwalk, accountsLoop_of_none hnone]
    exact if_neg hne
  · refine ⟨⟨q, some (.typed .account (u.stored env .account)), hstr, hhead, ?_, hcount.symm⟩, rfl⟩
    rw [hsame]
    exact hstr

theorem accountGoes_of_delAccount {r : ℕ × Bool × Userrec} (hok : u.delAccount env acct = .ok r) :
    AccountGoes env acct u := by
  by_cases h : Clear (entryOps env.hooks u.flags) .account u.entries
  · refine ⟨h, ?_⟩
    cases hwalk : walkList (u.stored env .account) with
    | error f =>
      unfold Userrec.delAccount at hok
      rw [getUser_of_clear env h] at hok
      replace hok : (walkList (u.stored env .account)).bind _ = .ok r := hok
      rw [hwalk] at hok
      cases hok
    | ok q =>
      rw [delAccount_of_clear env h hwalk, accountsLoop_eq] at hok
      by_cases hany : q.any (rfcCaseEq · acct) = true
      · rw [if_pos hany] at hok
        cases hok
      · rw [if_neg hany] at hok
        have hnone : ∀ a ∈ q, rfcCaseEq a acct = false := by simpa using hany
        by_cases hnil : u.stored env .account = .list []
        · obtain ⟨hclear, hstored, -⟩ := found_spec env h
          rw [hnil] at hwalk
          cases hwalk
          replace hok : ((u.found env .account).setUser env .account _).map _ = .ok r := hok
          rw [setUser_none_of_list env hclear (hstored.trans hnil)] at hok
          cases hok
        · cases hval : u.stored env .account <;> rw [hval] at hwalk hnil <;>
            simp [walkList] at hwalk hnil ⊢
          exact ⟨hnil, hwalk ▸ hnone⟩
  · unfold Userrec.delAccount at hok
    rw [getUser_of_not_clear env h] at hok
    cases hok

/-- When the accounts equal to `acct` go from a record, and nothing else. -/
theorem delAccount_iff :
    (∃ i drop u', u.delAccount env acct = .ok (i, drop, u') ∧
      Deletes env .account acct u i u') ↔ AccountGoes env acct u := by
  constructor
  · intro hex
    obtain ⟨i, drop, u', hok, -⟩ := hex
    exact accountGoes_of_delAccount env hok
  · intro hgoes
    obtain ⟨h, hnull | ⟨q, hne, hlist, hnone⟩⟩ := hgoes
    · exact delAccount_of_null env h hnull
    · exact delAccount_of_list env h hne hlist hnone

end Deletes

/-! ### The model of the whole user list -/

section Agree

variable (env : Env) {u : Userrec}

theorem filter_length_sub (p : CStr → Bool) (l : List CStr) :
    l.length - (l.filter fun a => !p a).length = l.countP p := by
  have hsplit := List.length_eq_countP_add_countP p (l := l)
  rw [← List.countP_eq_length_filter]
  have hnot : l.countP (fun a => !p a) = l.countP (fun a => decide (¬p a = true)) := by
    congr 1
    funext a
    cases p a <;> rfl
  omega

/-- The record is that of `State.delHost`. -/
theorem delHost_snd (host : CStr) :
    (u.delHost env host).map Prod.snd = State.delHost env u host := by
  unfold Userrec.delHost State.delHost
  cases u.getUser env .hosts with
  | error f => rfl
  | ok r =>
    show ((walkVec r.1).bind _).map _ = (walkVec r.1).bind _
    cases walkVec r.1 with
    | error f => rfl
    | ok hv =>
      simp only [Except.bind, hostsLoop_length, filter_length_sub (rfcCaseEq · host)]
      split
      · cases r.2.setUser env .hosts (.string (some "none".toList)) <;> rfl
      · rfl

/-- The record is that of `State.delAccount`. -/
theorem delAccount_snd (acct : CStr) :
    (u.delAccount env acct).map (fun r => (r.2.2, r.2.1 || decide (r.1 ≠ 0))) =
      State.delAccount env u acct := by
  unfold Userrec.delAccount State.delAccount
  cases u.getUser env .account with
  | error f => rfl
  | ok r =>
    show ((walkList r.1).bind _).map _ = (walkList r.1).bind _
    cases walkList r.1 with
    | error f => rfl
    | ok q =>
      show ((accountsLoop acct q).bind _).map _ = ite _ _ _
      rw [accountsLoop_eq]
      split
      · rfl
      · show Except.map _ (ite _ _ _) = ite _ _ _
        split
        · cases r.2.setUser env .account (.string (some "none".toList)) <;> rfl
        · rfl

end Agree

section Handles

variable (env : Env) {st st' : State} {handle : CStr} {id : ℕ} {u : Userrec}

/-- Of the record `u` among the users of `st'` those strings are gone that are equal to `arg`, and
their number is returned; the dictionary of the accounts may be dropped. -/
def Removes (et : EntryType) (arg : CStr) (u : Userrec) (st' : State)
    (r : Except Fault (ℕ × Option CStr × State)) : Prop :=
  ∃ i line st'' u', r = .ok (i, line, st'') ∧
    st'' = { st'.putRecord u' with userAccountDict := st''.userAccountDict } ∧
    Deletes env et arg u i u'

theorem recordAt_putRecord (hu : st.recordAt id = .ok u) {u' : Userrec} (hid : u'.id = u.id) :
    (st.putRecord u').recordAt id = .ok u' := by
  unfold State.recordAt at hu ⊢
  unfold State.putRecord
  rw [hid]
  cases hfind : st.userlist.find? (fun v => v.id = id) with
  | none =>
    rw [hfind] at hu
    cases hu
  | some v =>
    rw [hfind] at hu
    cases hu
    have huid : u.id = id := by simpa using List.find?_some hfind
    have hp (w : Userrec) :
        decide ((if w.id = u.id then u' else w).id = id) = decide (w.id = id) := by
      split
      · next heq => rw [hid, heq]
      · rfl
    have hfind' : (st.userlist.map fun w => if w.id = u.id then u' else w).find?
        (fun w => w.id = id) = some u' := by
      rw [List.find?_map]
      have hcomp : ((fun w : Userrec => decide (w.id = id)) ∘
          fun w => if w.id = u.id then u' else w) = fun w => decide (w.id = id) := funext hp
      rw [hcomp, hfind]
      simp
    rw [hfind']
    rfl

theorem delHost_sameBut {r : ℕ × Userrec} {host : CStr} (hok : u.delHost env host = .ok r) :
    u.SameBut r.2 := by
  by_cases h : Clear (entryOps env.hooks u.flags) .hosts u.entries
  · rw [delHost_of_clear env h] at hok
    cases hwalk : walkVec (u.stored env .hosts) with
    | error f =>
      rw [hwalk] at hok
      cases hok
    | ok hv =>
      rw [hwalk] at hok
      simp only [Except.bind] at hok
      split at hok <;> cases hok <;> rfl
  · unfold Userrec.delHost at hok
    rw [getUser_of_not_clear env h] at hok
    cases hok

theorem Userrec.SameBut.id_eq {u' : Userrec} (h : u.SameBut u') : u'.id = u.id := by
  rw [h]

theorem removes_host_iff (noshare : Bool) (host : CStr)
    (h : st.getUserByHandle none handle = .ok (some id, st')) (hu : st'.recordAt id = .ok u) :
    Removes env .hosts host u st' (st.delhostByHandle env noshare handle host) ↔
      HostGoes env host u := by
  have hrun : st.delhostByHandle env noshare handle host =
      (u.delHost env host).map fun r =>
        (r.1, State.delLine noshare 'h' handle host r.1 r.2, st'.putRecord r.2) := by
    unfold State.delhostByHandle
    rw [h]
    show (st'.recordAt id).bind _ = _
    rw [hu]
    show (u.delHost env host).bind _ = _
    cases u.delHost env host <;> rfl
  rw [← delHost_iff env, hrun]
  constructor
  · intro hex
    obtain ⟨i, line, st'', u', hok, hst, hdel⟩ := hex
    cases hd : u.delHost env host with
    | error f =>
      rw [hd] at hok
      cases hok
    | ok r =>
      rw [hd] at hok
      cases hok
      -- the record is the one that is found in the new list
      have hnew := recordAt_putRecord hu (delHost_sameBut env hd).id_eq
      rw [hst] at hnew
      have hsame : r.2 = u' :=
        Except.ok.inj (hnew.symm.trans (recordAt_putRecord hu hdel.fields.id_eq))
      exact ⟨r.1, r.2, rfl, hsame ▸ hdel⟩
  · intro hex
    obtain ⟨i, u', hok, hdel⟩ := hex
    rw [hok]
    exact ⟨i, _, _, u', rfl, rfl, hdel⟩

theorem removes_account_iff (noshare : Bool) (acct : CStr)
    (h : st.getUserByHandle none handle = .ok (some id, st')) (hu : st'.recordAt id = .ok u) :
    Removes env .account acct u st' (st.delaccountByHandle env noshare handle acct) ↔
      AccountGoes env acct u := by
  have hrun : st.delaccountByHandle env noshare handle acct =
      (u.delAccount env acct).map fun r =>
        (r.1, State.delLine noshare 'a' handle acct r.1 r.2.2,
          if r.2.1 || r.1 ≠ 0 then (st'.putRecord r.2.2).userAccountDictInvalidate
          else st'.putRecord r.2.2) := by
    unfold State.delaccountByHandle
    rw [h]
    show (st'.recordAt id).bind _ = _
    rw [hu]
    show (u.delAccount env acct).bind _ = _
    cases u.delAccount env acct <;> rfl
  rw [hrun]
  constructor
  · intro hex
    obtain ⟨i, line, st'', u', hok, -, -⟩ := hex
    cases hd : u.delAccount env acct with
    | error f =>
      rw [hd] at hok
      cases hok
    | ok r => exact accountGoes_of_delAccount env hd
  · intro hgoes
    have hex : ∃ i drop u', u.delAccount env acct = .ok (i, drop, u') ∧
        Deletes env .account acct u i u' := (delAccount_iff env).2 hgoes
    obtain ⟨i, drop, u', hok, hdel⟩ := hex
    rw [hok]
    refine ⟨i, _, _, u', rfl, ?_, hdel⟩
    dsimp only
    split <;> rfl

/-- When `delhost_by_handle` and `delaccount_by_handle` take away what is equal, and nothing else. -/
theorem deletes_iff (noshare : Bool) (arg : CStr)
    (h : st.getUserByHandle none handle = .ok (some id, st')) (hu : st'.recordAt id = .ok u) :
    (Removes env .hosts arg u st' (st.delhostByHandle env noshare handle arg) ↔
      HostGoes env arg u) ∧
    (Removes env .account arg u st' (st.delaccountByHandle env noshare handle arg) ↔
      AccountGoes env arg u) :=
  ⟨removes_host_iff env noshare arg h hu, removes_account_iff env noshare arg h hu⟩

end Handles

/-! ### A mask that is not there -/

section One

/-- A bot with one user, who has one hostmask and one account. -/
def oneUser : Userrec :=
  ⟨0, "someone".toList, 0, 0, [],
    [.typed .hosts (.vec ["*!*@a".toList]), .typed .account (.list ["acct".toList])], false⟩

def oneUserState : State :=
  ⟨[oneUser], 1, some 0, [], none, none, [], [], [], [], [], 0⟩

def plainEnv : Env := ⟨plainHooks, [], fun _ _ => 0, 0, 0⟩

theorem deletes_someone :
    (Removes plainEnv .hosts "*!*@a".toList oneUser oneUserState
        (oneUserState.delhostByHandle plainEnv false "someone".toList "*!*@a".toList) ↔
      HostGoes plainEnv "*!*@a".toList oneUser) ∧
    (Removes plainEnv .account "*!*@a".toList oneUser oneUserState
        (oneUserState.delaccountByHandle plainEnv false "someone".toList "*!*@a".toList) ↔
      AccountGoes plainEnv "*!*@a".toList oneUser) :=
  @deletes_iff plainEnv oneUserState oneUserState "someone".toList 0 oneUser false "*!*@a".toList
    rfl rfl

/-- Where no mask is equal, the one there is goes. -/
theorem not_deletes :
    ¬Removes plainEnv .hosts "*!*@b".toList oneUser oneUserState
      (oneUserState.delhostByHandle plainEnv false "someone".toList "*!*@b".toList) := by
  have hiff := @removes_host_iff plainEnv oneUserState oneUserState "someone".toList 0 oneUser false
    "*!*@b".toList rfl rfl
  rw [hiff]
  intro hgoes
  obtain ⟨-, hv, hwalk, hor⟩ := hgoes
  obtain rfl : ["*!*@a".toList] = hv := Except.ok.inj hwalk
  revert hor
  decide

end One

end Eggdrop.Users
