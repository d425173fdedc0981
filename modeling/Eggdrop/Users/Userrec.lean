import Eggdrop.Lib.Htab
import Eggdrop.Users.EntryTypes

/-!
# Userrec — the user list of userrec.c

A record's address is a number that is never given out again: a pointer to a freed record names no
record on any list.  Next to the list there are four places that hold such pointers: `lastuser`,
the connections, and the two dictionaries that are built when they are first needed.

A list that the code holds in a local variable is an argument here, `bu`: `none` where that
variable is equal to `userlist`.

* `State.getUserByHandle`, `State.getUserByAccount`, `State.getUserByHost`: the lookups.
* `State.adduser`, `State.deluser`, `State.changeHandle`, `State.clearUserlist`: the list.
* `State.addHostOrAccount`, `State.delHostOrAccount`: the entries.
-/

namespace Eggdrop.Users

/-- `struct chanuserrec`. -/
structure Chanuserrec where
  channel : CStr
  laston : Int
  flags : FlagWord
  flagsUdef : FlagWord
  info : Option CStr
deriving DecidableEq, Repr

/-- `struct userrec` at the address `id`. -/
structure Userrec where
  id : Nat
  handle : CStr
  flags : FlagWord
  flagsUdef : FlagWord
  chanrec : List Chanuserrec
  entries : List (Entry EntryType Value)
  dirty : Bool
deriving DecidableEq

/-- `maskrec`; `flags` is the bits MASKREC_STICKY and MASKREC_PERM. -/
structure Maskrec where
  mask : CStr
  user : CStr
  desc : CStr
  expire : Int
  added : Int
  lastactive : Int
  sticky : Bool
  perm : Bool
deriving DecidableEq, Repr

/-- `struct igrec`. -/
structure Igrec where
  igmask : CStr
  expire : Int
  user : CStr
  added : Int
  msg : Option CStr
  perm : Bool
deriving DecidableEq, Repr

/-- `struct chanset_t`; `shared` is `channel_shared`. -/
structure Chanset where
  dname : CStr
  shared : Bool
  bans : List Maskrec
  exempts : List Maskrec
  invites : List Maskrec
deriving DecidableEq, Repr

/-- The types of a connection that are told apart here. -/
inductive DccType where
  | chat
  | chatPass
  | bot
  | other
deriving DecidableEq, Repr

/-- `struct dcc_t`. -/
structure Dcc where
  type : DccType
  nick : CStr
  user : Option Nat
deriving DecidableEq, Repr

/-- What does not change while the bot runs: the hooks, the entry types that modules add, the
comparison of match.c and the default flags. -/
structure Env where
  hooks : Hooks
  modTypes : List EntryType
  matchUseraddr : CStr → CStr → Int
  defaultFlags : FlagWord
  defaultUflags : FlagWord

/-- A slot of `user_handle_dict`: its key is the handle in the record. -/
abbrev HandleSlot := Htab.Slot UInt64 Nat Nat

/-- A slot of `user_account_dict`: its key is the account name. -/
abbrev AccountSlot := Htab.Slot UInt64 CStr Nat

structure State where
  userlist : List Userrec
  /-- the address of the next record -/
  fresh : Nat
  lastuser : Option Nat
  dcc : List Dcc
  userHandleDict : Option (List HandleSlot)
  userAccountDict : Option (List AccountSlot)
  globalBans : List Maskrec
  globalExempts : List Maskrec
  globalInvites : List Maskrec
  globalIgn : List Igrec
  chanset : List Chanset
  now : Int
deriving DecidableEq

/-- `BADHANDCHARS`. -/
def badhandchars : CStr := "-,+*=:!.@#;$%&".toList

/-- `EGG_BG_HANDLE`. -/
def eggBgHandle : CStr := "-HQ".toList

/-- `UHOSTLEN`. -/
def uhostlen : Nat := 324

/-! ### One record -/

namespace Userrec

variable (env : Env)

/-- `set_user`. -/
def setUser (et : EntryType) (d : SetData) (u : Userrec) : Except Fault Userrec := do
  let (entries, r) ← Users.setUser (entryOps env.hooks u.flags) et d u.entries
  pure { u with entries := entries, dirty := u.dirty || r }

/-- `get_user`; no entry is a null pointer too. -/
def getUser (et : EntryType) (u : Userrec) : Except Fault (Value × Userrec) := do
  let (v, entries) ← Users.getUser (entryOps env.hooks u.flags) et u.entries
  pure (v.getD .null, { u with entries := entries })

/-- The value at the head of the list, where `find_user_entry` puts the entry it has found. -/
def withHead (v : Value) (u : Userrec) : Userrec :=
  { u with entries := u.entries.modifyHead fun e => e.withU v }

end Userrec

/-- The elements of a value read as a `struct list_type`. -/
def walkList : Value → Except Fault (List CStr)
  | .null => .ok []
  | .list l => .ok l
  | _ => .error .badRepr

/-- The elements of a value read as an `op_vec_t`. -/
def walkVec : Value → Except Fault (List CStr)
  | .null => .ok []
  | .vec v => .ok v
  | _ => .error .badRepr

/-- A pointer into freed memory was followed. -/
def orFreed {α : Type} : Option α → Except Fault α
  | some a => .ok a
  | none => .error .useAfterFree

/-- The scan for a handle. -/
def scanHandle (l : List Userrec) (handle : CStr) : Option Nat :=
  (l.find? fun u => strcaseEq u.handle handle).map (·.id)

namespace State

variable (env : Env) (st : State)

/-- The record at an address. -/
def recordAt (id : Nat) : Except Fault Userrec :=
  orFreed (st.userlist.find? fun u => u.id = id)

/-- The handle at an address, if there still is a record. -/
def handleAt (id : Nat) : Option CStr :=
  (st.userlist.find? fun u => u.id = id).map (·.handle)

/-- Replace the record with the address of `u`. -/
def putRecord (u : Userrec) : State :=
  { st with userlist := st.userlist.map fun v => if v.id = u.id then u else v }

/-! ### Lookups -/

/-- `user_dict_rebuild`. -/
def userDictRebuild : Except Fault State := do
  let slots ← orFreed
    (Htab.setAll istrHash istrFold st.handleAt [] (st.userlist.map fun u => (u.id, u.handle)))
  pure { st with userHandleDict := some slots }

/-- `check_dcclist_hand`: the user of the first connection of that name. -/
def checkDcclistHand (handle : CStr) : Option Nat :=
  (st.dcc.find? fun d => strcaseEq d.nick handle).bind (·.user)

/-- The third level of `get_user_by_handle`: the dictionary, built if there is none and the list
is not empty. -/
def lookupDict (handle : CStr) : Except Fault (Option Nat × State) := do
  let st ← (if st.userHandleDict.isNone && !st.userlist.isEmpty then st.userDictRebuild
    else pure st)
  match st.userHandleDict with
  | some slots =>
    let ret ← orFreed (Htab.get istrHash istrFold st.handleAt slots handle)
    pure (ret, { st with lastuser := ret.or st.lastuser })
  | none =>
    let ret := scanHandle st.userlist handle
    pure (ret, { st with lastuser := ret.or st.lastuser })

/-- `lastuser->handle`, if there is a `lastuser`, is the handle. -/
def isLastuser (handle : CStr) : Except Fault Bool :=
  match st.lastuser with
  | none => pure false
  | some id => do
    let h ← orFreed (st.handleAt id)
    pure (strcaseEq h handle)

/-- `get_user_by_handle`. -/
def getUserByHandle (bu : Option (List Userrec)) (handle : CStr) :
    Except Fault (Option Nat × State) :=
  let handle := rmspace handle
  if handle = [] ∨ handle.head? = some '*' then pure (none, st)
  else
    match bu with
    | some l => pure (scanHandle l handle, st)
    | none => do
      if ← st.isLastuser handle then pure (st.lastuser, st)
      else
        match st.checkDcclistHand handle with
        | some id => pure (some id, st)
        | none => st.lookupDict handle

/-- The accounts of every user, read as `user_account_dict_rebuild` does. -/
def accountLists : Except Fault (List (Userrec × List CStr)) :=
  st.userlist.mapM fun u => do
    let (v, u) ← u.getUser env .account
    let q ← walkList v
    pure (u, q)

/-- `user_account_dict_rebuild`. -/
def userAccountDictRebuild : Except Fault State := do
  let lists ← st.accountLists env
  let pairs := lists.flatMap fun (u, q) => (q.filter (· ≠ "none".toList)).map fun a => (a, u.id)
  let slots := pairs.foldl
    (fun slots p => (Htab.set istrHash istrFold some slots p.1 p.1 p.2).getD slots) []
  pure { st with userlist := lists.map Prod.fst, userAccountDict := some slots }

/-- `get_user_by_account`. -/
def getUserByAccount (acct : CStr) : Except Fault (Option Nat × State) := do
  if acct = [] ∨ acct = "*".toList then pure (none, st)
  else
    let st ← (if st.userAccountDict.isNone && !st.userlist.isEmpty
      then st.userAccountDictRebuild env else pure st)
    match st.userAccountDict with
    | some slots =>
      let ret ← orFreed (Htab.get istrHash istrFold some slots acct)
      pure (ret, st)
    | none =>
      let lists ← st.accountLists env
      pure ((lists.find? fun (_, q) => q.any (rfcCaseEq · acct)).map (·.1.id), st)

/-- The best match of one user's masks, if it is better than the best one so far. -/
def betterMatch (best : Option Nat × Int) (id : Nat) (masks : List CStr) (host : CStr) :
    Option Nat × Int :=
  masks.foldl (fun best mask =>
    let i := env.matchUseraddr mask host
    if i > best.2 then (some id, i) else best) best

/-- `get_user_by_host`. -/
def getUserByHost (host : CStr) : Except Fault (Option Nat × State) := do
  let host2 := rmspace (host.take (uhostlen - 1))
  if host2 = [] then pure (none, st)
  else
    let lists ← st.userlist.mapM fun u => do
      let (v, u) ← u.getUser env .hosts
      let masks ← walkVec v
      pure (u, masks)
    let (ret, _) := lists.foldl (fun best (u, masks) => betterMatch env best u.id masks host2)
      (none, 0)
    pure (ret, { st with userlist := lists.map Prod.fst, lastuser := ret.or st.lastuser })

/-! ### The list -/

/-- The record `adduser` makes. -/
def newUser (noxtra : Bool) (handle : CStr) (host pass : Option CStr) (flags : FlagWord) :
    Except Fault Userrec := do
  let u : Userrec :=
    { id := st.fresh
      handle := handle.take handLen
      flags := if flags = userDefault then env.defaultFlags else flags
      flagsUdef := if flags = userDefault then env.defaultUflags else 0
      chanrec := []
      entries := []
      dirty := true }
  let u ← u.setUser env .pass (.string pass)
  let u ← (if noxtra then pure u
    else u.setUser env .xtra (.xtra ⟨"created".toList, showInt st.now⟩))
  match host with
  | none | some [] => u.setUser env .hosts (.string (some "none".toList))
  | some host => u.setUser env .hosts (.string (some (noCommas (host.take (uhostlen - 1)))))

/-- `op_htab_set(user_handle_dict, u->handle, u)`. -/
def dictSet (u : Userrec) : Except Fault State :=
  match st.userHandleDict with
  | none => pure st
  | some slots => do
    let slots ← orFreed (Htab.set istrHash istrFold st.handleAt slots u.id u.handle u.id)
    pure { st with userHandleDict := some slots }

/-- `adduser` looks for the end of the list from `lastuser` on. -/
def followLastuser : Except Fault Unit :=
  match st.lastuser with
  | none => .ok ()
  | some id => (st.recordAt id).map fun _ => ()

/-- `adduser`: the state and the list that `bu` is then. -/
def adduser (bu : Option (List Userrec)) (noxtra : Bool) (handle : CStr) (host pass : Option CStr)
    (flags : FlagWord) : Except Fault (State × Option (List Userrec)) := do
  let u ← st.newUser env noxtra handle host pass flags
  let st := { st with fresh := st.fresh + 1 }
  match bu with
  | some l => pure (st, some (l ++ [u]))
  | none =>
    -- where both are null pointers, the list that is returned is not `userlist`
    if st.userlist = [] then pure (st, some [u])
    else
      let _ ← st.followLastuser
      let st := { st with userlist := st.userlist ++ [u], lastuser := some u.id }
      let st ← st.dictSet u
      pure (st, none)

/-- `userlist = bu`. -/
def setUserlist (bu : Option (List Userrec)) : State :=
  match bu with
  | some l => { st with userlist := l }
  | none => st

/-- The deletion of the accounts of `u` in `deluser`. -/
def accountDictDel (u : Userrec) : Except Fault State :=
  match st.userAccountDict with
  | none => pure st
  | some slots => do
    let (v, _) ← u.getUser env .account
    let q ← walkList v
    let slots := (q.filter (· ≠ "none".toList)).foldl
      (fun slots a => (Htab.del istrHash istrFold some slots a).getD slots) slots
    pure { st with userAccountDict := some slots }

/-- `op_htab_del(user_handle_dict, handle)`. -/
def dictDel (handle : CStr) : Except Fault State :=
  match st.userHandleDict with
  | none => pure st
  | some slots => do
    let slots ← orFreed (Htab.del istrHash istrFold st.handleAt slots handle)
    pure { st with userHandleDict := some slots }

/-- A connection loses the user that is deleted. -/
def clearDcc (id : Nat) (d : Dcc) : Dcc := if d.user = some id then { d with user := none } else d

/-- `deluser`. -/
def deluser (handle : CStr) : Except Fault State :=
  match st.userlist.find? fun u => strcaseEq u.handle handle with
  | none => pure st
  | some u => do
    let st := { st with dcc := st.dcc.map (clearDcc u.id) }
    -- the record is off the list and still there
    let st ← st.dictDel handle
    let st ← st.accountDictDel env u
    pure { st with
      userlist := st.userlist.eraseP fun u => strcaseEq u.handle handle
      lastuser := none }

/-- The connections `change_handle` renames. -/
def renameDcc (s newh : CStr) (d : Dcc) : Dcc :=
  if (d.type = .chat ∨ d.type = .chatPass) ∧ strcaseEq d.nick s then
    { d with nick := newh.take handLen }
  else d

/-- `change_handle`. -/
def changeHandle (u : Userrec) (newh : CStr) : Except Fault State := do
  if strcaseEq u.handle eggBgHandle then pure st
  else if newh.length ≤ 1 ∧ newh.all (badhandchars.contains ·) then pure st
  else
    let u' := { u with handle := newh.take handLen, dirty := true }
    -- the handle has changed under the slot that is looked for here
    let st := st.putRecord u'
    let st ← st.dictDel u.handle
    let st ← st.dictSet u'
    pure { st with dcc := st.dcc.map (renameDcc u.handle newh) }

/-- `clear_userlist(userlist)`, after which every caller sets `userlist` to a null pointer. -/
def clearUserlist : State :=
  { st with
    userlist := []
    lastuser := none
    dcc := st.dcc.map fun d => { d with user := none }
    userHandleDict := none
    userAccountDict := none
    globalBans := []
    globalExempts := []
    globalInvites := []
    globalIgn := []
    chanset := st.chanset.map fun c => { c with bans := [], exempts := [], invites := [] } }

/-! ### Hosts and accounts -/

/-- `user_account_dict_invalidate`. -/
def userAccountDictInvalidate : State := { st with userAccountDict := none }

/-- `add_host_or_account`. -/
def addHostOrAccount (handle arg : CStr) (account : Bool) : Except Fault State := do
  let (id, st) ← st.getUserByHandle none handle
  match id with
  | none => .error .badPointer
  | some id =>
    let u ← st.recordAt id
    if account then
      let u ← u.setUser env .account (.string (some arg))
      pure (st.putRecord u).userAccountDictInvalidate
    else
      let u ← u.setUser env .hosts (.string (some arg))
      pure (st.putRecord u)

/-- The accounts of `del_host_or_account`: the record and whether `account_set` drops the dictionary.
The node of an account that is equal lies in the slab of the lists, and is given to `op_free`. -/
def delAccount (u : Userrec) (acct : CStr) : Except Fault (Userrec × Bool) := do
  let (v, u) ← u.getUser env .account
  let q ← walkList v
  if q.any (rfcCaseEq · acct) then .error .badFree
  else if q = [] then
    let u ← u.setUser env .account (.string (some "none".toList))
    pure (u, true)
  else pure (u, false)

/-- The hostmasks of `del_host_or_account`. -/
def delHost (u : Userrec) (host : CStr) : Except Fault Userrec := do
  let (v, u) ← u.getUser env .hosts
  let masks ← walkVec v
  let kept := masks.filter fun m => !rfcCaseEq m host
  let i := masks.length - kept.length
  if i = 0 then u.setUser env .hosts (.string (some "none".toList))
  else pure { u.withHead (.vec kept) with dirty := true }

/-- `del_host_or_account`. -/
def delHostOrAccount (handle arg : CStr) (account : Bool) : Except Fault State := do
  let (id, st) ← st.getUserByHandle none handle
  match id with
  | none => pure st
  | some id =>
    let u ← st.recordAt id
    if account then
      let (u, drop) ← delAccount env u arg
      let st := st.putRecord u
      pure (if drop then st.userAccountDictInvalidate else st)
    else
      let u ← delHost env u arg
      pure (st.putRecord u)

end State

end Eggdrop.Users
