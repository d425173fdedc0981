import Mathlib.Logic.Function.Basic
import Eggdrop.Lib.ListEdit
import Eggdrop.Lib.SwapRemove
import Eggdrop.Users.FlagText

/-!
# Tclhash — the bind tables

A bind table is a vector of masks, each with a vector of commands.  A hash table gives the mask that
is folded like a text.  Commands are marked when they are unbound; the garbage collection takes them
out, and masks without commands, by swapping the last one into their place.

`check_tcl_bind` looks for the masks that match a text and runs their commands, all of them in a
stackable table.  The matching by wildcards is a parameter, as is what a procedure returns.
-/

namespace Eggdrop.Binds

open List Users

inductive Fault where
  | nullDeref
deriving DecidableEq, Repr

/-- `MATCH_PARTIAL` to `MATCH_CRON`. -/
inductive MatchType where
  | matchPartial
  | matchExact
  | matchMask
  | matchCase
  | matchMode
  | matchCron
deriving DecidableEq, Repr

/-- The return values of `check_tcl_bind`, but for `BIND_MATCHED`, which it has no use for. -/
inductive Result where
  | bindNomatch
  | bindAmbiguous
  | bindExecuted
  | bindExecLog
  | bindQuit
deriving DecidableEq, Repr

/-- What a procedure gives back: the value of `DISPATCH`, and whether the result is empty. -/
structure Ret where
  x : Result
  resultEmpty : Bool
deriving DecidableEq, Repr

/-- `wild_match_per`, `wild_match_partial_case` and `cron_match`, of a mask and a text. -/
structure Matchers where
  wildMatchPer : CStr → CStr → Bool
  wildMatchPartialCase : CStr → CStr → Bool
  cronMatch : CStr → CStr → Bool

/-- How a table is made and how it is used: the match type, `HT_STACKABLE` and `BIND_STACKABLE`. -/
structure Kind where
  matchType : MatchType
  htStackable : Bool
  bindStackable : Bool
  stackable_of_ht : htStackable = true → bindStackable = true

/-- `tcl_cmd_t`. -/
structure Cmd where
  funcName : CStr
  flags : FlagRecord
  deleted : Bool
deriving DecidableEq, Repr

/-- `tcl_bind_mask_t` at the address `addr`. -/
structure BindMask where
  addr : ℕ
  mask : CStr
  cmds : List Cmd
deriving DecidableEq, Repr

/-- `tcl_bind_list_t`, with `tclhash_dirty`. -/
structure BindList where
  masks : List BindMask
  maskHt : CStr → Option ℕ
  next : ℕ
  dirty : Bool

/-- The other bits of the match type of an event, and the settings that the flags depend on. -/
structure Options where
  useAttr : Bool
  hasBuiltins : Bool
  wantRet : Bool
  alterArgs : Bool
  stackRet : Bool
  requireP : Bool
  allowDkCmds : Bool
deriving DecidableEq, Repr

/-- An event: the text, the flags of its user and what the procedures give back. -/
structure Trigger where
  text : CStr
  atr : FlagRecord
  opts : Options
  ret : CStr → Ret

/-! ### Flags -/

def userKick : FlagWord := 0x00000400

/-- `flagrec_eq`. -/
def flagrecEq (req atr : FlagRecord) : Bool :=
  if req.matchType.has frAnd then
    (!req.matchType.has frGlobal || (req.global &&& atr.global == req.global &&
      req.udefGlobal &&& atr.udefGlobal == req.udefGlobal)) &&
    (!req.matchType.has frBot || req.bot &&& atr.bot == req.bot) &&
    (!req.matchType.has frChan || (req.chan &&& atr.chan == req.chan &&
      req.udefChan &&& atr.udefChan == req.udefChan))
  else if req.matchType.has frOr then
    (req.chan == 0 && req.global == 0 && req.udefChan == 0 && req.udefGlobal == 0 &&
      req.bot == 0) ||
    (req.matchType.has frGlobal && (atr.global.has req.global || atr.udefGlobal.has req.udefGlobal)) ||
    (req.matchType.has frBot && atr.bot.has req.bot) ||
    (req.matchType.has frChan && (atr.chan.has req.chan || atr.udefChan.has req.udefChan))
  else false

/-- `flagrec_ok`. -/
def flagrecOk (o : Options) (req atr : FlagRecord) : Bool :=
  let implied := !o.requireP && (atr.global.has userOp || atr.chan.has userOwner)
  let partied := { atr with global := if implied then atr.global ||| userParty else atr.global }
  if req.matchType.has frAnd then flagrecEq req partied
  else if req.matchType.has frOr then
    if req.chan == 0 && req.global == 0 && req.udefGlobal == 0 && req.udefChan == 0 then
      o.allowDkCmds || atr.global.has userParty ||
        !(atr.global.has userKick || atr.chan.has userKick || atr.global.has userDeop ||
          atr.chan.has userDeop)
    else
      partied.global.has req.global || atr.chan.has req.chan ||
        atr.udefGlobal.has req.udefGlobal || atr.udefChan.has req.udefChan
  else false

/-- `check_bind_flags`. -/
def checkBindFlags (o : Options) (flags atr : FlagRecord) : Bool :=
  if o.useAttr then
    if o.hasBuiltins then flagrecOk o flags atr else flagrecEq flags atr
  else true

/-- The flags of a command. -/
def bindFlags (flags : CStr) : FlagRecord := (breakDownFlags flags (frGlobal ||| frChan) false).1

/-! ### Binding -/

def Cmd.live (tc : Cmd) : Bool := !tc.deleted

/-- `tc->attributes |= TC_DELETED`. -/
def Cmd.delete (tc : Cmd) : Cmd := { tc with deleted := true }

/-- A command that is not deleted, with the procedure. -/
def Cmd.isProc (proc : CStr) (tc : Cmd) : Bool := tc.live && tc.funcName = proc

def Cmd.isProcNoCase (proc : CStr) (tc : Cmd) : Bool := tc.live && strcaseEq tc.funcName proc

/-- The deleted commands are taken out. -/
def BindMask.sweep (tm : BindMask) : BindMask :=
  { tm with cmds := SwapRemove.sweep Cmd.deleted tm.cmds }

namespace BindList

variable (tl : BindList)

def updateMask (a : ℕ) (f : List Cmd → List Cmd) : BindList :=
  { tl with masks := tl.masks.map fun tm => if tm.addr = a then { tm with cmds := f tm.cmds } else tm }

/-- The commands of the mask at an address. -/
def cmdsAt (a : ℕ) : List Cmd := ((tl.masks.find? (·.addr = a)).map BindMask.cmds).getD []

/-- `find_or_add_mask`. -/
def findOrAddMask (mask : CStr) : BindList × ℕ :=
  match tl.maskHt (istrFold mask) with
  | some a => (tl, a)
  | none =>
    ({ tl with
      masks := tl.masks ++ [⟨tl.next, mask, []⟩]
      maskHt := Function.update tl.maskHt (istrFold mask) (some tl.next)
      next := tl.next + 1 }, tl.next)

/-- `bind_bind_entry`. -/
def bindBindEntry (k : Kind) (flags cmd proc : CStr) : BindList :=
  let (tl, a) := tl.findOrAddMask cmd
  if (tl.cmdsAt a).any (·.isProc proc) then
    tl.updateMask a (ListEdit.modifyFirst (·.isProc proc) fun tc => { tc with flags := bindFlags flags })
  else
    let tl := if k.htStackable then tl else tl.updateMask a (ListEdit.modifyFirst Cmd.live Cmd.delete)
    { tl.updateMask a (· ++ [⟨proc, bindFlags flags, false⟩]) with dirty := true }

/-- `unbind_bind_entry`. -/
def unbindBindEntry (cmd proc : CStr) : BindList :=
  match tl.maskHt (istrFold cmd) with
  | none => tl
  | some a =>
    if (tl.cmdsAt a).any (·.isProcNoCase proc) then
      { tl.updateMask a (ListEdit.modifyFirst (·.isProcNoCase proc) Cmd.delete) with dirty := true }
    else tl

/-- `garbage_collect_tclhash` for a table; `other` where another one has something to collect. -/
def garbageCollect (other : Bool) : BindList :=
  if !tl.dirty && !other then tl
  else
    let masks := tl.masks.map BindMask.sweep
    { tl with
      masks := SwapRemove.sweep (·.cmds.isEmpty) masks
      maskHt := (masks.filter (·.cmds.isEmpty)).foldr
        (fun tm ht => Function.update ht (istrFold tm.mask) none) tl.maskHt
      dirty := false }

/-- Move a mask to the front. -/
def moveToFront (i : ℕ) : BindList :=
  match tl.masks[i]? with
  | some tm => { tl with masks := tm :: tl.masks.eraseIdx i }
  | none => tl

end BindList

/-! ### Dispatch -/

variable (m : Matchers) (k : Kind) (e : Trigger)

/-- `check_bind_match`. -/
def checkBindMatch (text mask : CStr) : Bool :=
  match k.matchType with
  | .matchPartial => strcaseEq text (mask.take text.length)
  | .matchExact => strcaseEq text mask
  | .matchCase => text == mask
  | .matchMask => m.wildMatchPer mask text
  | .matchMode => m.wildMatchPartialCase mask text
  | .matchCron => m.cronMatch mask text

/-- The variables of `check_tcl_bind`: `cnt`, `found_mask_idx`, `htc`, `finish`, `result`, `x` and
whether it has gone to `finally`; and the procedures called so far. -/
structure Scan where
  cnt : ℕ
  foundMaskIdx : Option ℕ
  htc : Option CStr
  finish : Bool
  result : Option Result
  x : Result
  out : Bool
  called : List CStr
deriving DecidableEq, Repr

def Scan.init : Scan := ⟨0, none, none, false, none, .bindNomatch, false, []⟩

/-- A command is run that does not stand in the way of others. -/
def Scan.dispatch (proc : CStr) (c : Scan) : Scan :=
  { c with called := c.called ++ [proc], x := (e.ret proc).x }

/-- A command that is wanted, of the mask at `mi`. -/
def Scan.count (mi : ℕ) (c : Scan) : Scan := { c with cnt := c.cnt + 1, foundMaskIdx := some mi }

/-- The command to run at the end; `sure` if no other one is looked for. -/
def Scan.pick (proc : CStr) (sure : Bool) (c : Scan) : Scan :=
  { c with htc := some proc, cnt := if sure then 1 else c.cnt, finish := c.finish || sure }

/-- What a procedure has given back is the result, unless there is one. -/
def Scan.record (x : Result) (c : Scan) : Scan := { c with result := c.result.or (some x) }

def Scan.leave (c : Scan) : Scan := { c with out := true }

/-- The loop over the commands of a mask, which is the one at `mi`. -/
def scanCmds (mi : ℕ) (mask : CStr) : List Cmd → Scan → Scan
  | [], c => c
  | tc :: tcs, c =>
    if tc.deleted || !checkBindFlags e.opts tc.flags e.atr then scanCmds mi mask tcs c
    else if !k.bindStackable then
      (c.count mi).pick tc.funcName (k.matchType ≠ .matchPartial || strcaseEq e.text mask)
    else
      let r := e.ret tc.funcName
      let c := (c.count mi).dispatch e tc.funcName
      if e.opts.alterArgs then
        if r.resultEmpty then c.leave else scanCmds mi mask tcs c
      else if e.opts.stackRet && r.x = .bindExecLog then scanCmds mi mask tcs (c.record r.x)
      else if e.opts.wantRet && r.x = .bindExecLog then c.leave
      else scanCmds mi mask tcs c

/-- The loop over the masks, from the one at `mi` on. -/
def scanMasks : ℕ → List BindMask → Scan → Scan
  | _, [], c => c
  | mi, tm :: tms, c =>
    if c.finish || c.out then c
    else if !checkBindMatch m k e.text tm.mask then scanMasks (mi + 1) tms c
    else scanMasks (mi + 1) tms (scanCmds k e mi tm.mask tm.cmds c)

/-- The loop over the commands of the mask that the hash table gives, for exact matches. -/
def scanExact : List Cmd → Scan → Scan
  | [], c => c
  | tc :: tcs, c =>
    if tc.deleted || !checkBindFlags e.opts tc.flags e.atr then scanExact tcs c
    else if !k.bindStackable then { c with cnt := 1, htc := some tc.funcName }
    else
      let r := e.ret tc.funcName
      let c := { c with cnt := c.cnt + 1 }.dispatch e tc.funcName
      if e.opts.alterArgs && r.resultEmpty then c.leave
      else if e.opts.stackRet && r.x = .bindExecLog then scanExact tcs (c.record r.x)
      else if e.opts.wantRet && r.x = .bindExecLog then c.leave
      else scanExact tcs c

/-- The end of the fast path. -/
def finishExact (tl : BindList) (c : Scan) : BindList × List CStr × Result :=
  if c.out then (tl, c.called, c.x)
  else if c.cnt = 0 then (tl, c.called, .bindNomatch)
  else
    match c.result, c.htc with
    | some r, _ => (tl, c.called, r)
    | none, some proc => (tl, c.called ++ [proc], (e.ret proc).x)
    | none, none => (tl, c.called, .bindExecuted)

/-- The end of the search through the masks. -/
def finishScan (tl : BindList) (c : Scan) : Except Fault (BindList × List CStr × Result) :=
  if c.out then .ok (tl, c.called, c.x)
  else if c.cnt = 0 then .ok (tl, c.called, .bindNomatch)
  else
    match c.result with
    | some r => .ok (tl, c.called, r)
    | none =>
      if k.matchType = .matchMask ∨ k.matchType = .matchCase then .ok (tl, c.called, .bindExecuted)
      else if c.cnt > 1 then .ok (tl, c.called, .bindAmbiguous)
      else
        let tl := match c.foundMaskIdx with
          | some i => tl.moveToFront i
          | none => tl
        match c.htc with
        | some proc => .ok (tl, c.called ++ [proc], (e.ret proc).x)
        | none => .error .nullDeref

/-- `check_tcl_bind`: the table, the procedures called in order, and the value returned. -/
def checkTclBind (tl : BindList) : Except Fault (BindList × List CStr × Result) :=
  if k.matchType = .matchExact then
    match tl.maskHt (istrFold e.text) with
    | none => .ok (tl, [], .bindNomatch)
    | some a => .ok (finishExact e tl (scanExact k e (tl.cmdsAt a) .init))
  else finishScan k e tl (scanMasks m k e 0 tl.masks .init)

end Eggdrop.Binds
