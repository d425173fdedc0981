import Eggdrop.Lib.ListEdit
import Eggdrop.Lib.Run
import Eggdrop.Users.Userrec

/-!
# UserFile — reading the userfile

`readuserfile` of users.c, from the characters of the file on.  The loop over the lines is a
machine with a state of its own: the list so far, the user that the lines are about, the name of
the section and the channel of the section.

`readuserfile` is called for `userlist` itself, or by a bot that receives a userfile for a list of
its own, while `userlist` is no pointer to a list.
-/

namespace Eggdrop.Users

/-- Why the program ends: by itself, or by a fault. -/
inductive Halt where
  | fatal
  | fault (f : Fault)
deriving DecidableEq, Repr

/-- A fault ends the program. -/
def orHalt {α : Type} : Except Fault α → Except Halt α
  | .ok a => .ok a
  | .error f => .error (.fault f)

/-- Room for the characters of a line in `buf[512]`. -/
def bufRoom : Nat := 511

/-- What `fgets` returns call by call: a line, or as much of it as there is room for; `acc` has
the characters of this call so far, the last one first. -/
def fgetsAll : CStr → Nat → CStr → List CStr
  | [], _, [] => []
  | acc, _, [] => [acc.reverse]
  | acc, room, c :: s =>
    if c = '\n' ∨ room ≤ 1 then (c :: acc).reverse :: fgetsAll [] bufRoom s
    else fgetsAll (c :: acc) (room - 1) s

/-- The part of a buffer that is a C string. -/
def cstring (buf : CStr) : CStr := buf.takeWhile (· ≠ '\x00')

/-- The calls of `fgets` on a file, the first of which leaves room for 179 characters only. -/
def fileLines (text : CStr) : List CStr := (fgetsAll [] 179 text).map cstring

/-- The value of a `signed char`. -/
def schar (c : Char) : Int := if c.toNat < 128 then c.toNat else c.toNat - 256

/-- The first line names the format. -/
def headerOk (s : CStr) : Bool :=
  let at_ (i : Nat) : Char := s.getD i '\x00'
  let old := at_ 0 = '#' ∧ schar (at_ 1) < schar '4' ∧ schar '0' ≤ schar (at_ 1) ∧ at_ 2 = 'v'
  let invalid := at_ 0 ≠ '#' ∨ schar '4' < schar (at_ 1) ∨ at_ 2 ≠ 'v'
  !(old || invalid)

/-! ### Masks and ignores -/

/-- The digits of the base 16. -/
def hexDigit (c : Char) : Option Nat :=
  if '0' ≤ c ∧ c ≤ '9' then some (c.toNat - '0'.toNat)
  else if 'a' ≤ c ∧ c ≤ 'f' then some (c.toNat - 'a'.toNat + 10)
  else if 'A' ≤ c ∧ c ≤ 'F' then some (c.toNat - 'A'.toNat + 10)
  else none

/-- `(unsigned char) strtol(buf, NULL, 16)` for two characters. -/
def strtol16 (a b : Char) : Nat :=
  if isSpace a then (hexDigit b).getD 0
  else if a = '+' then (hexDigit b).getD 0
  else if a = '-' then (256 - (hexDigit b).getD 0) % 256
  else
    match hexDigit a with
    | none => 0
    | some h => (hexDigit b).elim h (16 * h + ·)

/-- `strchr_unescape`: the unescaped text before the divider, and what is behind it.  An escape
that is cut off makes it read past the end of the string. -/
def strchrUnescape (div escChar : Char) : CStr → Except Fault (CStr × Option CStr)
  | [] => .ok ([], none)
  | c :: s =>
    if c = escChar then
      match s with
      | a :: b :: s =>
        (strchrUnescape div escChar s).map fun (t, r) => (Char.ofNat (strtol16 a b) :: t, r)
      | _ => .error .badPointer
    else if c = div then .ok ([], some s)
    else (strchrUnescape div escChar s).map fun (t, r) => (c :: t, r)

/-- The text before and behind the first `c`. -/
def splitChar (c : Char) (s : CStr) : Option (CStr × CStr) :=
  match s.dropWhile (· ≠ c) with
  | [] => none
  | _ :: rest => some (s.takeWhile (· ≠ c), rest)

/-- A leading `+` and the text without it. -/
def plusSign (s : CStr) : Bool × CStr :=
  match s with
  | '+' :: s => (true, s)
  | s => (false, s)

/-- What `restore_chanban` and its like make of a line, if it is well formed. -/
def parseMask (now : Int) (host : CStr) : Except Fault (Option Maskrec) := do
  let (mask, expi) ← strchrUnescape ':' '\\' host
  pure <| do
    let (perm, expi) := plusSign (← expi)
    let (expi, add) ← splitChar ':' expi
    let sticky := expi.getLast? = some '*'
    let expi := if sticky then expi.dropLast else expi
    let m : Maskrec :=
      { mask := cstring mask, user := [], desc := [], expire := eggAtoi expi, added := now
        lastactive := 0, sticky := sticky, perm := perm }
    if add.head? = some '+' then
      let (add, last) ← splitChar ':' add
      let (last, user) ← splitChar ':' last
      let (user, desc) ← splitChar ':' user
      pure { m with user := user, desc := desc, added := eggAtoi add, lastactive := eggAtoi last }
    else
      let (user, desc) ← splitChar ':' add
      pure { m with user := user, desc := desc }

/-- What `restore_ignore` makes of a line. -/
def parseIgnore (host : CStr) : Except Fault (Option Igrec) := do
  let (mask, expi) ← strchrUnescape ':' '\\' host
  pure <| do
    let (perm, expi) := plusSign (← expi)
    let (expi, user) ← splitChar ':' expi
    let ig : Igrec :=
      { igmask := cstring mask, expire := eggAtoi expi, user := user, added := 0, msg := none
        perm := perm }
    match splitChar ':' user with
    | none => pure ig
    | some (user, added) =>
      match splitChar ':' added with
      | none => pure { ig with user := user, added := eggAtoi added }
      | some (added, desc) =>
        pure { ig with user := user, added := eggAtoi added, msg := some desc }

inductive MaskKind where
  | ban
  | exempt
  | invite
deriving DecidableEq, Repr

namespace Chanset

def masks (c : Chanset) : MaskKind → List Maskrec
  | .ban => c.bans
  | .exempt => c.exempts
  | .invite => c.invites

def withMasks (c : Chanset) (l : List Maskrec) : MaskKind → Chanset
  | .ban => { c with bans := l }
  | .exempt => { c with exempts := l }
  | .invite => { c with invites := l }

end Chanset

namespace State

variable (st : State)

def globalMasks : MaskKind → List Maskrec
  | .ban => st.globalBans
  | .exempt => st.globalExempts
  | .invite => st.globalInvites

def withGlobalMasks (l : List Maskrec) : MaskKind → State
  | .ban => { st with globalBans := l }
  | .exempt => { st with globalExempts := l }
  | .invite => { st with globalInvites := l }

/-- The number of the channel that `findchan_by_dname` finds. -/
def findchanByDname (name : CStr) : Option Nat := st.chanset.findIdx? fun c => rfcCaseEq c.dname name

/-- `addmask_fully` on the list of a channel or on the global one. -/
def addmaskFully (kind : MaskKind) (chan : Option Nat) (m : Maskrec) : State :=
  match chan with
  | none => st.withGlobalMasks (m :: st.globalMasks kind) kind
  | some i => { st with
      chanset := st.chanset.modify i fun c => c.withMasks (m :: c.masks kind) kind }

/-- `restore_chanban`, `restore_chanexempt` and `restore_chaninvite`. -/
def restoreMask (kind : MaskKind) (chan : Option Nat) (host : CStr) : Except Fault State := do
  let m ← parseMask st.now host
  pure (m.elim st fun m => st.addmaskFully kind chan m)

/-- `restore_ignore`. -/
def restoreIgnore (host : CStr) : Except Fault State := do
  let ig ← parseIgnore host
  pure (ig.elim st fun ig => { st with globalIgn := ig :: st.globalIgn })

end State

/-! ### The lines -/

/-- The local variables of `readuserfile`; `live` says that `*ret == userlist`. -/
structure Load where
  st : State
  live : Bool
  bu : Option (List Userrec)
  u : Option Nat
  lasthand : CStr
  cst : Option Nat
deriving DecidableEq

/-- `CHANMETA`. -/
def chanmeta : CStr := "#&!+".toList

/-- The first words of the sections of global masks and ignores. -/
def sectionNames : List CStr :=
  ["*ban".toList, "*ignore".toList, "*exempt".toList, "*Invite".toList]

/-- Add a line to the entry of that name, or make a new one. -/
def addLine (name s : CStr) (entries : List (Entry EntryType Value)) :
    List (Entry EntryType Value) :=
  let here : Entry EntryType Value → Bool
    | .named n _ => strcaseEq name n
    | .typed _ _ => false
  let append : Entry EntryType Value → Entry EntryType Value
    | .named n (.list l) => .named n (.list (l ++ [s]))
    | e => e
  if entries.any here then ListEdit.modifyFirst here append entries
  else .named name (.list [s]) :: entries

/-- The pieces before the commas and the one behind the last. -/
def splitCommas (s : CStr) : List CStr × CStr :=
  match s.reverse.dropWhile (· ≠ ',') with
  | [] => ([], s)
  | _ :: front => ((front.reverse.splitOn ','), (s.reverse.takeWhile (· ≠ ',')).reverse)

namespace Load

variable (env : Env) (ld : Load)

/-- The list that `bu` points at. -/
def users : List Userrec := ld.bu.getD ld.st.userlist

def withUsers (l : List Userrec) : Load :=
  match ld.bu with
  | some _ => { ld with bu := some l }
  | none => { ld with st := { ld.st with userlist := l } }

/-- Change the record `u` points at. -/
def modifyUser (id : Nat) (f : Userrec → Except Fault Userrec) : Except Fault Load := do
  let l ← ld.users.mapM fun u => if u.id = id then f u else pure u
  pure (ld.withUsers l)

/-- `set_user(&USERENTRY_HOSTS, u, s)`, where `u` may be a null pointer. -/
def setHosts (s : CStr) : Except Fault Load :=
  match ld.u with
  | none => pure ld
  | some id => ld.modifyUser id (·.setUser env .hosts (.string (some s)))

/-- The masks before the commas of a `-` line. -/
def setCommaHosts : List CStr → Load → Except Fault Load
  | [], ld => pure ld
  | p :: ps, ld => do
    let ld ← (if rmspace p = [] then pure ld else ld.setHosts env (rmspace p))
    setCommaHosts ps ld

/-- A line `- mask`: a hostmask, a ban or an ignore. -/
def dashLine (s : CStr) : Except Fault Load := do
  if ld.lasthand = [] then pure ld
  else
    let (pieces, rest) := if ld.u.isSome then splitCommas s else ([], s)
    let ld ← setCommaHosts env pieces ld
    match rest, ld.lasthand with
    | [], _ | _, [] => pure ld
    | s, h :: hand =>
      if chanmeta.contains h then
        let st ← ld.st.restoreMask .ban ld.cst s
        pure { ld with st := st }
      else if h = '*' then
        let st ← (if hand.head? = some 'i' then ld.st.restoreIgnore s
          else ld.st.restoreMask .ban none s)
        pure { ld with st := st }
      else ld.setHosts env s

/-- A line `% mask` or `@ mask`; `letter` stands behind the `*` of the global section. -/
def maskLine (kind : MaskKind) (letter : Char) (s : CStr) : Except Fault Load := do
  match s, ld.lasthand with
  | [], _ | _, [] => pure ld
  | s, h :: hand =>
    if h = '#' ∨ h = '+' then
      let st ← ld.st.restoreMask kind ld.cst s
      pure { ld with st := st }
    else if h = '*' ∧ hand.head? = some letter then
      let st ← ld.st.restoreMask kind none s
      pure { ld with st := st }
    else pure ld

/-- The channel record of a `!` line, unless there is one. -/
def addChanrec (chname st fl info : CStr) (u : Userrec) : Userrec :=
  let fr := (breakDownFlags fl frChan false).1
  if u.chanrec.any fun cr => rfcCaseEq cr.channel chname then u
  else { u with chanrec :=
    { channel := chname.take 200, laston := eggAtoi st, flags := fr.chan, flagsUdef := fr.udefChan
      info := if info = [] then none else some info } :: u.chanrec }

/-- A line `! channel laston flags info`. -/
def chanLine (s : CStr) : Except Fault Load :=
  match ld.u with
  | none => pure ld
  | some id =>
    let (chname, s) := newsplit s
    let (st, s) := newsplit s
    let (fl, s) := newsplit s
    if (ld.st.findchanByDname chname).isSome then
      ld.modifyUser id fun u => pure (addChanrec chname st fl (rmspace s) u)
    else pure ld

/-- A line `::channel`, `&&channel` or `$$channel`: the section of a channel's masks begins, and
those it had go, unless the file is received and the channel is not shared. -/
def sectionLine (kind : MaskKind) (name : CStr) : Load :=
  let ld := { ld with lasthand := name, u := none }
  match ld.st.findchanByDname name with
  | none => { ld with lasthand := [] }
  | some i =>
    if ld.live || (ld.st.chanset[i]?.map (·.shared)).getD false then
      { ld with
        cst := some i
        st := { ld.st with chanset := ld.st.chanset.modify i fun c => c.withMasks [] kind } }
    else { ld with cst := none, lasthand := [] }

/-- A line `--NAME text`. -/
def entryLine (name s : CStr) : Except Fault Load :=
  match ld.u with
  | none => pure ld
  | some id => ld.modifyUser id fun u => pure { u with entries := addLine name s u.entries }

/-- The connections of that name get the record. -/
def setDccUser (code : CStr) (id : Option Nat) (d : Dcc) : Dcc :=
  if strcaseEq code d.nick then { d with user := id } else d

/-- A new user of the file. -/
def addUser (code pass attr : CStr) : Except Fault Load := do
  let fr := (breakDownFlags attr frGlobal false).1
  let ld := { ld with lasthand := code, cst := none }
  let code := code.take handLen
  let pass := if pass.length > 20 then "-".toList else pass
  let (st, bu) ← ld.st.adduser env ld.bu true code none (some pass)
    (sanityCheck (fr.global &&& userValid))
  let (u, st) ← st.getUserByHandle bu code
  let st := { st with dcc := st.dcc.map (setDccUser (rmspace code) u) }
  let ld := { ld with st := st, bu := bu, u := u }
  match u with
  | none => .error .badPointer
  | some id => ld.modifyUser id fun u => pure { u with flagsUdef := fr.udefGlobal }

/-- A line `handle - flags`: a user begins, unless the list has one of that name. -/
def userLine (code s : CStr) : Except Fault Load := do
  let (pass, s) := newsplit s
  let (attr, _) := newsplit s
  if attr = [] ∨ pass = [] then pure { ld with lasthand := [] }
  else
    let (u, st) ← ld.st.getUserByHandle ld.bu code
    let ld := { ld with st := st }
    match u with
    | some id => do
      -- `u->flags`
      let _ ← orFreed (ld.users.find? fun u => u.id = id)
      pure { ld with lasthand := [], u := none }
    | none => ld.addUser env (rmspace code) pass attr

/-- One line of the file. -/
def line (buf : CStr) : Except Fault Load :=
  match buf with
  | [] => pure ld
  | '#' :: _ | ';' :: _ => pure ld
  | _ =>
    let (code, s) := newsplit buf
    let s := rmspace s
    if code = ['-'] then ld.dashLine env s
    else if code = ['%'] then ld.maskLine .exempt 'e' s
    else if code = ['@'] then ld.maskLine .invite 'I' s
    else if code = ['!'] then ld.chanLine s
    else if code.take 2 = "::".toList then pure (ld.sectionLine .ban (code.drop 2))
    else if code.take 2 = "&&".toList then pure (ld.sectionLine .exempt (code.drop 2))
    else if code.take 2 = "$$".toList then pure (ld.sectionLine .invite (code.drop 2))
    else if code.take 2 = "--".toList then ld.entryLine (code.drop 2) s
    else if sectionNames.any (rfcCaseEq code ·) then pure { ld with lasthand := code, u := none }
    else if code.head? = some '*' then pure { ld with lasthand := [], u := none }
    else ld.userLine env code s

end Load

/-! ### The users that were read -/

/-- The types of `init_userent`. -/
def coreTypes : List EntryType :=
  [.comment, .xtra, .info, .laston, .botaddr, .pass, .pass2, .hosts, .botfl, .account, .fprint]

section Unpack

variable (env : Env)

/-- `find_entry_type`. -/
def findEntryType (name : CStr) : Option EntryType :=
  (coreTypes ++ env.modTypes).find? fun et => strcaseEq name et.name

def unpackEntry : Entry EntryType Value → Except Fault (Entry EntryType Value)
  | .typed t u => .ok (.typed t u)
  | .named n u =>
    match findEntryType env n with
    | none => .ok (.named n u)
    | some et => (orBad (et.unpack u)).map (Entry.typed et)

def unpackUser (u : Userrec) : Except Fault Userrec := do
  let entries ← u.entries.mapM (unpackEntry env)
  pure { u with entries := entries }

/-- `migrate_plaintext_passwords` on one user.  The hash lies in a static buffer of the module and is
given to `op_free`. -/
def migratePassword (u : Userrec) : Except Fault Userrec :=
  match env.hooks.encryptPass2 with
  | none => pure u
  | some encryptPass2 => do
    if u.flags.has userBot then pure u
    else
      let (cmp, u) ← u.getUser env .pass
      match cmp with
      | .null | .string [] | .string ('-' :: _) | .string ('+' :: _) => pure u
      | .string s =>
        match encryptPass2 s with
        | none => pure u
        | some hashed => do
          let _ ← u.setUser env .pass2 (.string (some hashed))
          .error .badFree
      | _ => .error .badRepr

/-- `cleanup_pass` on one user. -/
def cleanupPass (u : Userrec) : Except Fault Userrec :=
  if u.entries.any fun e => !e.isTyped then .error .missingType
  else
    let isOf (name : CStr) : Entry EntryType Value → Bool
      | .typed t _ => strcaseEq t.name name
      | .named _ _ => false
    match u.entries.reverse.find? (isOf "PASS".toList),
        u.entries.any (isOf "PASS2".toList) with
    | some p, true =>
      match p.u with
      | .string _ =>
        pure { u with entries := ListEdit.eraseLast (isOf "PASS".toList) u.entries }
      | .null => .error .badPointer
      | _ => .error .badRepr
    | _, _ => pure u

end Unpack

/-- The records of a list, unpacked. -/
def unpackUsers (env : Env) (l : List Userrec) : Except Fault (List Userrec) :=
  l.mapM (unpackUser env)

/-- The part of `readuserfile` after the lines, for `userlist`. -/
def finishLoad (env : Env) (ld : Load) : Except Fault State := do
  let l ← unpackUsers env ld.users
  -- `mark_all_users_dirty`
  let l := l.map fun u => { u with dirty := true }
  let l ← l.mapM (migratePassword env)
  let l ← (if env.hooks.removePass && env.hooks.encryptPass.isSome && env.hooks.encryptPass2.isSome
    then l.mapM cleanupPass else pure l)
  pure { ld.st with userlist := l }

/-- The opening line, if there is one. -/
def checkHeader (lines : List CStr) : Except Halt Unit :=
  match lines with
  | [] => .ok ()
  | s :: _ => if headerOk s then .ok () else .error .fatal

/-- What `readuserfile` forgets before it opens the file. -/
def State.forgetMasks (st : State) : State :=
  { st with lastuser := none, globalBans := [], globalIgn := [], globalExempts := []
            globalInvites := [] }

/-- The variables at the first line. -/
def Load.start (st : State) (live : Bool) (bu : Option (List Userrec)) : Load :=
  { st := st, live := live, bu := bu, u := none, lasthand := [], cst := none }

/-- `readuserfile(file, &userlist)`; a file that cannot be opened is `none`. -/
def readuserfile (env : Env) (st : State) (file : Option CStr) : Except Halt (Bool × State) :=
  let st := st.forgetMasks
  match file with
  | none => .ok (false, st)
  | some text => do
    let lines := fileLines text
    checkHeader lines
    let ld ← orHalt (Machine.run (Load.line env) (Load.start st true none) lines.tail)
    let st ← orHalt (finishLoad env ld)
    pure (true, st)

/-- `readuserfile(file, &u)` with `u` at the list `l` and `userlist` at no list: the end is
`mark_all_users_dirty`, which walks `userlist`. -/
def readuserfileInto (env : Env) (st : State) (l : List Userrec) (file : Option CStr) :
    Except Halt (Bool × State) :=
  match file with
  | none => .ok (false, st)
  | some text => do
    let lines := fileLines text
    checkHeader lines
    let ld ← orHalt (Machine.run (Load.line env) (Load.start st false (some l)) lines.tail)
    let _ ← orHalt (unpackUsers env ld.users)
    .error (.fault .badPointer)

end Eggdrop.Users
