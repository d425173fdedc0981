import Eggdrop.Base.CString
import Eggdrop.Lib.HtabShared
import Eggdrop.Lib.Run

/-!
# Chanset — the channel list and its two tables

A channel has a display name, which it is added under, and the name that the server has for it once
the bot has joined.  Two tables with the names as their keys stand in front of the search through
the list.  They fold case like RFC 1459; the search does so too, or not, as `rfc_casecmp` is set.

* `Linked.step`: the tables point at listed channels only, whatever happens.
* `Clear.step`: where names fit into their buffers, and are plain while `strcasecmp` compares, no
  two channels look alike to the tables.
* `consistent_throughout`: then a lookup is a search through the list.
-/

namespace Eggdrop.Chanset

open List

inductive Fault where
  | useAfterFree
deriving DecidableEq, Repr

/-- `CHANNELLEN`. -/
def channelLen : ℕ := 200

/-- `CHANMETA`. -/
def chanMeta : CStr := ['#', '&', '!', '+']

/-- `CHANNEL_ID_LEN`. -/
def channelIdLen : ℕ := 5

/-- `struct chanset_t` at the address `addr`, with `CHAN_FLAGGED`, `CHAN_INACTIVE` and
`CHAN_PEND` of its status. -/
structure Chan where
  addr : ℕ
  dname : CStr
  name : CStr
  flagged : Bool
  inactive : Bool
  pending : Bool
deriving DecidableEq, Repr

/-- The name that the server has, as far as there is room. -/
def Chan.setName (chname : CStr) (c : Chan) : Chan := { c with name := chname.take channelLen }

abbrev Slot := Htab.Slot UInt64 ℕ ℕ

/-- The list, its tables, and whether `rfc_casecmp` is `_rfc_casecmp`. -/
structure State where
  chanset : List Chan
  byName : List Slot
  byDname : List Slot
  rfc : Bool
  next : ℕ
deriving DecidableEq

/-- A channel as it is added: whether its options can be split and set, and whether it is inactive
then. -/
structure Line where
  newname : CStr
  splitOk : Bool
  modifyOk : Bool
  inactive : Bool
deriving DecidableEq, Repr

/-- `tcl_channel_add` does nothing with it. -/
def Line.rejected (l : Line) : Bool :=
  !(l.newname.head?.any (chanMeta.contains ·)) || l.newname.contains ',' || !l.splitOk

/-- `readChannels` stands for `read_channels` with the lines of the channel file, `join` for an own
join, `setStatus` for all that changes the status of a channel without its names. -/
inductive Event where
  | add (l : Line)
  | remove (name : CStr)
  | readChannels (reload : Bool) (lines : List Line)
  | join (chname : CStr) (rejoin : Bool)
  | setStatus (a : ℕ) (inactive pending : Bool)
  | rfcCasecmp (rfc : Bool)
deriving DecidableEq, Repr

def orFreed {α : Type} : Option α → Except Fault α
  | some x => .ok x
  | none => .error .useAfterFree

namespace State

variable (s : State)

/-- `!rfc_casecmp(a, b)`, as it is set. -/
def sameName (a b : CStr) : Bool := if s.rfc then rfcCaseEq a b else strcaseEq a b

def nameAt (a : ℕ) : Option CStr := (s.chanset.find? (·.addr = a)).map Chan.name

def dnameAt (a : ℕ) : Option CStr := (s.chanset.find? (·.addr = a)).map Chan.dname

/-- Read the record at an address. -/
def deref (a : ℕ) : Except Fault Chan := orFreed (s.chanset.find? (·.addr = a))

/-- Write to the record at an address. -/
def update (a : ℕ) (f : Chan → Chan) : State :=
  { s with chanset := s.chanset.map fun c => if c.addr = a then f c else c }

/-- `chan_htab_add`. -/
def chanHtabAdd (c : Chan) : Except Fault State := do
  let byDname ← orFreed (Htab.set istrHash istrFold s.dnameAt s.byDname c.addr c.dname c.addr)
  let byName ←
    if c.name = [] then .ok s.byName
    else orFreed (Htab.set istrHash istrFold s.nameAt s.byName c.addr c.name c.addr)
  .ok { s with byDname := byDname, byName := byName }

/-- `chan_htab_del`. -/
def chanHtabDel (c : Chan) : Except Fault State := do
  let byDname ← orFreed (Htab.del istrHash istrFold s.dnameAt s.byDname c.dname)
  let byName ←
    if c.name = [] then .ok s.byName
    else orFreed (Htab.del istrHash istrFold s.nameAt s.byName c.name)
  .ok { s with byDname := byDname, byName := byName }

/-- The linear scan behind a table. -/
def scan (field : Chan → CStr) (name : CStr) : Option ℕ :=
  (s.chanset.find? fun c => s.sameName (field c) name).map Chan.addr

def findchan (name : CStr) : Except Fault (Option ℕ) := do
  let c ← orFreed (Htab.get istrHash istrFold s.nameAt s.byName name)
  .ok (c.or (s.scan Chan.name name))

def findchanByDname (name : CStr) : Except Fault (Option ℕ) := do
  let c ← orFreed (Htab.get istrHash istrFold s.dnameAt s.byDname name)
  .ok (c.or (s.scan Chan.dname name))

/-- `remove_channel`. -/
def removeChannel (a : ℕ) : Except Fault State := do
  let c ← s.deref a
  let s ← s.chanHtabDel c
  .ok { s with chanset := s.chanset.filter (·.addr ≠ a) }

/-- The end of `tcl_channel_add`: the options are set; unless errors are ignored, a channel whose
options are wrong goes. -/
def modify (hack : Bool) (l : Line) (a : ℕ) : Except Fault State :=
  let s := s.update a fun c => { c with inactive := l.inactive }
  if l.modifyOk ∨ hack then .ok s else s.removeChannel a

/-- The record that `tcl_channel_add` makes. -/
def newChan (newname : CStr) : Chan :=
  { addr := s.next, dname := newname.take channelLen, name := [], flagged := false
    inactive := false, pending := false }

/-- `tcl_channel_add`, with `chan_hack`. -/
def channelAdd (hack : Bool) (l : Line) : Except Fault State :=
  if l.rejected then .ok s
  else do
    match ← s.findchanByDname l.newname with
    | some a => (s.update a fun c => { c with flagged := false }).modify hack l a
    | none =>
      let c := s.newChan l.newname
      let s ← { s with chanset := s.chanset ++ [c], next := s.next + 1 }.chanHtabAdd c
      s.modify hack l c.addr

/-- `channel remove`. -/
def remove (name : CStr) : Except Fault State := do
  match ← s.findchanByDname name with
  | some a => s.removeChannel a
  | none => .ok s

def flagAll : State := { s with chanset := s.chanset.map fun c => { c with flagged := true } }

/-- The second loop of `read_channels`. -/
def sweep : List Chan → State → Except Fault State
  | [], s => .ok s
  | c :: cs, s => do
    let s ← if c.flagged then s.removeChannel c.addr else .ok s
    sweep cs s

/-- `read_channels`. -/
def readChannels (reload : Bool) (lines : List Line) : Except Fault State := do
  let s ← Machine.run (channelAdd · true) (if reload then s.flagAll else s) lines
  if reload then sweep s.chanset s else .ok s

/-- A name with a unique part in it. -/
def isIdName (chname : CStr) : Bool :=
  chname.head? = some '!' && chname.length > channelIdLen + 1

/-- The name without its unique part. -/
def chDname (chname : CStr) : CStr :=
  if isIdName chname then '!' :: chname.drop (channelIdLen + 1) else chname

def setName (a : ℕ) (chname : CStr) : State := s.update a (Chan.setName chname)

/-- `chan_htab_add` for the record at an address. -/
def register (a : ℕ) : Except Fault State := do
  let c ← s.deref a
  s.chanHtabAdd c

/-- The channel record gets the name that the server has for it. -/
def assign (a : ℕ) (chname : CStr) : Except Fault State := do
  let c ← s.deref a
  let s ← s.chanHtabDel c
  (s.setName a chname).register a

/-- `gotjoin` for the bot itself, once a channel is found under `a`; `dname` is what the channel is
looked for as after the scripts. -/
def joined (chname dname : CStr) (rejoin : Bool) (a : ℕ) : Except Fault State := do
  let c ← s.deref a
  if c.inactive ∨ c.pending ∨ rejoin then .ok s
  else
    match ← s.findchan chname with
    | some b => s.assign b chname
    | none =>
      match ← s.findchanByDname dname with
      | some b => s.assign b chname
      | none => .ok s

/-- `gotjoin` where no channel has the name as its display name, and the name a unique part. -/
def joinId (chname : CStr) (rejoin : Bool) : Except Fault State := do
  match ← s.findchanByDname (chDname chname) with
  | some a => s.joined chname (chDname chname) rejoin a
  | none =>
    match ← s.findchanByDname chname with
    | some a => .ok (s.update a fun c => { c with inactive := true })
    | none => .ok s

/-- `gotjoin` where no channel has the name as its display name. -/
def joinOther (chname : CStr) (rejoin : Bool) : Except Fault State :=
  if isIdName chname then s.joinId chname rejoin
  else do
    match ← s.findchanByDname chname with
    | some a => s.joined chname chname rejoin a
    | none => .ok s

/-- `gotjoin` for the bot itself; `rejoin` where it was split. -/
def gotjoin (chname : CStr) (rejoin : Bool) : Except Fault State := do
  match ← s.findchanByDname chname with
  | some a => s.joined chname chname rejoin a
  | none => s.joinOther chname rejoin

end State

open State

def step (s : State) : Event → Except Fault State
  | .add l => s.channelAdd false l
  | .remove name => s.remove name
  | .readChannels reload lines => s.readChannels reload lines
  | .join chname rejoin => s.gotjoin chname rejoin
  | .setStatus a inactive pending =>
    .ok (s.update a fun c => { c with inactive := inactive, pending := pending })
  | .rfcCasecmp rfc => .ok { s with rfc := rfc }

def init : State := { chanset := [], byName := [], byDname := [], rfc := true, next := 0 }

end Eggdrop.Chanset
