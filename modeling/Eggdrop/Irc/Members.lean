import Eggdrop.Base.CString
import Eggdrop.Lib.Htab
import Eggdrop.Lib.Run

/-!
# Members — who is on a channel

The members of a channel are a linked list that ends in a node without a nick.  A hash table over
their nicks answers `ismember`, and a counter says how many there are.  The server's events change
the three one by one.  The table folds case like RFC 1459; comparisons do so too, or not, as
`rfc_casecmp` is set.

* `Table`: the list, the hash table and the counter, with what the handlers do to them.
* `State.step`: the handlers for one channel.
-/

namespace Eggdrop.Members

inductive Fault where
  | useAfterFree
  | missingSentinel
deriving DecidableEq, Repr

/-- `NICKMAX`: what `op_strlcpy` leaves of a nick. -/
def nickMax : ℕ := 32

/-- `UHOSTMAX`, the same for what stands after the nick. -/
def uhostMax : ℕ := 323

/-- `MSGMAX - 1`, for the origin of a message. -/
def msgMax : ℕ := 510

/-- `memberlist` at the address `addr`; of its flags `WHO_SYNCED`. -/
structure Member where
  addr : ℕ
  nick : CStr
  userhost : CStr
  split : ℤ
  whoSynced : Bool
deriving DecidableEq, Repr

/-- `channel_malloc_member`. -/
def Member.malloc (a : ℕ) : Member := ⟨a, [], [], 0, false⟩

/-- It is not the sentinel of the list. -/
def Member.named (m : Member) : Bool := !m.nick.isEmpty

def Member.setNick (nick : CStr) (m : Member) : Member := { m with nick := nick.take nickMax }

def Member.setUserhost (uhost : CStr) (m : Member) : Member :=
  { m with userhost := uhost.take uhostMax }

abbrev Slot := Htab.Slot UInt64 ℕ ℕ

/-- What a channel knows of its members.  The nodes in `lost` are allocated and no longer linked. -/
structure Table where
  member : List Member
  lost : List Member
  memberHt : List Slot
  members : ℤ
  next : ℕ
deriving DecidableEq

def orFreed {α : Type} : Option α → Except Fault α
  | some x => .ok x
  | none => .error .useAfterFree

/-- The part before the `!`, and the rest; without one the nick is empty. -/
def splitnick (s : CStr) : CStr × CStr :=
  if '!' ∈ s then (s.takeWhile (· != '!'), (s.dropWhile (· != '!')).drop 1) else ([], s)

namespace Table

variable (rfc : Bool) (t : Table)

/-- `init_channel` with `CHAN_RESETWHO`, for a channel whose nodes are freed. -/
def initChannel (lost : List Member) (next : ℕ) : Table :=
  ⟨[.malloc next], lost, [], 0, next + 1⟩

/-- What a loop through the list sees. -/
def listed : List Member := t.member.takeWhile Member.named

def find (a : ℕ) : Option Member := (t.member ++ t.lost).find? (·.addr = a)

def nickAt (a : ℕ) : Option CStr := (t.find a).map Member.nick

def deref (a : ℕ) : Except Fault Member := orFreed (t.find a)

/-- Write to the node at an address. -/
def update (a : ℕ) (f : Member → Member) : Table :=
  { t with
    member := t.member.map fun m => if m.addr = a then f m else m
    lost := t.lost.map fun m => if m.addr = a then f m else m }

def ismember (nick : CStr) : Except Fault (Option ℕ) :=
  orFreed (Htab.get istrHash istrFold t.nickAt t.memberHt nick)

/-- `op_htab_set(chan->channel.member_ht, m->nick, m, nullptr)`. -/
def htSet (a : ℕ) : Except Fault Table := do
  let m ← t.deref a
  let ht ← orFreed (Htab.set istrHash istrFold t.nickAt t.memberHt a m.nick a)
  .ok { t with memberHt := ht }

/-- `op_htab_del(chan->channel.member_ht, nick)`. -/
def htDel (nick : CStr) : Except Fault Table := do
  let ht ← orFreed (Htab.del istrHash istrFold t.nickAt t.memberHt nick)
  .ok { t with memberHt := ht }

/-- The sentinel becomes a member, and a new one is linked behind it. -/
def newmember : Except Fault (ℕ × Table) :=
  match t.member.dropWhile Member.named with
  | [] => .error .missingSentinel
  | x :: rest =>
    .ok (x.addr, { t with
      member := t.listed ++ [x, .malloc t.next]
      lost := rest ++ t.lost
      members := t.members + 1
      next := t.next + 1 })

/-- A node is freed. -/
def unlink (a : ℕ) : Table :=
  { t with member := t.member.filter (·.addr ≠ a), members := t.members - 1 }

/-- The end of `killmember`, for what should never happen. -/
def correct : Table :=
  let t := if t.members < 0 then { t with members := t.listed.length } else t
  if t.member = [] then { t with member := [.malloc t.next], next := t.next + 1 } else t

/-- The node goes out of the hash table and out of the list. -/
def remove (m : Member) : Except Fault Table := do
  let t ← t.htDel m.nick
  .ok (t.unlink m.addr)

def killmember (nick : CStr) : Except Fault Table :=
  match t.listed.find? fun x => caseEq rfc x.nick nick with
  | none => .ok t
  | some x => do
    let t ← t.remove x
    .ok t.correct

/-- The members in a list go that meet `p`. -/
def removeAll (p : Member → Bool) : List Member → Table → Except Fault Table
  | [], t => .ok t
  | m :: ms, t => do
    let t ← if p m then t.remove m else .ok t
    removeAll p ms t

def syncMembers : Except Fault Table := removeAll (fun m => !m.whoSynced) t.listed t

/-- The loop of `got315` over the members in a list: each takes those with an equal nick that are
still behind it out. -/
def dedup : List Member → Table → Except Fault Table
  | [], t => .ok t
  | mi :: ms, t => do
    let t ←
      if t.member.any (·.addr = mi.addr) then
        removeAll (fun mj => t.member.any (·.addr = mj.addr) && caseEq rfc mi.nick mj.nick) ms t
      else .ok t
    dedup ms t

/-- The loop of `check_expired_chanstuff` over the members in a list. -/
def expire (now waitSplit : ℤ) : List Member → Table → Except Fault Table
  | [], t => .ok t
  | m :: ms, t => do
    let t ← if m.split ≠ 0 ∧ waitSplit < now - m.split then t.killmember rfc m.nick else .ok t
    expire now waitSplit ms t

/-- The node for a nick that `got352or4` fills in. -/
def whoEntry (nick : CStr) : Except Fault (ℕ × Table) := do
  match ← t.ismember nick with
  | some a => .ok (a, t)
  | none =>
    let (a, t) ← t.newmember
    .ok (a, t.update a fun m => { m with split := 0, whoSynced := false })

/-- `gotjoin` for a nick that is new to the list. -/
def join (nick uhost : CStr) : Except Fault Table := do
  let (a, t) ← t.newmember
  let t := t.update a fun m => { m with split := 0, whoSynced := false }
  let t ← (t.update a (Member.setNick nick)).htSet a
  .ok (t.update a (Member.setUserhost uhost))

/-- `gotnick` makes room for a nick. -/
def evict (nick : CStr) : Except Fault Table := do
  match ← t.ismember nick with
  | none => .ok t
  | some a =>
    let mm ← t.deref a
    t.killmember rfc mm.nick

/-- `gotnick` for the member at an address. -/
def rename (a : ℕ) (nick : CStr) : Except Fault Table := do
  let m ← t.deref a
  let t ← if m.named then t.htDel m.nick else .ok t
  (t.update a (Member.setNick nick)).htSet a

end Table

/-- A member in a reply to `WHO` or `NAMES`. -/
structure Reply where
  user : CStr
  host : CStr
  nick : CStr
deriving DecidableEq, Repr

/-- `got353` takes the prefixes off a nick. -/
def skipPrefixes (prefixchars nick : CStr) : CStr :=
  let nick := prefixchars.foldl (fun nick c => if nick.head? = some c then nick.drop 1 else nick) nick
  if nick.head? = some '+' ∨ nick.head? = some '%' then nick.drop 1 else nick

/-- The replies in the words of a `NAMES` reply; a word without a host has that of the word before. -/
def namesReplies (prefixchars : CStr) : Option CStr → List CStr → List Reply
  | _, [] => []
  | host, w :: ws =>
    let nick := skipPrefixes prefixchars (splitnick w).1
    let uhost := (splitnick w).2
    let user := uhost.takeWhile (· != '@')
    let host := if '@' ∈ uhost then some ((uhost.dropWhile (· != '@')).drop 1) else host
    (host.map fun host => Reply.mk user host nick).toList ++ namesReplies prefixchars host ws

/-- There is a dot in it, and the first one is not at an end. -/
def dotInside (s : CStr) : Bool := 0 < s.idxOf '.' && s.idxOf '.' + 1 < s.length

/-- A message that looks like the two servers of a netsplit. -/
def isSplit (msg : CStr) : Bool :=
  match msg.dropWhile (· != ' ') with
  | [] => false
  | _ :: b => !b.contains ' ' && dotInside (msg.takeWhile (· != ' ')) && dotInside b

/-- What happens on a channel.  Words are as the handler has split them off, without a colon;
`origin` is `from`. -/
inductive Event where
  | join (origin : CStr)
  | part (origin : CStr)
  | kick (nick : CStr)
  | quit (origin msg : CStr) (now : ℤ)
  | nick (origin msg : CStr)
  | chghost (origin ident host : CStr)
  | who (r : Reply)
  | names (prefixchars : CStr) (words : List CStr)
  | endOfWho
  | twitchNames (nick : CStr)
  | notOnChannel
  | reset (who away doReset : Bool)
  | checkExpired (now waitSplit : ℤ)
  | setStatus (inactive active pending : Bool)
  | setBotname (nick : CStr)
  | rfcCasecmp (rfc : Bool)
deriving DecidableEq, Repr

/-- A channel with `CHAN_INACTIVE`, `CHAN_ACTIVE` and `CHAN_PEND` of its status; whether
`rfc_casecmp` is `_rfc_casecmp`, the bot's nick, and whether the network is Twitch. -/
structure State where
  table : Table
  inactive : Bool
  active : Bool
  pending : Bool
  rfc : Bool
  botname : CStr
  twitch : Bool
deriving DecidableEq

namespace State

variable (s : State)

def init (botname : CStr) (twitch : Bool) : State :=
  ⟨.initChannel [] 0, false, false, false, true, botname, twitch⟩

def matchMyNick (nick : CStr) : Bool := caseEq s.rfc nick s.botname

/-- `clear_channel`, with `CHAN_RESETWHO` or without. -/
def clearChannel (who : Bool) : State :=
  if who then { s with table := .initChannel s.table.lost s.table.next } else s

/-- `reset_chan_info`, with `CHAN_RESETWHO` and `CHAN_RESETAWAY`. -/
def resetChanInfo (who away doReset : Bool) : State :=
  if s.inactive ∨ s.pending ∨ s.twitch then s
  else
    let s := if doReset then s.clearChannel who else s
    if who ∨ away then { s with active := false, pending := true } else s

/-- The channel is left. -/
def leave : State := { s.clearChannel true with active := false, pending := false }

/-- The bot is on the channel without having known it. -/
def confused : State := { s with active := true, pending := false }.resetChanInfo true true true

def got352or4 (r : Reply) : Except Fault State := do
  let (a, t) ← s.table.whoEntry r.nick
  let t ← (t.update a (Member.setNick r.nick)).htSet a
  let t := t.update a (Member.setUserhost (r.user ++ '@' :: r.host))
  .ok { s with table := t.update a fun m => { m with whoSynced := true } }

/-- `got353`. -/
def gotNames (prefixchars : CStr) (words : List CStr) : Except Fault State :=
  match words.takeWhile (· ≠ []) with
  | [] => .ok s
  | w :: ws => do
    let s ← Machine.run got352or4 s (namesReplies prefixchars none (w :: ws))
    .ok { s with active := true, pending := false }

/-- `got315`. -/
def endOfWho : Except Fault State :=
  if s.pending then do
    let t ← s.table.syncMembers
    let t ← t.dedup s.rfc t.listed
    let s := { s with table := t, active := true, pending := false }
    match ← t.ismember s.botname with
    | some _ => .ok s
    | none => .ok (if s.twitch then s else { s.clearChannel true with active := false })
  else .ok s

/-- `gottwitch366`. -/
def twitchNames (nick : CStr) : Except Fault State :=
  if s.twitch then do
    let s ← { s with pending := true }.got352or4 ⟨nick, nick ++ ".tmi.twitch.tv".toList, nick⟩
    s.endOfWho
  else .ok s

/-- `gotjoin` adds a member. -/
def joined (t : Table) (nick uhost : CStr) : Except Fault State := do
  let t ← t.join nick uhost
  let s := { s with table := t }
  .ok (if s.matchMyNick nick then s.resetChanInfo (t.members ≠ 1) true true else s)

def gotjoin (origin : CStr) : Except Fault State :=
  let (nick, uhost) := splitnick (origin.take uhostMax)
  if s.inactive ∨ s.pending then .ok s
  else if ¬ s.active ∧ ¬ s.matchMyNick nick then .ok s.confused
  else do
    match ← s.table.ismember nick with
    | none => s.joined s.table nick uhost
    | some a =>
      let m ← s.table.deref a
      if m.split ≠ 0 ∧ strcaseEq m.userhost uhost then
        .ok { s with table := s.table.update a fun m => { m with split := 0, whoSynced := false } }
      else
        let t ← s.table.killmember s.rfc nick
        s.joined t nick uhost

def gotpart (origin : CStr) : Except Fault State :=
  if s.inactive then .ok s.leave
  else if s.pending then .ok s
  else do
    let nick := (splitnick origin).1
    let m ← s.table.ismember nick
    let s := if s.active then s else s.confused
    let t ← if m.isSome then s.table.killmember s.rfc nick else .ok s.table
    let s := { s with table := t }
    .ok (if s.matchMyNick nick then s.leave else s)

def gotkick (nick : CStr) : Except Fault State :=
  if s.matchMyNick nick ∧ s.pending ∧ ¬ s.inactive then .ok s.leave
  else if s.active then
    if s.matchMyNick nick ∧ ¬ s.inactive then .ok s.leave
    else do
      let t ← s.table.killmember s.rfc nick
      .ok { s with table := t }
  else .ok s

def gotnick (origin msg : CStr) : Except Fault State := do
  let nick := (splitnick (origin.take uhostMax)).1
  match ← s.table.ismember nick with
  | none => .ok s
  | some a =>
    let t ← if caseEq s.rfc nick msg then .ok s.table else s.table.evict s.rfc msg
    let t ← t.rename a msg
    .ok { s with table := t }

def gotquit (origin msg : CStr) (now : ℤ) : Except Fault State := do
  let nick := (splitnick origin).1
  match ← s.table.ismember nick with
  | none => .ok s
  | some a =>
    if isSplit msg then .ok { s with table := s.table.update a fun m => { m with split := now } }
    else
      let t ← s.table.killmember s.rfc nick
      .ok { s with table := t }

def gotchghost (origin ident host : CStr) : Except Fault State := do
  match ← s.table.ismember (splitnick (origin.take msgMax)).1 with
  | none => .ok s
  | some a => .ok { s with table := s.table.update a (Member.setUserhost (ident ++ '@' :: host)) }

/-- The server says that the bot is not on the channel. -/
def notOnChannel : State := if s.inactive then s else { s.clearChannel true with active := false }

def checkExpired (now waitSplit : ℤ) : Except Fault State :=
  if s.active then do
    let t ← s.table.expire s.rfc now waitSplit s.table.listed
    .ok { s with table := t }
  else .ok s

def step : Event → Except Fault State
  | .join origin => s.gotjoin origin
  | .part origin => s.gotpart origin
  | .kick nick => s.gotkick nick
  | .quit origin msg now => s.gotquit origin msg now
  | .nick origin msg => s.gotnick origin msg
  | .chghost origin ident host => s.gotchghost origin ident host
  | .who r => s.got352or4 r
  | .names prefixchars words => s.gotNames prefixchars words
  | .endOfWho => s.endOfWho
  | .twitchNames nick => s.twitchNames nick
  | .notOnChannel => .ok s.notOnChannel
  | .reset who away doReset => .ok (s.resetChanInfo who away doReset)
  | .checkExpired now waitSplit => s.checkExpired now waitSplit
  | .setStatus inactive active pending =>
    .ok { s with inactive := inactive, active := active, pending := pending }
  | .setBotname nick => .ok { s with botname := nick }
  | .rfcCasecmp rfc => .ok { s with rfc := rfc }

end State

end Eggdrop.Members
