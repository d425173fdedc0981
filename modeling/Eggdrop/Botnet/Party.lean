import Eggdrop.Botnet.Tandem

/-!
# Party — the table of the users of other bots

`party` lists who is on the party line of which bot.  Bots tell of it in messages: who joined or
left a channel, changed the nick, is away, or has been idle for how long.  A message about a user
names the bot and the number of the socket that the user has there.  When a bot is lost, so are
the users that were on it and on the bots behind it.

Scripts are told who comes to a channel and who leaves it, by `check_tcl_chjn` and `check_tcl_chpt`.
Both append to a buffer that was never set up, and so crash: the state says whether one of them was
called, and a step in which it was faults.
-/

namespace Eggdrop.Tandem

/-! ### botnet.c -/

/-- A `party_t`. -/
structure Member where
  nick : CStr
  bot : CStr
  sock : Int
  chan : Int
  from_ : CStr
  flag : Char
  status : BitVec 8
  timer : Int
  away : Option CStr
deriving DecidableEq

def plstatAway : BitVec 8 := 1

/-- The record of a socket of a bot. -/
def Member.isAt (bot : CStr) (sock : Int) (p : Member) : Bool :=
  strcaseEq p.bot bot && p.sock == sock

/-- The (first) socket of a user on another bot. -/
def partysock (bot nick : CStr) (party : List Member) : Int :=
  match party.find? fun p => strcaseEq p.bot bot && strcaseEq p.nick nick with
  | some p => p.sock
  | none => 0

def getparty (bot : CStr) (sock : Int) (party : List Member) : Option Nat :=
  party.findIdx? (Member.isAt bot sock)

/-- Change the first record that is meant. -/
def modifyFirst (p : Member → Bool) (f : Member → Member) : List Member → List Member
  | [] => []
  | m :: party => if p m then f m :: party else m :: modifyFirst p f party

/-- Just changing the channel of someone already on. -/
def Member.rejoin (now chan : Int) (flag : Char) (from_ : CStr) (p : Member) : Member :=
  if from_.isEmpty then { p with chan, timer := now }
  else { p with chan, timer := now, flag := if flag = ' ' then '-' else flag, from_ }

def newMember (now : Int) (bot nick : CStr) (chan : Int) (flag : Char) (sock : Int)
    (from_ : CStr) : Member where
  nick := nick.take handLen
  bot := bot.take handLen
  sock := sock
  chan := chan
  from_ := if from_.isEmpty then "(unknown)".toList else from_
  flag := if from_.isEmpty then ' ' else if flag = ' ' then '-' else flag
  status := 0
  timer := now
  away := none

/-- The channel of a socket before `addparty`, as it returns it. -/
def oldChan (bot : CStr) (sock : Int) (party : List Member) : Int :=
  match party.find? (Member.isAt bot sock) with
  | some p => p.chan
  | none => -1

/-- New botnet member. -/
def addparty (now : Int) (bot nick : CStr) (chan : Int) (flag : Char) (sock : Int) (from_ : CStr)
    (party : List Member) : List Member :=
  if party.any (Member.isAt bot sock) then
    modifyFirst (Member.isAt bot sock) (·.rejoin now chan flag from_) party
  else party ++ [newMember now bot nick chan flag sock from_]

/-- Change all records that are meant. -/
def modifyAll (p : Member → Bool) (f : Member → Member) (party : List Member) : List Member :=
  party.map fun m => if p m then f m else m

def partystat (bot : CStr) (sock : Int) (add rem : BitVec 8) : List Member → List Member :=
  modifyAll (Member.isAt bot sock) fun p => { p with status := (p.status ||| add) &&& ~~~rem }

def partysetidle (now : Int) (bot : CStr) (sock secs : Int) : List Member → List Member :=
  modifyAll (Member.isAt bot sock) fun p => { p with timer := now - secs }

/-- Un-idle someone. -/
def partyidle (now : Int) (bot nick : CStr) : List Member → List Member :=
  modifyAll (fun p => strcaseEq p.bot bot && strcaseEq p.nick nick) fun p => { p with timer := now }

def partynick (bot : CStr) (sock : Int) (nick : CStr) : List Member → List Member :=
  modifyFirst (Member.isAt bot sock) fun p => { p with nick := nick.take handLen }

def partyaway (bot : CStr) (sock : Int) (msg : CStr) : List Member → List Member :=
  modifyAll (Member.isAt bot sock) fun p =>
    { p with away := if msg.isEmpty then none else some msg }

/-- The last record takes the place of record `i`. -/
def removeAt (i : Nat) (party : List Member) : List Member :=
  match party.getLast? with
  | none => []
  | some last => party.dropLast.set i last

/-- The loop of `remparty`; a record that was moved is not looked at. -/
def rempartyLoop (bot : CStr) (sock : Int) : Nat → Nat → List Member → List Member
  | 0, _, party => party
  | fuel + 1, i, party =>
    match party[i]? with
    | none => party
    | some p =>
      rempartyLoop bot sock fuel (i + 1) (if p.isAt bot sock then removeAt i party else party)

def remparty (bot : CStr) (sock : Int) (party : List Member) : List Member :=
  rempartyLoop bot sock party.length 0 party

/-- The loop of `rempartybot`, which looks at the place of a removed record again, and whether it
calls `check_tcl_chpt`. -/
def rempartybotLoop (bot : CStr) : Nat → Nat → List Member → List Member × Bool
  | 0, _, party => (party, false)
  | fuel + 1, i, party =>
    match party[i]? with
    | none => (party, false)
    | some p =>
      if strcaseEq p.bot bot then
        let (party, crashed) := rempartybotLoop bot fuel i (remparty bot p.sock party)
        (party, 0 ≤ p.chan || crashed)
      else rempartybotLoop bot fuel (i + 1) party

/-- Cancel every user that was on a certain bot. -/
def rempartybot (bot : CStr) (party : List Member) : List Member × Bool :=
  rempartybotLoop bot party.length 0 party

/-! ### The state -/

structure PartyLine where
  net : Botnet
  party : List Member
  /-- the next number for a user of a bot that sends none -/
  fakesock : Int
  /-- `check_tcl_chjn` or `check_tcl_chpt` was called -/
  crashed : Bool

namespace PartyLine

variable (s : PartyLine)

def rembot (who : CStr) : PartyLine := { s with net := s.net.rembot who }

/-- The loop of `unvia` over the list, with the call for each entry that hangs from `who`. -/
def unviaLoop (who : Nat) (unvia : Nat → PartyLine → PartyLine) :
    List Nat → PartyLine → PartyLine
  | [], s => s
  | i :: is, s =>
    match s.net.deref i with
    | none => unviaLoop who unvia is s
    | some bot =>
      if bot.uplink = .bot who then unviaLoop who unvia is ((unvia i s).rembot bot.bot)
      else unviaLoop who unvia is s

def unviaRec : Nat → Nat → PartyLine → PartyLine
  | 0, _, s => s
  | fuel + 1, who, s =>
    let s := match s.net.deref who with
      | none => s
      | some bot =>
        let (party, crashed) := rempartybot bot.bot s.party
        { s with party, crashed := s.crashed || crashed }
    unviaLoop who (unviaRec fuel) (s.net.tandbot.map (·.id)) s

/-- Remove every bot that hangs from `who`, and the users on it and on them. -/
def unvia (who : Option Nat) : PartyLine :=
  match who with
  | none => s
  | some who => unviaRec s.net.fresh who s

/-! ### The botnet changes -/

def freeDccBot (d : Dcc) : PartyLine :=
  if d.type = .bot then (s.unvia (s.net.findbot d.nick)).rembot d.nick else s

def lostdcc (idx : Nat) : PartyLine :=
  match s.net.dcc[idx]? with
  | none => s
  | some d =>
    let s := s.freeDccBot d
    { s with net := { s.net with dcc := s.net.dcc.eraseIdx idx } }

def botVersion (idx : Nat) (d : Dcc) (par : CStr) : PartyLine :=
  if s.net.inChain d.nick then s.lostdcc idx
  else if Botnet.versionHandlen par ≠ handLen then s.lostdcc idx
  else { s with crashed := true }

def botNlinked (idx : Nat) (d : Dcc) (par : CStr) (leaf : Bool) : PartyLine :=
  let (newbot, next, _) := Botnet.nlinkedWords par
  match s.net.nlinkedRefusal idx newbot next leaf with
  | some _ => s.lostdcc idx
  | none => { s with net := s.net.botNlinked idx d par leaf }

def botUnlinked (idx : Nat) (par : CStr) : PartyLine :=
  let bot := (newsplit par).1
  if s.net.nextbot bot = some idx then (s.unvia (s.net.findbot bot)).rembot bot else s

def botThisbot (idx : Nat) (d : Dcc) (par : CStr) : PartyLine :=
  if strcaseEq par d.nick then { s with net := s.net.botThisbot idx d par }
  else (s.unvia (s.net.findbot d.nick)).lostdcc idx

/-- Lose the first `n` links. -/
def loseFirst : Nat → PartyLine → PartyLine
  | 0, s => s
  | n + 1, s => loseFirst n (s.lostdcc 0)

def botunlink (nick : CStr) (kept : Dcc → Bool) : PartyLine :=
  let kept := fun d : Dcc => d.type == .bot && kept d
  if nick.head? = some '*' then
    match s.net.dcc.findIdx? kept with
    | some i => loseFirst i s
    | none =>
      let s := loseFirst s.net.dcc.length s
      { s with
        net := Botnet.wipe s.net.tandbot.length s.net
        party := []
        crashed := s.crashed || s.party.any fun p => 0 ≤ p.chan }
  else
    match s.net.dcc.findIdx? (strcaseEq ·.nick nick) with
    | some i => if s.net.dcc[i]?.any kept then s else s.lostdcc i
    | none =>
      match s.net.findbot nick >>= s.net.deref with
      | some bot => s.rembot bot.bot
      | none => s

def rejectBot (handle : CStr) : PartyLine :=
  if s.net.inChain handle then
    match s.net.nextbot handle with
    | some i => if s.net.dcc[i]?.any (strcaseEq ·.nick handle) then s.lostdcc i else s
    | none => if strcaseEq s.net.botnetnick handle then s else s.rembot handle
  else s

/-- A linked bot's message. -/
def fromBot (idx : Nat) (f : Dcc → PartyLine) : PartyLine :=
  match s.net.dcc[idx]? with
  | none => s
  | some d => if d.type = .bot then f d else s

/-- The events of the botnet, with what they do to the party line. -/
def nextNet : Botnet.Event → PartyLine
  | .version idx par =>
    match s.net.dcc[idx]? with
    | none => s
    | some d => if d.type = .botNew then s.botVersion idx d par else s
  | .nlinked idx par leaf => s.fromBot idx fun d => s.botNlinked idx d par leaf
  | .unlinked idx par => s.fromBot idx fun _ => s.botUnlinked idx par
  | .thisbot idx par => s.fromBot idx fun d => s.botThisbot idx d par
  | .lost idx => s.lostdcc idx
  | .botunlink nick kept => s.botunlink nick kept
  | .reject handle => s.rejectBot handle
  | .connect nick => { s with net := s.net.connect nick }
  | .update par => { s with net := s.net.botUpdate par }

/-! ### botcmd.c: the messages about users -/

/-- What is left of a text without control characters. -/
def stripControl (t : CStr) : CStr := t.filter fun c => 31 < c.toNat && c.toNat < 127

/-- `user@bot`. -/
def splitAt (from_ : CStr) : Option (CStr × CStr) :=
  if '@' ∈ from_ then
    some (from_.takeWhile (· != '@'), (from_.dropWhile (· != '@')).drop 1)
  else none

/-- The bot of a message, after a mark that the sender puts before it while linking. -/
def unmark : CStr → CStr
  | '!' :: bot => bot
  | bot => bot

/-- The messages that are about users; each is handled for a link `idx`. -/
inductive UserMsg where
  /-- `c <from> <chan> <text>` -/
  | chan2 (par : CStr)
  /-- `a <from> <chan> <text>` -/
  | actchan (par : CStr)
  /-- `nc <bot> <sock> <newnick>` -/
  | nickchange (par : CStr)
  /-- `j <bot> <nick> <chan> <flag><sock> <from>` -/
  | join (par : CStr)
  /-- `pt <bot> <nick> <sock> [etc..]` -/
  | part (par : CStr)
  /-- `aw <bot> <sock> <message>` -/
  | away (par : CStr)
  /-- `i <bot> <sock> <#secs> [away msg]` -/
  | idle (par : CStr)

/-- Only the table changes. -/
def onParty (f : List Member → List Member) : PartyLine := { s with party := f s.party }

def botChan2 (now : Int) (par : CStr) : PartyLine :=
  match splitAt (stripControl (newsplit par).1) with
  | some (nick, bot) => s.onParty (partyidle now bot nick)
  | none => s

def botActchan (now : Int) (par : CStr) : PartyLine :=
  match splitAt (newsplit par).1 with
  | some (nick, bot) => s.onParty (partyidle now bot nick)
  | none => s

def botNickchange (idx : Nat) (par : CStr) : PartyLine :=
  let (bot, par) := newsplit par
  let (ssock, par) := newsplit par
  if s.net.nextbot bot ≠ some idx then s
  else s.onParty (partynick bot (base64ToInt ssock) (newsplit par).1)

/-- The socket that a message means: an old bot sends 0 for it. -/
def sockOf (bot nick ssock : CStr) : Int :=
  if base64ToInt ssock = 0 then partysock bot nick s.party else base64ToInt ssock

def botJoin (now : Int) (idx : Nat) (par : CStr) : PartyLine :=
  let (bot, par) := newsplit par
  let bot := unmark bot
  let (nick, par) := newsplit par
  let (x, par) := newsplit par
  let chan := base64ToInt x
  let (y, par) := newsplit par
  match y with
  | [] => s
  | flag :: ssock =>
    if chan < 0 then s
    else
      let old := s.sockOf bot nick ssock
      let sock := if old = 0 then s.fakesock else old
      let s := { s with fakesock := if old = 0 then s.fakesock + 1 else s.fakesock }
      if s.net.nextbot bot ≠ some idx then s
      else
        let crashed := s.crashed || oldChan bot sock s.party ≠ chan
        { s.onParty (addparty now bot nick chan flag sock par) with crashed }

def botPart (par : CStr) : PartyLine :=
  let (bot, par) := newsplit par
  let bot := unmark bot
  let (nick, par) := newsplit par
  let sock := s.sockOf bot nick (newsplit par).1
  match getparty bot sock s.party >>= (s.party[·]?) with
  | some p => { s.onParty (remparty bot sock) with crashed := s.crashed || 0 ≤ p.chan }
  | none => s

def botAway (par : CStr) : PartyLine :=
  let (bot, par) := newsplit par
  let bot := unmark bot
  let (etc, par) := newsplit par
  let sock := s.sockOf bot etc etc
  if base64ToInt etc < 0 then s
  else if par.isEmpty then s.onParty (partystat bot sock 0 plstatAway)
  else s.onParty (partyaway bot sock par ∘ partystat bot sock plstatAway 0)

def botIdle (now : Int) (par : CStr) : PartyLine :=
  let (bot, par) := newsplit par
  let (work, par) := newsplit par
  let sock := s.sockOf bot work work
  let (work, par) := newsplit par
  let s := s.onParty (partysetidle now bot sock (base64ToInt work))
  if par.isEmpty then s
  else s.onParty (partyaway bot sock par ∘ partystat bot sock plstatAway 0)

def userMsg (now : Int) (idx : Nat) : UserMsg → PartyLine
  | .chan2 par => s.botChan2 now par
  | .actchan par => s.botActchan now par
  | .nickchange par => s.botNickchange idx par
  | .join par => s.botJoin now idx par
  | .part par => s.botPart par
  | .away par => s.botAway par
  | .idle par => s.botIdle now par

/-! ### botcmd.c: the messages about the botnet -/

/-- The link to the bot that `r <from@bot> <who[@bot]> <reason>` rejects, where it is next to us. -/
def rejectTarget (idx : Nat) (par : CStr) : Option Nat :=
  let (from_, par) := newsplit par
  let frombot := ((splitAt from_).map (·.2)).getD from_
  let who := (newsplit par).1
  if s.net.nextbot frombot ≠ some idx ∨ '@' ∈ who then none
  else (s.net.nextbot who).filter fun i => s.net.dcc[i]?.any (strcaseEq ·.nick who)

def botReject (idx : Nat) (par : CStr) : PartyLine :=
  match s.rejectTarget idx par with
  | some i => s.lostdcc i
  | none => s

/-- `ul <from@bot> <linking-bot> <undesired-bot> <reason>`; with a link that is kept nothing is
done. -/
def botUnlink (par : CStr) (kept : Dcc → Bool) : PartyLine :=
  let (_, par) := newsplit par
  let (bot, par) := newsplit par
  if strcaseEq bot s.net.botnetnick then s.botunlink (newsplit par).1 kept else s

/-- The messages of a linked bot. -/
inductive Msg where
  | user (now : Int) (isolate : Bool) (m : UserMsg)
  | nlinked (par : CStr) (leaf : Bool)
  | unlinked (par : CStr)
  | update (par : CStr)
  | thisbot (par : CStr)
  | bye
  | reject (isolate : Bool) (par : CStr)
  | unlink (par : CStr) (kept : Dcc → Bool)

/-- A message on link `idx`; `isolate` is whether the user of the link has `BOT_ISOLATE`. -/
def handle (idx : Nat) : Msg → PartyLine
  | .user now isolate m => if isolate then s else s.userMsg now idx m
  | .nlinked par leaf => s.nextNet (.nlinked idx par leaf)
  | .unlinked par => s.nextNet (.unlinked idx par)
  | .update par => s.nextNet (.update par)
  | .thisbot par => s.nextNet (.thisbot idx par)
  | .bye => s.nextNet (.lost idx)
  | .reject isolate par => if isolate then s else s.botReject idx par
  | .unlink par kept => s.botUnlink par kept

inductive Event where
  | msg (idx : Nat) (m : Msg)
  /-- anything else that changes the botnet -/
  | net (e : Botnet.Event)

def next : Event → PartyLine
  | .msg idx m => s.fromBot idx fun _ => s.handle idx m
  | .net e => s.nextNet e

/-- Nothing of a step that crashes is left. -/
def step (s : PartyLine) (e : Event) : Except Fault PartyLine :=
  if (s.next e).crashed then .error .zeroedBuffer else .ok (s.next e)

/-- A bot that is linked to nothing; fake sockets count from 2300. -/
def start (botnetnick : CStr) : PartyLine := ⟨.start botnetnick, [], 2300, false⟩

end PartyLine
end Eggdrop.Tandem
