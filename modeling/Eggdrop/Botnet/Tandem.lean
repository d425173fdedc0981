import Mathlib.Data.List.AList
import Eggdrop.Lib.ListEdit
import Eggdrop.Base.CString

/-!
# Tandem — the list of the bots of the botnet

`tandbot` lists the bots that are linked, here or further away, each with the bot it hangs from
(`uplink`) and the bot next to us on the way to it (`via`); `bot_table` finds a bot by its name.
The list changes when a bot links, tells of a bot behind it or of one that left, and when a link
is lost.  The table folds names as RFC 1459 does, the other comparisons fold letters only.

The version line that completes a link crashes the bot, once the new bot is in the list.

Entries are numbered in the order they are made: a pointer to an entry is its number.
-/

namespace Eggdrop.Tandem

/-! ### Numbers in base 64 -/

def tobase64array : List Char :=
  "ABCDEFGHIJKLMNOPQRSTUVWXYZabcdefghijklmnopqrstuvwxyz0123456789[]".toList

/-- `int_to_base64`: the digits of a positive number, after `fuel` places at most. -/
def base64Digits : Nat → Nat → CStr
  | 0, _ => []
  | fuel + 1, n =>
    if n = 0 then [] else base64Digits fuel (n / 64) ++ [tobase64array.getD (n % 64) 'A']

/-- An `int` is printed as the `unsigned int` with the same bits. -/
def intToBase64 (n : Int) : CStr :=
  if n % 2 ^ 32 = 0 then ['A'] else base64Digits 11 (n % 2 ^ 32).toNat

/-- `base64to`: what is not a digit counts as 0. -/
def base64to (c : Char) : Nat :=
  if c ∈ tobase64array then tobase64array.idxOf c else 0

/-- `base64_to_int`: -1 on overflow. -/
def base64ToInt (buf : CStr) : Int :=
  go 0 buf
where
  go (i : Nat) : CStr → Int
    | [] => i
    | c :: buf => if i > (2 ^ 31 - 1) / 64 - base64to c then -1 else go (i * 64 + base64to c) buf

/-! ### The state -/

/-- What a bot hangs from: this bot, an entry of the list, or nothing known. -/
inductive Uplink where
  | me
  | bot (id : Nat)
  | null
deriving DecidableEq

structure Tand where
  id : Nat
  bot : CStr
  via : Option Nat
  uplink : Uplink
  share : Char
  ver : Int
deriving DecidableEq

inductive DccType where
  | forkBot | botNew | bot
deriving DecidableEq

/-- A `dcc` entry for a bot. -/
structure Dcc where
  nick : CStr
  type : DccType
  numver : Int
deriving DecidableEq

inductive Fault where
  /-- Text is put into an `op_strbuf_t` by `op_strbuf_appendf` that was zeroed and never set up. -/
  | zeroedBuffer
deriving DecidableEq

/-- The key of a name in a table that folds names as RFC 1459 does. -/
def rfcFold (s : CStr) : CStr := s.map rfcToupper

structure Botnet where
  botnetnick : CStr
  tandbot : List Tand
  botTable : AList fun _ : CStr => Nat
  dcc : List Dcc
  /-- the number of the next entry -/
  fresh : Nat

namespace Botnet

variable (s : Botnet)

/-! ### botnet.c -/

def findbot (who : CStr) : Option Nat := s.botTable.lookup (rfcFold who)

/-- The entry at a pointer. -/
def deref (id : Nat) : Option Tand := s.tandbot.find? (·.id == id)

def addbot (who from_ next : CStr) (flag : Char) (vernum : Int) : Botnet :=
  let s' := { s with botTable := s.botTable.insert (rfcFold who) s.fresh }
  -- may be via itself
  let via := s'.findbot from_
  let uplink :=
    if strcaseEq next s.botnetnick then .me
    else match s'.findbot next with
      | some id => .bot id
      | none => .null
  { s' with
    tandbot := s.tandbot ++ [⟨s.fresh, who, via, uplink, flag, vernum⟩], fresh := s.fresh + 1 }

/-- `updatebot`, without the message to the other bots. -/
def updatebot (who : CStr) (share : Option Char) (vernum : Int) : Botnet :=
  match s.findbot who with
  | none => s
  | some id =>
    { s with tandbot := s.tandbot.map fun t =>
        if t.id = id then
          { t with share := share.getD t.share, ver := if vernum = 0 then t.ver else vernum }
        else t }

/-- Remove a tandem bot from the chain list. -/
def rembot (who : CStr) : Botnet :=
  match s.tandbot.find? (strcaseEq ·.bot who) with
  | none => s
  | some t =>
    { s with
      tandbot := s.tandbot.eraseP (strcaseEq ·.bot who), botTable := s.botTable.erase (rfcFold t.bot) }

/-- The loop of `unvia` over the list, with the call for each entry that hangs from `who`. -/
def unviaLoop (who : Nat) (unvia : Nat → Botnet → Botnet) : List Nat → Botnet → Botnet
  | [], s => s
  | i :: is, s =>
    match s.deref i with
    | none => unviaLoop who unvia is s
    | some bot =>
      if bot.uplink = .bot who then unviaLoop who unvia is ((unvia i s).rembot bot.bot)
      else unviaLoop who unvia is s

/-- Remove every bot that hangs from `who`; an entry is younger than its uplink, so the calls are
nested as deep as there are younger entries at most. -/
def unviaRec : Nat → Nat → Botnet → Botnet
  | 0, _, s => s
  | fuel + 1, who, s => unviaLoop who (unviaRec fuel) (s.tandbot.map (·.id)) s

def unvia (who : Option Nat) : Botnet :=
  match who with
  | none => s
  | some who => unviaRec s.fresh who s

/-- The link that connects us to a bot. -/
def nextbot (who : CStr) : Option Nat := do
  let bot ← s.deref (← s.findbot who)
  let via ← s.deref (← bot.via)
  s.dcc.findIdx? fun d => strcaseEq via.bot d.nick && d.type == .bot

def inChain (who : CStr) : Bool := (s.findbot who).isSome || strcaseEq who s.botnetnick

/-- The name of the bot that an entry hangs from; `root` is the name of this bot. -/
def uplinkName (root : CStr) (t : Tand) : CStr :=
  match t.uplink with
  | .me => root
  | .bot id => ((s.deref id).map (·.bot)).getD []
  | .null => []

/-- The arguments of the `n` messages to a new bot, one for each entry. -/
def dumpLinks : List CStr :=
  s.tandbot.map fun t =>
    t.bot ++ ' ' :: (s.uplinkName s.botnetnick t ++ ' ' :: t.share :: intToBase64 t.ver)

/-! ### dcc.c and botcmd.c -/

/-- What a lost link leaves behind in the list. -/
def freeDccBot (d : Dcc) : Botnet :=
  if d.type = .bot then (s.unvia (s.findbot d.nick)).rembot d.nick else s

def lostdcc (idx : Nat) : Botnet :=
  match s.dcc[idx]? with
  | none => s
  | some d =>
    let s := s.freeDccBot d
    { s with dcc := s.dcc.eraseIdx idx }

/-- The handle length of the other bot in a version line, where a version may come before it. -/
def versionHandlen (par : CStr) : Int :=
  if par.head?.any fun c => '0' ≤ c && c ≤ '9' then eggAtoi (newsplit (newsplit par).2).1
  else eggAtoi (newsplit par).1

/-- The link to a bot, and the list with it. -/
def linked (nick : CStr) (numver : Int) : Botnet :=
  { s.addbot nick nick s.botnetnick '-' numver with dcc := s.dcc ++ [⟨nick, .bot, numver⟩] }

/-- The version line that ends the handshake. -/
def botVersion (idx : Nat) (d : Dcc) (par : CStr) : Except Fault Botnet :=
  if s.inChain d.nick then .ok (s.lostdcc idx)
  else if versionHandlen par ≠ handLen then .ok (s.lostdcc idx)
  -- after `addbot` the line for `bot_share` is written
  else .error .zeroedBuffer

/-- A `char` is signed: from 128 on it is less than 32. -/
def badChar (c : Char) : Bool := c.toNat < 32 || c.toNat == 127 || 128 ≤ c.toNat

/-- Why an `n` message ends the link. -/
inductive Refusal where
  | invalid | loop | bogus | leaf
deriving DecidableEq

/-- The checks of `bot_nlinked`; `leaf` is whether the user of the link has `BOT_LEAF`. -/
def nlinkedRefusal (idx : Nat) (newbot next : CStr) (leaf : Bool) : Option Refusal :=
  if leaf then some .leaf
  else if next.isEmpty then some .invalid
  else if s.inChain newbot || strcaseEq newbot s.botnetnick then some .loop
  else if newbot.any badChar || handLen < newbot.length || s.nextbot next != some idx then
    some .bogus
  else none

/-- The words of an `n` message: the new bot, what it hangs from, and the rest. -/
def nlinkedWords (par : CStr) : CStr × CStr × CStr :=
  ((newsplit par).1, (newsplit (newsplit par).2).1, (newsplit (newsplit par).2).2)

def botNlinked (idx : Nat) (d : Dcc) (par : CStr) (leaf : Bool) : Botnet :=
  let (newbot, next, par) := nlinkedWords par
  match s.nlinkedRefusal idx newbot next leaf with
  | some _ => s.lostdcc idx
  | none =>
    let x := par.head?.getD '-'
    s.addbot newbot d.nick next (if x = '!' then '-' else x) (base64ToInt par.tail)

def botUnlinked (idx : Nat) (par : CStr) : Botnet :=
  let bot := (newsplit par).1
  -- a bot that is not downstream along `idx` is bogus; not a valid bot is ignored
  if s.nextbot bot = some idx then (s.unvia (s.findbot bot)).rembot bot else s

def botUpdate (par : CStr) : Botnet :=
  let bot := (newsplit par).1
  let par := (newsplit par).2
  if s.inChain bot then s.updatebot bot par.head? (base64ToInt par.tail) else s

def botThisbot (idx : Nat) (d : Dcc) (par : CStr) : Botnet :=
  if strcaseEq par d.nick then { s with dcc := s.dcc.set idx { d with nick := par } }
  else (s.unvia (s.findbot d.nick)).lostdcc idx

/-- `while (tandbot) rembot(tandbot->bot);` -/
def wipe : Nat → Botnet → Botnet
  | 0, s => s
  | n + 1, s =>
    match s.tandbot with
    | [] => s
    | t :: _ => wipe n (s.rembot t.bot)

/-- Lose the first `n` links. -/
def loseFirst : Nat → Botnet → Botnet
  | 0, s => s
  | n + 1, s => loseFirst n (s.lostdcc 0)

/-- `botunlink`; a linked bot is kept where it shares and may not be unlinked from afar. -/
def botunlink (nick : CStr) (kept : Dcc → Bool) : Botnet :=
  let kept := fun d : Dcc => d.type == .bot && kept d
  if nick.head? = some '*' then
    match s.dcc.findIdx? kept with
    | some i => loseFirst i s
    | none =>
      let s := loseFirst s.dcc.length s
      wipe s.tandbot.length s
  else
    match s.dcc.findIdx? (strcaseEq ·.nick nick) with
    | some i => if s.dcc[i]?.any kept then s else s.lostdcc i
    | none =>
      -- a ghost: in the list, but not linked
      match s.findbot nick >>= s.deref with
      | some bot => s.rembot bot.bot
      | none => s

/-- `autolink_cycle` gets rid of a bot that is to be rejected. -/
def rejectBot (handle : CStr) : Botnet :=
  if s.inChain handle then
    match s.nextbot handle with
    | some i => if s.dcc[i]?.any (strcaseEq ·.nick handle) then s.lostdcc i else s
    | none => if strcaseEq s.botnetnick handle then s else s.rembot handle
  else s

inductive Event where
  /-- a connection to or from a bot, before the handshake -/
  | connect (nick : CStr)
  | version (idx : Nat) (par : CStr)
  | nlinked (idx : Nat) (par : CStr) (leaf : Bool)
  | unlinked (idx : Nat) (par : CStr)
  | update (par : CStr)
  | thisbot (idx : Nat) (par : CStr)
  /-- a `bye`, a rejection or the end of the socket -/
  | lost (idx : Nat)
  | botunlink (nick : CStr) (kept : Dcc → Bool)
  | reject (handle : CStr)

/-- A linked bot's message. -/
def fromBot (idx : Nat) (f : Dcc → Botnet) : Botnet :=
  match s.dcc[idx]? with
  | none => s
  | some d => if d.type = .bot then f d else s

/-- A new connection. -/
def connect (nick : CStr) : Botnet := { s with dcc := s.dcc ++ [⟨nick, .botNew, 0⟩] }

def step : Event → Except Fault Botnet
  | .connect nick => .ok (s.connect nick)
  | .version idx par =>
    match s.dcc[idx]? with
    | none => .ok s
    | some d => if d.type = .botNew then s.botVersion idx d par else .ok s
  | .nlinked idx par leaf => .ok (s.fromBot idx fun d => s.botNlinked idx d par leaf)
  | .unlinked idx par => .ok (s.fromBot idx fun _ => s.botUnlinked idx par)
  | .update par => .ok (s.botUpdate par)
  | .thisbot idx par => .ok (s.fromBot idx fun d => s.botThisbot idx d par)
  | .lost idx => .ok (s.lostdcc idx)
  | .botunlink nick kept => .ok (s.botunlink nick kept)
  | .reject handle => .ok (s.rejectBot handle)

/-- A bot that is linked to nothing. -/
def start (botnetnick : CStr) : Botnet := ⟨botnetnick, [], ∅, [], 0⟩

end Botnet
end Eggdrop.Tandem
