import Eggdrop.Lib.Run
import Eggdrop.Users.Flags
import Eggdrop.Share.Tbuf

/-!
# Resync — userfile sharing with the linked bots

The handlers of share.mod and transfer.mod that make, fill, dump and drop resync buffers, as steps
of one system: local changes, the share messages of the peers, links that come and go, user files
on their way, the clock and the commands.  What the environment decides (the flags of a bot, how a
transfer ends) is part of the event.

* `Inv`: the buffers are `Held`, a bot has one link, and a link over which changes are sent at
  once has no buffer.
* `Safe`: a resync is offered and a buffer is dumped only if all its lines fitted, and the user
  file is sent only to a bot without a buffer.
* `inv_next`, `sound_throughout`: over every run of safe steps no line is lost or sent twice.
-/

namespace Eggdrop.Share

open ListEdit Users

/-! ### The system -/

def botShban : FlagWord := 0x00000002
def botShchan : FlagWord := 0x00000004
def botShlimited : FlagWord := 0x00000008
def botShexempt : FlagWord := 0x00000010
def botShinv : FlagWord := 0x00000200
def botShign : FlagWord := 0x00002000
def botPassive : FlagWord := 0x00008000
def botShuser : FlagWord := 0x00100000

def botShperms : FlagWord :=
  botShban ||| botShchan ||| botShexempt ||| botShign ||| botShinv ||| botShuser ||| botShlimited

def botShare : FlagWord := botAggressive ||| botPassive ||| botShperms

/-- Earliest version that can share. -/
def minShare : Nat := 1029900

/-- Minimum version that supports userfile features. -/
def minUffeature : Nat := 1050200

/-- A linked bot: the `dcc` entry with its `STAT_` bits of sharing. -/
structure Link where
  nick : CStr
  numver : Nat
  share : Bool := false
  offered : Bool := false
  sending : Bool := false
  getting : Bool := false
  aggressive : Bool := false
deriving DecidableEq

/-- Changes are sent to the bot at once. -/
def Link.live (l : Link) : Bool := l.share && !l.getting && !l.sending

/-- Neither sharing nor about to. -/
def Link.quit (l : Link) : Link :=
  { l with share := false, getting := false, sending := false, offered := false,
           aggressive := false }

structure State where
  bufs : Buffers
  links : List Link
  now : Int
  resyncTime : Int
  allowResync : Bool

/-- A channel, as the sharing of a line depends on it. -/
structure Chan where
  shared : Bool
  readers : Audience

/-- How sending the user file starts. -/
inductive SendOutcome where
  | uffFailed
  | cantSend (why : CStr)
  /-- with the lines about the bots that are queued at once -/
  | started (place : CStr) (jump : List (CStr × Option Audience))

/-- How fetching the user file starts. -/
inductive GetOutcome where
  | full | noTmpfile | cantConnect | connecting

/-- A share message of a linked bot; `bfl` is `bot_flags` of its user. -/
inductive Msg where
  | version (bfl : FlagWord)
  | resyncq (bfl : FlagWord)
  | resync
  | resyncNo
  | userfileq (bfl : FlagWord) (feats : CStr)
  | ufno
  | ufyes (outcome : SendOutcome)
  | ufsend (outcome : GetOutcome)
  | endstartup
  | endShare

inductive Event where
  /-- a change made here -/
  | shareoutMod (chan : Option Chan) (text : CStr)
  /-- a change that came from a link -/
  | shareoutBut (chan : Option Chan) (x : Nat) (text : CStr)
  | linked (nick : CStr) (numver : Nat)
  | lost (idx : Nat)
  | sharein (idx : Nat) (msg : Msg)
  /-- the user file was sent completely -/
  | sent (idx : Nat)
  | sendFailed (idx : Nat)
  | getFailed (idx : Nat)
  /-- with the links that were quiet for two minutes and the flags of the bots -/
  | minutely (now : Int) (quiet : Nat → Bool) (bfl : CStr → FlagWord)
  | readUserfile
  | flush (bot : CStr)
  | set (allowResync : Bool) (resyncTime : Int)
  | close

/-! ### The handlers -/

namespace State

variable (s : State)

def say (l : Link) (text : CStr) : State :=
  { s with bufs := s.bufs.observe [.said l.nick text] }

def setLink (idx : Nat) (f : Link → Link) : State := { s with links := s.links.modify idx f }

/-- The share lines are cut at 511 characters, the newline included. -/
def shareLine (text : CStr) : CStr := ("s ".toList ++ text).take 511

/-- Send a line over the links except `x`, and hand it to the buffers. -/
def shareout (chan : Option Audience) (x : Option Nat) (text : CStr) : State :=
  let readers := s.links.zipIdx.filter fun p =>
    p.1.live && some p.2 != x && (Audience.ofChan chan).gets p.1.nick
  let sends := readers.map fun p => (p.1.nick, shareLine text)
  { s with bufs :=
      (s.bufs.observe (sends.map fun p => .received p.1 p.2)).qResync (shareLine text) chan }

def shareoutMod (chan : Option Chan) (text : CStr) : State :=
  if chan.all (·.shared) then s.shareout (chan.map (·.readers)) none text else s

def shareoutBut (chan : Option Chan) (x : Nat) (text : CStr) : State :=
  s.shareout (chan.map (·.readers)) (some x) text

/-- What ends the sharing with a bot also ends its transfers; a bot that was up to date gets a
buffer. -/
def cancelUserXfer (l : Link) : State :=
  let b := s.bufs.flushTbuf l.nick
  { s with bufs := if s.allowResync && l.live then b.newTbuf s.now l.nick else b }

/-- The link is gone. -/
def lostdcc (idx : Nat) (l : Link) : State :=
  let s := s.cancelUserXfer l
  { s with links := s.links.eraseIdx idx }

/-- A second link to a bot is refused. -/
def linked (nick : CStr) (numver : Nat) : State :=
  if s.links.any (strcaseEq nick ·.nick) then s
  else { s with links := s.links ++ [{ nick, numver }] }

def startSendingUsers (idx : Nat) (l : Link) : SendOutcome → State
  | .uffFailed =>
    (s.say l "s e uff parsing failed\n".toList).setLink idx fun l =>
      { l with share := false, sending := false, aggressive := false }
  | .cantSend why =>
    (s.say l ("s e ".toList ++ why ++ "\n".toList)).setLink idx fun l =>
      { l with share := false, sending := false, aggressive := false }
  | .started place jump =>
    let s := s.setLink idx fun l => { l with sending := true }
    let s := s.say l ("s us ".toList ++ place ++ "\n".toList)
    let b := s.bufs.newTbuf s.now l.nick
    let b := jump.foldl (fun b p => b.qTbuf l.nick p.1 p.2) b
    { s with bufs := b.qTbuf l.nick "s !\n".toList none }

def shareUfyes (idx : Nat) (l : Link) (outcome : SendOutcome) : State :=
  if l.offered then
    let s := s.setLink idx fun l => { l with offered := false, share := true, sending := true }
    s.startSendingUsers idx l outcome
  else s

def shareUfno (idx : Nat) : State :=
  s.setLink idx fun l =>
    { l with offered := false, share := l.share && l.getting,
             aggressive := l.aggressive && l.getting }

def shareUserfileq (idx : Nat) (l : Link) (bfl : FlagWord) (feats : CStr) : State :=
  let s := { s with bufs := s.bufs.flushTbuf l.nick }
  if bfl.has (botAggressive ||| botShperms) then
    s.say l "s un I have you marked for Aggressive sharing.\n".toList
  else if !bfl.has botPassive then
    s.say l "s un You are not marked for sharing with me.\n".toList
  else if l.numver < minShare then
    s.say l ("s un Your version is not high enough, need v".toList ++
      showNat (minShare / 1000000) ++ ".".toList ++ showNat (minShare / 10000 % 100) ++
      ".".toList ++ showNat (minShare / 100 % 100) ++ "\n".toList)
  else if s.links.zipIdx.any fun p => p.1.share && p.1.aggressive && p.2 != idx then
    s.say l "s un Already sharing.\n".toList
  else
    let s := s.say l
      (if l.numver ≥ minUffeature then "s uy ".toList ++ feats ++ "\n".toList
       else "s uy\n".toList)
    s.setLink idx fun l => { l with share := true, getting := true, aggressive := true }

def shareUfsend (idx : Nat) (l : Link) (outcome : GetOutcome) : State :=
  if !l.share then
    ((s.say l "s e You didn't ask; you just started sending.\n".toList).say l
      "s e Ask before sending the userfile.\n".toList).lostdcc idx l
  else
    match outcome with
    | .full => (s.say l "s e I can't open a DCC to you; I'm full.\n".toList).lostdcc idx l
    | .noTmpfile => s.lostdcc idx l
    | .cantConnect => (s.say l "s e Can't connect to you!\n".toList).lostdcc idx l
    | .connecting => s.setLink idx fun l => { l with getting := true }

def dumpResync (l : Link) : State := { s with bufs := s.bufs.dumpResync l.nick }

def shareResyncq (idx : Nat) (l : Link) (bfl : FlagWord) : State :=
  if !s.allowResync then s.say l "s rn Not permitting resync.\n".toList
  else if !bfl.has botShare then
    s.say l "s rn You are not marked for sharing with me.\n".toList
  else if s.bufs.canResync l.nick then
    ((s.say l "s r!\n".toList).dumpResync l).setLink idx fun l =>
      { l with offered := false, share := true }
  else s.say l "s rn No resync buffer.\n".toList

def shareResync (idx : Nat) (l : Link) : State :=
  if l.offered && s.bufs.canResync l.nick then
    (s.dumpResync l).setLink idx fun l => { l with offered := false, share := true }
  else s

def shareResyncNo (l : Link) : State :=
  State.say { s with bufs := s.bufs.flushTbuf l.nick } l "s u?\n".toList

def shareVersion (idx : Nat) (l : Link) (bfl : FlagWord) : State :=
  let s := s.setLink idx Link.quit
  if l.numver ≥ minShare && bfl.has (botAggressive ||| botShperms) then
    (s.say l (if s.bufs.canResync l.nick then "s r?\n".toList else "s u?\n".toList)).setLink idx
      fun l => { l with offered := true }
  else s

/-- `dcc[idx]`, where there is one. -/
def withLink (idx : Nat) (f : State → Link → State) : State :=
  match s.links[idx]? with
  | none => s
  | some l => f s l

/-- One round for every link. -/
def forLinks (f : State → Nat → Link → State) : State :=
  (List.range s.links.length).foldl (fun s i => s.withLink i fun s l => f s i l) s

/-- Offer the user file again to the bots that get their changes from here. -/
def hookReadUserfile : State :=
  s.forLinks fun s i l =>
    if l.share && !l.aggressive then
      ((if l.sending then s.cancelUserXfer l else s).say l "s u?\n".toList).setLink i
        fun l => { l with offered := true }
    else s

def shareEndstartup (idx : Nat) : State :=
  (s.setLink idx fun l => { l with getting := false }).hookReadUserfile

def shareEnd (idx : Nat) (l : Link) : State := (s.cancelUserXfer l).setLink idx Link.quit

def sharein (idx : Nat) (l : Link) : Msg → State
  | .version bfl => s.shareVersion idx l bfl
  | .resyncq bfl => s.shareResyncq idx l bfl
  | .resync => s.shareResync idx l
  | .resyncNo => s.shareResyncNo l
  | .userfileq bfl feats => s.shareUserfileq idx l bfl feats
  | .ufno => s.shareUfno idx
  | .ufyes outcome => s.shareUfyes idx l outcome
  | .ufsend outcome => s.shareUfsend idx l outcome
  | .endstartup => s.shareEndstartup idx
  | .endShare => s.shareEnd idx l

/-- The end of a transfer in transfer.mod: any sharebot things that were queued go out. -/
def sent (idx : Nat) (l : Link) : State :=
  (s.setLink idx fun l => { l with sending := false }).dumpResync l

def checkExpiredTbufs (now : Int) (quiet : Nat → Bool) (bfl : CStr → FlagWord) : State :=
  let s := { s with now, bufs := s.bufs.dropExpired now s.resyncTime }
  s.forLinks fun s i l =>
    if l.offered then
      if quiet i && (bfl l.nick).has (botAggressive ||| botShperms) then s.say l "s u?\n".toList
      else s
    else if !l.share && (bfl l.nick).has (botAggressive ||| botShperms) then
      (s.say l "s u?\n".toList).setLink i fun l => { l with offered := true }
    else s

def shareClose : State :=
  let s := s.forLinks fun s i l =>
    if l.share then
      ((s.say l "s e Unload module\n".toList).cancelUserXfer l).setLink i Link.quit
    else s
  { s with bufs := { s.bufs with tbufs := [] } }

def next : Event → State
  | .shareoutMod chan text => s.shareoutMod chan text
  | .shareoutBut chan x text => s.shareoutBut chan x text
  | .linked nick numver => s.linked nick numver
  | .lost idx => s.withLink idx fun s l => s.lostdcc idx l
  | .sharein idx msg => s.withLink idx fun s l => s.sharein idx l msg
  | .sent idx => s.withLink idx fun s l => s.sent idx l
  | .sendFailed idx => s.setLink idx fun l => { l with sending := false, share := false }
  | .getFailed idx => s.setLink idx fun l => { l with getting := false, share := false }
  | .minutely now quiet bfl => s.checkExpiredTbufs now quiet bfl
  | .readUserfile => s.hookReadUserfile
  | .flush bot => { s with bufs := s.bufs.flushTbuf bot }
  | .set allowResync resyncTime => { s with allowResync, resyncTime }
  | .close => s.shareClose

/-- The runs of `next`; no step faults. -/
def step (s : State) (e : Event) : Except Empty State := .ok (s.next e)

/-- Nothing is linked and nothing is buffered. -/
def start (now resyncTime : Int) (allowResync : Bool) : State :=
  ⟨⟨[], []⟩, [], now, resyncTime, allowResync⟩

/-! ### The invariant -/

/-- A bot has one link, its buffer is `Held`, and a link with a buffer is not live: either it does
not share or its user file is still on the way.  For the links to `bot` the last is open. -/
structure InvBut (bot : CStr → Prop) (s : State) : Prop where
  held : s.bufs.Held
  one : ∀ (i j : Nat) (l l' : Link), s.links[i]? = some l → s.links[j]? = some l' →
    strcaseEq l.nick l'.nick = true → i = j
  quiet : ∀ (i : Nat) (l : Link), s.links[i]? = some l → ¬ bot l.nick → s.bufs.canResync l.nick = true →
    l.share = true → l.sending = true

/-- The invariant of all runs. -/
abbrev Inv : State → Prop := InvBut fun _ => False

variable {s : State} {bot : CStr → Prop} {idx : Nat} {l : Link}

theorem InvBut.withBufs (h : InvBut bot s) {b : Buffers} (hb : b.Held)
    (hsub : ∀ n, b.canResync n = true → s.bufs.canResync n = true) :
    InvBut bot { s with bufs := b } where
  held := hb
  one := h.one
  quiet i l hl hbot hb := h.quiet i l hl hbot (hsub _ hb)

theorem InvBut.flushTbuf (h : InvBut bot s) (n : CStr) :
    InvBut bot { s with bufs := s.bufs.flushTbuf n } :=
  h.withBufs (h.held.flushTbuf n) fun _ =>
    Buffers.canResync_of_sublist (Buffers.flushTbuf_sublist n s.bufs)

theorem InvBut.say (h : InvBut bot s) {text : CStr} (hno : offers text = false) (l : Link) :
    InvBut bot (s.say l text) :=
  h.withBufs (h.held.said fun hoff => absurd hoff (by rw [hno]; exact Bool.false_ne_true))
    fun _ hb => hb

theorem InvBut.dumpResync (h : InvBut bot s)
    (hfit : s.bufs.canResync l.nick → (emitted l.nick s.bufs.trace).length ≤ maxQueue) :
    InvBut bot (s.dumpResync l) :=
  h.withBufs (h.held.dumpResync hfit) fun _ =>
    Buffers.canResync_of_sublist (Buffers.dumpResync_sublist l.nick s.bufs)

theorem getElem?_setLink (s : State) (idx : Nat) (f : Link → Link) (j : Nat) :
    (s.setLink idx f).links[j]? = (s.links[j]?).map fun l => if idx = j then f l else l := by
  rw [setLink, List.getElem?_modify]
  rfl

theorem getElem?_setLink_self (hl : s.links[idx]? = some l) (f : Link → Link) :
    (s.setLink idx f).links[idx]? = some (f l) := by
  rw [getElem?_setLink, hl, Option.map_some, if_pos rfl]

theorem getElem?_setLink_of_ne (s : State) (f : Link → Link) {j : Nat} (hj : idx ≠ j) :
    (s.setLink idx f).links[j]? = s.links[j]? := by
  simp only [getElem?_setLink, if_neg hj, Option.map_id']

theorem InvBut.setLink (h : InvBut bot s) {f : Link → Link} (hnick : ∀ l, (f l).nick = l.nick)
    (hq : ∀ l, s.links[idx]? = some l → ¬ bot l.nick → s.bufs.canResync l.nick = true →
      (f l).share = true → (f l).sending = true) :
    InvBut bot (s.setLink idx f) := by
  refine ⟨h.held, fun i j a b ha hb hab => ?_, fun i a ha => ?_⟩
  · rw [getElem?_setLink, Option.map_eq_some_iff] at ha hb
    obtain ⟨a, ha, rfl⟩ := ha
    obtain ⟨b, hb, rfl⟩ := hb
    refine h.one i j a b ha hb ?_
    split at hab <;> split at hab <;> simpa only [hnick] using hab
  · rw [getElem?_setLink, Option.map_eq_some_iff] at ha
    obtain ⟨a, ha, rfl⟩ := ha
    split
    · next hi =>
      rw [hnick]
      exact hq a (hi ▸ ha)
    · exact h.quiet i a ha

theorem InvBut.setLink_less (h : InvBut bot s) {f : Link → Link}
    (hnick : ∀ l, (f l).nick = l.nick) (hshare : ∀ l, (f l).share = true → l.share = true)
    (hsend : ∀ l, (f l).share = true → l.sending = true → (f l).sending = true) :
    InvBut bot (s.setLink idx f) :=
  h.setLink hnick fun l hl hbot hb hs => hsend l hs (h.quiet idx l hl hbot hb (hshare l hs))

theorem InvBut.newTbuf (h : InvBut bot s) {n : CStr} (hno : s.bufs.canResync n = false)
    (hq : ∀ (i : Nat) (l : Link), s.links[i]? = some l → ¬ bot l.nick → strcaseEq l.nick n = true →
      l.share = true → l.sending = true) :
    InvBut bot { s with bufs := s.bufs.newTbuf s.now n } where
  held := h.held.newTbuf s.now hno
  one := h.one
  quiet i l hl hbot hb hs := by
    rw [Buffers.canResync_newTbuf, Bool.or_eq_true] at hb
    rcases hb with hb | hb
    · exact h.quiet i l hl hbot hb hs
    · exact hq i l hl hbot hb hs

theorem InvBut.cancelUserXfer (h : Inv s) (l : Link) :
    InvBut (fun n => strcaseEq n l.nick = true) (s.cancelUserXfer l) := by
  have hflush := h.flushTbuf l.nick
  have hflush' : InvBut (fun n => strcaseEq n l.nick = true)
      { s with bufs := s.bufs.flushTbuf l.nick } :=
    ⟨hflush.held, hflush.one, fun i l hl _ => hflush.quiet i l hl id⟩
  unfold State.cancelUserXfer
  split
  · next hlive =>
    exact hflush'.newTbuf (h.held.canResync_flushTbuf l.nick) fun i l' _ hne heq =>
      absurd heq hne
  · exact hflush'

theorem cancelUserXfer_of_sending (hs : l.sending = true) :
    s.cancelUserXfer l = { s with bufs := s.bufs.flushTbuf l.nick } := by
  simp [State.cancelUserXfer, Link.live, hs]

theorem InvBut.setLink_settle (h : InvBut (fun n => strcaseEq n l.nick = true) s)
    (hl : s.links[idx]? = some l) {f : Link → Link} (hnick : ∀ l, (f l).nick = l.nick)
    (hshare : ∀ l, (f l).share = false) : Inv (s.setLink idx f) := by
  have hset : InvBut (fun n => strcaseEq n l.nick = true) (s.setLink idx f) :=
    h.setLink hnick fun l _ _ _ hs => by
      rw [hshare] at hs
      cases hs
  refine ⟨hset.held, hset.one, fun i a ha _ hb hs => ?_⟩
  by_cases hi : idx = i
  · subst hi
    rw [getElem?_setLink_self hl, Option.some.injEq] at ha
    rw [← ha, hshare] at hs
    cases hs
  · refine hset.quiet i a ha (fun heq => hi ?_) hb hs
    rw [getElem?_setLink_of_ne s f hi] at ha
    exact (h.one i idx a l ha hl heq).symm

theorem InvBut.erase_settle (h : InvBut (fun n => strcaseEq n l.nick = true) s)
    (hl : s.links[idx]? = some l) : Inv { s with links := s.links.eraseIdx idx } := by
  have hother (i : Nat) (a : Link) (ha : (s.links.eraseIdx idx)[i]? = some a) :
      ∃ j, s.links[j]? = some a ∧ j ≠ idx ∧ (i = if j < idx then j else j - 1) := by
    rw [List.getElem?_eraseIdx] at ha
    split at ha
    · next hi => exact ⟨i, ha, by omega, by rw [if_pos hi]⟩
    · next hi => exact ⟨i + 1, ha, by omega, by rw [if_neg (by omega)]; omega⟩
  refine ⟨h.held, fun i j a b ha hb hab => ?_, fun i a ha _ hb hs => ?_⟩
  · obtain ⟨i', ha', hi, hii⟩ := hother i a ha
    obtain ⟨j', hb', hj, hjj⟩ := hother j b hb
    rw [hii, hjj, h.one i' j' a b ha' hb' hab]
  · obtain ⟨j, ha', hj, -⟩ := hother i a ha
    exact h.quiet j a ha' (fun heq => hj (h.one j idx a l ha' hl heq)) hb hs

/-! ### The handlers keep it -/

/-- All lines for the bot since its buffer was made, if it has one, are in the buffer. -/
def Fits (nick : CStr) (s : State) : Prop :=
  s.bufs.canResync nick = true → (emitted nick s.bufs.trace).length ≤ maxQueue

theorem InvBut.offer (h : InvBut bot s) (hb : s.bufs.canResync l.nick = true)
    (hfit : Fits l.nick s) (text : CStr) : InvBut bot (s.say l text) :=
  h.withBufs (h.held.said fun _ => hfit hb) fun _ hb => hb

theorem InvBut.dump_setLink (h : InvBut bot s) (hl : s.links[idx]? = some l)
    (hfit : Fits l.nick s) {f : Link → Link} (hnick : ∀ l, (f l).nick = l.nick) :
    InvBut bot ((s.dumpResync l).setLink idx f) := by
  refine (h.dumpResync hfit).setLink hnick fun l' hl' _ hb => ?_
  obtain rfl : l = l' := Option.some.inj (hl.symm.trans hl')
  have hno : (s.dumpResync l).bufs.canResync l.nick = false := h.held.canResync_dumpResync l.nick
  rw [hno] at hb
  cases hb

theorem InvBut.shareout (h : Inv s) (chan : Option Audience) (x : Option Nat) (text : CStr) :
    Inv (s.shareout chan x text) := by
  refine h.withBufs (.qResync (h.held.sends fun p hp => ?_) _ _) fun n hb => ?_
  · obtain ⟨⟨l, i⟩, hli, rfl⟩ := List.mem_map.1 hp
    obtain ⟨hmem, hsend⟩ := List.mem_filter.1 hli
    have hl : s.links[i]? = some l := List.mk_mem_zipIdx_iff_getElem?.1 hmem
    have hlive : l.live = true := (Bool.and_eq_true_iff.1 (Bool.and_eq_true_iff.1 hsend).1).1
    rw [Link.live, Bool.and_eq_true, Bool.and_eq_true] at hlive
    rw [← Bool.not_eq_true]
    intro hb
    have hs := h.quiet i l hl id hb hlive.1.1
    rw [hs] at hlive
    exact absurd hlive.2 Bool.false_ne_true
  · rwa [Buffers.canResync_qResync] at hb

theorem InvBut.linked (h : Inv s) (nick : CStr) (numver : Nat) : Inv (s.linked nick numver) := by
  unfold State.linked
  split
  · exact h
  · next hany =>
    have hnew (i : Nat) (l : Link) (hl : s.links[i]? = some l) : strcaseEq nick l.nick = false := by
      rw [← Bool.not_eq_true]
      exact fun heq => hany (List.any_eq_true.2 ⟨l, List.mem_of_getElem? hl, heq⟩)
    have hcases (i : Nat) (l : Link)
        (hl : (s.links ++ [({ nick, numver } : Link)])[i]? = some l) :
        s.links[i]? = some l ∨ i = s.links.length ∧ l = { nick, numver } := by
      rcases Nat.lt_or_ge i s.links.length with hi | hi
      · rw [List.getElem?_append_left hi] at hl
        exact Or.inl hl
      · rw [List.getElem?_append_right hi, List.getElem?_singleton] at hl
        split at hl
        · exact Or.inr ⟨by omega, (Option.some.inj hl).symm⟩
        · cases hl
    refine ⟨h.held, fun i j a b ha hb hab => ?_, fun i a ha _ hb hs => ?_⟩
    · rcases hcases i a ha with ha | ⟨rfl, rfl⟩ <;> rcases hcases j b hb with hb | ⟨rfl, rfl⟩
      · exact h.one i j a b ha hb hab
      · rw [strcaseEq_comm, hnew i a ha] at hab
        cases hab
      · rw [hnew j b hb] at hab
        cases hab
      · rfl
    · rcases hcases i a ha with ha | ⟨rfl, rfl⟩
      · exact h.quiet i a ha id hb hs
      · cases hs

theorem InvBut.lostdcc (h : Inv s) (hl : s.links[idx]? = some l) : Inv (s.lostdcc idx l) :=
  (InvBut.cancelUserXfer h l).erase_settle hl

theorem InvBut.jump (h : InvBut bot s) (n : CStr) (jump : List (CStr × Option Audience)) :
    InvBut bot { s with bufs := jump.foldl (fun b p => b.qTbuf n p.1 p.2) s.bufs } := by
  induction jump generalizing s with
  | nil => exact h
  | cons p jump ih =>
    rw [List.foldl_cons]
    refine ih (s := { s with bufs := s.bufs.qTbuf n p.1 p.2 }) ?_
    rw [h.held.qTbuf_eq]
    exact h.withBufs (h.held.qResync _ _) fun m hb => by rwa [Buffers.canResync_qResync] at hb

theorem InvBut.startSendingUsers (h : Inv s) {l' : Link} (hl : s.links[idx]? = some l')
    (hnick : l'.nick = l.nick) (outcome : SendOutcome)
    (hsafe : ∀ place jump, outcome = .started place jump → s.bufs.canResync l.nick = false) :
    Inv (s.startSendingUsers idx l outcome) := by
  cases outcome with
  | uffFailed =>
    exact (h.say rfl l).setLink_less (fun _ => rfl) (fun _ hs => nomatch hs) fun _ hs => nomatch hs
  | cantSend why =>
    exact (h.say rfl l).setLink_less (fun _ => rfl) (fun _ hs => nomatch hs) fun _ hs => nomatch hs
  | started place jump =>
    have hset : Inv (s.setLink idx fun l => { l with sending := true }) :=
      h.setLink_less (fun _ => rfl) (fun _ hs => hs) fun _ _ _ => rfl
    have hsay : Inv ((s.setLink idx fun l => { l with sending := true }).say l
        ("s us ".toList ++ place ++ "\n".toList)) := hset.say rfl l
    have hnew := hsay.newTbuf (n := l.nick) (hsafe place jump rfl) fun i a ha _ hb _ => by
      have hself := getElem?_setLink_self hl fun l => { l with sending := true }
      obtain rfl := hset.one i idx a _ ha hself (hnick ▸ hb)
      rw [← Option.some.inj (hself.symm.trans ha)]
    exact (hnew.jump l.nick jump).jump l.nick [("s !\n".toList, none)]

theorem InvBut.shareUfyes (h : Inv s) (hl : s.links[idx]? = some l) (outcome : SendOutcome)
    (hsafe : ∀ place jump, outcome = .started place jump → l.offered = true →
      s.bufs.canResync l.nick = false) :
    Inv (s.shareUfyes idx l outcome) := by
  unfold State.shareUfyes
  split
  · next hoff =>
    have hset : Inv (s.setLink idx fun l =>
        { l with offered := false, share := true, sending := true }) :=
      h.setLink (fun _ => rfl) fun _ _ _ _ _ => rfl
    refine hset.startSendingUsers (getElem?_setLink_self hl _) rfl outcome ?_
    exact fun place jump ho => hsafe place jump ho hoff
  · exact h

theorem InvBut.shareUserfileq (h : Inv s) (idx : Nat) (l : Link) (bfl : FlagWord) (feats : CStr)
    (hl : s.links[idx]? = some l) : Inv (s.shareUserfileq idx l bfl feats) := by
  have hflush : Inv { s with bufs := s.bufs.flushTbuf l.nick } := h.flushTbuf l.nick
  have hno := h.held.canResync_flushTbuf l.nick
  simp only [State.shareUserfileq]
  split
  · exact hflush.say rfl l
  · split
    · exact hflush.say rfl l
    · split
      · exact hflush.say rfl l
      · split
        · exact hflush.say rfl l
        · refine InvBut.setLink (hflush.say ?_ l) (fun _ => rfl) fun l' hl' _ hb => ?_
          · split <;> rfl
          · obtain rfl : l = l' := Option.some.inj (hl.symm.trans hl')
            exact absurd (hno.symm.trans hb) Bool.false_ne_true

theorem InvBut.shareUfsend (h : Inv s) (hl : s.links[idx]? = some l) (outcome : GetOutcome) :
    Inv (s.shareUfsend idx l outcome) := by
  have hlost {t : State} (ht : Inv t) (hlinks : t.links = s.links) : Inv (t.lostdcc idx l) :=
    ht.lostdcc (hlinks ▸ hl)
  unfold State.shareUfsend
  split
  · exact hlost ((h.say rfl l).say rfl l) rfl
  · cases outcome with
    | full => exact hlost (h.say rfl l) rfl
    | noTmpfile => exact hlost h rfl
    | cantConnect => exact hlost (h.say rfl l) rfl
    | connecting => exact h.setLink_less (fun _ => rfl) (fun _ hs => hs) fun _ _ hs => hs

theorem InvBut.shareResyncq (h : Inv s) (hl : s.links[idx]? = some l) (bfl : FlagWord)
    (hsafe : s.allowResync = true → bfl.has botShare = true → Fits l.nick s) :
    Inv (s.shareResyncq idx l bfl) := by
  unfold State.shareResyncq
  split
  · exact h.say rfl l
  · next hallow =>
    split
    · exact h.say rfl l
    · next hshare =>
      split
      · next hb =>
        have hfit := hsafe (by simpa using hallow) (by simpa using hshare)
        exact (h.offer hb hfit _).dump_setLink hl hfit fun _ => rfl
      · exact h.say rfl l

theorem InvBut.shareResync (h : Inv s) (hl : s.links[idx]? = some l)
    (hsafe : l.offered = true → Fits l.nick s) : Inv (s.shareResync idx l) := by
  unfold State.shareResync
  split
  · next hb =>
    exact h.dump_setLink hl (hsafe (Bool.and_eq_true_iff.1 hb).1) fun _ => rfl
  · exact h

theorem InvBut.shareVersion (h : Inv s) (l : Link) (idx : Nat) (bfl : FlagWord)
    (hsafe : minShare ≤ l.numver → bfl.has (botAggressive ||| botShperms) = true →
      Fits l.nick s) : Inv (s.shareVersion idx l bfl) := by
  have hquit : Inv (s.setLink idx Link.quit) :=
    h.setLink_less (fun _ => rfl) (fun _ hs => nomatch hs) fun _ hs => nomatch hs
  simp only [State.shareVersion]
  split
  · next hb =>
    rw [Bool.and_eq_true, decide_eq_true_eq] at hb
    refine InvBut.setLink_less ?_ (fun _ => rfl) (fun _ hs => hs) fun _ _ hs => hs
    split
    · next hbuf => exact hquit.offer hbuf (hsafe hb.1 hb.2) _
    · exact hquit.say rfl l
  · exact hquit

theorem withLink_induction {P : State → Prop} {f : State → Link → State} (h : P s)
    (hf : ∀ l, s.links[idx]? = some l → P (f s l)) : P (s.withLink idx f) := by
  unfold withLink
  split
  · exact h
  · next l hl => exact hf l hl

theorem forLinks_induction {P : State → Prop} {f : State → Nat → Link → State} (h : P s)
    (hf : ∀ t i l, P t → t.links[i]? = some l → P (f t i l)) : P (s.forLinks f) :=
  List.foldlRecOn _ _ h fun t ht i _ => withLink_induction ht fun l hl => hf t i l ht hl

theorem InvBut.hookReadUserfile (h : Inv s) : Inv s.hookReadUserfile := by
  refine forLinks_induction h fun t i l ht hl => ?_
  split
  · refine InvBut.setLink_less ?_ (fun _ => rfl) (fun _ hs => hs) fun _ _ hs => hs
    split
    · next hs =>
      rw [cancelUserXfer_of_sending hs]
      exact (ht.flushTbuf l.nick).say rfl l
    · exact ht.say rfl l
  · exact ht

theorem InvBut.checkExpiredTbufs (h : Inv s) (now : Int) (quiet : Nat → Bool)
    (bfl : CStr → FlagWord) : Inv (s.checkExpiredTbufs now quiet bfl) := by
  have hdrop : Inv { s with now, bufs := s.bufs.dropExpired now s.resyncTime } := by
    have hb := h.withBufs (h.held.dropExpired now s.resyncTime) fun _ =>
      Buffers.canResync_of_sublist List.filter_sublist
    exact ⟨hb.held, hb.one, hb.quiet⟩
  refine forLinks_induction hdrop fun t i l ht hl => ?_
  split
  · split
    · exact ht.say rfl l
    · exact ht
  · split
    · exact (ht.say rfl l).setLink_less (fun _ => rfl) (fun _ hs => hs) fun _ _ hs => hs
    · exact ht

theorem InvBut.shareEnd (h : Inv s) (hl : s.links[idx]? = some l) : Inv (s.shareEnd idx l) :=
  (InvBut.cancelUserXfer h l).setLink_settle hl (fun _ => rfl) fun _ => rfl

theorem InvBut.shareClose (h : Inv s) : Inv s.shareClose := by
  have hloop : Inv (s.forLinks fun s i l =>
      if l.share then
        ((s.say l "s e Unload module\n".toList).cancelUserXfer l).setLink i Link.quit
      else s) := by
    refine forLinks_induction h fun t i l ht hl => ?_
    split
    · exact InvBut.shareEnd (ht.say rfl l) hl
    · exact ht
  exact hloop.withBufs (hloop.held.sublist (List.nil_sublist _)) fun _ hb => nomatch hb

/-! ### Runs -/

/-- A message is safe in a state: what is offered or dumped fitted into the buffer, and the user
file is sent only where no buffer is left. -/
def SafeMsg (l : Link) (s : State) : Msg → Prop
  | .version bfl =>
    minShare ≤ l.numver → bfl.has (botAggressive ||| botShperms) = true → Fits l.nick s
  | .resyncq bfl => s.allowResync = true → bfl.has botShare = true → Fits l.nick s
  | .resync => l.offered = true → Fits l.nick s
  | .ufyes (.started _ _) => l.offered = true → s.bufs.canResync l.nick = false
  | _ => True

/-- The condition on a step. -/
def Safe (s : State) : Event → Prop
  | .sharein idx msg => ∀ l, s.links[idx]? = some l → SafeMsg l s msg
  | .sent idx => ∀ l, s.links[idx]? = some l → Fits l.nick s
  | _ => True

instance (nick : CStr) (s : State) : Decidable (Fits nick s) :=
  inferInstanceAs (Decidable (_ → _))

instance (l : Link) (s : State) : ∀ msg, Decidable (SafeMsg l s msg)
  | .version _ | .resyncq _ => inferInstanceAs (Decidable (_ → _ → _))
  | .resync | .ufyes (.started _ _) => inferInstanceAs (Decidable (_ → _))
  | .resyncNo | .userfileq _ _ | .ufno | .ufyes .uffFailed | .ufyes (.cantSend _) | .ufsend _
  | .endstartup | .endShare => inferInstanceAs (Decidable True)

instance (s : State) : ∀ e, Decidable (Safe s e)
  | .sharein idx msg => inferInstanceAs (Decidable (∀ l ∈ s.links[idx]?, SafeMsg l s msg))
  | .sent idx => inferInstanceAs (Decidable (∀ l ∈ s.links[idx]?, Fits l.nick s))
  | .shareoutMod _ _ | .shareoutBut _ _ _ | .linked _ _ | .lost _ | .sendFailed _ | .getFailed _
  | .minutely _ _ _ | .readUserfile | .flush _ | .set _ _ | .close =>
    inferInstanceAs (Decidable True)

theorem InvBut.sharein (h : Inv s) (hl : s.links[idx]? = some l) {msg : Msg}
    (hsafe : SafeMsg l s msg) : Inv (s.sharein idx l msg) := by
  cases msg with
  | version bfl => exact h.shareVersion l idx bfl hsafe
  | resyncq bfl => exact h.shareResyncq hl bfl hsafe
  | resync => exact h.shareResync hl hsafe
  | resyncNo => exact (h.flushTbuf l.nick).say rfl l
  | userfileq bfl feats => exact h.shareUserfileq idx l bfl feats hl
  | ufno =>
    refine h.setLink_less (fun _ => rfl) (fun a hs => ?_) fun _ _ hs => hs
    exact (Bool.and_eq_true_iff.1 hs).1
  | ufyes outcome =>
    refine h.shareUfyes hl outcome fun place jump ho => ?_
    rw [ho] at hsafe
    exact hsafe
  | ufsend outcome => exact h.shareUfsend hl outcome
  | endstartup =>
    refine InvBut.hookReadUserfile ?_
    exact h.setLink_less (fun _ => rfl) (fun _ hs => hs) fun _ _ hs => hs
  | endShare => exact h.shareEnd hl

theorem inv_next (h : Inv s) {e : Event} (hsafe : Safe s e) : Inv (s.next e) := by
  cases e with
  | shareoutMod chan text =>
    simp only [next, State.shareoutMod]
    split
    · exact h.shareout _ _ _
    · exact h
  | shareoutBut chan x text => exact h.shareout _ _ _
  | linked nick numver => exact h.linked nick numver
  | lost idx =>
    show Inv (s.withLink idx fun s l => s.lostdcc idx l)
    refine withLink_induction h fun l hl => ?_
    exact h.lostdcc hl
  | sharein idx msg =>
    show Inv (s.withLink idx fun s l => s.sharein idx l msg)
    refine withLink_induction h fun l hl => ?_
    exact h.sharein hl (hsafe l hl)
  | sent idx =>
    show Inv (s.withLink idx fun s l => s.sent idx l)
    refine withLink_induction h fun l hl => ?_
    exact h.dump_setLink hl (hsafe l hl) fun _ => rfl
  | sendFailed idx =>
    exact h.setLink_less (fun _ => rfl) (fun _ hs => nomatch hs) fun _ hs => nomatch hs
  | getFailed idx =>
    exact h.setLink_less (fun _ => rfl) (fun _ hs => nomatch hs) fun _ hs => nomatch hs
  | minutely now quiet bfl => exact h.checkExpiredTbufs now quiet bfl
  | readUserfile => exact h.hookReadUserfile
  | flush bot => exact h.flushTbuf bot
  | set allowResync resyncTime => exact ⟨h.held, h.one, h.quiet⟩
  | close => exact h.shareClose

theorem inv_start (now resyncTime : Int) (allowResync : Bool) :
    Inv (start now resyncTime allowResync) where
  held := {
    one := List.Pairwise.nil
    held := fun _ ht => nomatch ht
    unsent := fun _ ht => nomatch ht
    sound := trivial }
  one _ _ _ _ hl := nomatch hl
  quiet _ _ hl := nomatch hl

/-- A live link to `b` is lost, `n` changes are made meanwhile, and the link comes back. -/
def changesWhileAway (n : Nat) : List Event :=
  [.linked "b".toList 1100000, .minutely 0 (fun _ => false) (fun _ => botAggressive),
    .sharein 0 (.ufyes (.started "127.0.0.1 3333 10".toList [])), .sent 0, .lost 0] ++
  (List.replicate n (.shareoutMod none "-host someone *!*@example.org\n".toList) ++
  [.linked "b".toList 1100000, .sharein 0 (.version botAggressive)])

theorem changes_unlinked (text nick : CStr) (n : Nat) (s : State) (hlinks : s.links = []) :
    let t := (List.replicate n (Event.shareoutMod none text)).foldl next s
    t.links = [] ∧ t.bufs.canResync nick = s.bufs.canResync nick ∧
      emitted nick t.bufs.trace = emitted nick s.bufs.trace ++ List.replicate n (shareLine text) := by
  induction n generalizing s with
  | zero => exact ⟨hlinks, rfl, (List.append_nil _).symm⟩
  | succ n ih =>
    have hnext : (s.next (.shareoutMod none text)).links = [] := hlinks
    have hbufs : (s.next (.shareoutMod none text)).bufs = s.bufs.qResync (shareLine text) none := by
      simp only [next, State.shareoutMod, Option.all_none, if_true, State.shareout, hlinks,
        Option.map_none]
      rfl
    obtain ⟨h1, h2, h3⟩ := ih (s.next (.shareoutMod none text)) hnext
    rw [List.replicate_succ, List.foldl_cons]
    refine ⟨h1, h2.trans (by rw [hbufs, Buffers.canResync_qResync]), h3.trans ?_⟩
    rw [hbufs, List.replicate_succ]
    simp [Buffers.qResync, emitted, Audience.ofChan]

theorem not_sound_changesWhileAway {n : Nat} (hn : maxQueue < n) :
    ¬ Machine.Throughout step (fun s => Sound s.bufs.trace) (start 0 900 true)
      (changesWhileAway n) := by
  intro h
  have hlast := h.last (Machine.run_total next _ _)
  rw [changesWhileAway, List.foldl_append, List.foldl_append] at hlast
  generalize hs : List.foldl next (start 0 900 true) _ = s at hlast
  have hlinks : s.links = [] := by rw [← hs]; decide +kernel
  have hbuf : s.bufs.canResync "b".toList = true := by rw [← hs]; decide +kernel
  have hempty : emitted "b".toList s.bufs.trace = [] := by rw [← hs]; decide +kernel
  obtain ⟨hlinks', hbuf', hem⟩ :=
    changes_unlinked "-host someone *!*@example.org\n".toList "b".toList n s hlinks
  generalize List.foldl next s _ = t at hlast hlinks' hbuf' hem
  have hfinal : (List.foldl next t
      [.linked "b".toList 1100000, .sharein 0 (.version botAggressive)]).bufs.trace =
      .said "b".toList "s r?\n".toList :: t.bufs.trace := by
    have hflags : (decide (1100000 ≥ minShare) &&
        botAggressive.has (botAggressive ||| botShperms)) = true := by decide
    have hlinked : t.next (.linked "b".toList 1100000) =
        { t with links := [{ nick := "b".toList, numver := 1100000 }] } := by
      simp only [next, State.linked, hlinks', List.any_nil, List.nil_append]
      rfl
    have hcan : t.bufs.canResync "b".toList = true := hbuf'.trans hbuf
    rw [List.foldl_cons, List.foldl_cons, List.foldl_nil, hlinked]
    simp only [next, withLink, List.getElem?_cons_zero, State.sharein, State.shareVersion, hflags,
      if_true, setLink, say, Buffers.observe, hcan]
    rfl
  rw [hfinal] at hlast
  have hle := hlast.1 rfl
  rw [hem, hempty, List.nil_append, List.length_replicate] at hle
  omega

end State
end Eggdrop.Share
