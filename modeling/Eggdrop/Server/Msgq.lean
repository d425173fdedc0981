import Eggdrop.Base.CString
import Eggdrop.Lib.Run
import Eggdrop.Lib.TailQueue

/-!
# Msgq — the three queues of server.c

What the bot says waits in the mode queue, the server queue or the help queue.  A pass of `deq_msg`
sends the head of one of them, as it is or as one kick for several (`deq_kick`).  `fast_deq` is to
send one line for several messages to different targets, and aborts at the first it unlinks.

* `sendHead_ok`, `enqueue_ok`: these keep `last` and `tot` in step with the list.
* `inv_checkQueues`: so does a change of nick, which never unlinks a message.
* `deqKick_ok`: the kicks do so where they do not unlink the last message.
* `fastDeq_eq`: `fast_deq` leaves a queue alone in which it stacks nothing.
* `represents_throughout`: a run of these goes through, with the queues in order all along.
-/

namespace Eggdrop.Msgq

open TailQueue (Queue Represents)

/-- `SENDLINEMAX`. -/
def sendLineMax : Nat := 4607

/-- `MAXPENALTY`. -/
def maxPenalty : Int := 10

inductive Which where
  | mode
  | server
  | help
deriving DecidableEq, Repr

/-- The settings the queues depend on. -/
structure Config where
  msgrate : Int
  maxqmsg : Int
  useFastdeq : Int
  stackLimit : Int
  optimizeKicks : Int
  kickMethod : Int
  stackablecmds : CStr
  stackable2cmds : CStr
  doubleMode : Bool
  doubleServer : Bool
  doubleHelp : Bool
deriving DecidableEq, Repr

/-- What a call depends on beside the queues: the clock, the connection, the bucket of
`op_ratelimit_check`, the settings, the members of the channels, and what `calc_penalty` adds to
`last_time` for a line. -/
structure Moment where
  now : Int
  serv : Bool
  ratelimit : Bool
  cfg : Config
  ismember : (chan nick : CStr) → Bool
  calcPenalty : CStr → Int

structure State where
  modeq : Queue CStr
  mq : Queue CStr
  hq : Queue CStr
  lastTime : Int
  burst : Nat
  nextAddr : Nat
  sent : List (Which × CStr)
deriving DecidableEq, Repr

inductive Fault where
  /-- Something is written behind `last`, which is no message of the queue. -/
  | danglingLast
  /-- A list of targets or nicks is read, or written to, that was never started. -/
  | emptyList
  /-- The head of an empty queue is read. -/
  | nullHead
  /-- A node of `msgq_node_bh` is given to `op_free`. -/
  | slabFree
deriving DecidableEq, Repr

def State.start : State := ⟨.empty, .empty, .empty, 0, 0, 0, []⟩

/-! ### Words -/

/-- `!op_strncasecmp(s, p, strlen(p))`. -/
def hasPrefix (p : String) (s : CStr) : Bool := strcaseEq (s.take p.toList.length) p.toList

/-- `splitnicks`, on a text without blanks. -/
def splitnicks (s : CStr) : CStr × CStr :=
  (s.takeWhile (· ≠ ','), (s.dropWhile (· ≠ ',')).drop 1)

/-- Take nicks off a list until it is empty, each with what follows it. -/
def overNicks {β : Type} (f : β → (nick rest : CStr) → β) : Nat → β → CStr → β
  | 0, b, _ => b
  | n + 1, b, nicks =>
    if nicks = [] then b
    else overNicks f n (f b (splitnicks nicks).1 (splitnicks nicks).2) (splitnicks nicks).2

/-- The nicks of a list; each is shorter than what is left of the list, by a comma or more. -/
def nickList (nicks : CStr) : List CStr :=
  overNicks (fun l nick _ => l ++ [nick]) nicks.length [] nicks

/-- Each nick with a comma before it. -/
def commaed (nicks : List CStr) : CStr := nicks.flatMap fun nick => ',' :: nick

/-- The channel, the nicks and the reason of a kick. -/
structure Kick where
  chan : CStr
  nicks : CStr
  reason : CStr
deriving DecidableEq, Repr

def parseKick (msg : CStr) : Kick :=
  let (chan, rest) := newsplit (newsplit msg).2
  let (nicks, reason) := newsplit rest
  ⟨chan, nicks, reason⟩

/-- `KICK %s %s %s`, with a list that starts with a comma. -/
def kickLine (chan newnicks reason : CStr) : CStr :=
  "KICK ".toList ++ chan ++ ' ' :: newnicks.drop 1 ++ ' ' :: reason

/-! ### Passes over a queue -/

/-- One message in `purge_kicks`: nicks that are not on the channel go, and a kick with none
left. -/
def purgeKick (ismember : (chan nick : CStr) → Bool) (msg : CStr) : Option CStr :=
  if hasPrefix "KICK" msg then
    let kick := parseKick msg
    let nicks := nickList kick.nicks
    let newnicks := nicks.filter fun nick => kick.chan ≠ [] ∧ ismember kick.chan nick
    if newnicks.length = nicks.length then some msg
    else if commaed newnicks = [] then none
    else some (kickLine kick.chan (commaed newnicks) kick.reason)
  else some msg

/-- One message in `parse_q`: the list of nicks as the loop leaves it, and whether the old nick was
in it. -/
def renameNicks (oldnick newnick : CStr) (kick : Kick) : CStr × Bool :=
  overNicks (fun (acc : CStr × Bool) nick rest =>
    if strcaseEq nick oldnick ∧
        9 + kick.chan.length + acc.1.length + newnick.length + rest.length + kick.reason.length <
          sendLineMax - 1 then
      (acc.1 ++ ',' :: newnick ++ nick, true)
    else (',' :: nick, acc.2)) kick.nicks.length ([], false) kick.nicks

/-- `parse_q` on one message. -/
def renameKick (oldnick newnick msg : CStr) : Option CStr :=
  if hasPrefix "KICK " msg then
    let kick := parseKick msg
    let (newnicks, changed) := renameNicks oldnick newnick kick
    if ¬ changed then some msg
    else if newnicks = [] then none
    else some (kickLine kick.chan newnicks kick.reason)
  else some msg

/-- The kick under way in `deq_kick`: how many nicks it counts, and which. -/
structure Merged where
  nr : Int
  newnicks : CStr
deriving DecidableEq, Repr

/-- The nicks of another kick that still go into the one under way, and those that do not. -/
def mergeNicks (kickMethod : Int) (kick : Kick) (m : Merged) (nicks : List CStr) :
    Merged × CStr × Bool :=
  nicks.foldl (fun (acc : Merged × CStr × Bool) nick =>
    if acc.1.nr < kickMethod ∧
        9 + kick.chan.length + acc.1.newnicks.length + nick.length + kick.reason.length < 510 then
      (⟨acc.1.nr + 1, acc.1.newnicks ++ ',' :: nick⟩, acc.2.1, true)
    else (acc.1, acc.2.1 ++ ',' :: nick, acc.2.2)) (m, [], false)

/-- Another message in `deq_kick`. -/
def mergeKick (kickMethod : Int) (kick : Kick) (m : Merged) (msg : CStr) : Merged × Option CStr :=
  -- once the kick is full, the loop ends
  if m.nr < kickMethod ∧ hasPrefix "KICK" msg then
    let kick₂ := parseKick msg
    if strcaseEq kick.chan kick₂.chan ∧ strcaseEq kick.reason kick₂.reason then
      let (m', newnicks₂, changed) := mergeNicks kickMethod kick m (nickList kick₂.nicks)
      if ¬ changed then (m', some msg)
      else if newnicks₂ = [] then (m', none)
      else (m', some (kickLine kick₂.chan newnicks₂ kick.reason))
    else (m, some msg)
  else (m, some msg)

/-- Whether `fast_deq` puts another message into the line of the first, when it has put none in
yet. -/
def stacksNext (stackLimit : Int) (cmd to_ msg next : CStr) : Bool :=
  let (nextcmd, nextmsg) := newsplit next
  let (nextto, nextmsg) := newsplit nextmsg
  to_ ≠ nextto ∧ cmd = nextcmd ∧ msg = nextmsg ∧
    cmd.length + to_.length + nextto.length + msg.length + 2 < sendLineMax - 2 ∧
    (stackLimit = 0 ∨ 0 < stackLimit - 1)

/-- The words of a list of commands. -/
def cmdList : Nat → CStr → List CStr
  | 0, _ => []
  | n + 1, s => if s = [] then [] else (newsplit s).1 :: cmdList n (newsplit s).2

/-- A command is in the list. -/
def inList (cmds cmd : CStr) : Bool := (cmdList cmds.length cmds).any fun c => strcaseEq c cmd

/-- Whether `fast_deq` stacks a command.  What stands between the targets is for a line that is never
sent. -/
def stackable (cfg : Config) (cmd : CStr) : Bool :=
  if cfg.useFastdeq = 2 then inList cfg.stackablecmds cmd
  else if cfg.useFastdeq = 3 then ¬ inList cfg.stackablecmds cmd
  else true

/-- `fast_deq` comes to a message that it stacks. -/
def fastStacks (cfg : Config) : List (Nat × CStr) → Bool
  | [] => false
  | head :: rest =>
    let (cmd, msg) := newsplit head.2
    let (to_, msg) := newsplit msg
    cfg.useFastdeq ≠ 0 ∧ stackable cfg cmd ∧ rest.any fun c => stacksNext cfg.stackLimit cmd to_ msg c.2

/-! ### The queues -/

namespace State

variable (st : State)

def queue : Which → Queue CStr
  | .mode => st.modeq
  | .server => st.mq
  | .help => st.hq

def setQueue (which : Which) (q : Queue CStr) : State :=
  match which with
  | .mode => { st with modeq := q }
  | .server => { st with mq := q }
  | .help => { st with hq := q }

/-- `write_to_server`. -/
def write (which : Which) (line : CStr) : State := { st with sent := st.sent ++ [(which, line)] }

/-- A line that counts. -/
def writeCounted (t : Moment) (which : Which) (line : CStr) : State :=
  { st.write which line with lastTime := st.lastTime + t.calcPenalty line }

/-- `purge_kicks`. -/
def purgeKicks (t : Moment) (which : Which) : State :=
  let q := st.queue which
  st.setQueue which (q.swept (TailQueue.sweep
    (fun (u : Unit) msg => (u, purgeKick t.ismember msg)) () q.cells).2)

/-- `parse_q`. -/
def parseQ (oldnick newnick : CStr) (which : Which) : State :=
  let q := st.queue which
  st.setQueue which (q.swept (TailQueue.sweep
    (fun (u : Unit) msg => (u, renameKick oldnick newnick msg)) () q.cells).2)

/-- `check_queues`. -/
def checkQueues (t : Moment) (oldnick newnick : CStr) : State :=
  if t.cfg.optimizeKicks = 2 then
    ((st.parseQ oldnick newnick .mode).parseQ oldnick newnick .server).parseQ oldnick newnick .help
  else st

/-- The kick that `deq_kick` starts with: the list of the head is one word, which counts as one
nick. -/
def firstNicks (kick : Kick) : Merged :=
  if kick.nicks = [] then ⟨0, []⟩ else ⟨1, ',' :: kick.nicks⟩

/-- `deq_kick` from the head on, when it is a kick. -/
def sendKick (t : Moment) (which : Which) (head : Nat × CStr) (rest : List (Nat × CStr)) :
    Except Fault State :=
  let kick := parseKick head.2
  let (m, rest') := TailQueue.sweep (mergeKick t.cfg.kickMethod kick) (firstNicks kick) rest
  if m.newnicks = [] then .error .emptyList
  else
    let st := st.setQueue which ((st.queue which).swept (head :: rest'))
    let st := st.writeCounted t which (kickLine kick.chan m.newnicks kick.reason)
    .ok (st.setQueue which (st.queue which).popFront)

/-- `deq_kick`: whether something was done, and the state. -/
def deqKick (t : Moment) (which : Which) : Except Fault (Bool × State) :=
  if t.cfg.optimizeKicks = 0 then .ok (false, st)
  else
    match (st.queue which).cells with
    | [] => .error .nullHead
    | head :: _ =>
      if ¬ hasPrefix "KICK" head.2 then .ok (false, st)
      else
        let st := if t.cfg.optimizeKicks = 2 then st.purgeKicks t which else st
        match (st.queue which).cells with
        | [] => .ok (true, st)
        | head :: rest =>
          if ¬ hasPrefix "KICK" head.2 then .ok (false, st)
          else (st.sendKick t which head rest).map fun st => (true, st)

/-- `fast_deq`: whether something was sent, and the state.  The first message that is stacked goes to
`op_free`, unless the list it is added to was never started. -/
def fastDeq (t : Moment) (which : Which) : Except Fault (Bool × State) :=
  if t.cfg.useFastdeq = 0 then .ok (false, st)
  else
    match (st.queue which).cells with
    | [] => .error .nullHead
    | head :: rest =>
      if fastStacks t.cfg (head :: rest) then
        if (newsplit (newsplit head.2).2).1 = [] then .error .emptyList else .error .slabFree
      else .ok (false, st)

/-- Send the head as it is and unlink it. -/
def sendHead (t : Moment) (which : Which) : Except Fault State :=
  match (st.queue which).cells with
  | [] => .error .nullHead
  | head :: _ =>
    let st := st.writeCounted t which head.2
    .ok (st.setQueue which (st.queue which).dropHead)

/-- An empty queue has no last message. -/
def mendLast (which : Which) : State := st.setQueue which (st.queue which).mendLast

/-- One turn of the loop over the mode queue. -/
def modeStep (t : Moment) : Except Fault State := do
  let (done, st) ← st.deqKick t .mode
  if done then .ok { st with burst := st.burst + 1 }
  else if st.modeq.cells = [] then .ok st
  else
    let (done, st) ← st.fastDeq t .mode
    if done then .ok { st with burst := st.burst + 1 }
    else (st.sendHead t .mode).map fun st => { st with burst := st.burst + 1 }

/-- The loop over the mode queue does not go on. -/
def modeDone (t : Moment) : Bool :=
  st.modeq.cells = [] ∨ ¬ st.burst < 4 ∨ ¬ st.lastTime - t.now < maxPenalty

/-- The loop over the mode queue; each turn adds to `burst`, so there are four at most. -/
def modeLoop (t : Moment) : Nat → State → Except Fault State
  | 0, st => .ok st
  | n + 1, st => if st.modeDone t then .ok st else st.modeStep t >>= modeLoop t n

/-- One message of the server queue or the help queue. -/
def sendOne (t : Moment) (which : Which) : Except Fault State := do
  let (done, st) ← st.deqKick t which
  if done then .ok st
  else
    let (done, st) ← st.fastDeq t which
    if done then .ok st else (st.sendHead t which).map fun st => st.mendLast which

/-- Whether the time for another message has come. -/
def due (t : Moment) : Bool := t.cfg.msgrate ≤ t.now - st.lastTime ∨ t.now < st.lastTime - 90

/-- The state once `last_time` and `burst` are up to date. -/
def tick (t : Moment) : State :=
  if st.due t then { st with lastTime := t.now, burst := st.burst - 1 } else st

/-- The queue whose turn it is: the help queue waits until everything else is finished. -/
def turn (t : Moment) (ok : Bool) : Option Which :=
  if ¬ t.serv ∨ ¬ t.ratelimit then none
  else if st.modeq.cells ≠ [] then some .mode
  else if 1 < st.burst then none
  else if st.mq.cells ≠ [] then some .server
  else if st.hq.cells = [] ∨ st.burst ≠ 0 ∨ ¬ ok then none
  else some .help

/-- `deq_msg`. -/
def deqMsg (t : Moment) : Except Fault State :=
  let ok := st.due t
  let st := st.tick t
  match st.turn t ok with
  | none => .ok st
  | some .mode => (modeLoop t 4 st).map fun st => st.mendLast .mode
  | some .server => { st with burst := st.burst + 1 }.sendOne t .server
  | some .help => st.sendOne t .help

/-- A message may be in a queue twice. -/
def doublemsg (cfg : Config) : Which → Bool
  | .mode => cfg.doubleMode
  | .server => cfg.doubleServer
  | .help => cfg.doubleHelp

/-- `queue_server` up to its last lines: whether it comes to them, and the state.  `drop` is what the
binds return, should they be asked. -/
def enqueue (t : Moment) (which : Which) (qnext : Bool) (msg : CStr) (drop : Bool) :
    Except Fault (Bool × State) :=
  let buf := msg.takeWhile fun c => c ≠ '\r' ∧ c ≠ '\n'
  let q := st.queue which
  if ¬ t.serv then .ok (false, st)
  else if hasPrefix "PING" buf ∨ hasPrefix "PONG" buf ∨ hasPrefix "AUTHENTICATE" buf then
    .ok (false, st.write which buf)
  else if q.tot < t.cfg.maxqmsg then
    if (¬ doublemsg t.cfg which ∧ q.cells.any fun c => strcaseEq c.2 buf) ∨ drop then .ok (false, st)
    else
      match if qnext then some (q.pushFront (st.nextAddr, buf))
        else q.pushBack (st.nextAddr, buf) with
      | none => .error .danglingLast
      | some q => .ok (true, { st.setQueue which q with nextAddr := st.nextAddr + 1 })
  else .ok (true, st)

/-- `queue_server`: a mode change is sent at once if that can be. -/
def queueServer (t : Moment) (which : Which) (qnext : Bool) (msg : CStr) (drop : Bool) :
    Except Fault State := do
  let (queued, st) ← st.enqueue t which qnext msg drop
  if queued ∧ which = .mode then st.deqMsg t else .ok st

/-- `empty_msgq`. -/
def emptyMsgq : State := { st with modeq := .empty, mq := .empty, hq := .empty, burst := 0 }

end State

/-! ### Runs -/

inductive Event where
  | queueServer (t : Moment) (which : Which) (qnext : Bool) (msg : CStr) (drop : Bool)
  | deqMsg (t : Moment)
  | checkQueues (t : Moment) (oldnick newnick : CStr)
  | emptyMsgq

def step (st : State) : Event → Except Fault State
  | .queueServer t which qnext msg drop => st.queueServer t which qnext msg drop
  | .deqMsg t => st.deqMsg t
  | .checkQueues t oldnick newnick => .ok (st.checkQueues t oldnick newnick)
  | .emptyMsgq => .ok st.emptyMsgq

/-- The queue as `deq_kick` finds it after a purge, where it purges. -/
def purged (t : Moment) (cells : List (Nat × CStr)) : List (Nat × CStr) :=
  if t.cfg.optimizeKicks = 2 then
    (TailQueue.sweep (fun (u : Unit) msg => (u, purgeKick t.ismember msg)) () cells).2
  else cells

/-- A purge takes the last message only with all others. -/
def PurgeSafe (t : Moment) (cells : List (Nat × CStr)) : Prop :=
  t.cfg.optimizeKicks = 2 →
    TailQueue.dropsLast (fun (u : Unit) msg => (u, purgeKick t.ismember msg)) () cells = false ∨
      purged t cells = []

/-- The last message does not go into the kick at the head as a whole, and there is a nick to kick. -/
def MergeSafe (t : Moment) : List (Nat × CStr) → Prop
  | [] => True
  | head :: rest =>
    let kick := parseKick head.2
    let pass := mergeKick t.cfg.kickMethod kick
    hasPrefix "KICK" head.2 = true →
      TailQueue.dropsLast pass (State.firstNicks kick) rest = false ∧
        (TailQueue.sweep pass (State.firstNicks kick) rest).1.newnicks ≠ []

/-- `deq_kick` has a kick at the head to send. -/
def kicking (t : Moment) (cells : List (Nat × CStr)) : Bool :=
  t.cfg.optimizeKicks ≠ 0 ∧ cells.head?.any fun head => hasPrefix "KICK" head.2

/-- `deq_kick` leaves the last message where it is, and sends a kick of somebody. -/
def KickSafe (t : Moment) (cells : List (Nat × CStr)) : Prop :=
  kicking t cells = true → PurgeSafe t cells ∧ MergeSafe t (purged t cells)

/-- What `deq_kick` leaves to `fast_deq`, when it sends nothing. -/
def leftOver (t : Moment) (cells : List (Nat × CStr)) : List (Nat × CStr) :=
  if kicking t cells then if kicking t (purged t cells) then [] else purged t cells else cells

/-- `deq_kick` does no harm, and `fast_deq` stacks nothing. -/
def TurnSafe (t : Moment) (cells : List (Nat × CStr)) : Prop :=
  KickSafe t cells ∧ fastStacks t.cfg (leftOver t cells) = false

/-- The same for each turn of the loop over the mode queue. -/
def ModeSafe (t : Moment) : Nat → State → Prop
  | 0, _ => True
  | n + 1, st =>
    st.modeDone t = true ∨
      TurnSafe t st.modeq.cells ∧ ∀ st', st.modeStep t = .ok st' → ModeSafe t n st'

/-- The same for a pass of `deq_msg`. -/
def PassSafe (t : Moment) (st : State) : Prop :=
  match (st.tick t).turn t (st.due t) with
  | none => True
  | some .mode => ModeSafe t 4 (st.tick t)
  | some which => TurnSafe t ((st.tick t).queue which).cells

/-- The condition on a step. -/
def Safe (st : State) : Event → Prop
  | .queueServer t which qnext msg drop =>
    ∀ r, st.enqueue t which qnext msg drop = .ok r → r.1 = true ∧ which = .mode → PassSafe t r.2
  | .deqMsg t => PassSafe t st
  | _ => True

/-! ### The queues of a state -/

section Queues

variable {st : State} {which which' : Which} {q : Queue CStr}

@[simp] theorem queue_setQueue (st : State) (which : Which) (q : Queue CStr) :
    (st.setQueue which q).queue which = q := by
  cases which <;> rfl

theorem queue_setQueue_of_ne (st : State) (q : Queue CStr) (hne : which' ≠ which) :
    (st.setQueue which q).queue which' = st.queue which' := by
  cases which <;> cases which' <;> first | rfl | exact absurd rfl hne

@[simp] theorem queue_writeCounted (st : State) (t : Moment) (which which' : Which) (line : CStr) :
    (st.writeCounted t which line).queue which' = st.queue which' := by
  cases which' <;> rfl

/-- A queue is in order, and the next address is new to it. -/
structure QueueInv (next : Nat) (q : Queue CStr) : Prop extends Represents q where
  fresh : ∀ a ∈ q.cells.map Prod.fst, a < next

def Inv (st : State) : Prop := ∀ which, QueueInv st.nextAddr (st.queue which)

theorem Inv.setQueue (h : Inv st) (hq : QueueInv st.nextAddr q) : Inv (st.setQueue which q) := by
  intro which'
  have hnext : (st.setQueue which q).nextAddr = st.nextAddr := by
    cases which <;> rfl
  rw [hnext]
  by_cases hw : which' = which
  · rw [hw, queue_setQueue]
    exact hq
  · rw [queue_setQueue_of_ne st q hw]
    exact h which'

theorem Inv.writeCounted (h : Inv st) (t : Moment) (which : Which) (line : CStr) :
    Inv (st.writeCounted t which line) := by
  intro which'
  rw [queue_writeCounted]
  exact h which'

theorem QueueInv.sublist {next : Nat} {q q' : Queue CStr} (h : QueueInv next q)
    (hrep : Represents q') (hsub : (q'.cells.map Prod.fst).Sublist (q.cells.map Prod.fst)) :
    QueueInv next q' := ⟨hrep, fun a ha => h.fresh a (hsub.mem ha)⟩

theorem QueueInv.popFront {next : Nat} (h : QueueInv next q) (hne : q.cells ≠ []) :
    QueueInv next q.popFront := by
  refine h.sublist (h.toRepresents.popFront hne) ?_
  have hcells : q.popFront.cells = q.cells.tail := by
    unfold Queue.popFront Queue.mendLast
    split <;> rfl
  rw [hcells]
  exact (List.tail_sublist _).map _

theorem Inv.send (h : Inv st) (hq : QueueInv st.nextAddr q) (hne : q.cells ≠ []) (t : Moment)
    (which : Which) (line : CStr) :
    Inv (((st.setQueue which q).writeCounted t which line).setQueue which
      (((st.setQueue which q).writeCounted t which line).queue which).popFront) := by
  have hset : Inv (st.setQueue which q) := h.setQueue hq
  have hinv := hset.writeCounted t which line
  refine hinv.setQueue ((hinv which).popFront ?_)
  rw [queue_writeCounted, queue_setQueue]
  exact hne

end Queues

/-! ### Kicks -/

section Kicks

variable {t : Moment} {st st' : State} {which : Which} {head : Nat × CStr}
  {rest : List (Nat × CStr)} {done : Bool}

theorem purgeKicks_cells (st : State) (t : Moment) (which : Which) :
    ((st.purgeKicks t which).queue which).cells = (TailQueue.sweep
      (fun (u : Unit) msg => (u, purgeKick t.ismember msg)) () (st.queue which).cells).2 := by
  unfold State.purgeKicks
  rw [queue_setQueue]
  rfl

theorem inv_purgeKicks (h : Inv st)
    (hsafe : TailQueue.dropsLast (fun (u : Unit) msg => (u, purgeKick t.ismember msg)) ()
        (st.queue which).cells = false ∨
      (TailQueue.sweep (fun (u : Unit) msg => (u, purgeKick t.ismember msg)) ()
        (st.queue which).cells).2 = []) : Inv (st.purgeKicks t which) := by
  have hsub := TailQueue.sweep_sublist (fun (u : Unit) msg => (u, purgeKick t.ismember msg)) ()
    (st.queue which).cells
  refine h.setQueue ((h which).sublist ((h which).swept hsub ?_) hsub)
  exact hsafe.symm.imp id TailQueue.lastAddr_sweep

theorem sendKick_ok (h : Inv st) (hcells : (st.queue which).cells = head :: rest)
    (hkick : hasPrefix "KICK" head.2 = true) (hsafe : MergeSafe t (head :: rest)) :
    ∃ st', st.sendKick t which head rest = .ok st' ∧ Inv st' := by
  obtain ⟨hlast, hne⟩ := hsafe hkick
  unfold State.sendKick
  dsimp only
  rw [if_neg hne]
  refine ⟨_, rfl, ?_⟩
  have hsub : ((head :: (TailQueue.sweep (mergeKick t.cfg.kickMethod (parseKick head.2))
      (State.firstNicks (parseKick head.2)) rest).2).map Prod.fst).Sublist
      ((st.queue which).cells.map Prod.fst) := by
    rw [hcells]
    exact (TailQueue.sweep_sublist _ _ _).cons_cons _
  refine h.send ((h which).sublist ((h which).swept hsub (.inr ?_)) hsub) (List.cons_ne_nil _ _) t
    which _
  rw [hcells]
  exact TailQueue.lastAddr_cons_sweep head hlast

theorem kicking_cons (hopt : t.cfg.optimizeKicks ≠ 0) :
    kicking t (head :: rest) = hasPrefix "KICK" head.2 := by
  unfold kicking
  simp [hopt]

/-- A pass of `deq_kick` that leaves the last message where it is. -/
theorem deqKick_ok (h : Inv st) (hne : (st.queue which).cells ≠ [])
    (hsafe : KickSafe t (st.queue which).cells) :
    ∃ done st', st.deqKick t which = .ok (done, st') ∧ Inv st' ∧
      (done = false →
        (st'.queue which).cells ≠ [] ∧
          (st'.queue which).cells = leftOver t (st.queue which).cells) := by
  unfold State.deqKick leftOver
  by_cases hopt : t.cfg.optimizeKicks = 0
  · rw [if_pos hopt, if_neg (by simp [kicking, hopt])]
    exact ⟨_, _, rfl, h, fun _ => ⟨hne, rfl⟩⟩
  rw [if_neg hopt]
  obtain ⟨head, rest, hcells⟩ := List.exists_cons_of_ne_nil hne
  rw [hcells] at hsafe ⊢
  dsimp only
  by_cases hkick : hasPrefix "KICK" head.2 = true
  · have hgoes : kicking t (head :: rest) = true := (kicking_cons hopt).trans hkick
    obtain ⟨hpurge, hmerge⟩ := hsafe hgoes
    obtain ⟨st₁, hst₁, hinv, hpurged⟩ : ∃ st₁, (if t.cfg.optimizeKicks = 2 then
        st.purgeKicks t which else st) = st₁ ∧ Inv st₁ ∧
        (st₁.queue which).cells = purged t (head :: rest) := by
      refine ⟨_, rfl, ?_, ?_⟩
      · split
        · rename_i htwo
          have hlast := hpurge htwo
          rw [purged, if_pos htwo, ← hcells] at hlast
          exact inv_purgeKicks h hlast
        · exact h
      · unfold purged
        rw [← hcells]
        split
        · exact purgeKicks_cells st t which
        · rfl
    rw [if_neg (not_not_intro hkick), if_pos hgoes, hst₁, ← hpurged]
    rw [← hpurged] at hmerge
    cases hcells₁ : (st₁.queue which).cells with
    | nil => exact ⟨_, _, rfl, hinv, fun hdone => nomatch hdone⟩
    | cons head₁ rest₁ =>
      dsimp only
      rw [kicking_cons hopt]
      by_cases hkick₁ : hasPrefix "KICK" head₁.2 = true
      · rw [hcells₁] at hmerge
        obtain ⟨st₂, hsend, hinv₂⟩ := sendKick_ok hinv hcells₁ hkick₁ hmerge
        rw [if_neg (not_not_intro hkick₁), hsend]
        exact ⟨_, _, rfl, hinv₂, fun hdone => nomatch hdone⟩
      · rw [if_pos hkick₁, if_neg hkick₁]
        refine ⟨_, _, rfl, hinv, fun _ => ?_⟩
        rw [hcells₁]
        exact ⟨List.cons_ne_nil _ _, rfl⟩
  · rw [if_pos hkick, if_neg (by rw [kicking_cons hopt]; exact hkick)]
    refine ⟨_, _, rfl, h, fun _ => ?_⟩
    rw [hcells]
    exact ⟨List.cons_ne_nil _ _, rfl⟩

end Kicks

/-! ### Passes -/

section Passes

variable {t : Moment} {st st' : State} {which : Which} {done : Bool}

/-- `fast_deq` leaves alone a queue in which it stacks nothing. -/
theorem fastDeq_eq (hne : (st.queue which).cells ≠ [])
    (hstacks : fastStacks t.cfg (st.queue which).cells = false) :
    st.fastDeq t which = .ok (false, st) := by
  unfold State.fastDeq
  split
  · rfl
  obtain ⟨head, rest, hcells⟩ := List.exists_cons_of_ne_nil hne
  rw [hcells] at hstacks ⊢
  dsimp only
  rw [hstacks]
  rfl

theorem sendHead_ok (h : Inv st) (hne : (st.queue which).cells ≠ []) :
    ∃ st', st.sendHead t which = .ok st' ∧ Inv (st'.mendLast which) := by
  obtain ⟨head, rest, hcells⟩ := List.exists_cons_of_ne_nil hne
  unfold State.sendHead
  rw [hcells]
  refine ⟨_, rfl, ?_⟩
  have hinv := h.writeCounted t which head.2
  have hpop : QueueInv st.nextAddr ((st.writeCounted t which head.2).queue which).popFront := by
    refine (hinv which).popFront ?_
    rw [queue_writeCounted]
    exact hne
  unfold State.mendLast
  rw [queue_setQueue]
  have hsame : ∀ (s : State) (q q' : Queue CStr), (s.setQueue which q).setQueue which q' =
      s.setQueue which q' := by
    intro s q q'
    cases which <;> rfl
  rw [hsame]
  exact hinv.setQueue hpop

theorem mendLast_of_ne (hne : (st.queue which).cells ≠ []) : st.mendLast which = st := by
  unfold State.mendLast Queue.mendLast
  rw [if_neg hne]
  cases which <;> rfl

theorem Inv.mendLast (h : Inv st) (which : Which) : Inv (st.mendLast which) := by
  by_cases hnil : (st.queue which).cells = []
  · have hlast : (st.queue which).last = none := by
      rw [(h which).last, hnil]
      rfl
    unfold State.mendLast Queue.mendLast
    rw [if_pos hnil, ← hlast]
    exact h.setQueue (h which)
  · rw [mendLast_of_ne hnil]
    exact h

theorem modeStep_ok (h : Inv st) (hne : st.modeq.cells ≠ []) (hsafe : TurnSafe t st.modeq.cells) :
    ∃ st', st.modeStep t = .ok st' ∧ Inv (st'.mendLast .mode) := by
  obtain ⟨done, st₁, hkick, h₁, hleft⟩ := @deqKick_ok t st .mode h hne hsafe.1
  unfold State.modeStep
  rw [hkick]
  cases done with
  | true => exact ⟨_, rfl, @Inv.mendLast { st₁ with burst := st₁.burst + 1 } h₁ .mode⟩
  | false =>
    obtain ⟨hne₁, hcells₁⟩ := hleft rfl
    have hfast : st₁.fastDeq t .mode = .ok (false, st₁) := by
      refine fastDeq_eq hne₁ ?_
      rw [hcells₁]
      exact hsafe.2
    obtain ⟨st₂, hhead, h₂⟩ := @sendHead_ok t st₁ .mode h₁ hne₁
    change ∃ st', (if st₁.modeq.cells = [] then Except.ok st₁ else st₁.fastDeq t .mode >>= _) = _ ∧ _
    have hnil : st₁.modeq.cells ≠ [] := hne₁
    rw [if_neg hnil, hfast]
    change ∃ st', (st₁.sendHead t .mode).map _ = _ ∧ _
    rw [hhead]
    exact ⟨_, rfl, h₂⟩

theorem modeLoop_ok {n : Nat} (h : Inv (st.mendLast .mode)) (hsafe : ModeSafe t n st) :
    ∃ st', State.modeLoop t n st = .ok st' ∧ Inv (st'.mendLast .mode) := by
  induction n generalizing st with
  | zero => exact ⟨st, rfl, h⟩
  | succ n ih =>
    rw [State.modeLoop]
    split
    · exact ⟨st, rfl, h⟩
    rename_i hgo
    obtain ⟨hturn, hrest⟩ := hsafe.resolve_left hgo
    have hne : st.modeq.cells ≠ [] := by
      intro hnil
      refine hgo ?_
      unfold State.modeDone
      exact decide_eq_true (.inl hnil)
    have hmend : st.mendLast .mode = st := mendLast_of_ne hne
    rw [hmend] at h
    obtain ⟨st₁, hstep, h₁⟩ := modeStep_ok h hne hturn
    rw [hstep]
    exact ih h₁ (hrest st₁ hstep)

theorem sendOne_ok (h : Inv st) (hne : (st.queue which).cells ≠ [])
    (hsafe : TurnSafe t (st.queue which).cells) :
    ∃ st', st.sendOne t which = .ok st' ∧ Inv st' := by
  obtain ⟨done, st₁, hkick, h₁, hleft⟩ := deqKick_ok h hne hsafe.1
  unfold State.sendOne
  rw [hkick]
  cases done with
  | true => exact ⟨st₁, rfl, h₁⟩
  | false =>
    obtain ⟨hne₁, hcells₁⟩ := hleft rfl
    have hfast : st₁.fastDeq t which = .ok (false, st₁) := by
      refine fastDeq_eq hne₁ ?_
      rw [hcells₁]
      exact hsafe.2
    obtain ⟨st₂, hhead, h₂⟩ := @sendHead_ok t st₁ which h₁ hne₁
    change ∃ st', (st₁.fastDeq t which >>= _) = _ ∧ _
    rw [hfast]
    change ∃ st', (st₁.sendHead t which).map _ = _ ∧ _
    rw [hhead]
    exact ⟨_, rfl, h₂⟩

theorem inv_tick (h : Inv st) (t : Moment) : Inv (st.tick t) := by
  unfold State.tick
  split
  · exact fun which => h which
  · exact h

theorem cells_of_turn {ok : Bool} (hturn : st.turn t ok = some which) :
    (st.queue which).cells ≠ [] := by
  unfold State.turn at hturn
  split at hturn
  · cases hturn
  split at hturn
  · obtain rfl := Option.some.inj hturn
    assumption
  split at hturn
  · cases hturn
  split at hturn
  · obtain rfl := Option.some.inj hturn
    assumption
  split at hturn
  · cases hturn
  rename_i hhelp
  obtain rfl := Option.some.inj hturn
  exact fun hnil => hhelp (.inl hnil)

theorem deqMsg_ok (h : Inv st) (hsafe : PassSafe t st) : ∃ st', st.deqMsg t = .ok st' ∧ Inv st' := by
  have htick := inv_tick h t
  unfold State.deqMsg
  unfold PassSafe at hsafe
  dsimp only
  cases hturn : (st.tick t).turn t (st.due t) with
  | none => exact ⟨_, rfl, htick⟩
  | some which =>
    rw [hturn] at hsafe
    have hne := cells_of_turn hturn
    cases which with
    | mode =>
      obtain ⟨st₁, hloop, h₁⟩ := modeLoop_ok (htick.mendLast .mode) hsafe
      dsimp only
      rw [hloop]
      exact ⟨_, rfl, h₁⟩
    | server =>
      have hburst : Inv { st.tick t with burst := (st.tick t).burst + 1 } := htick
      exact sendOne_ok hburst hne hsafe
    | help => exact sendOne_ok htick hne hsafe

theorem enqueue_ok (h : Inv st) (t : Moment) (which : Which) (qnext : Bool) (msg : CStr)
    (drop : Bool) : ∃ queued st', st.enqueue t which qnext msg drop = .ok (queued, st') ∧ Inv st' := by
  unfold State.enqueue
  dsimp only
  split
  · exact ⟨_, _, rfl, h⟩
  split
  · refine ⟨_, _, rfl, ?_⟩
    intro which'
    have hqueue := h which'
    cases which' <;> exact hqueue
  split
  · split
    · exact ⟨_, _, rfl, h⟩
    have hnew : st.nextAddr ∉ (st.queue which).cells.map Prod.fst := fun hmem =>
      Nat.lt_irrefl _ ((h which).fresh _ hmem)
    generalize hbuf : (msg.takeWhile fun c => c ≠ '\r' ∧ c ≠ '\n') = buf
    obtain ⟨q, hq, hqueue⟩ : ∃ q, (if qnext = true then
        some ((st.queue which).pushFront (st.nextAddr, buf))
        else (st.queue which).pushBack (st.nextAddr, buf)) = some q ∧
        QueueInv (st.nextAddr + 1) q := by
      split
      · refine ⟨_, rfl, (h which).toRepresents.pushFront hnew, fun a ha => ?_⟩
        rcases List.mem_cons.1 ha with rfl | ha
        · exact Nat.lt_succ_self _
        · exact Nat.lt_succ_of_lt ((h which).fresh a ha)
      · refine ⟨_, TailQueue.pushBack_of_represents (h which).toRepresents _,
          (h which).toRepresents.append hnew, fun a ha => ?_⟩
        rw [List.map_append, List.mem_append] at ha
        rcases ha with ha | ha
        · exact Nat.lt_succ_of_lt ((h which).fresh a ha)
        · obtain rfl : a = st.nextAddr := by simpa using ha
          exact Nat.lt_succ_self _
    have hlater : Inv { st with nextAddr := st.nextAddr + 1 } := by
      intro which'
      have hrep := (h which').toRepresents
      have hfresh := fun a ha => Nat.lt_succ_of_lt ((h which').fresh a ha)
      cases which' <;> exact ⟨hrep, hfresh⟩
    have hset : Inv (State.setQueue { st with nextAddr := st.nextAddr + 1 } which q) :=
      hlater.setQueue hqueue
    rw [hq]
    refine ⟨_, _, rfl, ?_⟩
    cases which <;> exact hset
  · exact ⟨_, _, rfl, h⟩

theorem overNicks_induct {β : Type} {f : β → (nick rest : CStr) → β} {P : β → Prop}
    (hf : ∀ b nick rest, P b → P (f b nick rest)) {n : Nat} {b : β} {nicks : CStr} (hb : P b) :
    P (overNicks f n b nicks) := by
  induction n generalizing b nicks with
  | zero => exact hb
  | succ n ih =>
    rw [overNicks]
    split
    · exact hb
    · exact ih (hf _ _ _ hb)

theorem renameKick_isSome (oldnick newnick msg : CStr) :
    (renameKick oldnick newnick msg).isSome = true := by
  have hne : (renameNicks oldnick newnick (parseKick msg)).2 = true →
      (renameNicks oldnick newnick (parseKick msg)).1 ≠ [] := by
    refine overNicks_induct (P := fun acc : CStr × Bool => acc.2 = true → acc.1 ≠ []) ?_ ?_
    · intro acc nick rest _
      split
      · simp
      · simp
    · intro h
      cases h
  unfold renameKick
  dsimp only
  split
  · split
    · rfl
    rename_i hchanged
    split
    · rename_i hnil
      exact absurd hnil (hne (by simpa using hchanged))
    · rfl
  · rfl

theorem inv_parseQ (h : Inv st) (oldnick newnick : CStr) (which : Which) :
    Inv (st.parseQ oldnick newnick which) := by
  have hsub := TailQueue.sweep_sublist
    (fun (u : Unit) msg => (u, renameKick oldnick newnick msg)) () (st.queue which).cells
  refine h.setQueue ((h which).sublist ((h which).swept hsub (.inr ?_)) hsub)
  exact TailQueue.lastAddr_sweep
    (TailQueue.dropsLast_eq_false (fun _ msg => renameKick_isSome oldnick newnick msg) _ _)

theorem inv_checkQueues (h : Inv st) (t : Moment) (oldnick newnick : CStr) :
    Inv (st.checkQueues t oldnick newnick) := by
  unfold State.checkQueues
  split
  · exact inv_parseQ (inv_parseQ (inv_parseQ h _ _ .mode) _ _ .server) _ _ .help
  · exact h

end Passes

/-! ### Runs keep the queues in order -/

theorem inv_start : Inv State.start := by
  intro which
  cases which <;> exact ⟨TailQueue.represents_empty, fun _ ha => nomatch ha⟩

theorem step_ok {st : State} {e : Event} (h : Inv st) (hsafe : Safe st e) :
    ∃ st', step st e = .ok st' ∧ Inv st' := by
  cases e with
  | queueServer t which qnext msg drop =>
    obtain ⟨queued, st₁, henq, h₁⟩ := enqueue_ok h t which qnext msg drop
    change ∃ st', st.queueServer t which qnext msg drop = .ok st' ∧ _
    unfold State.queueServer
    rw [henq]
    change ∃ st', (if queued = true ∧ which = .mode then st₁.deqMsg t else Except.ok st₁) = _ ∧ _
    split
    · rename_i hmode
      exact deqMsg_ok h₁ (hsafe (queued, st₁) henq hmode)
    · exact ⟨st₁, rfl, h₁⟩
  | deqMsg t => exact deqMsg_ok h hsafe
  | checkQueues t oldnick newnick => exact ⟨_, rfl, inv_checkQueues h t oldnick newnick⟩
  | emptyMsgq =>
    refine ⟨_, rfl, ?_⟩
    intro which
    cases which <;> exact ⟨TailQueue.represents_empty, fun _ ha => nomatch ha⟩

instance (t : Moment) (cells : List (Nat × CStr)) : Decidable (PurgeSafe t cells) :=
  inferInstanceAs (Decidable (_ → _))

instance (t : Moment) : ∀ cells, Decidable (MergeSafe t cells)
  | [] => isTrue trivial
  | _ :: _ => inferInstanceAs (Decidable (_ → _ ∧ _))

instance (t : Moment) (cells : List (Nat × CStr)) : Decidable (KickSafe t cells) :=
  inferInstanceAs (Decidable (_ → _))

instance (t : Moment) (cells : List (Nat × CStr)) : Decidable (TurnSafe t cells) :=
  inferInstanceAs (Decidable (_ ∧ _))

instance decidableModeSafe (t : Moment) : ∀ n st, Decidable (ModeSafe t n st)
  | 0, _ => isTrue trivial
  | n + 1, _ =>
    have := decidableModeSafe t n
    inferInstanceAs (Decidable (_ ∨ _ ∧ _))

instance (t : Moment) (st : State) : Decidable (PassSafe t st) := by
  unfold PassSafe
  split <;> infer_instance

instance decidableSafe (st : State) : ∀ e, Decidable (Safe st e)
  | .queueServer _ _ _ _ _ => inferInstanceAs (Decidable (∀ _, _))
  | .deqMsg t => inferInstanceAs (Decidable (PassSafe t st))
  | .checkQueues _ _ _ => isTrue trivial
  | .emptyMsgq => isTrue trivial

/-- Kicks are put together by four, and nobody is on a channel. -/
def evening : Moment where
  now := 100
  serv := true
  ratelimit := true
  cfg := ⟨2, 300, 0, 4, 1, 4, [], [], false, false, false⟩
  ismember _ _ := false
  calcPenalty _ := 0

def say (msg : String) : Event := .queueServer evening .server false msg.toList false

end Eggdrop.Msgq
