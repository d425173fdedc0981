import Eggdrop.Lib.Run
import Eggdrop.Net.Sockgets
import Eggdrop.Botnet.Tandem

/-!
# Messages — what the scripts of the bots tell each other

`putallbots` tells every bot, `putbot` one, and `dccbroadcast` the users of all.  A bot calls its
scripts and hands the line on, from whatever link it came, as long as it came from the right one.
While the lists of the bots are settled, the lines go their way along the links, and every link is
a queue of lines in each direction; in which order the queues are read is open.  A line is cut
where it is written, and again by the line buffer that reads it, which has less room.

* `readLine_chatLine` and its like: what is written is read, as much of it as there is room for.
* `dccBot_eq`: what a bot does with a line depends on what it reads only.

The lines of other commands do not reach the scripts this way and are left out, and so is what the
scripts do: what they send is another event.
-/

namespace Eggdrop.Tandem
namespace Messages

open List

/-! ### botmsg.c -/

def NEAT_BOTNET : Int := 1029900

def LOGLINEMAX : Nat := 9000

structure Bot where
  net : Botnet
  /-- whether the user of a link has `BOT_ISOLATE` -/
  isolate : Nat → Bool

/-- The bind that a line triggers. -/
inductive Call where
  | bcst (from_ text : CStr)
  | bot (from_ opcode param : CStr)
deriving DecidableEq

/-- Why `fake_alert` is called. -/
inductive Fake where
  | bot | direction
deriving DecidableEq

/-- The lines that are sent, each with its link, and the binds that are triggered. -/
structure Outcome where
  out : List (Nat × CStr)
  calls : List Call

/-- `dprint`: a line that is too long is cut. -/
def dprint (buf : CStr) : CStr := buf.take (LOGLINEMAX - 11)

namespace Bot

variable (b : Bot)

/-- The check of `send_tand_but` for one link. -/
def sendsTo (x : Option Nat) (iso : Bool) (i : Nat) : Bool :=
  b.net.dcc[i]?.any fun d =>
    d.type == .bot && x != some i && NEAT_BOTNET ≤ d.numver && (!iso || !b.isolate i)

/-- A negative length stands for `iso`. -/
def sendTandBut (x : Option Nat) (buf : CStr) (iso : Bool) : List (Nat × CStr) :=
  (List.range b.net.dcc.length).filterMap fun i =>
    if b.sendsTo x iso i then some (i, dprint buf) else none

def chatLine (botnick data : CStr) : CStr := 'c' :: 't' :: ' ' :: (botnick ++ ' ' :: data)

def zapfLine (a b c : CStr) : CStr := 'z' :: ' ' :: (a ++ ' ' :: (b ++ ' ' :: c))

def zapfBroadLine (a : CStr) (b : Option CStr) (c : CStr) : CStr :=
  match b with
  | some b => 'z' :: 'b' :: ' ' :: (a ++ ' ' :: (b ++ ' ' :: c))
  | none => 'z' :: 'b' :: ' ' :: (a ++ ' ' :: c)

def botnetSendChat (idx : Option Nat) (botnick data : CStr) : List (Nat × CStr) :=
  if b.net.tandbot ≠ [] then b.sendTandBut idx (chatLine botnick data) true else []

def botnetSendZapf (idx : Nat) (a b c : CStr) : List (Nat × CStr) := [(idx, dprint (zapfLine a b c))]

def botnetSendZapfBroad (idx : Option Nat) (a : CStr) (b' : Option CStr) (c : CStr) :
    List (Nat × CStr) :=
  if b.net.tandbot ≠ [] then b.sendTandBut idx (zapfBroadLine a b' c) false else []

/-! ### botcmd.c -/

/-- `chat <from> <notice>` -/
def botChat (idx : Nat) (par : CStr) : Except Fake Outcome :=
  if b.isolate idx then .ok ⟨[], []⟩
  else
    let (from_, par) := newsplit par
    if '@' ∈ from_ then .error .bot
    else if b.net.nextbot from_ ≠ some idx then .error .direction
    else .ok ⟨b.botnetSendChat (some idx) from_ par, [.bcst from_ par]⟩

/-- `zapf <frombot> <tobot> <code [param]>` -/
def botZapf (idx : Nat) (par : CStr) : Except Fake Outcome :=
  let (from_, par) := newsplit par
  let (to_, par) := newsplit par
  if b.net.nextbot from_ ≠ some idx then .error .direction
  else if strcaseEq to_ b.net.botnetnick then
    let (opcode, par) := newsplit par
    .ok ⟨[], [.bot from_ opcode par]⟩
  else
    match b.net.nextbot to_ with
    | some i => .ok ⟨botnetSendZapf i from_ to_ par, []⟩
    | none => .ok ⟨[], []⟩

/-- `zapf-broad <frombot> <code [param]>` -/
def botZapfbroad (idx : Nat) (par : CStr) : Except Fake Outcome :=
  let (from_, par) := newsplit par
  let (opcode, par) := newsplit par
  if b.net.nextbot from_ ≠ some idx then .error .direction
  else .ok ⟨b.botnetSendZapfBroad (some idx) from_ (some opcode) par, [.bot from_ opcode par]⟩

/-- The command of a line and its arguments. -/
def cutCode (line : CStr) : CStr × CStr :=
  (line.takeWhile (· != ' '), (line.dropWhile (· != ' ')).drop 1)

/-- The table of commands folds their names; the other commands do nothing here. -/
def dccBot (idx : Nat) (line : CStr) : Except Fake Outcome :=
  let (code, msg) := cutCode line
  if istrFold code = ['c', 't'] then b.botChat idx msg
  else if istrFold code = ['z'] then b.botZapf idx msg
  else if istrFold code = ['z', 'b'] then b.botZapfbroad idx msg
  else .ok ⟨[], []⟩

/-! ### tcldcc.c -/

def tclDccbroadcast (data : CStr) : List (Nat × CStr) :=
  b.botnetSendChat none b.net.botnetnick data

/-- `none` stands for `TCL_ERROR`: the bot is not on the botnet. -/
def tclPutbot (to_ data : CStr) : Option (List (Nat × CStr)) :=
  (b.net.nextbot to_).map fun i => botnetSendZapf i b.net.botnetnick to_ data

def tclPutallbots (data : CStr) : List (Nat × CStr) :=
  b.botnetSendZapfBroad none b.net.botnetnick none data

end Bot

/-! ### The bots and the links between them -/

/-- A text that goes in one line. -/
abbrev Line := {s : CStr // ∀ c ∈ s, c ≠ '\n' ∧ c ≠ '\r'}

/-- What is said to the other bots, as they read it. -/
inductive Body where
  | chat (text : CStr)
  | zapf (to_ par : CStr)
  | zapfBroad (opcode par : CStr)
deriving DecidableEq

/-- The call of the bot that a message is for. -/
def Body.call (from_ : CStr) : Body → Call
  | .chat text => .bcst from_ text
  | .zapf _ par => .bot from_ (newsplit par).1 (newsplit par).2
  | .zapfBroad opcode par => .bot from_ opcode par

def Call.from : Call → CStr
  | .bcst from_ _ => from_
  | .bot from_ _ _ => from_

/-! ### linebuf.c -/

/-- As many bytes of a line as the line buffer has room for. -/
def lineMax : Nat := Net.linebufSize

/-- `linebuf_copy`: the line that a bot gets. -/
def linebufCopy (line : CStr) : CStr := line.take lineMax

/-- When its room is used up a line is complete: what has not come yet, behind the first `came` bytes,
will be a line of its own. -/
def leftOver (came : Nat) (line : CStr) : List CStr :=
  if lineMax < came ∧ came < line.length then [line.drop came] else []

/-- What fits on a line behind `n` other characters. -/
def cut (n : Nat) (text : CStr) : CStr := text.take (lineMax - n)

def chatBody (name data : CStr) : Body := .chat (cut (name.length + 4) data)

def zapfBody (name to_ data : CStr) : Body := .zapf to_ (cut (name.length + to_.length + 4) data)

def zapfBroadBody (name data : CStr) : Body :=
  .zapfBroad (newsplit (cut (name.length + 4) data)).1 (newsplit (cut (name.length + 4) data)).2

variable {V : Type*} [DecidableEq V]

section Net

variable (net : V → Bot)

def name (v : V) : CStr := (net v).net.botnetnick

/-- The link of a bot to another one. -/
def link (v w : V) : Option Nat :=
  (net v).net.dcc.findIdx? fun d => strcaseEq d.nick (name net w) && d.type == .bot

structure State (V : Type*) where
  wire : V → V → List CStr
  heard : V → List Call
  /-- what each bot has sent of its own -/
  said : V → List Body

def State.init : State V := ⟨fun _ _ => [], fun _ => [], fun _ => []⟩

/-- The lines of one link. -/
def linesTo (i : Option Nat) (out : List (Nat × CStr)) : List CStr :=
  out.filterMap fun p => if i = some p.1 then some p.2 else none

def State.transmit (s : State V) (v : V) (out : List (Nat × CStr)) : State V :=
  { s with wire := fun x y => s.wire x y ++ if x = v then linesTo (link net v y) out else [] }

def State.call (s : State V) (v : V) (calls : List Call) : State V :=
  { s with heard := fun x => s.heard x ++ if x = v then calls else [] }

def State.say (s : State V) (v : V) (body : Body) : State V :=
  { s with said := fun x => s.said x ++ if x = v then [body] else [] }

def State.setWire (s : State V) (u v : V) (q : List CStr) : State V :=
  { s with wire := fun x y => if x = u ∧ y = v then q else s.wire x y }

inductive Event (V : Type*) where
  | dccbroadcast (v : V) (data : Line)
  | putbot (v : V) (to_ data : Line)
  | putallbots (v : V) (data : Line)
  /-- a bot reads the next line of a link, when `came` bytes of it have come or all of it -/
  | read (u v : V) (came : Nat)

def step (s : State V) : Event V → Except Fake (State V)
  | .dccbroadcast v data =>
    .ok ((s.transmit net v ((net v).tclDccbroadcast data)).say v (chatBody (name net v) data))
  | .putbot v to_ data =>
    match (net v).tclPutbot to_ data with
    | none => .ok s
    | some out => .ok ((s.transmit net v out).say v (zapfBody (name net v) to_ data))
  | .putallbots v data =>
    .ok ((s.transmit net v ((net v).tclPutallbots data)).say v (zapfBroadBody (name net v) data))
  | .read u v came =>
    match s.wire u v, link net v u with
    | line :: q, some idx =>
      match (net v).dccBot idx (linebufCopy line) with
      | .error fake => .error fake
      | .ok o =>
        .ok (((s.setWire u v (leftOver came line ++ q)).transmit net v o.out).call v o.calls)
    | _, _ => .ok s

/-- No read ends within a line of which more has come than there is room for. -/
def Whole (s : State V) : Event V → Prop
  | .read u v came => ∀ line ∈ (s.wire u v).head?, came ≤ lineMax ∨ line.length ≤ came
  | _ => True

end Net

/-! ### Lines are read as they are written -/

/-- What a bot makes of a line. -/
def readLine (line : CStr) : Option (CStr × Body) :=
  let (code, msg) := Bot.cutCode line
  let (from_, par) := newsplit msg
  if istrFold code = ['c', 't'] then some (from_, .chat par)
  else if istrFold code = ['z'] then some (from_, .zapf (newsplit par).1 (newsplit par).2)
  else if istrFold code = ['z', 'b'] then
    some (from_, .zapfBroad (newsplit par).1 (newsplit par).2)
  else none

/-- The line that a bot hands on. -/
def Body.line (name : CStr) : Body → CStr
  | .chat text => Bot.chatLine name text
  | .zapf to_ par => Bot.zapfLine name to_ par
  | .zapfBroad opcode par => Bot.zapfBroadLine name (some opcode) par

/-- What has been read: it is not cut again, but for the blank behind an opcode. -/
def Body.Short (name : CStr) : Body → Prop
  | .chat text => name.length + 4 + text.length ≤ lineMax
  | .zapf to_ par => to_ ≠ [] ∧ ' ' ∉ to_ ∧ name.length + to_.length + 4 + par.length ≤ lineMax
  | .zapfBroad opcode par =>
    ' ' ∉ opcode ∧ (opcode = [] → par = []) ∧ name.length + 4 + opcode.length ≤ lineMax ∧
      (par = [] ∨ name.length + 5 + opcode.length + par.length ≤ lineMax)

section Lines

variable {name to_ data par from_ : CStr} {b : Bot} {idx : Nat}

theorem take_word {a : CStr} {n : Nat} (h : a.length < n) (text : CStr) :
    (a ++ ' ' :: text).take n = a ++ ' ' :: text.take (n - (a.length + 1)) := by
  obtain ⟨k, rfl⟩ : ∃ k, n = a.length + (k + 1) := ⟨n - (a.length + 1), by omega⟩
  rw [take_length_add_append, take_succ_cons]
  congr 3
  omega

theorem cut_of_le {n : Nat} {text : CStr} (h : n + text.length ≤ lineMax) : cut n text = text :=
  take_of_length_le (by omega)

theorem length_cut (n : Nat) (text : CStr) : (cut n text).length ≤ lineMax - n := length_take_le _ _

/-- The line buffer has less room than `dprint`. -/
theorem linebufCopy_dprint (buf : CStr) : linebufCopy (dprint buf) = linebufCopy buf := by
  rw [linebufCopy, dprint, take_take, Nat.min_eq_left (by decide), linebufCopy]

theorem linebufCopy_two {a b : CStr} (h : a.length + b.length + 2 ≤ lineMax) (data : CStr) :
    linebufCopy (dprint (a ++ ' ' :: (b ++ ' ' :: data))) =
      a ++ ' ' :: (b ++ ' ' :: cut (a.length + b.length + 2) data) := by
  have hrest : lineMax - (a.length + 1) - (b.length + 1) = lineMax - (a.length + b.length + 2) := by
    omega
  rw [linebufCopy_dprint, linebufCopy, take_word (by omega), take_word (by omega), cut, hrest]

theorem cutCode_word {code : CStr} (hcode : ' ' ∉ code) (rest : CStr) :
    Bot.cutCode (code ++ ' ' :: rest) = (code, rest) := by
  have hall : ∀ c ∈ code, (c != ' ') = true := by
    intro c hc
    rw [bne_iff_ne]
    rintro rfl
    exact hcode hc
  rw [Bot.cutCode, takeWhile_append_of_pos hall, dropWhile_append_of_pos hall]
  simp

section Named

variable (hne : name ≠ []) (hword : ' ' ∉ name)

include hne hword

theorem readLine_chat (text : CStr) :
    readLine (['c', 't'] ++ ' ' :: (name ++ ' ' :: text)) = some (name, .chat text) := by
  rw [readLine, cutCode_word (by decide)]
  simp only [newsplit_word _ hne hword]
  rw [if_pos (by decide)]

theorem readLine_zapf (text : CStr) :
    readLine (['z'] ++ ' ' :: (name ++ ' ' :: text)) =
      some (name, .zapf (newsplit text).1 (newsplit text).2) := by
  rw [readLine, cutCode_word (by decide)]
  simp only [newsplit_word _ hne hword]
  rw [if_neg (by decide), if_pos (by decide)]

theorem readLine_zapfBroad (text : CStr) :
    readLine (['z', 'b'] ++ ' ' :: (name ++ ' ' :: text)) =
      some (name, .zapfBroad (newsplit text).1 (newsplit text).2) := by
  rw [readLine, cutCode_word (by decide)]
  simp only [newsplit_word _ hne hword]
  rw [if_neg (by decide), if_neg (by decide), if_pos (by decide)]

theorem readLine_chatLine (h : name.length + 4 ≤ lineMax) (data : CStr) :
    readLine (linebufCopy (dprint (Bot.chatLine name data))) = some (name, chatBody name data) := by
  have hlen : ['c', 't'].length + name.length + 2 = name.length + 4 := by
    simp only [length_cons, length_nil]
    omega
  have hcut := linebufCopy_two (hlen.trans_le h) data
  rw [hlen] at hcut
  rw [show Bot.chatLine name data = ['c', 't'] ++ ' ' :: (name ++ ' ' :: data) from rfl, hcut,
    readLine_chat hne hword, chatBody]

theorem readLine_zapfLine (hto : to_ ≠ []) (htoword : ' ' ∉ to_)
    (h : name.length + to_.length + 4 ≤ lineMax) (data : CStr) :
    readLine (linebufCopy (dprint (Bot.zapfLine name to_ data))) = some (name, zapfBody name to_ data) := by
  have hlen : ['z'].length + name.length + 2 = name.length + 3 := by
    simp only [length_cons, length_nil]
    omega
  have hcut := linebufCopy_two (a := ['z']) (b := name) (by omega) (to_ ++ ' ' :: data)
  have hrest : lineMax - (name.length + 3) - (to_.length + 1) =
      lineMax - (name.length + to_.length + 4) := by omega
  rw [hlen, cut, take_word (by omega), hrest] at hcut
  rw [show Bot.zapfLine name to_ data = ['z'] ++ ' ' :: (name ++ ' ' :: (to_ ++ ' ' :: data)) from rfl,
    hcut, readLine_zapf hne hword, newsplit_word _ hto htoword, zapfBody, cut]

theorem readLine_zapfBroadLine (h : name.length + 4 ≤ lineMax) (data : CStr) :
    readLine (linebufCopy (dprint (Bot.zapfBroadLine name none data))) =
      some (name, zapfBroadBody name data) := by
  have hlen : ['z', 'b'].length + name.length + 2 = name.length + 4 := by
    simp only [length_cons, length_nil]
    omega
  have hcut := linebufCopy_two (hlen.trans_le h) data
  rw [hlen] at hcut
  rw [show Bot.zapfBroadLine name none data = ['z', 'b'] ++ ' ' :: (name ++ ' ' :: data) from rfl,
    hcut, readLine_zapfBroad hne hword, zapfBroadBody]

omit hne hword in
theorem newsplit_cut {opcode : CStr} {n : Nat} (hop : ' ' ∉ opcode) (hnil : opcode = [] → par = [])
    (hlen : n + opcode.length ≤ lineMax) (hpar : par = [] ∨ n + 1 + opcode.length + par.length ≤ lineMax) :
    newsplit (cut n (opcode ++ ' ' :: par)) = (opcode, par) := by
  rcases Nat.lt_or_ge (n + opcode.length) lineMax with hlt | hge
  · have hwhole : cut n (opcode ++ ' ' :: par) = opcode ++ ' ' :: par := by
      refine cut_of_le ?_
      rw [length_append, length_cons]
      rcases hpar with rfl | hpar
      · rw [length_nil]
        omega
      · omega
    rw [hwhole]
    by_cases hempty : opcode = []
    · rw [hnil hempty, hempty]
      rfl
    · exact newsplit_word _ hempty hop
  · have hpar' : par = [] := hpar.resolve_right (by omega)
    rw [cut, take_append_of_le_length (by omega), take_of_length_le (by omega), hpar',
      newsplit_single hop]

theorem readLine_line {body : Body} (h : body.Short name) :
    readLine (linebufCopy (dprint (body.line name))) = some (name, body) := by
  cases body with
  | chat text =>
    have hshort : name.length + 4 + text.length ≤ lineMax := h
    rw [Body.line, readLine_chatLine hne hword (by omega), chatBody, cut_of_le hshort]
  | zapf to_ par =>
    obtain ⟨hto, htoword, hshort⟩ := h
    rw [Body.line, readLine_zapfLine hne hword hto htoword (by omega), zapfBody, cut_of_le hshort]
  | zapfBroad opcode par =>
    obtain ⟨hop, hnil, hlen, hpar⟩ := h
    have hread := readLine_zapfBroadLine hne hword (by omega) (opcode ++ ' ' :: par)
    rw [zapfBroadBody, newsplit_cut hop hnil hlen hpar] at hread
    exact hread

end Named

/-! ### What is said is short -/

theorem short_chatBody (h : name.length + 4 ≤ lineMax) (data : CStr) :
    (chatBody name data).Short name := by
  have hcut := length_cut (name.length + 4) data
  show name.length + 4 + (cut (name.length + 4) data).length ≤ lineMax
  omega

theorem short_zapfBody (hto : to_ ≠ []) (htoword : ' ' ∉ to_)
    (h : name.length + to_.length + 4 ≤ lineMax) (data : CStr) :
    (zapfBody name to_ data).Short name := by
  have hcut := length_cut (name.length + to_.length + 4) data
  refine ⟨hto, htoword, ?_⟩
  omega

theorem length_words (s : CStr) :
    (newsplit s).1.length ≤ s.length ∧
      ((newsplit s).2 = [] ∨ (newsplit s).1.length + 1 + (newsplit s).2.length ≤ s.length) := by
  have hle : (s.dropWhile (· == ' ')).length ≤ s.length := length_dropWhile_le _ _
  have hsum := congrArg length
    (takeWhile_append_dropWhile (p := (· != ' ')) (l := s.dropWhile (· == ' ')))
  rw [length_append] at hsum
  simp only [newsplit]
  refine ⟨by omega, ?_⟩
  cases hrest : (s.dropWhile (· == ' ')).dropWhile (· != ' ') with
  | nil => exact .inl rfl
  | cons c rest =>
    rw [hrest, length_cons] at hsum
    right
    rw [drop_one, tail_cons]
    omega

theorem short_zapfBroadBody (h : name.length + 4 ≤ lineMax) (data : CStr) :
    (zapfBroadBody name data).Short name := by
  obtain ⟨hfst, hsnd⟩ := length_words (cut (name.length + 4) data)
  have hcut := length_cut (name.length + 4) data
  refine ⟨space_notMem_newsplit _, newsplit_nil_of_fst, by omega, hsnd.imp_right fun hlen => ?_⟩
  omega

/-! ### What a bot does with a line -/

namespace Bot

/-- What a bot does with what it reads. -/
def handle (b : Bot) (idx : Nat) (from_ : CStr) : Body → Except Fake Outcome
  | .chat text =>
    if b.isolate idx then .ok ⟨[], []⟩
    else if '@' ∈ from_ then .error .bot
    else if b.net.nextbot from_ ≠ some idx then .error .direction
    else .ok ⟨b.botnetSendChat (some idx) from_ text, [.bcst from_ text]⟩
  | .zapf to_ par =>
    if b.net.nextbot from_ ≠ some idx then .error .direction
    else if strcaseEq to_ b.net.botnetnick then
      .ok ⟨[], [.bot from_ (newsplit par).1 (newsplit par).2]⟩
    else .ok ⟨((b.net.nextbot to_).map fun i => botnetSendZapf i from_ to_ par).getD [], []⟩
  | .zapfBroad opcode par =>
    if b.net.nextbot from_ ≠ some idx then .error .direction
    else .ok ⟨b.botnetSendZapfBroad (some idx) from_ (some opcode) par, [.bot from_ opcode par]⟩

theorem dccBot_eq {line : CStr} {body : Body} (h : readLine line = some (from_, body)) :
    b.dccBot idx line = b.handle idx from_ body := by
  simp only [readLine] at h
  rw [dccBot]
  dsimp only
  split_ifs at h ⊢ <;> cases h
  · rfl
  · rw [botZapf, handle]
    dsimp only
    cases b.net.nextbot (newsplit (newsplit (cutCode line).2).2).1 <;> rfl
  · rfl

end Bot
end Lines

end Messages
end Eggdrop.Tandem
