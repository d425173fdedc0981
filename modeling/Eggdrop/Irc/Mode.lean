import Eggdrop.Base.CString

/-!
# Mode — the queue of channel mode changes

`add_mode` queues the mode changes that the bot wants and `flush_mode` sends them in one line.  A
request waits in one of four places: the letters to set or to unset (`pls`, `mns`), the key and the
limit (`key`, `rmkey`, `limit`), or one of the slots for changes about a member or a mask (`cmode`).
A line is put together in two buffers, one for the letters and one for their parameters.
-/

namespace Eggdrop.Irc

/-- What can go wrong: a letter beyond the end of `pls` or `mns`, a slot beyond the end of `cmode`, a
limit that `int_to_base10` cannot negate. -/
inductive Fault where
  | letters
  | slots
  | limit
deriving DecidableEq

/-- `INT_MIN`. -/
def intMin : Int := -2 ^ 31

/-! ### The channel -/

/-- The kinds of changes that have slots. -/
inductive Kind where
  | chop | chhop | ban | voice | exempt | chown | invite
deriving DecidableEq

def Kind.letter : Kind → Char
  | .ban => 'b'
  | .chop => 'o'
  | .chhop => 'h'
  | .exempt => 'e'
  | .invite => 'I'
  | .chown => 'q'
  | .voice => 'v'

def Kind.ofMode (mode : Char) : Option Kind :=
  if mode = 'o' then some .chop
  else if mode = 'h' then some .chhop
  else if mode = 'b' then some .ban
  else if mode = 'v' then some .voice
  else if mode = 'e' then some .exempt
  else if mode = 'q' then some .chown
  else if mode = 'I' then some .invite
  else none

/-- The kinds that are about members. -/
def Kind.ofMember : Kind → Bool
  | .chop | .chhop | .voice | .chown => true
  | .ban | .exempt | .invite => false

/-- A slot in use: the sign and the kind are its `type`. -/
structure Slot where
  plus : Bool
  kind : Kind
  op : CStr
deriving DecidableEq

/-- A member of the channel: what the member has, and what a change was sent for. -/
structure Member where
  nick : CStr
  has : Kind → Bool
  sent : Bool → Kind → Bool

def Member.marked (plus : Bool) (kind : Kind) (mx : Member) : Member :=
  { mx with sent := fun p k => (p == plus && k == kind) || mx.sent p k }

/-- The settings; `modes-per-line` and the like can be anything that a variable of Tcl can. -/
structure Cfg where
  modesperline : Int
  modeBufLen : Int
  preventMixing : Bool
  includeLk : Bool
  maxBans : Int
  maxExempts : Int
  maxInvites : Int
  maxModes : Int

def modesPerLineMax : Nat := 6

structure Chan where
  name : CStr
  member : List Member
  ban : List CStr
  exempt : List CStr
  invite : List CStr
  /-- we have op, half op -/
  meOp : Bool
  meHalfop : Bool
  pls : CStr
  mns : CStr
  key : Option CStr
  rmkey : Option CStr
  limit : Int
  bytes : Int
  compat : Nat
  cmode : List (Option Slot)

/-- A change that was asked for. -/
structure Change where
  plus : Bool
  mode : Char
  arg : CStr
deriving DecidableEq

/-- The channel, the lines that were sent for it, and the requests that were taken. -/
structure State where
  chan : Chan
  sent : List CStr
  accepted : List Change

/-! ### The buffers of a line -/

/-- `egg_strcatn`: what `dst` then is, and how many characters were written. -/
def eggStrcatn (dst src : CStr) (max : Nat) : CStr × Nat :=
  (dst ++ src.take (max - 1 - dst.length), (src.take (max - 1 - dst.length)).length)

/-- The letters, the parameters with the room that is left for them, and the last sign. -/
structure Out where
  out : CStr
  post : CStr
  postsize : Nat
  plus : Option Bool

def signChar (plus : Bool) : Char := if plus then '+' else '-'

namespace Out

variable (o : Out)

def start : Out := ⟨[], [], 511, none⟩

/-- A letter, after a sign if the last one was another. -/
def letter (plus : Bool) (mode : Char) : Out :=
  { o with
    out := o.out ++ (if o.plus = some plus then [] else [signChar plus]) ++ [mode]
    plus := some plus }

def strcat (s : CStr) : Out :=
  { o with post := (eggStrcatn o.post s 512).1, postsize := o.postsize - (eggStrcatn o.post s 512).2 }

def param (s : CStr) : Out := (o.strcat s).strcat [' ']

/-- `"%s "` with `int_to_base10` at the end of `post`, as far as there is room. -/
def number (n : Int) : Out :=
  let text := (showInt n ++ [' ']).take o.postsize
  { o with post := o.post ++ text, postsize := o.postsize - text.length }

/-- The letters of `mns` or `pls`. -/
def letters (plus : Bool) (modes : CStr) : Out :=
  if modes.isEmpty then o
  else { o with out := o.out ++ signChar plus :: modes, plus := some plus }

/-- The slots of one sign that have room, in order; the others stay. -/
def slots (plus : Bool) : List (Option Slot) → Out → List (Option Slot) × Out
  | [], o => ([], o)
  | none :: cmode, o => (none :: (slots plus cmode o).1, (slots plus cmode o).2)
  | some c :: cmode, o =>
    if c.plus = plus ∧ c.op.length < o.postsize then
      let rest := slots plus cmode ((o.letter plus c.kind.letter).param c.op)
      (none :: rest.1, rest.2)
    else
      let rest := slots plus cmode o
      (some c :: rest.1, rest.2)

/-- Both buffers together, without the blank after the last parameter. -/
def join : CStr :=
  if o.post.isEmpty then o.out
  else
    let index := 511 - o.postsize
    let post := if 0 < index ∧ o.post[index - 1]? = some ' ' then o.post.take (index - 1) else o.post
    (eggStrcatn (eggStrcatn o.out [' '] 512).1 post 512).1

end Out

/-! ### mode.c -/

namespace State

variable (cfg : Cfg) (s : State)

/-- +k; not together with -k. -/
def withKey (chan : Chan) (o : Out) : Out :=
  match chan.key, chan.rmkey with
  | some key, none => (o.letter true 'k').param key
  | _, _ => o

/-- +l, with room for any number. -/
def withLimit (chan : Chan) (o : Out) : Out :=
  if chan.limit ≠ 0 ∧ 12 ≤ o.postsize then (o.letter true 'l').number chan.limit else o

/-- -k. -/
def withRmkey (chan : Chan) (o : Out) : Out :=
  match chan.rmkey with
  | some key => (o.letter false 'k').param key
  | none => o

/-- What comes before the limit. -/
def beforeLimit (chan : Chan) : Out :=
  withKey chan ((Out.start.letters false chan.mns).letters true chan.pls)

/-- What `flush_mode` puts into the buffers, and the slots that it leaves. -/
def assemble (chan : Chan) : List (Option Slot) × Out :=
  let n := cfg.modesperline.toNat
  let o := withRmkey chan (withLimit chan (beforeLimit chan))
  let minus := Out.slots false (chan.cmode.take n) o
  let plus := Out.slots true minus.1 minus.2
  (plus.1 ++ chan.cmode.drop n, plus.2)

def flushMode : Except Fault State :=
  if s.chan.limit = intMin ∧ 12 ≤ (beforeLimit s.chan).postsize then .error .limit
  else if (modesPerLineMax : Int) < cfg.modesperline then .error .slots
  else
    let chan := s.chan
    let (cmode, o) := assemble cfg chan
    let s := { s with chan := { chan with
      mns := [], pls := [], bytes := 0, compat := 0, cmode
      key := if chan.rmkey.isSome then chan.key else none
      limit := if 12 ≤ (beforeLimit chan).postsize then 0 else chan.limit
      rmkey := none } }
    if o.join.isEmpty then .ok s
    else .ok { s with sent := s.sent ++ ["MODE ".toList ++ chan.name ++ ' ' :: o.join] }

/-- `strchr(s, c)`. -/
def strchr (s : CStr) (c : Char) : Bool := c == '\x00' || s.contains c

/-- `HALFOP_CANTDOMODE`. -/
def halfopCantdomode (chan : Chan) (mode : Char) : Bool :=
  !chan.meOp && (!chan.meHalfop || strchr "ahoq".toList mode)

/-- Mark a member as having a change sent; not if there is none to be sent. -/
def markSent (chan : Chan) (plus : Bool) (kind : Kind) (op : CStr) : Option Chan :=
  if !Kind.ofMember kind then some chan
  else
    match chan.member.findIdx? fun mx => rfcCaseEq mx.nick op with
    | none => none
    | some i =>
      if chan.member[i]?.any fun mx => mx.sent plus kind || mx.has kind == plus then none
      else some { chan with member := chan.member.modify i (Member.marked plus kind) }

/-- The list that a mask is on. -/
def maskList (chan : Chan) : Kind → List CStr
  | .ban => chan.ban
  | .exempt => chan.exempt
  | .invite => chan.invite
  | _ => []

/-- A mask that is there already is not set, one that is not there is not unset, and none is set
where the lists are full. -/
def maskRefused (chan : Chan) (plus : Bool) (kind : Kind) (op : CStr) : Bool :=
  !Kind.ofMember kind &&
    ((maskList chan kind).any (rfcCaseEq · op) == plus ||
      plus && (decide (cfg.maxModes ≤ chan.ban.length + chan.exempt.length + chan.invite.length) ||
        match kind with
        | .ban => decide (cfg.maxBans ≤ chan.ban.length)
        | .exempt => decide (cfg.maxExempts ≤ chan.exempt.length)
        | .invite => decide (cfg.maxInvites ≤ chan.invite.length)
        | _ => false))

/-- Keep `e` and `I` apart from the other modes. -/
def separate (mode : Char) : Except Fault State :=
  let listMode := mode = 'e' ∨ mode = 'I'
  if s.chan.compat = 0 then
    .ok { s with chan := { s.chan with compat := if listMode then 2 else 1 } }
  else if listMode then
    if cfg.preventMixing ∧ s.chan.compat = 1 then s.flushMode cfg else .ok s
  else if cfg.preventMixing ∧ s.chan.compat = 2 then s.flushMode cfg
  else .ok s

/-- The first free slot is taken, if there is one. -/
def takeSlot (c : Slot) : List (Option Slot) → Option (List (Option Slot))
  | [] => none
  | none :: cmode => some (some c :: cmode)
  | some c' :: cmode => (takeSlot c cmode).map (some c' :: ·)

/-- An op-type mode change that is not in a slot yet. -/
def storeSlot (c : Slot) : Except Fault State := do
  let l : Int := c.op.length + 1
  let s ← if cfg.modeBufLen < s.chan.bytes + l then s.flushMode cfg else .ok s
  let n := cfg.modesperline.toNat
  let s := { s with accepted := s.accepted ++ [⟨c.plus, c.kind.letter, c.op⟩] }
  match takeSlot c (s.chan.cmode.take n) with
  | some cmode =>
    .ok { s with chan := { s.chan with
      cmode := cmode ++ s.chan.cmode.drop n, bytes := s.chan.bytes + l } }
  | none => .ok s

/-- Typical mode changes; a letter that waits already is not added again. -/
def storeLetter (plus : Bool) (mode : Char) : Except Fault State :=
  let modes := if plus then s.chan.pls else s.chan.mns
  if strchr modes mode then .ok s
  else if 20 ≤ modes.length then .error .letters
  else
    let modes := modes ++ [mode]
    .ok { s with
      chan := if plus then { s.chan with pls := modes } else { s.chan with mns := modes }
      accepted := s.accepted ++ [⟨plus, mode, []⟩] }

/-- The key, the limit, or a letter. -/
def storeOther (plus : Bool) (mode : Char) (op : CStr) : Except Fault State :=
  if plus ∧ mode = 'k' then
    .ok { s with
      chan := { s.chan with key := some op }, accepted := s.accepted ++ [⟨true, 'k', op⟩] }
  else if !plus ∧ mode = 'k' then
    .ok { s with
      chan := { s.chan with rmkey := some op }, accepted := s.accepted ++ [⟨false, 'k', op⟩] }
  else if plus ∧ mode = 'l' then
    .ok { s with
      chan := { s.chan with limit := eggAtoi op }
      accepted := s.accepted ++ [⟨true, 'l', showInt (eggAtoi op)⟩] }
  else s.storeLetter plus mode

/-- The parameters that wait and count, of the `modes-per-line` that a line may have. -/
def waiting (chan : Chan) : Nat :=
  (chan.cmode.take cfg.modesperline.toNat).countP Option.isSome +
    (if cfg.includeLk ∧ chan.limit ≠ 0 then 1 else 0) +
    (if cfg.includeLk ∧ chan.rmkey.isSome then 1 else 0) +
    (if cfg.includeLk ∧ chan.key.isSome then 1 else 0)

/-- Full buffer!  Flush modes. -/
def flushFull : Except Fault State :=
  if (modesPerLineMax : Int) < cfg.modesperline then .error .slots
  else if cfg.modesperline - waiting cfg s.chan < 1 then s.flushMode cfg
  else .ok s

/-- Queue a channel mode change. -/
def realAddMode (plus : Bool) (mode : Char) (op : CStr) : Except Fault State :=
  if halfopCantdomode s.chan mode then .ok s
  else
    match Kind.ofMode mode with
    | some kind =>
      match markSent s.chan plus kind op with
      | none => .ok s
      | some chan => do
        let s ← { s with chan }.separate cfg mode
        if maskRefused cfg s.chan plus kind op then .ok s
        else if (modesPerLineMax : Int) < cfg.modesperline then .error .slots
        else if (s.chan.cmode.take cfg.modesperline.toNat).any fun c =>
            c.any fun c => c.plus == plus && c.kind == kind && rfcCaseEq c.op op then .ok s
        else
          let s ← s.storeSlot cfg ⟨plus, kind, op⟩
          s.flushFull cfg
    | none => do
      let s ← s.separate cfg mode
      let s ← s.storeOther plus mode op
      s.flushFull cfg

inductive Event where
  | addMode (plus : Bool) (mode : Char) (op : CStr)
  | flushMode

def step (s : State) : Event → Except Fault State
  | .addMode plus mode op => s.realAddMode cfg plus mode op
  | .flushMode => s.flushMode cfg

end State

/-- A channel with nothing in its queue. -/
def Chan.Idle (chan : Chan) : Prop :=
  chan.pls = [] ∧ chan.mns = [] ∧ chan.key = none ∧ chan.rmkey = none ∧ chan.limit = 0 ∧
    chan.bytes = 0 ∧ chan.compat = 0 ∧ chan.cmode = List.replicate modesPerLineMax none

end Eggdrop.Irc
