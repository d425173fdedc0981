import Eggdrop.Base.CString
import Eggdrop.Users.Flags

/-!
# FlagText — flag words as text

`break_down_flags` reads a flag string such as `+of-d|+v` into words, `build_flags` writes words as
letters.  A word holds the letters `a` to `z` (bot words: `a` to `u` and `0` to `9`), a second
word the user-defined letters `A` to `Z`.
-/

namespace Eggdrop.Users

def frGlobal : FlagWord := 0x00000001
def frBot : FlagWord := 0x00000002
def frChan : FlagWord := 0x00000004
def frOr : FlagWord := 0x40000000
def frAnd : FlagWord := 0x20000000

def botValid : FlagWord := 0x7ff6abdf
def udefValid : FlagWord := 0x03ffffff
def botFlag0 : FlagWord := 0x00200000

/-- `struct flag_record`. -/
structure FlagRecord where
  matchType : FlagWord
  global : FlagWord
  udefGlobal : FlagWord
  bot : FlagWord
  chan : FlagWord
  udefChan : FlagWord
deriving DecidableEq, Repr

def FlagRecord.zero : FlagRecord := ⟨0, 0, 0, 0, 0, 0⟩

/-- The word that a flag string is in: global, channel or bot. -/
inductive FlagMode where
  | glob
  | chan
  | bot
deriving DecidableEq, Repr

def FlagMode.next : FlagMode → FlagMode
  | .glob => .chan
  | .chan => .bot
  | .bot => .chan

/-- `1 << (c - base)`. -/
def flagBit (c base : Char) : FlagWord := 1#32 <<< (c.toNat - base.toNat)

/-- A letter or digit in a flag string. -/
def FlagRecord.addFlag (r : FlagRecord) (mode : FlagMode) (c : Char) : FlagRecord :=
  if 'a' ≤ c ∧ c ≤ 'z' then
    match mode with
    | .glob => { r with global := r.global ||| flagBit c 'a' }
    | .chan => { r with chan := r.chan ||| flagBit c 'a' }
    | .bot => if c ≤ 'u' then { r with bot := r.bot ||| flagBit c 'a' } else r
  else if 'A' ≤ c ∧ c ≤ 'Z' then
    match mode with
    | .glob => { r with udefGlobal := r.udefGlobal ||| flagBit c 'A' }
    | .chan => { r with udefChan := r.udefChan ||| flagBit c 'A' }
    | .bot => r
  else if '0' ≤ c ∧ c ≤ '9' then
    -- digits map to A..J for global and channel words so that they are not lost
    match mode with
    | .glob => { r with udefGlobal := r.udefGlobal ||| flagBit c '0' }
    | .chan => { r with udefChan := r.udefChan ||| flagBit c '0' }
    | .bot => { r with bot := r.bot ||| botFlag0 <<< (c.toNat - '0'.toNat) }
  else r

/-- The flags a record may hold. -/
def FlagRecord.mask (r : FlagRecord) : FlagRecord :=
  { r with
    global := r.global &&& userValid
    udefGlobal := r.udefGlobal &&& udefValid
    chan := r.chan &&& chanValid
    udefChan := r.udefChan &&& udefValid
    bot := r.bot &&& botValid }

/-- The state of the loop of `break_down_flags`: `toMinus` says that `which` is `minus`. -/
structure FlagScan where
  plus : FlagRecord
  minus : FlagRecord
  toMinus : Bool
  mode : FlagMode

/-- The loop of `break_down_flags` for the record kinds `flags`; `hasMinus` says that the caller
passed a second record. -/
def breakDownLoop (flags : FlagWord) (hasMinus : Bool) : FlagScan → CStr → FlagScan
  | st, [] => st
  | st, '+' :: s => breakDownLoop flags hasMinus { st with toMinus := false } s
  | st, '-' :: s => breakDownLoop flags hasMinus { st with toMinus := hasMinus } s
  | st, c :: s =>
    if c = '|' ∨ c = '&' then
      let plus := if st.mode = .glob then
          { st.plus with matchType := if c = '|' then frOr else frAnd }
        else st.plus
      let st := { st with plus := plus, toMinus := false, mode := st.mode.next }
      if st.mode = .bot ∧ !flags.has (frChan ||| frBot) then st
      else breakDownLoop flags hasMinus st s
    else
      breakDownLoop flags hasMinus
        (if st.toMinus then { st with minus := st.minus.addFlag st.mode c }
         else { st with plus := st.plus.addFlag st.mode c }) s

/-- `break_down_flags`: the two records, the second only if the caller passed one. -/
def breakDownFlags (string : CStr) (flags : FlagWord) (hasMinus : Bool) :
    FlagRecord × FlagRecord :=
  let start (mode : FlagMode) : FlagScan :=
    ⟨{ FlagRecord.zero with matchType := frOr }, FlagRecord.zero, false, mode⟩
  let finish (st : FlagScan) : FlagRecord × FlagRecord :=
    let plus := st.plus.mask
    let plus := { plus with matchType := plus.matchType ||| flags }
    if hasMinus then
      let minus := st.minus.mask
      ({ plus with
          matchType := if plus.matchType.has (frAnd ||| frOr) then plus.matchType
            else plus.matchType ||| frOr },
        { minus with matchType := minus.matchType ||| flags })
    else (plus, FlagRecord.zero)
  if flags.has frGlobal then finish (breakDownLoop flags hasMinus (start .glob) string)
  else if flags.has frBot then finish (breakDownLoop flags hasMinus (start .bot) string)
  else if flags.has frChan then finish (breakDownLoop flags hasMinus (start .chan) string)
  else ({ FlagRecord.zero with matchType := flags }, FlagRecord.zero)

/-- The characters of the set bits of `w` from bit `bit` on, `n` of them. -/
def flagChars (w : FlagWord) (first : Char) (bit n : Nat) : CStr :=
  ((List.range n).filter fun k => w.getLsbD (bit + k)).map fun k => Char.ofNat (first.toNat + k)

/-- An empty flag list is written as `-`. -/
def orDash (s : CStr) : CStr := if s = [] then ['-'] else s

/-- `flag2str`. -/
def flag2str (w udef : FlagWord) : CStr := orDash (flagChars w 'a' 0 26 ++ flagChars udef 'A' 0 26)

/-- `bot2str`. -/
def bot2str (w : FlagWord) : CStr := orDash (flagChars w 'a' 0 21 ++ flagChars w '0' 21 10)

/-- `build_flags` without a second record. -/
def buildFlags (plus : FlagRecord) : CStr :=
  let first :=
    if plus.matchType.has frGlobal then flag2str plus.global plus.udefGlobal
    else if plus.matchType.has frBot then bot2str plus.bot
    else []
  let chan :=
    if plus.matchType.has frChan then
      (if plus.matchType.has (frGlobal ||| frBot) then
        [if plus.matchType.has frAnd then '&' else '|'] else []) ++
      flag2str plus.chan plus.udefChan
    else []
  orDash (first ++ chan)

end Eggdrop.Users
