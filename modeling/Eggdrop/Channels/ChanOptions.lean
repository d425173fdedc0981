import Eggdrop.Channels.Chanset
import Eggdrop.Channels.ModeProtect
import Eggdrop.Server.Isupport

/-!
# ChanOptions — `tcl_channel_modify` of chancfg.c

A list of words says what is to be changed in a channel.  They are applied one by one: what comes
before a word that is refused has been changed already.  User defined settings are not kept in the
record of the channel, but in tables of their own, by the name of the channel.

* `readOptions`: what a list of words says, without doing it.
* `modifyLoop_spec`: it is done as far as it is said.
-/

namespace Eggdrop.ChanOptions

open ModeProtect (Protect setModeProtect)
open Isupport (strtolEnd)

/-! ### Settings -/

/-- `_thr` and `_time`. -/
structure Flood where
  thr : Int
  time : Int
deriving DecidableEq, Repr

/-- What `tcl_channel_modify` changes of a `struct chanset_t`. -/
structure Settings where
  needOp : CStr
  needInvite : CStr
  needKey : CStr
  needLimit : CStr
  needUnban : CStr
  protect : Protect
  idleKick : Int
  stopnethackMode : Int
  revengeMode : Int
  banType : Int
  banTime : Int
  exemptTime : Int
  inviteTime : Int
  msgRate : Int
  floodPub : Flood
  floodJoin : Flood
  floodCtcp : Flood
  floodKick : Flood
  floodDeop : Flood
  floodNick : Flood
  aopMin : Int
  aopMax : Int
  status : BitVec 64
  ircnetStatus : BitVec 32
deriving DecidableEq, Repr

def chanEnforcebans : BitVec 64 := 0x0001
def chanOponjoin : BitVec 64 := 0x0008
def chanBitch : BitVec 64 := 0x0010
def chanAutovoice : BitVec 64 := 0x0400
def chanInactive : BitVec 64 := 0x2000
def chanAutohalfop : BitVec 64 := 0x80000
def chanActive : BitVec 64 := 0x200000
def chanPend : BitVec 64 := 0x2000000
def chanFlagged : BitVec 64 := 0x4000000

/-- The flags in `status`: the word without its sign, whether `+` sets the bit, and the bit. -/
def statusFlags : List (String × Bool × BitVec 64) := [
  ("enforcebans", true, chanEnforcebans), ("dynamicbans", true, 0x0002), ("userbans", false, 0x0004),
  ("autoop", true, chanOponjoin), ("autohalfop", true, chanAutohalfop), ("bitch", true, chanBitch),
  ("nodesynch", true, 0x40000), ("greet", true, 0x0020), ("protectops", true, 0x0040),
  ("protecthalfops", true, 0x100000), ("protectfriends", true, 0x4000), ("dontkickops", true, 0x1000),
  ("inactive", true, chanInactive), ("statuslog", true, 0x0080), ("revenge", true, 0x0100),
  ("revengebot", true, 0x20000), ("secret", true, 0x0200), ("shared", true, 0x8000),
  ("autovoice", true, chanAutovoice), ("cycle", true, 0x0800), ("seen", true, 0x10000),
  ("static", true, 0x8000000)]

/-- The flags in `ircnet_status`. -/
def ircnetFlags : List (String × Bool × BitVec 32) := [
  ("dynamicexempts", true, 0x0004), ("userexempts", false, 0x0008), ("dynamicinvites", true, 0x0010),
  ("userinvites", false, 0x0020)]

/-- Flags that there were once. -/
def oldFlags : List String := ["stopnethack", "wasoptest", "clearbans"]

/-- `sizeof need_op` and of `s`, less one. -/
def needMax : ℕ := 120

/-- The options with an argument that is never refused. -/
def valueOptions (allowPs : Bool) : List (String × (CStr → Settings → Settings)) := [
  ("need-op", fun v c => { c with needOp := v.take needMax }),
  ("need-invite", fun v c => { c with needInvite := v.take needMax }),
  ("need-key", fun v c => { c with needKey := v.take needMax }),
  ("need-limit", fun v c => { c with needLimit := v.take needMax }),
  ("need-unban", fun v c => { c with needUnban := v.take needMax }),
  ("chanmode", fun v c => { c with protect := setModeProtect allowPs (v.take needMax) }),
  ("idle-kick", fun v c => { c with idleKick := eggAtoi v }),
  ("stopnethack-mode", fun v c => { c with stopnethackMode := eggAtoi v }),
  ("revenge-mode", fun v c => { c with revengeMode := eggAtoi v }),
  ("ban-type", fun v c => { c with banType := eggAtoi v }),
  ("ban-time", fun v c => { c with banTime := eggAtoi v }),
  ("exempt-time", fun v c => { c with exemptTime := eggAtoi v }),
  ("invite-time", fun v c => { c with inviteTime := eggAtoi v }),
  ("msg-rate", fun v c => { c with msgRate := min (max (eggAtoi v) 0) 999 })]

/-- What stands behind `flood-`. -/
def floodOptions : List (String × (Flood → Settings → Settings)) := [
  ("chan", fun f c => { c with floodPub := f }), ("join", fun f c => { c with floodJoin := f }),
  ("ctcp", fun f c => { c with floodCtcp := f }), ("kick", fun f c => { c with floodKick := f }),
  ("deop", fun f c => { c with floodDeop := f }), ("nick", fun f c => { c with floodNick := f })]

/-- The argument of a flood option, if it is `X:Y` or a zero. -/
def floodValue (s : CStr) : Option Flood :=
  let x := s.takeWhile (· ≠ ':')
  let y := s.dropWhile (· ≠ ':')
  if y ≠ [] ∧ x ≠ [] ∧ y.drop 1 ≠ [] ∧ ':' ∉ y.drop 1 then
    let (n, end_) := strtolEnd 10 x
    let (m, end_') := strtolEnd 10 (y.drop 1)
    if n < 0 ∨ end_ ≠ [] ∨ m < 0 ∨ end_' ≠ [] then none
    else some ⟨eggAtoi x, eggAtoi (y.drop 1)⟩
  else
    let (n, end_) := strtolEnd 10 s
    if s ≠ [] ∧ n = 0 ∧ end_ = [] then some ⟨0, 0⟩ else none

/-- `aop-delay`. -/
def aopDelay (v : CStr) (c : Settings) : Settings :=
  let y := v.dropWhile (· ≠ ':')
  if y ≠ [] then { c with aopMin := eggAtoi v, aopMax := eggAtoi (y.drop 1) }
  else { c with aopMin := eggAtoi v, aopMax := eggAtoi v }

/-- The entry of a word in a table. -/
def entry {α : Type} (word : CStr) (table : List (String × α)) : Option α :=
  (table.find? fun p => p.1.toList = word).map Prod.snd

def flip {w : ℕ} (on : Bool) (mask bits : BitVec w) : BitVec w :=
  if on then bits ||| mask else bits &&& ~~~mask

/-- A word with its sign, as a flag. -/
def flagOption (plus : Bool) (word : CStr) : Option (Settings → Settings) :=
  match entry word statusFlags, entry word ircnetFlags with
  | some (sense, mask), _ => some fun c => { c with status := flip (plus == sense) mask c.status }
  | none, some (sense, mask) =>
    some fun c => { c with ircnetStatus := flip (plus == sense) mask c.ircnetStatus }
  | none, none => if oldFlags.any (·.toList = word) then some id else none

/-- What a word is: a change, a change by the argument behind it if that is not refused, a flood
option that there is not, or anything else. -/
inductive Kind where
  | plain (f : Settings → Settings)
  | value (f : CStr → Option (Settings → Settings))
  | badFlood
  | other

def kindOf (allowPs : Bool) (item : CStr) : Kind :=
  match entry item (valueOptions allowPs) with
  | some f => .value fun v => some (f v)
  | none =>
    if item = "dont-idle-kick".toList then .plain fun c => { c with idleKick := 0 }
    else
      let flag := match item with
        | '+' :: word => flagOption true word
        | '-' :: word => flagOption false word
        | _ => none
      match flag with
      | some f => .plain f
      | none =>
        if item.take 6 = "flood-".toList then
          match entry (item.drop 6) floodOptions with
          | some f => .value fun v => (floodValue v).map f
          | none => .badFlood
        else if item.take 9 = "aop-delay".toList then .value fun v => some (aopDelay v)
        else .other

/-! ### User defined settings -/

inductive UdefType where
  | flag
  | int
  | str
deriving DecidableEq, Repr

/-- A value, which is a number or points to a string. -/
inductive UdefValue where
  | num (n : Int)
  | str (s : CStr)
deriving DecidableEq, Repr

/-- `struct udef_struct`. -/
structure Udef where
  type : UdefType
  name : CStr
  defined : Bool
  values : List (CStr × UdefValue)
deriving DecidableEq, Repr

def getudef (values : List (CStr × UdefValue)) (name : CStr) : UdefValue :=
  ((values.find? fun p => strcaseEq p.1 name).map Prod.snd).getD (.num 0)

def setudef (name : CStr) (value : UdefValue) : List (CStr × UdefValue) → List (CStr × UdefValue)
  | [] => [(name, value)]
  | p :: values =>
    if strcaseEq p.1 name then (p.1, value) :: values else p :: setudef name value values

/-- `initudef(type, name, 0)`. -/
def initudef (type : UdefType) (name : CStr) (udefs : List Udef) : List Udef :=
  if name = [] ∨ udefs.any (strcaseEq ·.name name) then udefs else udefs ++ [⟨type, name, false, []⟩]

/-- The setting that a word defines if there is none of that name.  Behind an empty word there is
nothing. -/
def initFor (item : CStr) (udefs : List Udef) : List Udef :=
  if (item.drop 1).take 10 = "udef-flag-".toList then initudef .flag (item.drop 11) udefs
  else if item.take 9 = "udef-int-".toList then initudef .int (item.drop 9) udefs
  else if item.take 9 = "udef-str-".toList then initudef .str (item.drop 9) udefs
  else udefs

/-- A word names the setting of a type and name. -/
def isNamed (item : CStr) (type : UdefType) (name : CStr) : Bool :=
  let named (word marker : CStr) : Bool :=
    strcaseEq word name || (word.take marker.length = marker && strcaseEq (word.drop marker.length) name)
  match type with
  | .flag => named (item.drop 1) "udef-flag-".toList
  | .int => named item "udef-int-".toList
  | .str => named item "udef-str-".toList

/-- The value of a channel in a row of the table; a row that is not there has none. -/
def valueAt (udefs : List Udef) (i : ℕ) (name : CStr) : UdefValue :=
  ((udefs[i]?).map fun u => getudef u.values name).getD (.num 0)

def setAt (udefs : List Udef) (i : ℕ) (name : CStr) (value : UdefValue) : List Udef :=
  udefs.modify i fun u => { u with values := setudef name value u.values }

/-! ### The words -/

/-- What `tcl_channel_modify` takes from elsewhere: what the scripts bound to `chanset` refuse, how
Tcl quotes a word, and `allow_ps`. -/
structure Context where
  checkTclChanset : CStr → CStr → CStr → Bool
  convertElement : CStr → CStr
  allowPs : Bool

/-- A script refuses the word. -/
def Context.refuses (ctx : Context) (dname item : CStr) (rest : List CStr) : Bool :=
  match item, rest with
  | '+' :: word, _ => ctx.checkTclChanset dname word "1".toList
  | '-' :: word, _ => ctx.checkTclChanset dname word "0".toList
  | _, [] => false
  | _, value :: _ =>
    ctx.checkTclChanset dname item
      (if item.take 5 = "need-".toList then value else value.takeWhile (· ≠ ' '))

/-- The settings and the tables as they are changed, and `x`, the number of illegal options. -/
structure Work where
  settings : Settings
  udefs : List Udef
  x : ℕ
deriving DecidableEq

def Work.setUdef (w : Work) (i : ℕ) (dname : CStr) (value : UdefValue) : Work :=
  { w with udefs := setAt w.udefs i dname value }

/-- The row of the setting that a word names, with its type. -/
def findUdef (item : CStr) (udefs : List Udef) : Option (ℕ × UdefType) :=
  (udefs.findIdx? fun u => isNamed item u.type u.name).bind fun i =>
    (udefs[i]?).map fun u => (i, u.type)

/-- The loop of `tcl_channel_modify`; `false` where it returns at once. -/
def modifyLoop (ctx : Context) (dname : CStr) : Work → List CStr → Work × Bool
  | w, [] => (w, true)
  | w, item :: rest =>
    if ctx.refuses dname item rest then (w, false)
    else
      match kindOf ctx.allowPs item with
      | .plain f => modifyLoop ctx dname { w with settings := f w.settings } rest
      | .value f =>
        match rest with
        | [] => (w, false)
        | v :: rest =>
          match f v with
          | none => (w, false)
          | some g => modifyLoop ctx dname { w with settings := g w.settings } rest
      | .badFlood => (w, false)
      | .other =>
        let w := { w with udefs := initFor item w.udefs }
        match findUdef item w.udefs with
        | none => modifyLoop ctx dname { w with x := w.x + 1 } rest
        | some (i, .flag) =>
          modifyLoop ctx dname (w.setUdef i dname (.num (if item.head? = some '+' then 1 else 0))) rest
        | some (i, .int) =>
          match rest with
          | [] => (w, false)
          | v :: rest => modifyLoop ctx dname (w.setUdef i dname (.num (eggAtoi v))) rest
        | some (i, .str) =>
          match rest with
          | [] => (w, false)
          | v :: rest => modifyLoop ctx dname (w.setUdef i dname (.str (ctx.convertElement v))) rest

/-! ### What they say -/

/-- Whether every word is accepted, and the user defined settings that are given, by their rows. -/
structure Reading where
  ok : Bool
  given : List (ℕ × UdefValue)
deriving DecidableEq, Repr

def Reading.give (i : ℕ) (value : UdefValue) (r : Reading) : Reading :=
  { r with given := (i, value) :: r.given }

/-- What a list of words says, up to the word that is refused. -/
def readOptions (ctx : Context) (dname : CStr) : List Udef → List CStr → Reading
  | _, [] => ⟨true, []⟩
  | udefs, item :: rest =>
    if ctx.refuses dname item rest then ⟨false, []⟩
    else
      match kindOf ctx.allowPs item with
      | .plain _ => readOptions ctx dname udefs rest
      | .value f =>
        match rest with
        | [] => ⟨false, []⟩
        | v :: rest => if (f v).isSome then readOptions ctx dname udefs rest else ⟨false, []⟩
      | .badFlood => ⟨false, []⟩
      | .other =>
        match findUdef item (initFor item udefs) with
        | none => { readOptions ctx dname (initFor item udefs) rest with ok := false }
        | some (i, .flag) =>
          (readOptions ctx dname (initFor item udefs) rest).give i
            (.num (if item.head? = some '+' then 1 else 0))
        | some (i, .int) =>
          match rest with
          | [] => ⟨false, []⟩
          | v :: rest => (readOptions ctx dname (initFor item udefs) rest).give i (.num (eggAtoi v))
        | some (i, .str) =>
          match rest with
          | [] => ⟨false, []⟩
          | v :: rest =>
            (readOptions ctx dname (initFor item udefs) rest).give i (.str (ctx.convertElement v))

/-- The last value that is given for a row. -/
def lastGiven (i : ℕ) : List (ℕ × UdefValue) → Option UdefValue
  | [] => none
  | (j, value) :: given => (lastGiven i given).or (if j = i then some value else none)

/-! ### The tables -/

section Tables

variable {udefs udefs' : List Udef} {item name m : CStr} {i j : ℕ} {value : UdefValue}

theorem getudef_setudef (name : CStr) (value : UdefValue) (values : List (CStr × UdefValue))
    (m : CStr) :
    getudef (setudef name value values) m =
      if strcaseEq name m then value else getudef values m := by
  induction values with
  | nil =>
    by_cases h : strcaseEq name m = true
    · simp [setudef, getudef, h]
    · simp [setudef, getudef, h]
  | cons p values ih =>
    unfold getudef at ih ⊢
    rw [setudef]
    by_cases hp : strcaseEq p.1 name = true
    · rw [if_pos hp, List.find?_cons, List.find?_cons]
      dsimp only
      rw [strcaseEq_congr_left hp m]
      by_cases h : strcaseEq name m = true
      · rw [h]
        rfl
      · rw [Bool.eq_false_iff.2 h]
        rfl
    · rw [if_neg hp, List.find?_cons, List.find?_cons]
      by_cases hm : strcaseEq p.1 m = true
      · have hne : ¬ strcaseEq name m = true := fun h =>
          hp (strcaseEq_trans hm (by rw [strcaseEq_comm]; exact h))
        rw [hm, if_neg hne]
      · rw [Bool.eq_false_iff.2 hm]
        exact ih

theorem valueAt_setAt (hi : i < udefs.length) :
    valueAt (setAt udefs i name value) j m =
      if i = j ∧ strcaseEq name m = true then value else valueAt udefs j m := by
  unfold valueAt setAt
  rw [List.getElem?_modify]
  by_cases hij : i = j
  · obtain rfl := hij
    rw [List.getElem?_eq_getElem hi]
    simp [getudef_setudef]
  · rw [if_neg fun h => hij h.1]
    simp [hij]

theorem valueAt_initudef (type : UdefType) (n : CStr) :
    valueAt (initudef type n udefs) i m = valueAt udefs i m := by
  unfold initudef
  split
  · rfl
  · unfold valueAt
    rcases Nat.lt_trichotomy i udefs.length with hi | rfl | hi
    · rw [List.getElem?_append_left hi]
    · rw [List.getElem?_concat_length, List.getElem?_eq_none le_rfl]
      rfl
    · have hlen : (udefs ++ [(⟨type, n, false, []⟩ : Udef)]).length ≤ i := by
        rw [List.length_append]
        exact hi
      rw [List.getElem?_eq_none hlen, List.getElem?_eq_none hi.le]

theorem valueAt_initFor : valueAt (initFor item udefs) i m = valueAt udefs i m := by
  unfold initFor
  split_ifs
  · exact valueAt_initudef ..
  · exact valueAt_initudef ..
  · exact valueAt_initudef ..
  · rfl

theorem findUdef_lt {t : UdefType} (h : findUdef item udefs = some (i, t)) : i < udefs.length := by
  obtain ⟨k, -, hk⟩ := Option.bind_eq_some_iff.1 h
  obtain ⟨u, hu, heq⟩ := Option.map_eq_some_iff.1 hk
  obtain rfl : k = i := congrArg Prod.fst heq
  exact (List.getElem?_eq_some_iff.1 hu).1

/-- The types and names of the settings. -/
def heads (udefs : List Udef) : List (UdefType × CStr) := udefs.map fun u => (u.type, u.name)

theorem heads_setAt : heads (setAt udefs i name value) = heads udefs := by
  unfold heads setAt
  refine List.ext_getElem? fun k => ?_
  rw [List.getElem?_map, List.getElem?_map, List.getElem?_modify]
  by_cases hik : i = k
  · cases udefs[k]? <;> simp [hik]
  · cases udefs[k]? <;> simp [hik]

theorem findUdef_congr (h : heads udefs = heads udefs') :
    findUdef item udefs = findUdef item udefs' := by
  have hfind (us : List Udef) : findUdef item us =
      ((heads us).findIdx? fun p => isNamed item p.1 p.2).bind fun i =>
        ((heads us)[i]?).map fun p => (i, p.1) := by
    unfold findUdef heads
    rw [List.findIdx?_map]
    simp only [List.getElem?_map, Option.map_map]
    rfl
  rw [hfind, hfind, h]

theorem initudef_congr (type : UdefType) (n : CStr) (h : heads udefs = heads udefs') :
    heads (initudef type n udefs) = heads (initudef type n udefs') := by
  have hany (us : List Udef) : us.any (strcaseEq ·.name n) =
      (heads us).any fun p => strcaseEq p.2 n := by
    rw [heads, List.any_map]
    rfl
  unfold initudef
  rw [hany, hany, h]
  split
  · exact h
  · unfold heads at h ⊢
    rw [List.map_append, List.map_append, h]

theorem initFor_congr (h : heads udefs = heads udefs') :
    heads (initFor item udefs) = heads (initFor item udefs') := by
  unfold initFor
  split_ifs
  · exact initudef_congr _ _ h
  · exact initudef_congr _ _ h
  · exact initudef_congr _ _ h
  · exact h

end Tables

/-! ### Doing what they say -/

section Loop

variable {ctx : Context} {dname : CStr} {w : Work}

theorem readOptions_congr : ∀ (items : List CStr) {udefs udefs' : List Udef},
    heads udefs = heads udefs' →
      readOptions ctx dname udefs items = readOptions ctx dname udefs' items
  | [], _, _, _ => rfl
  | item :: rest, udefs, udefs', h => by
    have hinit : heads (initFor item udefs) = heads (initFor item udefs') := initFor_congr h
    rw [readOptions, readOptions, findUdef_congr hinit]
    split
    · rfl
    split
    · exact readOptions_congr rest h
    · match rest with
      | [] => rfl
      | v :: rest =>
        dsimp only
        rw [readOptions_congr rest h]
    · rfl
    · split
      · rw [readOptions_congr rest hinit]
      · rw [readOptions_congr rest hinit]
      · match rest with
        | [] => rfl
        | v :: rest =>
          dsimp only
          rw [readOptions_congr rest hinit]
      · match rest with
        | [] => rfl
        | v :: rest =>
          dsimp only
          rw [readOptions_congr rest hinit]

/-- What a run of the loop leaves, where the words say `r`. -/
structure Done (dname : CStr) (w : Work) (r : Reading) (w' : Work) (ok : Bool) : Prop where
  ok : (ok = true ∧ w'.x = w.x) ↔ r.ok = true
  le : w.x ≤ w'.x
  udefs : ∀ i m, valueAt w'.udefs i m =
    if strcaseEq dname m = true then (lastGiven i r.given).getD (valueAt w.udefs i m)
    else valueAt w.udefs i m

theorem Done.refused {r : Reading} (hok : r.ok = false) (hgiven : r.given = []) :
    Done dname w r w false := by
  refine ⟨⟨fun h => absurd h.1 Bool.false_ne_true, fun h => ?_⟩, le_rfl, fun i m => ?_⟩
  · rw [hok] at h
    cases h
  · rw [hgiven]
    exact (ite_self _).symm

theorem Done.settings {r : Reading} {w' : Work} {ok : Bool} {c : Settings}
    (h : Done dname { w with settings := c } r w' ok) : Done dname w r w' ok := ⟨h.ok, h.le, h.udefs⟩

theorem Done.define {r : Reading} {w' : Work} {ok : Bool} {item : CStr}
    (h : Done dname { w with udefs := initFor item w.udefs } r w' ok) : Done dname w r w' ok := by
  refine ⟨h.ok, h.le, fun i m => ?_⟩
  rw [h.udefs i m]
  dsimp only
  rw [valueAt_initFor]

theorem Done.illegal {r : Reading} {w' : Work} {ok : Bool}
    (h : Done dname { w with x := w.x + 1 } r w' ok) :
    Done dname w { r with ok := false } w' ok := by
  have hle : w.x + 1 ≤ w'.x := h.le
  refine ⟨⟨fun hx => ?_, fun h => nomatch h⟩, by omega, h.udefs⟩
  omega

theorem Done.give {r : Reading} {w' : Work} {ok : Bool} {i : ℕ} {value : UdefValue}
    (hi : i < w.udefs.length) (h : Done dname (w.setUdef i dname value) r w' ok) :
    Done dname w (r.give i value) w' ok := by
  refine ⟨h.ok, h.le, fun j m => ?_⟩
  have hset : valueAt (w.setUdef i dname value).udefs j m =
      if i = j ∧ strcaseEq dname m = true then value else valueAt w.udefs j m := valueAt_setAt hi
  rw [h.udefs j m, hset, Reading.give]
  dsimp only
  rw [lastGiven]
  by_cases hm : strcaseEq dname m = true
  · rw [if_pos hm, if_pos hm]
    cases lastGiven j r.given with
    | some v => rfl
    | none =>
      by_cases hij : i = j
      · rw [if_pos ⟨hij, hm⟩, if_pos hij]
        rfl
      · rw [if_neg fun h => hij h.1, if_neg hij]
        rfl
  · rw [if_neg hm, if_neg hm, if_neg fun h => hm h.2]

theorem Done.give_loop {words : List CStr} {item : CStr} {i : ℕ} {t : UdefType}
    (hi : findUdef item w.udefs = some (i, t)) (value : UdefValue)
    (h : ∀ w, Done dname w (readOptions ctx dname w.udefs words) (modifyLoop ctx dname w words).1
      (modifyLoop ctx dname w words).2) :
    Done dname w ((readOptions ctx dname w.udefs words).give i value)
      (modifyLoop ctx dname (w.setUdef i dname value) words).1
      (modifyLoop ctx dname (w.setUdef i dname value) words).2 := by
  have hread : readOptions ctx dname (w.setUdef i dname value).udefs words =
      readOptions ctx dname w.udefs words := readOptions_congr words heads_setAt
  refine .give (findUdef_lt hi) ?_
  rw [← hread]
  exact h _

/-- The words are done as far as they are accepted. -/
theorem modifyLoop_spec : ∀ (items : List CStr) (w : Work),
    Done dname w (readOptions ctx dname w.udefs items) (modifyLoop ctx dname w items).1
      (modifyLoop ctx dname w items).2
  | [], w => ⟨⟨fun _ => rfl, fun _ => ⟨rfl, rfl⟩⟩, le_rfl, fun i m => (ite_self _).symm⟩
  | item :: rest, w => by
    rw [readOptions, modifyLoop]
    split
    · exact .refused rfl rfl
    split
    · rename_i g _
      exact .settings (modifyLoop_spec rest { w with settings := g w.settings })
    · rename_i f _
      match rest with
      | [] => exact .refused rfl rfl
      | v :: rest =>
        dsimp only
        cases f v with
        | none => exact .refused rfl rfl
        | some g => exact .settings (modifyLoop_spec rest { w with settings := g w.settings })
    · exact .refused rfl rfl
    refine .define (?_ : Done dname { w with udefs := initFor item w.udefs } _ _ _)
    generalize initFor item w.udefs = udefs
    dsimp only
    split
    · exact .illegal (modifyLoop_spec rest _)
    · rename_i i hi
      exact .give_loop (w := { w with udefs := udefs }) hi _ (modifyLoop_spec rest)
    · rename_i i hi
      match rest with
      | [] => exact .refused rfl rfl
      | v :: rest => exact .give_loop (w := { w with udefs := udefs }) hi _ (modifyLoop_spec rest)
    · rename_i i hi
      match rest with
      | [] => exact .refused rfl rfl
      | v :: rest => exact .give_loop (w := { w with udefs := udefs }) hi _ (modifyLoop_spec rest)

end Loop

end Eggdrop.ChanOptions
