import Eggdrop.Users.Entries
import Eggdrop.Users.FlagText

/-!
# EntryTypes — the entry types of userent.c

The functions of the types the core registers, and of `FWD` and `DCCDIR`, which modules make from
copies of `INFO`.  `entryOps` is the table; the record's flags and the encryption hooks are
parameters of it, as the functions read them.

* `also_fst`: only the setter of `PASS` sets a second entry, that of `PASS2`.
* `unknown_entry_faults`: a record on which a lookup follows a missing type.
-/

namespace Eggdrop.Users

inductive EntryType where
  | comment
  | info
  | xtra
  | laston
  | botaddr
  | pass
  | pass2
  | hosts
  | botfl
  | account
  | fprint
  | fwd
  | dccdir
deriving DecidableEq, Repr

def EntryType.name : EntryType → CStr
  | .comment => "COMMENT".toList
  | .info => "INFO".toList
  | .xtra => "XTRA".toList
  | .laston => "LASTON".toList
  | .botaddr => "BOTADDR".toList
  | .pass => "PASS".toList
  | .pass2 => "PASS2".toList
  | .hosts => "HOSTS".toList
  | .botfl => "BOTFL".toList
  | .account => "ACCOUNT".toList
  | .fprint => "FPRINT".toList
  | .fwd => "FWD".toList
  | .dccdir => "DCCDIR".toList

/-- `struct laston_info`. -/
structure LastonInfo where
  laston : Int
  lastonplace : CStr
deriving DecidableEq, Repr

/-- `struct bot_addr`; `ssl` is the bits TLS_BOT and TLS_RELAY. -/
structure BotAddr where
  address : CStr
  telnetPort : Int
  relayPort : Int
  tlsBot : Bool
  tlsRelay : Bool
deriving DecidableEq, Repr

/-- `struct xtra_key`; no data is empty data. -/
structure XtraKey where
  key : CStr
  data : CStr
deriving DecidableEq, Repr

/-- What the union `u` of an entry holds. -/
inductive Value where
  | null
  | list (l : List CStr)
  | string (s : CStr)
  | laston (li : LastonInfo)
  | botaddr (bi : BotAddr)
  | xtra (v : List XtraKey)
  | vec (v : List CStr)
  | botfl (w : FlagWord)
  /-- a pointer to memory that was freed -/
  | freed
deriving DecidableEq, Repr

/-- The data of a `set_user` call. -/
inductive SetData where
  | string (s : Option CStr)
  | laston (li : LastonInfo)
  | botaddr (bi : Option BotAddr)
  | xtra (x : XtraKey)
  | botfl (w : FlagWord)
deriving DecidableEq, Repr

/-- `e->u.list` read as a pointer is null; a bot's flag word shares its place. -/
def Value.isNull : Value → Bool
  | .null => true
  | .botfl w => w == 0
  | _ => false

/-- What modules and settings contribute: the password hooks, of which `encrypt_pass2` may return no
hash, `remove-pass`, and the mask comparison of match.c, which rests on the regular expressions of
libop. -/
structure Hooks where
  encryptPass : Option (CStr → CStr)
  encryptPass2 : Option (CStr → Option CStr)
  removePass : Bool
  cmpUsermasks : CStr → CStr → Bool

def passwordmax : Nat := 30

/-! ### Unpacking and packing -/

/-- `laston_unpack` on the text of the entry. -/
def lastonUnpack (s : CStr) : LastonInfo :=
  let (arg, par) := newsplit s
  ⟨eggAtoi arg, if par = [] then "???".toList else par⟩

/-- The text `laston_pack` and `laston_write_userfile` print. -/
def lastonText (li : LastonInfo) : CStr := showInt li.laston ++ ' ' :: li.lastonplace

/-- `botaddr_unpack` on the text of the entry. -/
def botaddrUnpack (s : CStr) : BotAddr :=
  let address := s.takeWhile (· != ':')
  let ports := s.dropWhile (· != ':')
  let q := ports.drop 1
  let r := q.dropWhile (· != '/')
  let telnetPort := if ports = [] then 0 else eggAtoi q
  let relayPort := if r = [] then 0 else eggAtoi (r.drop 1)
  let telnetPort := if telnetPort = 0 then 3333 else telnetPort
  { address := address.map fun c => if c = ';' then ':' else c
    telnetPort := telnetPort
    relayPort := if relayPort = 0 then telnetPort else relayPort
    tlsBot := q.head? == some '+'
    tlsRelay := (r.drop 1).head? == some '+' }

/-- `%u` of an `int`. -/
def showUnsigned (n : Int) : CStr := showNat (n % 2 ^ 32).toNat

/-- The text `botaddr_pack` and `botaddr_write_userfile` print. -/
def botaddrText (bi : BotAddr) : CStr :=
  (bi.address.map fun c => if c = ':' then ';' else c) ++ ':' ::
    (if bi.tlsBot then ['+'] else []) ++ showUnsigned bi.telnetPort ++ '/' ::
    (if bi.tlsRelay then ['+'] else []) ++ showUnsigned bi.relayPort

/-- `xtra_unpack` on one line: keys without data are dropped. -/
def xtraUnpackOne (s : CStr) : Option XtraKey :=
  let (key, data) := newsplit s
  if data = [] then none else some ⟨key, data⟩

def xtraText (x : XtraKey) : CStr := x.key ++ ' ' :: x.data

/-- The bot word of a flag string. -/
def botflUnpack (s : CStr) : FlagWord := (breakDownFlags s frBot false).1.bot

def botflText (w : FlagWord) : CStr :=
  buildFlags { FlagRecord.zero with matchType := frBot, bot := w }

/-- A nonempty vector, or a null pointer. -/
def vecOrNull (v : List CStr) : Value := if v = [] then .null else .vec v

def EntryType.unpack : EntryType → Value → Option Value
  | .xtra, .null => some .null
  | .xtra, .list l =>
    let v := l.filterMap xtraUnpackOne
    some (if v = [] then .null else .xtra v)
  | .hosts, .null | .account, .null => some .null
  | .hosts, .list l | .account, .list l => some (vecOrNull l)
  | .laston, .list (s :: _) => some (.laston (lastonUnpack s))
  | .botaddr, .list (s :: _) => some (.botaddr (botaddrUnpack s))
  | .botfl, .list (s :: _) => some (.botfl (botflUnpack s))
  | .comment, .list (s :: _) | .info, .list (s :: _) | .pass, .list (s :: _)
  | .pass2, .list (s :: _) | .fprint, .list (s :: _) | .fwd, .list (s :: _)
  | .dccdir, .list (s :: _) => some (.string s)
  | _, _ => none

def EntryType.pack : EntryType → Value → Option Value
  | .xtra, .null => some .null
  -- every element is inserted at the head of the list
  | .xtra, .xtra v => some (if v = [] then .null else .list (v.map xtraText).reverse)
  -- `hosts_null`: the vector stays
  | .hosts, u | .account, u => some u
  | .laston, .laston li => some (.list [lastonText li])
  | .botaddr, .botaddr bi => some (.list [botaddrText bi])
  | .botfl, .botfl w => some (.list [botflText w])
  | .comment, .string s | .info, .string s | .pass, .string s | .pass2, .string s
  | .fprint, .string s | .fwd, .string s | .dccdir, .string s => some (.list [s])
  | _, _ => none

/-! ### Setting -/

/-- The characters `def_set` lets through: no control characters but bold, colour, reverse and
underline. -/
def defSetChar (c : Char) : Char :=
  if c.toNat < 32 ∧ c.toNat ∉ [2, 3, 22, 31] then '?' else c

/-- `def_set`. -/
def defSet : Option CStr → Value
  | none | some [] => .null
  | some s => .string (s.map defSetChar)

/-- `pass2_set`. -/
def pass2Set : Option CStr → Value
  | none => .null
  | some s => .string s

/-- A password is cut and stripped of blanks and control characters. -/
def sanitizePass (pass : CStr) : CStr :=
  (pass.take passwordmax).map fun c => if c.toNat ≤ 32 ∨ c.toNat = 127 then '?' else c

/-- An empty password or one that starts with `-` removes. -/
def isRemoval : Option CStr → Bool
  | none | some [] | some ('-' :: _) => true
  | _ => false

section Pass

variable (hooks : Hooks) (flags : FlagWord)

/-- The new `PASS2` in `pass_set`, if it sets one. -/
def newPass2 (pass : CStr) : Option CStr :=
  match hooks.encryptPass2 with
  | none => none
  | some encrypt2 =>
    if flags.has userBot then some pass
    else if pass.head? = some '+' then none
    else encrypt2 pass

/-- The `set_user` call on `PASS2` in `pass_set`. -/
def passAlso (d : Option CStr) : Option (EntryType × SetData) :=
  if isRemoval d then
    if hooks.encryptPass2.isSome then some (.pass2, .string none) else none
  else
    (newPass2 hooks flags (sanitizePass (d.getD []))).map fun p => (.pass2, .string (some p))

/-- What `pass_set` leaves in the `PASS` entry. -/
def passSet (d : Option CStr) (u : Value) : Value :=
  match hooks.encryptPass with
  | none => u
  | some encrypt =>
    if isRemoval d then .null
    else
      let pass := sanitizePass (d.getD [])
      if hooks.encryptPass2.isNone || !hooks.removePass then
        .string (if flags.has userBot || pass.head? = some '+' then pass else encrypt pass)
      else if (newPass2 hooks flags pass).isSome then .null
      -- the old password is gone and nothing took its place
      else if u.isNull then .null else .freed

end Pass

/-- `xtra_set`. -/
def xtraSet (new : XtraKey) (v : List XtraKey) : List XtraKey :=
  let v := v.eraseP fun old => strcaseEq old.key new.key
  if new.data = [] then v else v ++ [new]

/-- Commas may not stand in hostmasks and account names. -/
def noCommas (s : CStr) : CStr := s.map fun c => if c = ',' then '?' else c

/-- `hosts_set` and `account_set`: `none` empties the entry, anything else replaces what is
`covered` by it. -/
def vecSet (covered : CStr → CStr → Bool) (d : Option CStr) (u : Value) : Option Value :=
  match u, d with
  | .null, none => some .null
  | .vec _, none => some .null
  | .null, some s =>
    some (if strcaseEq s "none".toList then .null else .vec [noCommas s])
  | .vec v, some s =>
    some (if strcaseEq s "none".toList then .null
      else .vec ((v.filter fun old => !covered (noCommas s) old) ++ [noCommas s]))
  | _, _ => none

/-- The `set` functions: the value they leave and whether they return nonzero. -/
def EntryType.set (hooks : Hooks) (flags : FlagWord) :
    EntryType → SetData → Value → Option (Value × Bool)
  | .comment, .string d, _ | .info, .string d, _ | .fwd, .string d, _ | .dccdir, .string d, _ =>
    some (defSet d, true)
  | .pass, .string d, u => some (passSet hooks flags d u, true)
  | .pass2, .string d, _ => some (pass2Set d, false)
  | .fprint, .string d, _ =>
    some (if isRemoval d then .null else .string (d.getD []), true)
  | .hosts, .string d, u => (vecSet hooks.cmpUsermasks d u).map (·, true)
  | .account, .string d, u => (vecSet strcaseEq d u).map (·, true)
  | .laston, .laston li, _ => some (.laston li, true)
  | .botaddr, .botaddr none, _ => some (.null, true)
  | .botaddr, .botaddr (some bi), _ => some (.botaddr bi, true)
  | .botfl, .botfl w, u =>
    some (if flags.has userBot then .botfl (w &&& botValid) else u, true)
  -- TCL_OK is 0
  | .xtra, .xtra x, .null =>
    some (if x.data = [] then .null else .xtra [x], false)
  | .xtra, .xtra x, .xtra v => some (.xtra (xtraSet x v), false)
  | _, _, _ => none

def EntryType.also (hooks : Hooks) (flags : FlagWord) :
    EntryType → SetData → Value → Option (EntryType × SetData)
  | .pass, .string d, _ => passAlso hooks flags d
  | _, _, _ => none

theorem passAlso_fst {hooks : Hooks} {flags : FlagWord} {d : Option CStr} {p : EntryType × SetData}
    (h : passAlso hooks flags d = some p) : p.1 = .pass2 := by
  unfold passAlso at h
  split at h
  · split at h
    · obtain rfl := Option.some.inj h
      rfl
    · cases h
  · obtain ⟨q, -, rfl⟩ := Option.map_eq_some_iff.1 h
    rfl

theorem also_fst {hooks : Hooks} {flags : FlagWord} {t t' : EntryType} {d d' : SetData} {u : Value}
    (h : EntryType.also hooks flags t d u = some (t', d')) : t = .pass ∧ t' = .pass2 := by
  cases t <;> cases d <;> simp only [EntryType.also, reduceCtorEq] at h
  exact ⟨rfl, passAlso_fst h⟩

/-- The table of the entry types, for a record with these flags. -/
def entryOps (hooks : Hooks) (flags : FlagWord) : EntryOps EntryType Value SetData where
  name := EntryType.name
  isNull := Value.isNull
  null := .null
  unpack := EntryType.unpack
  pack := EntryType.pack
  set := EntryType.set hooks flags
  also := EntryType.also hooks flags
  also_also := by
    intro t t' d d' u h v
    obtain ⟨-, rfl⟩ := also_fst h
    cases d' <;> rfl
  also_name := by
    intro t t' d d' u h
    obtain ⟨rfl, rfl⟩ := also_fst h
    decide

/-! ### Records the lookups fail on -/

/-- No encryption module, and every mask covers only itself. -/
def plainHooks : Hooks := ⟨none, none, false, fun a b => a == b⟩

/-- A user with a password and a field of a module that is not loaded: a lookup of the hostmasks
goes through the field. -/
theorem unknown_entry_faults :
    ¬ FindMeets (entryOps plainHooks 0) .hosts
      [.typed .pass (.string "x".toList), .named "CONSOLE".toList (.list ["#a".toList]),
        .typed .hosts (.vec ["*!*@h".toList])] := by
  rintro ⟨r, h, -⟩
  have : findUserEntry (entryOps plainHooks 0) .hosts
      [.typed .pass (.string "x".toList), .named "CONSOLE".toList (.list ["#a".toList]),
        .typed .hosts (.vec ["*!*@h".toList])] = .error .missingType := by decide
  rw [this] at h
  cases h

end Eggdrop.Users
