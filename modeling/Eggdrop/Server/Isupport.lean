import Eggdrop.Base.CString
import Eggdrop.Lib.Run
import Mathlib.Data.List.Nodup

/-!
# Isupport — the settings of raw 005 in isupport.c

A record has the value the server has sent and the default, and the value in force is the first of
the two that is set.  Five keys have limits of their own, kept in globals, which the functions
that change a value derive again.

* `setValue_keeps`, `unset_keeps`: every record has a value or a default, and the limits follow the
  values in force.
* `clearValues_spec`: the value in force of every key after a pass.
* `limitsRight_clearValues_iff`: `isupport_clear_values` does not derive the limits again; they are
  right afterwards where the values they come from read the same as before.
* `limits_throughout`: the same for runs.
-/

namespace Eggdrop.Isupport

/-! ### The table -/

/-- `struct isupport`. -/
structure Record where
  key : CStr
  value : Option CStr
  defaultvalue : Option CStr
deriving DecidableEq, Repr

/-- `isupport_get_from_record`. -/
def Record.get (r : Record) : Option CStr := r.value.or r.defaultvalue

/-- The globals that are derived from records; the arrays end at the first NUL. -/
structure Limits where
  maxModes : Int
  chanlimit : Int
  channellen : Int
  hostlen : Int
  prefixModes : CStr
  prefixChars : CStr
deriving DecidableEq, Repr

structure State where
  table : List Record
  limits : Limits
deriving DecidableEq, Repr

/-- `toupper`. -/
def toUpper (c : Char) : Char := if 'a' ≤ c ∧ c ≤ 'z' then Char.ofNat (c.toNat - 32) else c

/-! ### Parsing -/

/-- The value of a digit. -/
def digitValue (c : Char) : Nat :=
  if '0' ≤ c ∧ c ≤ '9' then c.toNat - '0'.toNat
  else if 'a' ≤ c ∧ c ≤ 'z' then c.toNat - 'a'.toNat + 10
  else if 'A' ≤ c ∧ c ≤ 'Z' then c.toNat - 'A'.toNat + 10
  else 36

/-- The leading digits of a base, as a number, and the rest; `none` if there are none. -/
def readDigits (base : Nat) (s : CStr) : Option (Nat × CStr) :=
  let digits := s.takeWhile fun c => digitValue c < base
  if digits = [] then none
  else some (digits.foldl (fun n c => base * n + digitValue c) 0,
    s.dropWhile fun c => digitValue c < base)

/-- A number whose base is told by its prefix. -/
def readAnyBase (s : CStr) : Option (Nat × CStr) :=
  let sub (base : Nat) (rest : CStr) : Option (Nat × CStr) :=
    -- without a digit behind it, the prefix is the number 0 and a letter
    (readDigits base rest).or (some (0, s.drop 1))
  match s with
  | '0' :: 'x' :: rest | '0' :: 'X' :: rest => sub 16 rest
  | '0' :: 'b' :: rest | '0' :: 'B' :: rest => sub 2 rest
  | '0' :: _ => readDigits 8 s
  | _ => readDigits 10 s

/-- `strtol(s, &end, base)` for a base or, with 0, any: the number and the text at `end`. -/
def strtolEnd (base : Nat) (s : CStr) : Int × CStr :=
  let t := s.dropWhile isSpace
  let (neg, t) := match t with
    | '-' :: t => (true, t)
    | '+' :: t => (false, t)
    | t => (false, t)
  match if base = 0 then readAnyBase t else readDigits base t with
  | none => (0, s)
  | some (n, rest) => (if neg then max (-n) (-2 ^ 63) else min n (2 ^ 63 - 1), rest)

/-- `isupport_parseint` with truncation: the number stored in `*dst`. -/
def parseint (value : Option CStr) (min_ max_ defaultvalue : Int) : Int :=
  match value with
  | none => defaultvalue
  | some value =>
    match strtolEnd 0 value with
    | (result, []) => if result < min_ then min_ else if max_ < result then max_ else result
    | _ => defaultvalue

/-- The limit behind the first colon of `CHANLIMIT`. -/
def parseChanlimit (value : Option CStr) : Int :=
  match (value.getD []).dropWhile (· ≠ ':') with
  | [] => 25
  | _ :: t =>
    let (n, end_) := strtolEnd 10 t
    if end_ ≠ t ∧ 0 < n then toCInt n else 25

/-- The modes and characters of `PREFIX`. -/
def parsePrefix (value : Option CStr) : CStr × CStr :=
  match value with
  | some ('(' :: s) =>
    match s.dropWhile (· ≠ ')') with
    | [] => ([], [])
    | _ :: chars =>
      let pairs := ((s.takeWhile (· ≠ ')')).take 15).zip chars
      (pairs.map Prod.fst, pairs.map Prod.snd)
  | _ => ([], [])

/-- The keys with limits. -/
inductive LimitKey where
  | modes
  | chanlimit
  | channellen
  | hostlen
  | prefix_
deriving DecidableEq, Repr

def LimitKey.name : LimitKey → CStr
  | .modes => "MODES".toList
  | .chanlimit => "CHANLIMIT".toList
  | .channellen => "CHANNELLEN".toList
  | .hostlen => "HOSTLEN".toList
  | .prefix_ => "PREFIX".toList

/-- Derive the limit of one key. -/
def LimitKey.derive (k : LimitKey) (value : Option CStr) (l : Limits) : Limits :=
  match k with
  | .modes => { l with maxModes := parseint value 1 64 3 }
  | .chanlimit => { l with chanlimit := parseChanlimit value }
  | .channellen => { l with channellen := parseint value 1 1024 200 }
  | .hostlen => { l with hostlen := parseint value 1 1023 63 }
  | .prefix_ => { l with
      prefixModes := (parsePrefix value).1, prefixChars := (parsePrefix value).2 }

def limitKeys : List LimitKey := [.modes, .chanlimit, .channellen, .hostlen, .prefix_]

/-! ### The functions of the table -/

/-- The globals before anything is set. -/
def Limits.builtin : Limits := ⟨3, 25, 200, 63, [], []⟩

def State.start : State := ⟨[], Limits.builtin⟩

namespace State

variable (st : State)

/-- The record in the slot of a key. -/
def slot (key : CStr) : Option Record := st.table.find? fun r => r.key = key

/-- `find_record`: keys are compared up to 255 characters. -/
def findRecord (key : CStr) : Option Record := st.slot ((key.take 255).map toUpper)

/-- `isupport_get`. -/
def isupportGet (key : CStr) : Option CStr := (st.findRecord key).bind Record.get

/-- `op_htab_set` under the key of the record. -/
def put (r : Record) : State :=
  { st with
    table :=
      if st.table.any (fun x => x.key = r.key) then
        st.table.map fun x => if x.key = r.key then r else x
      else st.table ++ [r] }

/-- `del_record`. -/
def delRecord (key : CStr) : State := { st with table := st.table.eraseP fun x => x.key = key }

/-- `get_record`: the record, and the table with it. -/
def getRecord (key : CStr) : Record × State :=
  match st.findRecord key with
  | some data => (data, st)
  | none =>
    let data : Record := ⟨key.map toUpper, none, none⟩
    (data, st.put data)

/-- `isupport_apply_dynamic_limits`. -/
def applyDynamicLimits (changedKey : CStr) : State :=
  match limitKeys.find? fun k => k.name = changedKey with
  | none => st
  | some k => { st with limits := k.derive (st.isupportGet k.name) st.limits }

/-- `isupport_set_value`; `veto` is what the binds return, should they be asked. -/
def setValue (key value : CStr) (setdefault veto : Bool) : State :=
  let (data, st) := st.getRecord key
  if setdefault ∧ data.defaultvalue = some value then st
  else if ¬ setdefault ∧ data.value = some value then st
  else
    let ret := veto && data.get ≠ some value
    if ¬ setdefault ∧ ret then
      if data.defaultvalue = none ∧ data.value = none then st.delRecord data.key else st
    else
      let data := if setdefault then { data with defaultvalue := some value }
        else { data with value := some value }
      (st.put data).applyDynamicLimits data.key

/-- `isupport_unset`. -/
def unset (key : CStr) (veto : Bool) : State :=
  match st.findRecord key with
  | none => st
  | some data =>
    if data.value = none ∨ veto then st
    else if data.defaultvalue ≠ none then
      (st.put { data with value := none }).applyDynamicLimits data.key
    else (st.delRecord data.key).applyDynamicLimits (data.key.take 255)

/-- One record in the loop of `isupport_clear_values`. -/
def clearValue (cleardefault : Bool) (key : CStr) (veto : Bool) : State :=
  match st.slot key with
  | none => st
  | some data =>
    if (if cleardefault then data.defaultvalue else data.value) = none then st
    else if cleardefault ∧ data.value ≠ none then st.put { data with defaultvalue := none }
    else if ¬ cleardefault ∧ data.defaultvalue ≠ none then
      if data.value = data.defaultvalue ∨ ¬ veto then st.put { data with value := none } else st
    else if veto then st
    else st.delRecord data.key

/-- `isupport_clear_values`: the keys in the order in which the iteration comes to them, each with
what the binds return there.  Where a deletion shifts slots across the end of the table, a key
comes a second time. -/
def clearValues (cleardefault : Bool) (visits : List (CStr × Bool)) : State :=
  visits.foldl (fun st v => st.clearValue cleardefault v.1 v.2) st

end State

/-! ### What the limits are for -/

/-- The limits that the values in force give. -/
def derived (st : State) : Limits :=
  limitKeys.foldl (fun l k => k.derive (st.isupportGet k.name) l) Limits.builtin

def LimitsRight (st : State) : Prop := st.limits = derived st

/-- Every record has a value or a default. -/
def RecordsSet (st : State) : Prop := ∀ r ∈ st.table, r.get.isSome = true

/-- The number or characters a limit is derived as. -/
def LimitKey.reads (k : LimitKey) (value : Option CStr) : Limits := k.derive value Limits.builtin

/-- The value in force once the record is cleared of its values, or of its default. -/
def Record.cleared (cleardefault : Bool) (r : Record) : Option CStr :=
  if cleardefault then r.value else r.defaultvalue

/-- Clearing the record of a limit leaves the limit as it is: the binds do not let it be cleared,
or what is left reads the same. -/
def KeepsLimit (cleardefault asked : Bool) (k : LimitKey) (r : Record) : Prop :=
  asked = false ∨ k.reads r.get = k.reads (r.cleared cleardefault)

/-- The pass of `isupport_clear_values` leaves the five limits as they are. -/
def ClearKeepsLimits (st : State) (cleardefault : Bool) (visits : List (CStr × Bool)) : Prop :=
  ∀ k : LimitKey, ∀ r, st.slot k.name = some r →
    KeepsLimit cleardefault (visits.contains (k.name, false)) k r

/-! ### Runs -/

inductive Event where
  | set (key value : CStr) (veto : Bool)
  | setdefault (key value : CStr) (veto : Bool)
  | unset (key : CStr) (veto : Bool)
  | clearValues (cleardefault : Bool) (visits : List (CStr × Bool))
deriving DecidableEq, Repr

def State.next (st : State) : Event → State
  | .set key value veto => st.setValue key value false veto
  | .setdefault key value veto => st.setValue key value true veto
  | .unset key veto => st.unset key veto
  | .clearValues cleardefault visits => st.clearValues cleardefault visits

def step (st : State) (e : Event) : Except Empty State := .ok (st.next e)

/-- The condition on a step: a pass that clears values keeps the limits. -/
def Safe (st : State) : Event → Prop
  | .clearValues cleardefault visits => ClearKeepsLimits st cleardefault visits
  | _ => True

/-! ### Slots -/

section Slots

variable {st : State} {r : Record} {key : CStr}

/-- No two records have the same key. -/
def Distinct (st : State) : Prop := (st.table.map (·.key)).Nodup

theorem slot_key (h : st.slot key = some r) : r.key = key := by
  simpa using List.find?_some h

theorem slot_mem (h : st.slot key = some r) : r ∈ st.table := List.mem_of_find?_eq_some h

theorem find?_replace (l : List Record) (r : Record) (key : CStr) :
    (l.map fun x => if x.key = r.key then r else x).find? (fun x => x.key = key) =
      (l.find? fun x => x.key = key).map fun x => if x.key = r.key then r else x := by
  rw [List.find?_map]
  congr 2
  funext x
  show decide ((if x.key = r.key then r else x).key = key) = decide (x.key = key)
  by_cases hx : x.key = r.key
  · rw [if_pos hx, hx]
  · rw [if_neg hx]

theorem slot_put (st : State) (r : Record) (key : CStr) :
    (st.put r).slot key = if key = r.key then some r else st.slot key := by
  unfold State.put State.slot
  by_cases hany : (st.table.any fun x => x.key = r.key) = true
  · show List.find? _ (if _ then _ else _) = _
    rw [if_pos hany, find?_replace]
    cases hf : st.table.find? fun x => x.key = key with
    | none =>
      obtain ⟨y, hy, hyk⟩ := List.any_eq_true.1 hany
      have hne : key ≠ r.key := fun h => by
        have hnot := List.find?_eq_none.1 hf y hy
        rw [h] at hnot
        exact hnot hyk
      rw [if_neg hne]
      rfl
    | some x =>
      have hx : x.key = key := slot_key hf
      rw [Option.map_some, hx]
      by_cases hk : key = r.key
      · rw [if_pos hk, if_pos hk]
      · rw [if_neg hk, if_neg hk]
  · show List.find? _ (if _ then _ else _) = _
    rw [if_neg hany, List.find?_append]
    by_cases hk : key = r.key
    · have hnone : st.table.find? (fun x => x.key = key) = none := by
        rw [List.find?_eq_none]
        intro x hx hxk
        rw [hk] at hxk
        exact hany (List.any_eq_true.2 ⟨x, hx, hxk⟩)
      rw [hnone, if_pos hk, List.find?_cons_of_pos (by simpa using hk.symm)]
      rfl
    · rw [if_neg hk, List.find?_cons_of_neg (by simpa using Ne.symm hk)]
      cases st.table.find? fun x => x.key = key <;> rfl

theorem slot_delRecord_of_ne (st : State) {key key' : CStr} (hne : key' ≠ key) :
    (st.delRecord key).slot key' = st.slot key' := by
  unfold State.delRecord State.slot
  induction st.table with
  | nil => rfl
  | cons x l ih =>
    by_cases hx : x.key = key
    · rw [List.eraseP_cons_of_pos (by simpa using hx),
        List.find?_cons_of_neg (by simpa [hx] using Ne.symm hne)]
    · rw [List.eraseP_cons_of_neg (by simpa using hx), List.find?_cons, List.find?_cons, ih]

theorem slot_delRecord_self (hd : Distinct st) (key : CStr) :
    (st.delRecord key).slot key = none := by
  obtain ⟨l, limits⟩ := st
  unfold Distinct at hd
  unfold State.delRecord State.slot
  induction l with
  | nil => rfl
  | cons x l ih =>
    rw [List.map_cons, List.nodup_cons] at hd
    by_cases hx : x.key = key
    · rw [List.eraseP_cons_of_pos (by simpa using hx), List.find?_eq_none]
      intro y hy hyk
      have hyk' : y.key = key := by simpa using hyk
      exact hd.1 (List.mem_map.2 ⟨y, hy, hyk'.trans hx.symm⟩)
    · rw [List.eraseP_cons_of_neg (by simpa using hx), List.find?_cons_of_neg (by simpa using hx)]
      exact ih hd.2

theorem distinct_put (hd : Distinct st) (r : Record) : Distinct (st.put r) := by
  unfold Distinct State.put at *
  show (List.map _ (if _ then _ else _)).Nodup
  by_cases hany : (st.table.any fun x => x.key = r.key) = true
  · have hkeys : (st.table.map fun x => if x.key = r.key then r else x).map (·.key) =
        st.table.map (·.key) := by
      rw [List.map_map]
      refine List.map_congr_left fun x _ => ?_
      show (if x.key = r.key then r else x).key = x.key
      by_cases hx : x.key = r.key
      · rw [if_pos hx, hx]
      · rw [if_neg hx]
    rw [if_pos hany, hkeys]
    exact hd
  · rw [if_neg hany, List.map_append, List.nodup_append]
    refine ⟨hd, by simp, ?_⟩
    rintro k hk k' hk' rfl
    obtain ⟨x, hx, rfl⟩ := List.mem_map.1 hk
    exact hany (List.any_eq_true.2 ⟨x, hx, by simpa using hk'⟩)

theorem distinct_delRecord (hd : Distinct st) (key : CStr) : Distinct (st.delRecord key) :=
  hd.sublist (List.eraseP_sublist.map _)

theorem slot_of_mem (hd : Distinct st) (hr : r ∈ st.table) : st.slot r.key = some r := by
  cases hf : st.slot r.key with
  | none => exact absurd (decide_eq_true rfl) (List.find?_eq_none.1 hf r hr)
  | some x => rw [List.inj_on_of_nodup_map hd (slot_mem hf) hr (slot_key hf)]

theorem recordsSet_iff (hd : Distinct st) :
    RecordsSet st ↔ ∀ key r, st.slot key = some r → r.get.isSome = true :=
  ⟨fun h _ r hr => h r (slot_mem hr), fun h r hr => h r.key r (slot_of_mem hd hr)⟩

end Slots

/-! ### Limits and values in force -/

section Limits

variable {st st' : State} {k k' : LimitKey} {v w : Option CStr} {l : Limits}

/-- The value in force of a limit's key. -/
def inForce (st : State) (k : LimitKey) : Option CStr := (st.slot k.name).bind Record.get

theorem isupportGet_name (st : State) (k : LimitKey) : st.isupportGet k.name = inForce st k := by
  have hname : (k.name.take 255).map toUpper = k.name := by
    cases k <;> rfl
  rw [State.isupportGet, State.findRecord, hname, inForce]

theorem name_injective (h : k.name = k'.name) : k = k' := by
  revert h
  cases k <;> cases k' <;> decide

theorem mem_limitKeys (k : LimitKey) : k ∈ limitKeys := by
  cases k <;> decide

theorem derive_derive_self (k : LimitKey) : k.derive v (k.derive w l) = k.derive v l := by
  cases k <;> rfl

theorem derive_comm (hne : k ≠ k') : k.derive v (k'.derive w l) = k'.derive w (k.derive v l) := by
  cases k <;> cases k' <;> first | rfl | exact absurd rfl hne

theorem derive_eq_iff (k : LimitKey) :
    k.derive v l = k.derive w l ↔ k.reads v = k.reads w := by
  cases k <;> simp [LimitKey.derive, LimitKey.reads]

/-- The limits are right when deriving any of them again changes nothing. -/
theorem limitsRight_iff :
    LimitsRight st ↔ ∀ k : LimitKey, k.derive (inForce st k) st.limits = st.limits := by
  have hderived : derived st =
      limitKeys.foldl (fun l k => k.derive (inForce st k) l) Limits.builtin := by
    unfold derived
    simp only [isupportGet_name]
  rw [LimitsRight, hderived]
  constructor
  · intro h k
    rw [h]
    cases k <;> rfl
  · intro h
    show st.limits = _
    rw [← h .modes, ← h .chanlimit, ← h .channellen, ← h .hostlen, ← h .prefix_]
    rfl

end Limits

/-! ### Edits of one slot -/

/-- The slots of other keys, and the limits, are as before. -/
structure Edits (st st' : State) (key : CStr) : Prop where
  limits : st'.limits = st.limits
  distinct : Distinct st'
  slot : ∀ key', key' ≠ key → st'.slot key' = st.slot key'

namespace Edits

variable {st st' : State} {r : Record} {key : CStr}

theorem refl (hd : Distinct st) : Edits st st key := ⟨rfl, hd, fun _ _ => rfl⟩

theorem put (h : Edits st st' r.key) : Edits st (st'.put r) r.key where
  limits := h.limits
  distinct := distinct_put h.distinct r
  slot key' hne := by rw [slot_put, if_neg hne, h.slot key' hne]

theorem delRecord (h : Edits st st' key) : Edits st (st'.delRecord key) key where
  limits := h.limits
  distinct := distinct_delRecord h.distinct key
  slot key' hne := by rw [slot_delRecord_of_ne st' hne, h.slot key' hne]

theorem inForce_eq {k : LimitKey} (h : Edits st st' key) (hk : k.name ≠ key) :
    inForce st' k = inForce st k := by
  rw [inForce, h.slot _ hk, inForce]

theorem recordsSet (h : Edits st st' key) (hset : RecordsSet st)
    (hkey : ∀ r, st'.slot key = some r → r.get.isSome = true) : RecordsSet st' := by
  rw [recordsSet_iff h.distinct]
  intro key' r hr
  by_cases hk : key' = key
  · rw [hk] at hr
    exact hkey r hr
  · rw [h.slot key' hk] at hr
    exact hset r (slot_mem hr)

theorem limitsRight (h : Edits st st' key) (hright : LimitsRight st)
    (hkey : ∀ k : LimitKey, k.name = key → inForce st' k = inForce st k) : LimitsRight st' := by
  rw [limitsRight_iff] at hright ⊢
  intro k
  have hforce : inForce st' k = inForce st k := by
    by_cases hk : k.name = key
    · exact hkey k hk
    · exact h.inForce_eq hk
  rw [hforce, h.limits, hright k]

theorem limitsRight_apply (h : Edits st st' key) (hright : LimitsRight st) :
    LimitsRight (st'.applyDynamicLimits key) := by
  rw [limitsRight_iff] at hright ⊢
  unfold State.applyDynamicLimits
  cases hf : limitKeys.find? fun k => k.name = key with
  | none =>
    intro k
    have hk : k.name ≠ key := by
      simpa using List.find?_eq_none.1 hf k (mem_limitKeys k)
    show k.derive (inForce st' k) st'.limits = st'.limits
    rw [h.inForce_eq hk, h.limits, hright k]
  | some k₀ =>
    have hk₀ : k₀.name = key := by simpa using List.find?_some hf
    intro k
    show k.derive (inForce st' k) (k₀.derive (st'.isupportGet k₀.name) st'.limits) =
      k₀.derive (st'.isupportGet k₀.name) st'.limits
    rw [isupportGet_name]
    by_cases hk : k = k₀
    · rw [hk, derive_derive_self]
    · have hname : k.name ≠ key := fun he => hk (name_injective (he.trans hk₀.symm))
      rw [derive_comm hk, h.inForce_eq hname, h.limits, hright k]

end Edits

/-! ### Setting and unsetting -/

/-- What every call keeps. -/
structure TableInv (st : State) : Prop where
  distinct : Distinct st
  recordsSet : RecordsSet st

/-- A call that keeps the limits right too. -/
structure Keeps (st st' : State) : Prop extends TableInv st' where
  limits : LimitsRight st → LimitsRight st'

theorem TableInv.keeps {st : State} (h : TableInv st) : Keeps st st := ⟨h, id⟩

section SetUnset

variable {st st' : State} {key value : CStr} {setdefault veto : Bool}

theorem TableInv.apply (h : TableInv st) (hedit : Edits st st' key)
    (hkey : ∀ r, st'.slot key = some r → r.get.isSome = true) :
    Keeps st (st'.applyDynamicLimits key) := by
  have htable : (st'.applyDynamicLimits key).table = st'.table := by
    unfold State.applyDynamicLimits
    split <;> rfl
  refine ⟨⟨?_, ?_⟩, hedit.limitsRight_apply⟩
  · rw [Distinct, htable]
    exact hedit.distinct
  · rw [RecordsSet, htable]
    exact hedit.recordsSet h.recordsSet hkey

theorem TableInv.store {r : Record} (h : TableInv st) (hedit : Edits st st' r.key)
    (hr : r.get.isSome = true) : Keeps st ((st'.put r).applyDynamicLimits r.key) := by
  refine h.apply hedit.put fun x hx => ?_
  rw [slot_put, if_pos rfl] at hx
  obtain rfl : r = x := Option.some.inj hx
  exact hr

/-- `data` with the new value. -/
def withValue (data : Record) (value : CStr) (setdefault : Bool) : Record :=
  if setdefault then { data with defaultvalue := some value } else { data with value := some value }

theorem withValue_key (data : Record) : (withValue data value setdefault).key = data.key := by
  cases setdefault <;> rfl

theorem withValue_isSome (data : Record) : (withValue data value setdefault).get.isSome = true := by
  cases setdefault <;> simp [withValue, Record.get]

/-- A record that `find_record` finds. -/
theorem setValue_of_some {data : Record} (h : TableInv st)
    (hf : st.findRecord key = some data) : Keeps st (st.setValue key value setdefault veto) := by
  have hset : data.get.isSome = true := h.recordsSet data (slot_mem hf)
  unfold State.setValue State.getRecord
  rw [hf]
  dsimp only
  split
  · exact h.keeps
  split
  · exact h.keeps
  split
  · split
    · rename_i hnone
      rw [Record.get, hnone.1, hnone.2] at hset
      exact absurd hset (by simp)
    · exact h.keeps
  · exact h.store (r := withValue data value setdefault) (.refl h.distinct) (withValue_isSome data)

theorem setValue_of_none (h : TableInv st) (hf : st.findRecord key = none) :
    Keeps st (st.setValue key value setdefault veto) := by
  unfold State.setValue State.getRecord
  rw [hf]
  dsimp only
  have hnew : Edits st (st.put ⟨key.map toUpper, none, none⟩) (key.map toUpper) :=
    (Edits.refl h.distinct).put (r := ⟨key.map toUpper, none, none⟩)
  rw [if_neg (by simp), if_neg (by simp)]
  split
  · rw [if_pos ⟨rfl, rfl⟩]
    have hgone := hnew.delRecord
    have hslot := slot_delRecord_self hnew.distinct (key.map toUpper)
    refine ⟨⟨hgone.distinct, ?_⟩, fun hright => ?_⟩
    · refine hgone.recordsSet h.recordsSet fun r hr => ?_
      rw [hslot] at hr
      cases hr
    · refine hgone.limitsRight hright fun k hk => ?_
      -- the name of a limit is shorter than the limit on keys
      have hlen : key.length ≤ 255 := by
        have hk' := congrArg List.length hk
        rw [List.length_map] at hk'
        rw [← hk']
        cases k <;> decide
      have hold : st.slot (key.map toUpper) = none := by
        rw [← List.take_of_length_le hlen]
        exact hf
      rw [inForce, inForce, hk, hslot, hold]
  · exact h.store (r := withValue ⟨key.map toUpper, none, none⟩ value setdefault)
      (by rw [withValue_key]; exact hnew) (withValue_isSome _)

theorem setValue_keeps (h : TableInv st) : Keeps st (st.setValue key value setdefault veto) := by
  cases hf : st.findRecord key with
  | none => exact setValue_of_none h hf
  | some data => exact setValue_of_some h hf

theorem unset_keeps (h : TableInv st) : Keeps st (st.unset key veto) := by
  unfold State.unset
  cases hf : st.findRecord key with
  | none => exact h.keeps
  | some data =>
    dsimp only
    split
    · exact h.keeps
    split
    · rename_i hdefault
      refine h.store (r := { data with value := none }) (.refl h.distinct) ?_
      rw [Record.get, Option.none_or]
      exact Option.isSome_iff_ne_none.2 hdefault
    · have hlen : data.key.length ≤ 255 := by
        rw [show data.key = _ from slot_key hf, List.length_map]
        exact List.length_take_le 255 key
      rw [List.take_of_length_le hlen]
      refine h.apply (Edits.refl h.distinct).delRecord fun r hr => ?_
      rw [slot_delRecord_self h.distinct] at hr
      cases hr

end SetUnset

/-! ### Clearing -/

section Clear

variable {st : State} {cleardefault veto : Bool} {key : CStr} {visits : List (CStr × Bool)}

/-- `st'` is `st` after a visit of `key`: the record has been cleared unless the binds forbade it,
and can be cleared to the same value as before. -/
structure Visited (cleardefault veto : Bool) (key : CStr) (st st' : State) : Prop extends
    Edits st st' key where
  isSet : ∀ r, st'.slot key = some r → r.get.isSome = true
  cleared : (st'.slot key).bind (Record.cleared cleardefault) =
    (st.slot key).bind (Record.cleared cleardefault)
  get : (st'.slot key).bind Record.get =
    if veto then (st.slot key).bind Record.get else (st.slot key).bind (Record.cleared cleardefault)

theorem visited_self (hd : Distinct st) (hset : RecordsSet st)
    (hget : veto = false → (st.slot key).bind Record.get =
      (st.slot key).bind (Record.cleared cleardefault)) :
    Visited cleardefault veto key st st where
  toEdits := .refl hd
  isSet r hr := hset r (slot_mem hr)
  cleared := rfl
  get := by
    cases veto with
    | true => rfl
    | false => exact hget rfl

theorem visited_put {r x : Record} (hd : Distinct st) (hr : st.slot r.key = some r)
    (hx : x.key = r.key) (hset : x.get.isSome = true)
    (hcleared : x.cleared cleardefault = r.cleared cleardefault)
    (hget : x.get = if veto then r.get else r.cleared cleardefault) :
    Visited cleardefault veto r.key st (st.put x) := by
  have hslot : (st.put x).slot r.key = some x := by rw [slot_put, if_pos hx.symm]
  refine { toEdits := ?_, isSet := ?_, cleared := ?_, get := ?_ }
  · rw [← hx]
    exact (Edits.refl hd).put
  · rintro y hy
    obtain rfl : x = y := Option.some.inj (hslot.symm.trans hy)
    exact hset
  · rw [hslot, hr]
    exact hcleared
  · rw [hslot, hr]
    exact hget

theorem visited_delRecord {r : Record} (hd : Distinct st) (hr : st.slot r.key = some r)
    (hcleared : r.cleared cleardefault = none) :
    Visited cleardefault false r.key st (st.delRecord r.key) := by
  have hslot := slot_delRecord_self hd r.key
  refine { toEdits := (Edits.refl hd).delRecord, isSet := ?_, cleared := ?_, get := ?_ }
  · intro y hy
    rw [hslot] at hy
    cases hy
  · rw [hslot, hr]
    exact hcleared.symm
  · rw [hslot, hr]
    exact hcleared.symm

theorem clearValue_visited (h : TableInv st) (cleardefault veto : Bool) (key : CStr) :
    Visited cleardefault veto key st (st.clearValue cleardefault key veto) := by
  unfold State.clearValue
  cases hr : st.slot key with
  | none => exact visited_self h.distinct h.recordsSet fun _ => by rw [hr]; rfl
  | some r =>
    obtain rfl := slot_key hr
    obtain ⟨hd, hset⟩ := h
    have hself : (veto = false → r.get = r.cleared cleardefault) →
        Visited cleardefault veto r.key st st := fun h =>
      visited_self hd hset fun hv => by rw [hr]; exact h hv
    have hgot := hset r (slot_mem hr)
    obtain ⟨key, value, defaultvalue⟩ := r
    dsimp only
    cases cleardefault with
    | true =>
      cases defaultvalue with
      | none => exact hself fun _ => Option.or_none
      | some d =>
        cases value with
        | some v => exact visited_put hd hr rfl rfl rfl (by cases veto <;> rfl)
        | none =>
          cases veto with
          | true => exact hself fun h => nomatch h
          | false => exact visited_delRecord hd hr rfl
    | false =>
      cases value with
      | none => exact hself fun _ => Option.none_or
      | some v =>
        cases defaultvalue with
        | none =>
          cases veto with
          | true => exact hself fun h => nomatch h
          | false => exact visited_delRecord hd hr rfl
        | some d =>
          rw [if_neg (by simp), if_neg (by simp), if_pos (by simp)]
          by_cases hvd : v = d
          · rw [if_pos (.inl (congrArg some hvd))]
            obtain rfl := hvd
            exact visited_put hd hr rfl rfl rfl (by cases veto <;> rfl)
          · cases veto with
            | true =>
              rw [if_neg (by simpa using hvd)]
              exact hself fun h => nomatch h
            | false =>
              rw [if_pos (.inr (by simp))]
              exact visited_put hd hr rfl rfl rfl rfl

/-- A pass leaves in force what the binds let it leave. -/
theorem clearValues_spec (h : TableInv st) (cleardefault : Bool) (visits : List (CStr × Bool)) :
    TableInv (st.clearValues cleardefault visits) ∧
      (st.clearValues cleardefault visits).limits = st.limits ∧
      ∀ key, ((st.clearValues cleardefault visits).slot key).bind Record.get =
        if visits.contains (key, false) then (st.slot key).bind (Record.cleared cleardefault)
        else (st.slot key).bind Record.get := by
  unfold State.clearValues
  induction visits generalizing st with
  | nil => exact ⟨h, rfl, fun _ => rfl⟩
  | cons v visits ih =>
    obtain ⟨key, veto⟩ := v
    have hvisit := clearValue_visited h cleardefault veto key
    obtain ⟨hinv, hlimits, hget⟩ :=
      ih ⟨hvisit.distinct, hvisit.recordsSet h.recordsSet hvisit.isSet⟩
    refine ⟨hinv, hlimits.trans hvisit.limits, fun key' => ?_⟩
    rw [List.foldl_cons, hget key']
    by_cases hk : key' = key
    · rw [hk, hvisit.cleared, hvisit.get]
      cases veto with
      | true => simp
      | false => simp
    · have hne : ((key, veto) :: visits).contains (key', false) = visits.contains (key', false) := by
        simp [hk]
      rw [hne, hvisit.slot key' hk]

end Clear

/-! ### Runs keep the limits right -/

theorem limitsRight_clearValues_iff {st : State} (h : TableInv st) (hlim : LimitsRight st)
    (cleardefault : Bool) (visits : List (CStr × Bool)) :
    LimitsRight (st.clearValues cleardefault visits) ↔
      ClearKeepsLimits st cleardefault visits := by
  obtain ⟨-, hlimits, hget⟩ := clearValues_spec h cleardefault visits
  have hright := limitsRight_iff.1 hlim
  rw [limitsRight_iff, hlimits]
  refine forall_congr' fun k => ?_
  have hold : k.derive (inForce (st.clearValues cleardefault visits) k) st.limits = st.limits ↔
      k.reads (inForce (st.clearValues cleardefault visits) k) = k.reads (inForce st k) := by
    rw [← derive_eq_iff k (l := st.limits), hright k]
  rw [hold, inForce, inForce, hget]
  cases hr : st.slot k.name with
  | none =>
    refine ⟨fun _ r h => (nomatch h), fun _ => ?_⟩
    rw [Option.bind_none, Option.bind_none, ite_self]
  | some r =>
    have hone : (∀ x, some r = some x →
        KeepsLimit cleardefault (visits.contains (k.name, false)) k x) ↔
        KeepsLimit cleardefault (visits.contains (k.name, false)) k r :=
      ⟨fun h => h r rfl, by rintro h x ⟨⟩; exact h⟩
    rw [hone, KeepsLimit, Option.bind_some, Option.bind_some]
    cases visits.contains (k.name, false) with
    | true => exact ⟨fun h => .inr h.symm, by rintro (h | h); exacts [(nomatch h), h.symm]⟩
    | false => exact ⟨fun _ => .inl rfl, fun _ => rfl⟩

theorem tableInv_next {st : State} (h : TableInv st) (e : Event) : TableInv (st.next e) := by
  cases e with
  | set key value veto =>
    have hkeeps : Keeps st (st.setValue key value false veto) := setValue_keeps h
    exact hkeeps.toTableInv
  | setdefault key value veto =>
    have hkeeps : Keeps st (st.setValue key value true veto) := setValue_keeps h
    exact hkeeps.toTableInv
  | unset key veto =>
    have hkeeps : Keeps st (st.unset key veto) := unset_keeps h
    exact hkeeps.toTableInv
  | clearValues cleardefault visits => exact (clearValues_spec h cleardefault visits).1

theorem limitsRight_next_iff {st : State} (h : TableInv st) (hlim : LimitsRight st) (e : Event) :
    LimitsRight (st.next e) ↔ Safe st e := by
  cases e with
  | set key value veto => exact iff_of_true ((setValue_keeps h).limits hlim) trivial
  | setdefault key value veto => exact iff_of_true ((setValue_keeps h).limits hlim) trivial
  | unset key veto => exact iff_of_true ((unset_keeps h).limits hlim) trivial
  | clearValues cleardefault visits => exact limitsRight_clearValues_iff h hlim cleardefault visits

theorem tableInv_start : TableInv State.start where
  distinct := List.nodup_nil
  recordsSet := by
    intro r hr
    cases hr

theorem tableInv_throughout (es : List Event) :
    Machine.Throughout step TableInv State.start es := by
  refine Machine.throughout_of_step (fun st e st' h hstep => ?_) tableInv_start es
  obtain rfl : st.next e = st' := by simpa [step] using hstep
  exact tableInv_next h e

/-- The limits are right in every state of a run exactly when each of its passes keeps them. -/
theorem limits_throughout (es : List Event) :
    Machine.Throughout step RecordsSet State.start es ∧
      (Machine.Throughout step LimitsRight State.start es ↔
        Machine.Along step Safe State.start es) := by
  refine ⟨(tableInv_throughout es).imp fun st h => h.recordsSet, ?_⟩
  have hiff : Machine.Throughout step (fun st => TableInv st ∧ LimitsRight st) State.start es ↔
      Machine.Along step Safe State.start es := by
    refine Machine.throughout_iff_along (fun st e _ => ⟨_, rfl⟩) ?_ ⟨tableInv_start, rfl⟩ es
    intro st e st' h hstep
    obtain rfl : st.next e = st' := by simpa [step] using hstep
    rw [← limitsRight_next_iff h.1 h.2 e]
    exact ⟨fun h' => h'.2, fun h' => ⟨tableInv_next h.1 e, h'⟩⟩
  rw [← hiff]
  exact ⟨fun h => (tableInv_throughout es).and h, fun h => h.imp fun st h => h.2⟩

/-- After a disconnect the bot still sends 20 modes on a line. -/
theorem not_limitsRight_after_clear :
    ¬ Machine.Throughout step LimitsRight State.start
      [.set "MODES".toList "20".toList false, .clearValues false [("MODES".toList, false)]] := by
  intro h
  have hrun : ∃ st, Machine.run step State.start
      [.set "MODES".toList "20".toList false, .clearValues false [("MODES".toList, false)]] =
        .ok st ∧ st.limits.maxModes = 20 ∧ (derived st).maxModes = 3 :=
    ⟨_, rfl, by decide, by decide⟩
  obtain ⟨st, hst, hmodes, hderived⟩ := hrun
  have hlast := h.last hst
  rw [hlast, hderived] at hmodes
  exact absurd hmodes (by decide)

end Eggdrop.Isupport
