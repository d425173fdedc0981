import Eggdrop.Irc.ModeWord

/-!
# ModeProtect — the modes that are enforced in a channel, in channels.c

`chanmode` takes a mode change like `+lk-s 5 key` and keeps which modes are enforced and which are
rejected, with a limit and a key.  It is written back in an order of its own: `l` and `k` come first
and are written where there is a limit or a key, not where their bits are set.

* `Made.of_set`: what is kept has no mode twice, and a limit or a key only beside its bit.
* `set_text`: what is written gives the same back where each of the two bits has its parameter.
* `setModeProtect_getModeProtect_iff`: in terms of what was given.
-/

namespace Eggdrop.ModeProtect

open ModeReply

/-! ### Setting -/

abbrev chanLimit : BitVec 32 := 0x0040

/-- The bit of a letter: as in a reply, but there is one for `l` and none for `d`. -/
def protectBit (c : Char) : BitVec 32 :=
  if c = 'l' then chanLimit else if c = 'd' then 0 else modeBit c

/-- `mode_pls_prot`, `mode_mns_prot`, `limit_prot` and `key_prot`. -/
structure Protect where
  pls : BitVec 32
  mns : BitVec 32
  limit : Int
  key : CStr
deriving DecidableEq, Repr

def Protect.clear : Protect := ⟨0, 0, 0, []⟩

/-- The modes of `i` are enforced, or rejected. -/
def Protect.put (m : Protect) (pos : Bool) (i : BitVec 32) : Protect :=
  if pos then { m with pls := m.pls ||| i, mns := m.mns &&& ~~~i }
  else { m with pls := m.pls &&& ~~~i, mns := m.mns ||| i }

/-- Where the loop of `set_mode_protect` is: `set` is what is left of the string. -/
structure Reading where
  pos : Bool
  set : CStr
  modes : Protect
deriving DecidableEq, Repr

/-- `sizeof key_prot`, less one. -/
def keyMax : Nat := 120

namespace Reading

variable (r : Reading)

/-- The parameter of a letter, taken with `+` only. -/
def takeParam : CStr × CStr := if r.pos then newsplit r.set else ([], r.set)

/-- The case `l`. -/
def limit : Reading :=
  let (s1, set) := r.takeParam
  ⟨r.pos, set, { r.modes with limit := if s1 = [] then 0 else eggAtoi s1 }⟩

/-- The case `k`. -/
def key : Reading :=
  let (s1, set) := r.takeParam
  ⟨r.pos, set, { r.modes with key := if s1 = [] then [] else s1.take keyMax }⟩

/-- One turn of the loop. -/
def letter (c : Char) : Reading :=
  if c = '+' then { r with pos := true }
  else if c = '-' then { r with pos := false }
  else
    let r := if c = 'l' then r.limit else if c = 'k' then r.key else r
    { r with modes := r.modes.put r.pos (protectBit c) }

end Reading

/-- `set_mode_protect`.  It clears the old modes first, so that they do not matter. -/
def setModeProtect (allowPs : Bool) (set : CStr) : Protect :=
  let r := (newsplit set).1.foldl Reading.letter ⟨true, (newsplit set).2, .clear⟩
  if r.modes.pls &&& chanSec ≠ 0 ∧ allowPs = false then
    { r.modes with pls := r.modes.pls &&& ~~~chanPriv }
  else r.modes

/-! ### Writing -/

/-- The letters but `l` and `k`, in the order they are written in. -/
def protectLetters : CStr :=
  ['i', 'p', 's', 'm', 'c', 'C', 'R', 'M', 'r', 'D', 'u', 'N', 'T', 't', 'n', 'a', 'q']

namespace Protect

variable (m : Protect)

def lettersOf (tst : BitVec 32) : CStr := protectLetters.filter fun c => tst &&& modeBit c ≠ 0

def plsWord : CStr :=
  (if m.pls ≠ 0 ∨ m.limit ≠ 0 ∨ m.key ≠ [] then ['+'] else []) ++
    (if m.limit ≠ 0 then ['l'] else []) ++ (if m.key ≠ [] then ['k'] else []) ++ lettersOf m.pls

def mnsWord : CStr :=
  (if m.mns ≠ 0 then ['-'] else []) ++ (if m.mns &&& chanKey ≠ 0 then ['k'] else []) ++
    (if m.mns &&& chanLimit ≠ 0 then ['l'] else []) ++ lettersOf m.mns

/-- `s1`: the limit and the key, each with a blank behind it. -/
def params : CStr :=
  (if m.limit ≠ 0 then showInt m.limit ++ [' '] else []) ++ (if m.key ≠ [] then m.key ++ [' '] else [])

/-- `get_mode_protect` into a buffer of `sz` characters. -/
def getModeProtect (sz : Nat) : CStr :=
  let s := m.plsWord ++ m.mnsWord
  if m.params = [] then s else strlcat (strlcat s [' '] sz) m.params.dropLast sz

/-- The text that is to be written, whatever the buffer. -/
def text : CStr :=
  m.plsWord ++ m.mnsWord ++ if m.params = [] then [] else ' ' :: m.params.dropLast

end Protect

/-! ### What was given -/

/-- A `l` or `k` of a mode word with the parameter it takes. -/
structure Change where
  mode : Char
  pos : Bool
  param : CStr
deriving DecidableEq, Repr

/-- The `l` and `k` of a mode word, in their order. -/
def changes : Bool → CStr → CStr → List Change
  | _, [], _ => []
  | pos, c :: word, set =>
    if c = '+' then changes true word set
    else if c = '-' then changes false word set
    else if c = 'l' ∨ c = 'k' then
      if pos then ⟨c, true, (newsplit set).1⟩ :: changes pos word (newsplit set).2
      else ⟨c, false, []⟩ :: changes pos word set
    else changes pos word set

/-- The last change of a mode. -/
def lastChange (mode : Char) (set : CStr) : Option Change :=
  ((changes true (newsplit set).1 (newsplit set).2).filter fun ch => ch.mode = mode).getLast?

/-- Where the string enforces a limit or a key in the end, it gives one. -/
def ParamsGiven (set : CStr) : Prop :=
  (∀ ch, lastChange 'l' set = some ch → ch.pos = true → eggAtoi ch.param ≠ 0) ∧
    ∀ ch, lastChange 'k' set = some ch → ch.pos = true → ch.param ≠ []

instance (set : CStr) : Decidable (ParamsGiven set) := inferInstanceAs (Decidable (_ ∧ _))

/-- No mode is both enforced and rejected. -/
def Protect.Exclusive (m : Protect) : Prop := m.pls &&& m.mns = 0

/-! ### Bits -/

section Bits

variable {w : Nat} {p q i j : BitVec w}

theorem or_and_and_not (h : p &&& q = 0) (i : BitVec w) : (p ||| i) &&& (q &&& ~~~i) = 0 := by
  ext n hn
  have hbit := congrArg (·[n]) h
  simp only [BitVec.getElem_and, BitVec.getElem_or, BitVec.getElem_not] at hbit ⊢
  rw [show (0 : BitVec w)[n] = false from BitVec.getElem_zero hn] at hbit ⊢
  cases hp : p[n] <;> cases hi : i[n] <;> simp_all

theorem and_not_of_and (h : p &&& i = 0) : p &&& ~~~i = p := by
  ext n hn
  have hbit := congrArg (·[n]) h
  simp only [BitVec.getElem_and, BitVec.getElem_not] at hbit ⊢
  rw [show (0 : BitVec w)[n] = false from BitVec.getElem_zero hn] at hbit
  cases hp : p[n] <;> simp_all

theorem or_and_within (hp : p &&& j = p) (hi : i &&& j = i) : (p ||| i) &&& j = p ||| i := by
  rw [BitVec.and_or_distrib_right, hp, hi]

theorem and_not_within (hp : p &&& j = p) (i : BitVec w) : p &&& ~~~i &&& j = p &&& ~~~i := by
  rw [BitVec.and_assoc, BitVec.and_comm (~~~i), ← BitVec.and_assoc, hp]

theorem and_not_and_self (p i : BitVec w) : p &&& ~~~i &&& i = 0 := by
  ext n hn
  simp

end Bits

/-- The bits there are. -/
def protectMask : BitVec 32 := chanLimit ||| chanKey ||| modeBits protectLetters

theorem protectBit_within (c : Char) : protectBit c &&& protectMask = protectBit c := by
  unfold protectBit
  by_cases hl : c = 'l'
  · rw [if_pos hl]
    decide
  rw [if_neg hl]
  by_cases hd : c = 'd'
  · rw [if_pos hd]
    decide
  rw [if_neg hd]
  unfold modeBit
  split <;> first | decide | exact absurd rfl hd

theorem protectBit_limit {c : Char} (hc : c ≠ 'l') : protectBit c &&& chanLimit = 0 := by
  unfold protectBit
  rw [if_neg hc]
  split
  · decide
  · unfold modeBit
    split <;> decide

theorem protectBit_key {c : Char} (hc : c ≠ 'k') : protectBit c &&& chanKey = 0 := by
  unfold protectBit
  split
  · decide
  split
  · decide
  · unfold modeBit
    split <;> first | decide | exact absurd rfl hc

theorem protectLetters_spec : ∀ c ∈ protectLetters,
    c ≠ '+' ∧ c ≠ '-' ∧ c ≠ 'l' ∧ c ≠ 'k' ∧ c ≠ ' ' ∧ protectBit c = modeBit c := by
  decide

/-! ### What `put` does -/

section Put

variable {m : Protect} {pos : Bool} {i j : BitVec 32}

theorem put_eq (m : Protect) (pos : Bool) (i : BitVec 32) :
    m.put pos i = ⟨(m.put pos i).pls, (m.put pos i).mns, m.limit, m.key⟩ := by
  cases pos <;> rfl

theorem put_pls_of_and (h : i &&& j = 0) : (m.put pos i).pls &&& j = m.pls &&& j := by
  cases pos with
  | true =>
    show (m.pls ||| i) &&& j = _
    rw [BitVec.and_or_distrib_right, h]
    exact BitVec.or_zero
  | false =>
    show m.pls &&& ~~~i &&& j = _
    rw [BitVec.and_assoc, BitVec.and_comm _ j, and_not_of_and (by rw [BitVec.and_comm, h])]

theorem put_pls_self (m : Protect) (pos : Bool) (i : BitVec 32) :
    (m.put pos i).pls &&& i = if pos then i else 0 := by
  cases pos with
  | true =>
    show (m.pls ||| i) &&& i = i
    ext n hn
    simp only [BitVec.getElem_and, BitVec.getElem_or]
    cases i[n] <;> simp
  | false =>
    exact and_not_and_self m.pls i

theorem put_zero (m : Protect) (pos : Bool) : m.put pos 0 = m := by
  have hor (a : BitVec 32) : a ||| 0 = a := BitVec.or_zero
  have hnot (a : BitVec 32) : a &&& ~~~0 = a := and_not_of_and BitVec.and_zero
  obtain ⟨pls, mns, limit, key⟩ := m
  cases pos with
  | true =>
    show Protect.mk (pls ||| 0) (mns &&& ~~~0) _ _ = _
    rw [hor, hnot]
  | false =>
    show Protect.mk (pls &&& ~~~0) (mns ||| 0) _ _ = _
    rw [hor, hnot]

theorem put_put (m : Protect) (pos : Bool) (i j : BitVec 32) :
    (m.put pos i).put pos j = m.put pos (i ||| j) := by
  have hor (a : BitVec 32) : (a ||| i) ||| j = a ||| (i ||| j) := BitVec.or_assoc ..
  have hnot (a : BitVec 32) : a &&& ~~~i &&& ~~~j = a &&& ~~~(i ||| j) := by
    rw [BitVec.not_or, BitVec.and_assoc]
  cases pos with
  | true =>
    show Protect.mk ((m.pls ||| i) ||| j) (m.mns &&& ~~~i &&& ~~~j) _ _ = _
    rw [hor, hnot]
    rfl
  | false =>
    show Protect.mk (m.pls &&& ~~~i &&& ~~~j) ((m.mns ||| i) ||| j) _ _ = _
    rw [hor, hnot]
    rfl

end Put

/-! ### What is kept -/

/-- What `set_mode_protect` leaves. -/
structure Made (allowPs : Bool) (m : Protect) : Prop where
  pls : m.pls &&& protectMask = m.pls
  mns : m.mns &&& protectMask = m.mns
  exclusive : m.Exclusive
  limit : m.limit ≠ 0 → m.pls &&& chanLimit ≠ 0
  key : m.key ≠ [] → m.pls &&& chanKey ≠ 0
  int : -2 ^ 31 ≤ m.limit ∧ m.limit < 2 ^ 31
  word : ' ' ∉ m.key ∧ m.key.length ≤ keyMax
  secret : m.pls &&& chanSec ≠ 0 → allowPs = false → m.pls &&& chanPriv = 0

section Kept

variable {m : Protect} {r : Reading} {allowPs : Bool}

theorem Made.clear : Made true .clear := by
  refine ⟨by decide, by decide, by unfold Protect.Exclusive; decide, ?_, ?_, by decide, by decide, ?_⟩
  · exact fun h => absurd rfl h
  · exact fun h => absurd rfl h
  · exact fun _ h => nomatch h

theorem Made.put (h : Made true m) {i : BitVec 32} (hi : i &&& protectMask = i) (pos : Bool)
    {limit : Int} {key : CStr} (hlimit : limit ≠ 0 → (m.put pos i).pls &&& chanLimit ≠ 0)
    (hkey : key ≠ [] → (m.put pos i).pls &&& chanKey ≠ 0)
    (hint : -2 ^ 31 ≤ limit ∧ limit < 2 ^ 31) (hword : ' ' ∉ key ∧ key.length ≤ keyMax) :
    Made true ⟨(m.put pos i).pls, (m.put pos i).mns, limit, key⟩ := by
  have hexclusive := h.exclusive
  unfold Protect.Exclusive at hexclusive
  cases pos with
  | true =>
    exact ⟨or_and_within h.pls hi, and_not_within h.mns i, or_and_and_not hexclusive i, hlimit,
      hkey, hint, hword, fun _ h => nomatch h⟩
  | false =>
    refine ⟨and_not_within h.pls i, or_and_within h.mns hi, ?_, hlimit, hkey, hint, hword,
      fun _ h => nomatch h⟩
    show (m.pls &&& ~~~i) &&& (m.mns ||| i) = 0
    rw [BitVec.and_comm] at hexclusive ⊢
    exact or_and_and_not hexclusive i

theorem takeParam_word (r : Reading) : ' ' ∉ r.takeParam.1 := by
  unfold Reading.takeParam
  split
  · exact space_notMem_newsplit _
  · exact List.not_mem_nil

theorem takeParam_minus (h : r.pos = false) : r.takeParam = ([], r.set) := by
  rw [Reading.takeParam, h]
  rfl

theorem letter_limit (r : Reading) : r.letter 'l' = ⟨r.pos, r.takeParam.2,
    ⟨(r.modes.put r.pos chanLimit).pls, (r.modes.put r.pos chanLimit).mns,
      eggAtoi r.takeParam.1, r.modes.key⟩⟩ := by
  have hvalue : (if r.takeParam.1 = [] then 0 else eggAtoi r.takeParam.1) =
      eggAtoi r.takeParam.1 := by
    by_cases h : r.takeParam.1 = []
    · rw [if_pos h, h, eggAtoi_nil]
    · exact if_neg h
  rw [← hvalue]
  obtain ⟨pos, set, modes⟩ := r
  cases pos <;> rfl

theorem letter_key (r : Reading) : r.letter 'k' = ⟨r.pos, r.takeParam.2,
    ⟨(r.modes.put r.pos chanKey).pls, (r.modes.put r.pos chanKey).mns, r.modes.limit,
      r.takeParam.1.take keyMax⟩⟩ := by
  have hvalue : (if r.takeParam.1 = [] then [] else r.takeParam.1.take keyMax) =
      r.takeParam.1.take keyMax := by
    by_cases h : r.takeParam.1 = []
    · rw [if_pos h, h]
      rfl
    · exact if_neg h
  rw [← hvalue]
  obtain ⟨pos, set, modes⟩ := r
  cases pos <;> rfl

theorem letter_other {c : Char} (hplus : c ≠ '+') (hminus : c ≠ '-') (hl : c ≠ 'l') (hk : c ≠ 'k')
    (r : Reading) : r.letter c = ⟨r.pos, r.set, r.modes.put r.pos (protectBit c)⟩ := by
  unfold Reading.letter
  rw [if_neg hplus, if_neg hminus, if_neg hl, if_neg hk]

theorem eggAtoi_range (s : CStr) : -2 ^ 31 ≤ eggAtoi s ∧ eggAtoi s < 2 ^ 31 := by
  rw [eggAtoi, toCInt]
  omega

theorem Made.letter (h : Made true r.modes) (c : Char) : Made true (r.letter c).modes := by
  have hword := takeParam_word r
  by_cases hplus : c = '+'
  · obtain rfl := hplus
    exact h
  by_cases hminus : c = '-'
  · obtain rfl := hminus
    exact h
  by_cases hl : c = 'l'
  · obtain rfl := hl
    rw [letter_limit]
    refine h.put (by decide) r.pos (fun hne => ?_) (fun hne => ?_) (eggAtoi_range _) h.word
    · -- without the sign there is no limit
      have hpos : r.pos = true := by
        by_contra hpos
        rw [takeParam_minus (by simpa using hpos)] at hne
        exact hne eggAtoi_nil
      rw [put_pls_self, if_pos hpos]
      decide
    · rw [put_pls_of_and (by decide)]
      exact h.key hne
  by_cases hk : c = 'k'
  · obtain rfl := hk
    rw [letter_key]
    refine h.put (by decide) r.pos (fun hne => ?_) (fun hne => ?_) h.int
      ⟨fun hmem => hword (List.mem_of_mem_take hmem), List.length_take_le _ _⟩
    · rw [put_pls_of_and (by decide)]
      exact h.limit hne
    · have hpos : r.pos = true := by
        by_contra hpos
        rw [takeParam_minus (by simpa using hpos)] at hne
        exact hne rfl
      rw [put_pls_self, if_pos hpos]
      decide
  rw [letter_other hplus hminus hl hk]
  show Made true (r.modes.put r.pos (protectBit c))
  rw [put_eq]
  refine h.put (protectBit_within c) r.pos (fun hne => ?_) (fun hne => ?_) h.int h.word
  · rw [put_pls_of_and (protectBit_limit hl)]
    exact h.limit hne
  · rw [put_pls_of_and (protectBit_key hk)]
    exact h.key hne

theorem Made.word_fold (h : Made true r.modes) (word : CStr) :
    Made true (word.foldl Reading.letter r).modes := by
  induction word generalizing r with
  | nil => exact h
  | cons c word ih => exact ih (h.letter c)

/-- Without `allow_ps`, a channel that is to be secret is not to be private. -/
def noPs (allowPs : Bool) (m : Protect) : Protect :=
  if m.pls &&& chanSec ≠ 0 ∧ allowPs = false then { m with pls := m.pls &&& ~~~chanPriv } else m

theorem setModeProtect_eq (allowPs : Bool) (set : CStr) : setModeProtect allowPs set =
    noPs allowPs ((newsplit set).1.foldl Reading.letter ⟨true, (newsplit set).2, .clear⟩).modes :=
  rfl

theorem noPs_pls {i : BitVec 32} (hi : chanPriv &&& i = 0) (allowPs : Bool) (m : Protect) :
    (noPs allowPs m).pls &&& i = m.pls &&& i := by
  unfold noPs
  split
  · show m.pls &&& ~~~chanPriv &&& i = _
    rw [BitVec.and_assoc, BitVec.and_comm _ i, and_not_of_and (by rw [BitVec.and_comm, hi])]
  · rfl

theorem Made.noPs (h : Made true m) (allowPs : Bool) : Made allowPs (noPs allowPs m) := by
  have hlimit := noPs_pls (by decide : chanPriv &&& chanLimit = 0) allowPs m
  have hkey := noPs_pls (by decide : chanPriv &&& chanKey = 0) allowPs m
  unfold ModeProtect.noPs at hlimit hkey ⊢
  by_cases hs : m.pls &&& chanSec ≠ 0 ∧ allowPs = false
  · rw [if_pos hs] at hlimit hkey ⊢
    refine ⟨and_not_within h.pls _, h.mns, ?_, fun hne => ?_, fun hne => ?_, h.int, h.word, ?_⟩
    · show m.pls &&& ~~~chanPriv &&& m.mns = 0
      rw [BitVec.and_assoc, BitVec.and_comm (~~~chanPriv), ← BitVec.and_assoc, h.exclusive]
      exact BitVec.zero_and
    · rw [hlimit]
      exact h.limit hne
    · rw [hkey]
      exact h.key hne
    · intro _ _
      exact and_not_and_self m.pls chanPriv
  · rw [if_neg hs]
    exact ⟨h.pls, h.mns, h.exclusive, h.limit, h.key, h.int, h.word,
      fun hsec hps => absurd ⟨hsec, hps⟩ hs⟩

theorem Made.of_set (allowPs : Bool) (set : CStr) : Made allowPs (setModeProtect allowPs set) := by
  rw [setModeProtect_eq]
  exact (Made.clear.word_fold _).noPs allowPs

end Kept

/-! ### The last limit and the last key -/

section Last

variable {α : Type} {r : Reading} {allowPs : Bool}

theorem changes_cons (r : Reading) (c : Char) (word : CStr) :
    changes r.pos (c :: word) r.set =
      (if c = 'l' ∨ c = 'k' then [⟨c, r.pos, r.takeParam.1⟩] else []) ++
        changes (r.letter c).pos word (r.letter c).set := by
  obtain ⟨pos, set, modes⟩ := r
  rw [changes]
  by_cases hplus : c = '+'
  · obtain rfl := hplus
    rfl
  rw [if_neg hplus]
  by_cases hminus : c = '-'
  · obtain rfl := hminus
    rfl
  rw [if_neg hminus]
  by_cases hlk : c = 'l' ∨ c = 'k'
  · rw [if_pos hlk, if_pos hlk]
    rcases hlk with rfl | rfl
    · rw [letter_limit]
      cases pos <;> rfl
    · rw [letter_key]
      cases pos <;> rfl
  · rw [if_neg hlk, if_neg hlk,
      letter_other hplus hminus (fun h => hlk (.inl h)) (fun h => hlk (.inr h))]
    rfl

theorem foldl_last (mode : Char) (see : Protect → α) (made : Change → α) (hmode : mode = 'l' ∨ mode = 'k')
    (hother : ∀ r : Reading, ∀ c, c ≠ mode → see (r.letter c).modes = see r.modes)
    (hself : ∀ r : Reading, see (r.letter mode).modes = made ⟨mode, r.pos, r.takeParam.1⟩)
    (word : CStr) (r : Reading) : see (word.foldl Reading.letter r).modes =
      ((changes r.pos word r.set).filter fun ch => ch.mode = mode).getLast?.elim (see r.modes)
        made := by
  induction word generalizing r with
  | nil => rfl
  | cons c word ih =>
    rw [List.foldl_cons, ih, changes_cons, List.filter_append, List.getLast?_append]
    by_cases hc : c = mode
    · obtain rfl := hc
      rw [if_pos hmode, List.filter_cons_of_pos (by simp), hself]
      cases (List.filter _ (changes _ _ _)).getLast? <;> rfl
    · have hnone : (if c = 'l' ∨ c = 'k' then [Change.mk c r.pos r.takeParam.1] else []).filter
          (fun ch => ch.mode = mode) = [] := by
        split
        · exact List.filter_cons_of_neg (by simpa using hc)
        · rfl
      rw [hnone, hother r c hc]
      cases (List.filter _ (changes _ _ _)).getLast? <;> rfl

/-- The bit and the limit. -/
def seeLimit (m : Protect) : BitVec 32 × Int := (m.pls &&& chanLimit, m.limit)

def seeKey (m : Protect) : BitVec 32 × CStr := (m.pls &&& chanKey, m.key)

theorem seeLimit_letter {c : Char} (hc : c ≠ 'l') (r : Reading) :
    seeLimit (r.letter c).modes = seeLimit r.modes := by
  by_cases hplus : c = '+'
  · obtain rfl := hplus
    rfl
  by_cases hminus : c = '-'
  · obtain rfl := hminus
    rfl
  by_cases hk : c = 'k'
  · obtain rfl := hk
    rw [letter_key, seeLimit, put_pls_of_and (by decide), seeLimit]
  · rw [letter_other hplus hminus hc hk, put_eq, seeLimit, put_pls_of_and (protectBit_limit hc),
      seeLimit]

theorem seeKey_letter {c : Char} (hc : c ≠ 'k') (r : Reading) :
    seeKey (r.letter c).modes = seeKey r.modes := by
  by_cases hplus : c = '+'
  · obtain rfl := hplus
    rfl
  by_cases hminus : c = '-'
  · obtain rfl := hminus
    rfl
  by_cases hl : c = 'l'
  · obtain rfl := hl
    rw [letter_limit, seeKey, put_pls_of_and (by decide), seeKey]
  · rw [letter_other hplus hminus hl hc, put_eq, seeKey, put_pls_of_and (protectBit_key hc), seeKey]

theorem seeLimit_setModeProtect (allowPs : Bool) (set : CStr) :
    seeLimit (setModeProtect allowPs set) = (lastChange 'l' set).elim (0, 0)
      fun ch => (if ch.pos then chanLimit else 0, eggAtoi ch.param) := by
  have hps (m : Protect) : seeLimit (noPs allowPs m) = seeLimit m := by
    have hbit := noPs_pls (by decide : chanPriv &&& chanLimit = 0) allowPs m
    have hlimit : (noPs allowPs m).limit = m.limit := by
      unfold noPs
      split <;> rfl
    rw [seeLimit, hbit, hlimit, seeLimit]
  have hlast := foldl_last 'l' seeLimit
    (fun ch => (if ch.pos then chanLimit else 0, eggAtoi ch.param)) (.inl rfl)
    (fun r c hc => seeLimit_letter hc r) (fun r => by rw [letter_limit, seeLimit, put_pls_self])
    (newsplit set).1 ⟨true, (newsplit set).2, .clear⟩
  have hclear : seeLimit .clear = (0, 0) := by decide
  rw [setModeProtect_eq, hps, hlast, ← hclear]
  rfl

theorem seeKey_setModeProtect (allowPs : Bool) (set : CStr) :
    seeKey (setModeProtect allowPs set) = (lastChange 'k' set).elim (0, [])
      fun ch => (if ch.pos then chanKey else 0, ch.param.take keyMax) := by
  have hps (m : Protect) : seeKey (noPs allowPs m) = seeKey m := by
    have hbit := noPs_pls (by decide : chanPriv &&& chanKey = 0) allowPs m
    have hkey : (noPs allowPs m).key = m.key := by
      unfold noPs
      split <;> rfl
    rw [seeKey, hbit, hkey, seeKey]
  have hlast := foldl_last 'k' seeKey
    (fun ch => (if ch.pos then chanKey else 0, ch.param.take keyMax)) (.inr rfl)
    (fun r c hc => seeKey_letter hc r) (fun r => by rw [letter_key, seeKey, put_pls_self])
    (newsplit set).1 ⟨true, (newsplit set).2, .clear⟩
  have hclear : seeKey .clear = (0, []) := by decide
  rw [setModeProtect_eq, hps, hlast, ← hclear]
  rfl

/-- Each of the two bits has its parameter. -/
structure HasParams (m : Protect) : Prop where
  limit : m.pls &&& chanLimit ≠ 0 → m.limit ≠ 0
  key : m.pls &&& chanKey ≠ 0 → m.key ≠ []

/-- In terms of the last change of each. -/
theorem given_iff {β : Type} {o : Option Change} {x : BitVec 32 × β} {i : BitVec 32} {zero : β}
    {value : Change → β} {P : β → Prop} (hi : i ≠ 0)
    (hx : x = o.elim (0, zero) fun ch => (if ch.pos then i else 0, value ch)) :
    (x.1 ≠ 0 → P x.2) ↔ ∀ ch, o = some ch → ch.pos = true → P (value ch) := by
  cases o with
  | none =>
    obtain rfl := hx
    exact iff_of_true (fun h => absurd rfl h) fun ch h => nomatch h
  | some ch =>
    obtain rfl := hx
    refine ⟨?_, fun h hbit => h ch rfl ?_⟩
    · rintro h ch' ⟨⟩ hpos
      refine h ?_
      show (if ch.pos then i else 0) ≠ 0
      rw [if_pos hpos]
      exact hi
    · by_contra hpos
      refine hbit ?_
      show (if ch.pos then i else 0) = 0
      exact if_neg hpos

theorem hasParams_setModeProtect (allowPs : Bool) (set : CStr) :
    HasParams (setModeProtect allowPs set) ↔ ParamsGiven set := by
  have hlimit := given_iff (P := (· ≠ 0)) (by decide) (seeLimit_setModeProtect allowPs set)
  have hkey := given_iff (P := (· ≠ [])) (by decide) (seeKey_setModeProtect allowPs set)
  have htake (ch : Change) : ch.param.take keyMax ≠ [] ↔ ch.param ≠ [] := by
    rw [ne_eq, List.take_eq_nil_iff, not_or]
    exact and_iff_right (by decide)
  simp only [htake] at hkey
  exact ⟨fun h => ⟨hlimit.1 h.limit, hkey.1 h.key⟩, fun h => ⟨hlimit.2 h.1, hkey.2 h.2⟩⟩

end Last

/-! ### Reading what was written -/

section Text

variable {m : Protect} {r : Reading} {allowPs : Bool}

/-- The bits that are written behind `+`. -/
def writtenPls (m : Protect) : BitVec 32 :=
  (if m.limit ≠ 0 then chanLimit else 0) ||| (if m.key ≠ [] then chanKey else 0) |||
    (m.pls &&& modeBits protectLetters)

theorem foldl_letters {w : CStr} (hw : ∀ c ∈ w, c ∈ protectLetters) (r : Reading) :
    w.foldl Reading.letter r = ⟨r.pos, r.set, r.modes.put r.pos (modeBits w)⟩ := by
  induction w generalizing r with
  | nil =>
    show r = ⟨r.pos, r.set, r.modes.put r.pos 0⟩
    rw [put_zero]
  | cons c w ih =>
    obtain ⟨hplus, hminus, hl, hk, -, hbit⟩ := protectLetters_spec c (hw c List.mem_cons_self)
    rw [List.foldl_cons, letter_other hplus hminus hl hk,
      ih fun c hc => hw c (List.mem_cons_of_mem _ hc)]
    rw [put_put, hbit, modeBits_cons]

theorem modeBits_lettersOf (tst : BitVec 32) :
    modeBits (Protect.lettersOf tst) = tst &&& modeBits protectLetters :=
  modeBits_filter tst (by decide)

theorem lettersOf_mem {tst : BitVec 32} : ∀ c ∈ Protect.lettersOf tst, c ∈ protectLetters :=
  fun _ hc => (List.mem_filter.1 hc).1

theorem blank_word (m : Protect) : ' ' ∉ m.plsWord ++ m.mnsWord := by
  have hletters (tst : BitVec 32) : ' ' ∉ Protect.lettersOf tst := fun h =>
    absurd (lettersOf_mem _ h) (by decide)
  have hsingle {P : Prop} [Decidable P] {c : Char} (hc : c ≠ ' ') :
      ' ' ∉ if P then [c] else [] := by
    split <;> simp [hc.symm]
  unfold Protect.plsWord Protect.mnsWord
  simp only [List.mem_append, not_or]
  exact ⟨⟨⟨⟨hsingle (by decide), hsingle (by decide)⟩, hsingle (by decide)⟩, hletters _⟩,
    ⟨⟨hsingle (by decide), hsingle (by decide)⟩, hsingle (by decide)⟩, hletters _⟩

theorem blank_showInt (n : Int) : ' ' ∉ showInt n := by
  intro h
  rcases mem_showInt h with h | h
  · exact absurd h (by decide)
  · exact absurd h (by decide)

/-- `+l`, `+k` and `+lk` with their parameters. -/
theorem letter_limit_text {limit : Int} (hint : -2 ^ 31 ≤ limit ∧ limit < 2 ^ 31) {set rest : CStr}
    (hset : newsplit set = (showInt limit, rest)) (pls : BitVec 32) (key : CStr) :
    Reading.letter ⟨true, set, ⟨pls, 0, 0, key⟩⟩ 'l' =
      ⟨true, rest, ⟨pls ||| chanLimit, 0, limit, key⟩⟩ := by
  rw [letter_limit]
  show Reading.mk true (newsplit set).2 ⟨pls ||| chanLimit, 0 &&& ~~~chanLimit,
    eggAtoi (newsplit set).1, key⟩ = _
  rw [hset, eggAtoi_showInt hint.1 hint.2]
  congr 1

theorem letter_key_text {key : CStr} (hlen : key.length ≤ keyMax) {set rest : CStr}
    (hset : newsplit set = (key, rest)) (pls : BitVec 32) (limit : Int) :
    Reading.letter ⟨true, set, ⟨pls, 0, limit, []⟩⟩ 'k' =
      ⟨true, rest, ⟨pls ||| chanKey, 0, limit, key⟩⟩ := by
  rw [letter_key]
  show Reading.mk true (newsplit set).2 ⟨pls ||| chanKey, 0 &&& ~~~chanKey, limit,
    (newsplit set).1.take keyMax⟩ = _
  rw [hset, List.take_of_length_le hlen]
  congr 1

theorem foldl_params (h : Made allowPs m) :
    ((if m.limit ≠ 0 then ['l'] else []) ++ if m.key ≠ [] then ['k'] else []).foldl Reading.letter
        ⟨true, m.params.dropLast, .clear⟩ =
      ⟨true, [], ⟨(if m.limit ≠ 0 then chanLimit else 0) ||| (if m.key ≠ [] then chanKey else 0), 0,
        m.limit, m.key⟩⟩ := by
  have hnumber := newsplit_single (blank_showInt m.limit)
  have hword := newsplit_single h.word.1
  unfold Protect.params
  by_cases hl : m.limit = 0
  · by_cases hk : m.key = []
    · rw [hl, hk]
      rfl
    · simp only [if_neg (not_not_intro hl), if_pos hk, List.nil_append, List.dropLast_concat]
      show Reading.letter ⟨true, m.key, ⟨0, 0, 0, []⟩⟩ 'k' = _
      rw [letter_key_text h.word.2 hword, hl]
  · by_cases hk : m.key = []
    · simp only [if_pos hl, if_neg (not_not_intro hk), List.append_nil, List.dropLast_concat]
      show Reading.letter ⟨true, showInt m.limit, ⟨0, 0, 0, []⟩⟩ 'l' = _
      rw [letter_limit_text h.int hnumber, hk]
      congr 2
    · simp only [if_pos hl, if_pos hk, ← List.append_assoc, List.dropLast_concat]
      have hboth := newsplit_word m.key (showInt_ne_nil m.limit) (blank_showInt m.limit)
      show Reading.letter (Reading.letter ⟨true, showInt m.limit ++ [' '] ++ m.key,
        ⟨0, 0, 0, []⟩⟩ 'l') 'k' = _
      rw [List.append_assoc, List.singleton_append, letter_limit_text h.int hboth,
        letter_key_text h.word.2 hword]
      congr 2

theorem foldl_plsWord (h : Made allowPs m) :
    m.plsWord.foldl Reading.letter ⟨true, m.params.dropLast, .clear⟩ =
      ⟨true, [], ⟨writtenPls m, 0, m.limit, m.key⟩⟩ := by
  have hsign : (if m.pls ≠ 0 ∨ m.limit ≠ 0 ∨ m.key ≠ [] then ['+'] else []).foldl Reading.letter
      ⟨true, m.params.dropLast, .clear⟩ = ⟨true, m.params.dropLast, .clear⟩ := by
    split <;> rfl
  unfold Protect.plsWord
  rw [List.foldl_append, List.append_assoc, List.foldl_append, hsign, foldl_params h,
    foldl_letters lettersOf_mem, modeBits_lettersOf]
  show Reading.mk true [] ⟨_, 0 &&& ~~~(m.pls &&& modeBits protectLetters), m.limit, m.key⟩ = _
  have hzero (a : BitVec 32) : 0 &&& a = 0 := BitVec.zero_and
  rw [hzero]
  rfl

theorem and_bit (a : BitVec 32) (k : Nat) {i : BitVec 32} (hi : i = BitVec.twoPow 32 k) :
    a &&& i = if a &&& i ≠ 0 then i else 0 := by
  rw [hi, BitVec.and_twoPow]
  split
  · rename_i hbit
    by_cases hzero : BitVec.twoPow 32 k = 0
    · rw [if_neg (not_not_intro hzero), hzero]
    · rw [if_pos hzero]
  · exact (if_neg fun h => h rfl).symm

theorem Made.exclusive_bit (h : Made allowPs m) (k : Nat) {i : BitVec 32}
    (hi : i = BitVec.twoPow 32 k) (hpls : m.pls &&& i ≠ 0) : m.mns &&& i = 0 := by
  have hbit := and_bit m.pls k hi
  rw [if_pos hpls] at hbit
  rw [← hbit, ← BitVec.and_assoc, BitVec.and_comm m.mns, h.exclusive]
  exact BitVec.zero_and

theorem Made.key_of_mns (h : Made allowPs m) (hk : m.mns &&& chanKey ≠ 0) : m.key = [] := by
  by_contra hne
  exact absurd (h.exclusive_bit 7 (by decide) (h.key hne)) hk

theorem Made.limit_of_mns (h : Made allowPs m) (hl : m.mns &&& chanLimit ≠ 0) : m.limit = 0 := by
  by_contra hne
  exact absurd (h.exclusive_bit 6 (by decide) (h.limit hne)) hl

theorem split_mask {a : BitVec 32} (ha : a &&& protectMask = a) :
    (a &&& chanKey ||| a &&& chanLimit) ||| a &&& modeBits protectLetters = a := by
  have hmask : protectMask = (chanKey ||| chanLimit) ||| modeBits protectLetters := by decide
  rw [hmask] at ha
  rw [← BitVec.and_or_distrib_left, ← BitVec.and_or_distrib_left, ha]

/-- `-k` and `-l`: a mode that is rejected has no parameter that could be lost. -/
theorem foldl_minus_key (h : Made allowPs m) {n : Protect} (hn : n.key = m.key) :
    (if m.mns &&& chanKey ≠ 0 then ['k'] else []).foldl Reading.letter ⟨false, [], n⟩ =
      ⟨false, [], n.put false (m.mns &&& chanKey)⟩ := by
  rw [and_bit m.mns 7 (i := chanKey) (by decide)]
  by_cases hk : m.mns &&& chanKey ≠ 0
  · have hnone := hn.trans (h.key_of_mns hk)
    rw [if_pos hk, if_pos (by decide), List.foldl_cons, letter_key, put_eq n, hnone]
    rfl
  · rw [if_neg hk, if_neg (by decide), put_zero]
    rfl

theorem foldl_minus_limit (h : Made allowPs m) {n : Protect} (hn : n.limit = m.limit) :
    (if m.mns &&& chanLimit ≠ 0 then ['l'] else []).foldl Reading.letter ⟨false, [], n⟩ =
      ⟨false, [], n.put false (m.mns &&& chanLimit)⟩ := by
  rw [and_bit m.mns 6 (i := chanLimit) (by decide)]
  by_cases hl : m.mns &&& chanLimit ≠ 0
  · have hnone := hn.trans (h.limit_of_mns hl)
    rw [if_pos hl, if_pos (by decide), List.foldl_cons, letter_limit, put_eq n, hnone,
      ← eggAtoi_nil]
    rfl
  · rw [if_neg hl, if_neg (by decide), put_zero]
    rfl

theorem foldl_mnsWord (h : Made allowPs m) (pls : BitVec 32) :
    (m.mnsWord.foldl Reading.letter ⟨true, [], ⟨pls, 0, m.limit, m.key⟩⟩).modes =
      ⟨pls &&& ~~~m.mns, m.mns, m.limit, m.key⟩ := by
  unfold Protect.mnsWord
  by_cases hmns : m.mns = 0
  · have hnot : pls &&& ~~~0 = pls := and_not_of_and BitVec.and_zero
    rw [hmns, hnot]
    rfl
  have hsign : List.foldl Reading.letter ⟨true, [], ⟨pls, 0, m.limit, m.key⟩⟩ ['-'] =
      ⟨false, [], ⟨pls, 0, m.limit, m.key⟩⟩ := rfl
  rw [if_pos hmns, List.foldl_append, List.foldl_append, List.foldl_append, hsign,
    foldl_minus_key h (n := ⟨pls, 0, m.limit, m.key⟩) rfl,
    foldl_minus_limit h (n := Protect.put ⟨pls, 0, m.limit, m.key⟩ false (m.mns &&& chanKey)) rfl,
    foldl_letters lettersOf_mem, modeBits_lettersOf]
  show Protect.put _ false _ = _
  rw [put_put, put_put, ← BitVec.or_assoc, split_mask h.mns]
  show Protect.mk (pls &&& ~~~m.mns) (0 ||| m.mns) _ _ = _
  have hzero : 0 ||| m.mns = m.mns := BitVec.zero_or
  rw [hzero]

theorem writtenPls_within (h : Made allowPs m) : writtenPls m &&& m.pls = writtenPls m := by
  have hbit {P : Prop} [Decidable P] {i : BitVec 32} (k : Nat) (hi : i = BitVec.twoPow 32 k)
      (hP : P → m.pls &&& i ≠ 0) : (if P then i else 0) &&& m.pls = if P then i else 0 := by
    split
    · rename_i hp
      have hone := and_bit m.pls k hi
      rw [if_pos (hP hp)] at hone
      rw [BitVec.and_comm, hone]
    · exact BitVec.zero_and
  have hletters : m.pls &&& modeBits protectLetters &&& m.pls =
      m.pls &&& modeBits protectLetters := by
    rw [BitVec.and_comm m.pls, BitVec.and_assoc, BitVec.and_self]
  unfold writtenPls
  exact or_and_within (or_and_within (hbit 6 (by decide) h.limit) (hbit 7 (by decide) h.key))
    hletters

theorem newsplit_text (m : Protect) :
    newsplit m.text = (m.plsWord ++ m.mnsWord, m.params.dropLast) := by
  unfold Protect.text
  by_cases hparams : m.params = []
  · rw [if_pos hparams, hparams, List.append_nil, newsplit_single (blank_word m)]
    rfl
  · have hne : m.limit ≠ 0 ∨ m.key ≠ [] := by
      by_contra hnone
      rw [not_or, not_not, not_not] at hnone
      refine hparams ?_
      rw [Protect.params, hnone.1, hnone.2]
      rfl
    have hword : m.plsWord ++ m.mnsWord ≠ [] := by
      rw [Protect.plsWord, if_pos (.inr hne)]
      exact fun h => nomatch h
    rw [if_neg hparams, newsplit_word _ hword (blank_word m)]

theorem set_text (h : Made allowPs m) :
    setModeProtect allowPs m.text = { m with pls := writtenPls m } := by
  have hwithin := writtenPls_within h
  have hpls : writtenPls m &&& ~~~m.mns = writtenPls m := by
    refine and_not_of_and ?_
    rw [← hwithin, BitVec.and_assoc, h.exclusive]
    exact BitVec.and_zero
  rw [setModeProtect_eq, newsplit_text, List.foldl_append, foldl_plsWord h, foldl_mnsWord h, hpls]
  unfold noPs
  split
  · rename_i hps
    -- the bit of `p` is not there
    have hsec : m.pls &&& chanSec ≠ 0 := by
      intro hzero
      refine hps.1 ?_
      show writtenPls m &&& chanSec = 0
      rw [← hwithin, BitVec.and_assoc, hzero]
      exact BitVec.and_zero
    have hpriv : writtenPls m &&& chanPriv = 0 := by
      rw [← hwithin, BitVec.and_assoc, h.secret hsec hps.2]
      exact BitVec.and_zero
    show Protect.mk (writtenPls m &&& ~~~chanPriv) _ _ _ = _
    rw [and_not_of_and hpriv]
  · rfl

theorem writtenPls_and {i : BitVec 32} (hi : modeBits protectLetters &&& i = 0) (m : Protect) :
    writtenPls m &&& i =
      (if m.limit ≠ 0 then chanLimit else 0) &&& i ||| (if m.key ≠ [] then chanKey else 0) &&& i := by
  have hzero : m.pls &&& modeBits protectLetters &&& i = 0 := by
    rw [BitVec.and_assoc, hi]
    exact BitVec.and_zero
  rw [writtenPls, BitVec.and_or_distrib_right, BitVec.and_or_distrib_right, hzero]
  exact BitVec.or_zero

theorem writtenPls_eq_iff (h : Made allowPs m) : writtenPls m = m.pls ↔ HasParams m := by
  have hlimit := and_bit m.pls 6 (i := chanLimit) (by decide)
  have hkey := and_bit m.pls 7 (i := chanKey) (by decide)
  constructor
  · intro heq
    refine ⟨fun hbit hnone => hbit ?_, fun hbit hnone => hbit ?_⟩
    · rw [← heq, writtenPls_and (by decide), if_neg (not_not_intro hnone)]
      split <;> decide
    · rw [← heq, writtenPls_and (by decide), if_neg (not_not_intro hnone)]
      split <;> decide
  · rintro ⟨hl, hk⟩
    have hl' : m.limit ≠ 0 ↔ m.pls &&& chanLimit ≠ 0 := ⟨h.limit, hl⟩
    have hk' : m.key ≠ [] ↔ m.pls &&& chanKey ≠ 0 := ⟨h.key, hk⟩
    rw [writtenPls]
    simp only [hl', hk']
    rw [← hlimit, ← hkey, BitVec.or_comm (m.pls &&& chanLimit), split_mask h.pls]

theorem getModeProtect_eq {sz : Nat} (hfits : m.text.length < sz) : m.getModeProtect sz = m.text := by
  unfold Protect.getModeProtect
  unfold Protect.text at hfits ⊢
  by_cases hparams : m.params = []
  · rw [if_pos hparams, if_pos hparams, List.append_nil]
  · rw [if_neg hparams, List.length_append, List.length_cons] at hfits
    have hblank : strlcat (m.plsWord ++ m.mnsWord) [' '] sz = m.plsWord ++ m.mnsWord ++ [' '] := by
      refine strlcat_of_lt ?_
      rw [List.length_singleton]
      omega
    have hall : (m.plsWord ++ m.mnsWord ++ [' ']).length + m.params.dropLast.length < sz := by
      rw [@List.length_append _ (m.plsWord ++ m.mnsWord), List.length_singleton]
      omega
    rw [if_neg hparams, if_neg hparams, hblank, strlcat_of_lt hall, List.append_assoc,
      List.singleton_append]

end Text

/-! ### From the string that was given -/

/-- The modes written and given again are the same, and no mode is both enforced and rejected. -/
def Kept (allowPs : Bool) (sz : Nat) (m : Protect) : Prop :=
  setModeProtect allowPs (m.getModeProtect sz) = m ∧ m.Exclusive

instance (allowPs : Bool) (sz : Nat) (m : Protect) : Decidable (Kept allowPs sz m) :=
  inferInstanceAs (Decidable (_ ∧ _ = _))

/-- Where the text fits the buffer, the modes are kept exactly if the string gives a limit and a key
where it enforces them. -/
theorem setModeProtect_getModeProtect_iff (allowPs : Bool) (set : CStr) {sz : Nat}
    (hfits : (setModeProtect allowPs set).text.length < sz) :
    Kept allowPs sz (setModeProtect allowPs set) ↔ ParamsGiven set := by
  have hmade := Made.of_set allowPs set
  rw [← hasParams_setModeProtect allowPs set, ← writtenPls_eq_iff hmade, Kept,
    getModeProtect_eq hfits, set_text hmade, and_iff_left hmade.exclusive]
  exact ⟨fun h => congrArg Protect.pls h, fun h => by rw [h]⟩

theorem setModeProtect_getModeProtect_limit :
    Kept false 121 (setModeProtect false "+lk-s 5 key".toList) :=
  (setModeProtect_getModeProtect_iff false "+lk-s 5 key".toList (by decide +kernel)).2
    (by decide +kernel)

/-- `chanmode +l` without a number. -/
theorem not_setModeProtect_getModeProtect :
    (setModeProtect false "+l".toList).text.length < 121 ∧
      ¬ Kept false 121 (setModeProtect false "+l".toList) := by
  decide +kernel

end Eggdrop.ModeProtect
