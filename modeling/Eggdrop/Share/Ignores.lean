import Eggdrop.Share.Resync

/-!
# Ignores — an ignore sent to a bot that shares

`addignore` tells the bots that share of an ignore: its mask, escaped, the seconds left, whether it is
permanent, who made it and why.  `share_pls_ignore` reads the line and adds the ignore there.

* `strUnescape_strEscape`: the mask is read as it was written.
* `sharePlsIgnore_spec`: what becomes of the fields of a line.
* `arrives_iff`: which ignores arrive as they are.
-/

namespace Eggdrop.Share

/-- `struct igrec`. -/
structure Igrec where
  igmask : CStr
  user : CStr
  msg : CStr
  expire : Int
  added : Int
  perm : Bool
deriving DecidableEq, Repr

/-! ### Escaping -/

/-- A digit of `%02x`. -/
def hexDigit (n : Nat) : Char := if n < 10 then Char.ofNat (48 + n) else Char.ofNat (87 + n)

/-- `str_escape`. -/
def strEscape (str : CStr) (div mask : Char) : CStr :=
  str.flatMap fun c =>
    if c = div ∨ c = mask then [mask, hexDigit (c.toNat / 16), hexDigit (c.toNat % 16)] else [c]

/-- The value of a hexadecimal digit. -/
def hexValue (c : Char) : Option Nat :=
  if '0' ≤ c ∧ c ≤ '9' then some (c.toNat - 48)
  else if 'a' ≤ c ∧ c ≤ 'f' then some (c.toNat - 87)
  else if 'A' ≤ c ∧ c ≤ 'F' then some (c.toNat - 55)
  else none

/-- `strtol(buf, NULL, 16)` for two characters, which leave no room for a number behind `0x`. -/
def strtol16 (buf : CStr) : Int :=
  let magnitude (t : CStr) : Int :=
    ((t.takeWhile fun c => (hexValue c).isSome).foldl (fun n c => 16 * n + (hexValue c).getD 0) 0 : Nat)
  match buf.dropWhile isSpace with
  | '-' :: t => -magnitude t
  | '+' :: t => magnitude t
  | t => magnitude t

/-- `str_unescape`; `none` where it reads past the end of the text.  A NUL ends the text. -/
def strUnescape (escChar : Char) : CStr → Option CStr
  | [] => some []
  | c :: s =>
    if c = escChar then
      match s with
      | a :: b :: s =>
        let code := (strtol16 [a, b] % 256).toNat
        (strUnescape escChar s).map fun t => if code = 0 then [] else Char.ofNat code :: t
      | _ => none
    else (strUnescape escChar s).map (c :: ·)

/-! ### Adding an ignore -/

/-- What `addignore` shares. -/
def ignoreLine (now : Int) (ign user mnote : CStr) (expire : Int) : CStr :=
  "+i ".toList ++ strEscape ign ':' '\\' ++ ' ' :: (showInt (expire - now) ++
    ' ' :: (if expire = 0 then 'p' else '-') :: ' ' :: (user ++ ' ' :: mnote)) ++ ['\n']

/-- The record of an ignore takes the place of one for the same mask, or comes first. -/
def setIgnore (ignores : List Igrec) (p : Igrec) : List Igrec :=
  match ignores.findIdx? fun l => rfcCaseEq l.igmask p.igmask with
  | some i => ignores.set i p
  | none => p :: ignores

/-- `addignore`: the ignores, and what is shared. -/
def addignore (noshare : Bool) (now : Int) (ignores : List Igrec) (ign user mnote : CStr)
    (expire : Int) : List Igrec × Option CStr :=
  (setIgnore ignores ⟨ign, user, mnote, expire, now, decide (expire = 0)⟩,
    if noshare then none else some (ignoreLine now ign user mnote expire))

/-- `share_pls_ignore`, for a bot that shares. -/
def sharePlsIgnore (now : Int) (ignores : List Igrec) (par : CStr) : Option (List Igrec) :=
  let (ign, par) := newsplit par
  let (ts, par) := newsplit par
  let expire := if eggAtoi ts = 0 then 0 else now + eggAtoi ts
  let (flags, par) := newsplit par
  let expire := if 'p' ∈ flags then 0 else expire
  let (user, par) := newsplit par
  (strUnescape '\\' ign).map fun ign =>
    (addignore true now ignores ign (user.take (handLen + 1)) (par.take 65) expire).1

/-! ### The way of a line -/

def isEol (c : Char) : Bool := c == '\n' || c == '\r'

/-- The line that a bot reads: it ends at the first line end, and without one it is not complete. -/
def readLine (sent : CStr) : Option CStr :=
  if sent.any isEol then some (sent.takeWhile fun c => !isEol c) else none

/-- `dcc_bot`, `bot_share` and `sharein_mod`, for a bot that may share ignores. -/
def sharein (now : Int) (ignores : List Igrec) (line : CStr) : Option (List Igrec) :=
  if line.takeWhile (· ≠ ' ') = ['s'] then
    let (code, msg) := newsplit ((line.dropWhile (· ≠ ' ')).drop 1)
    if strcaseEq code "+i".toList then sharePlsIgnore now ignores msg else some ignores
  else some ignores

/-- What a bot makes of a change that was shared. -/
def applied (now : Int) (ignores : List Igrec) (text : CStr) : Option (List Igrec) :=
  match readLine (State.shareLine text) with
  | none => some ignores
  | some line => sharein now ignores line

/-! ### What is escaped is read again -/

section Escape

variable {c : Char} {s t : CStr} {p : Char → Bool}

/-- The mask as it is sent. -/
abbrev escaped (ign : CStr) : CStr := strEscape ign ':' '\\'

theorem escaped_append (s t : CStr) : escaped (s ++ t) = escaped s ++ escaped t :=
  List.flatMap_append

theorem escaped_cons_colon (s : CStr) : escaped (':' :: s) = '\\' :: '3' :: 'a' :: escaped s := rfl

theorem escaped_cons_backslash (s : CStr) : escaped ('\\' :: s) = '\\' :: '5' :: 'c' :: escaped s := rfl

theorem escaped_cons_of_ne (hcolon : c ≠ ':') (hbackslash : c ≠ '\\') (s : CStr) :
    escaped (c :: s) = c :: escaped s := by
  rw [escaped, strEscape, List.flatMap_cons, if_neg (by simp [hcolon, hbackslash])]
  rfl

theorem escaped_eq_self (h : ∀ c ∈ s, c ≠ ':' ∧ c ≠ '\\') : escaped s = s := by
  induction s with
  | nil => rfl
  | cons c s ih =>
    obtain ⟨hcolon, hbackslash⟩ := h c List.mem_cons_self
    rw [escaped_cons_of_ne hcolon hbackslash, ih fun c hc => h c (List.mem_cons_of_mem _ hc)]

theorem strUnescape_cons_of_ne (h : c ≠ '\\') (s : CStr) :
    strUnescape '\\' (c :: s) = (strUnescape '\\' s).map (c :: ·) := by
  rw [strUnescape.eq_def]
  exact if_neg h

theorem strUnescape_strEscape (s : CStr) : strUnescape '\\' (escaped s) = some s := by
  induction s with
  | nil => rfl
  | cons c s ih =>
    by_cases hcolon : c = ':'
    · subst hcolon
      rw [escaped_cons_colon, strUnescape.eq_def]
      dsimp only
      rw [if_pos rfl, ih]
      rfl
    · by_cases hbackslash : c = '\\'
      · subst hbackslash
        rw [escaped_cons_backslash, strUnescape.eq_def]
        dsimp only
        rw [if_pos rfl, ih]
        rfl
      · rw [escaped_cons_of_ne hcolon hbackslash, strUnescape_cons_of_ne hbackslash, ih]
        rfl

/-- What is looked for is none of the characters of an escape. -/
def Plain (p : Char → Bool) : Prop := ∀ c ∈ [':', '\\', '3', 'a', '5', 'c'], p c = true

theorem takeWhile_escaped (hp : Plain p) (s : CStr) :
    (escaped s).takeWhile p = escaped (s.takeWhile p) := by
  induction s with
  | nil => rfl
  | cons c s ih =>
    by_cases hcolon : c = ':'
    · subst hcolon
      rw [List.takeWhile_cons_of_pos (hp ':' (by decide)), escaped_cons_colon, escaped_cons_colon,
        List.takeWhile_cons_of_pos (hp _ (by decide)), List.takeWhile_cons_of_pos (hp _ (by decide)),
        List.takeWhile_cons_of_pos (hp _ (by decide)), ih]
    · by_cases hbackslash : c = '\\'
      · subst hbackslash
        rw [List.takeWhile_cons_of_pos (hp '\\' (by decide)), escaped_cons_backslash,
          escaped_cons_backslash, List.takeWhile_cons_of_pos (hp _ (by decide)),
          List.takeWhile_cons_of_pos (hp _ (by decide)),
          List.takeWhile_cons_of_pos (hp _ (by decide)), ih]
      · rw [escaped_cons_of_ne hcolon hbackslash]
        by_cases hc : p c = true
        · rw [List.takeWhile_cons_of_pos hc, List.takeWhile_cons_of_pos hc,
            escaped_cons_of_ne hcolon hbackslash, ih]
        · rw [List.takeWhile_cons_of_neg hc, List.takeWhile_cons_of_neg hc]
          rfl

theorem dropWhile_escaped (s : CStr) :
    (escaped s).dropWhile (· == ' ') = escaped (s.dropWhile (· == ' ')) := by
  induction s with
  | nil => rfl
  | cons c s ih =>
    by_cases hblank : c = ' '
    · subst hblank
      rw [escaped_cons_of_ne (by decide) (by decide), List.dropWhile_cons_of_pos rfl,
        List.dropWhile_cons_of_pos rfl, ih]
    · rw [List.dropWhile_cons_of_neg (by simpa using hblank)]
      by_cases hcolon : c = ':'
      · subst hcolon
        rfl
      · by_cases hbackslash : c = '\\'
        · subst hbackslash
          rfl
        · rw [escaped_cons_of_ne hcolon hbackslash,
            List.dropWhile_cons_of_neg (by simpa using hblank)]

theorem newsplit_escaped (s : CStr) : (newsplit (escaped s)).1 = escaped (newsplit s).1 := by
  show ((escaped s).dropWhile (· == ' ')).takeWhile (· != ' ') = _
  rw [dropWhile_escaped, takeWhile_escaped]
  · rfl
  · unfold Plain
    decide

theorem mem_of_mem_escaped (hp : Plain p) (h : ∀ c ∈ s, p c = true) : ∀ c ∈ escaped s, p c = true := by
  have hself : s.takeWhile p = s := List.takeWhile_eq_self_iff.2 h
  rw [← List.takeWhile_eq_self_iff, takeWhile_escaped hp, hself]

theorem escaped_injective (h : escaped s = escaped t) : s = t := by
  have hback := strUnescape_strEscape s
  rw [h, strUnescape_strEscape] at hback
  exact (Option.some.inj hback).symm

theorem escaped_ne_nil (h : s ≠ []) : escaped s ≠ [] :=
  fun hnil => h (escaped_injective (t := []) hnil)

theorem blank_mem_escaped (h : ' ' ∈ s) : ' ' ∈ escaped s :=
  List.mem_flatMap.2 ⟨' ', h, by decide⟩

end Escape

/-! ### The line as it is read -/

section Line

variable {s t : CStr} {n : Nat} {now now' expire r : Int} {ign user mnote par : CStr}
  {there : List Igrec} {flag : Char}

/-- The characters of a line that is under way. -/
abbrev inLine (c : Char) : Bool := !isEol c

theorem readLine_take (h : readLine (s.take n) = some t) :
    t = s.takeWhile inLine ∧ t.length < n := by
  unfold readLine at h
  split at h
  · rename_i hany
    obtain rfl := Option.some.inj h
    obtain ⟨c, hc, heol⟩ := List.any_eq_true.1 hany
    have hlt : ((s.take n).takeWhile inLine).length < (s.take n).length := by
      by_contra hle
      have hall := (List.takeWhile_prefix inLine).eq_of_length_le (Nat.le_of_not_lt hle)
      have hmem := List.takeWhile_eq_self_iff.1 hall c hc
      rw [inLine, heol] at hmem
      cases hmem
    refine ⟨?_, hlt.trans_le (by simp)⟩
    conv_rhs => rw [← List.take_append_drop n s]
    rw [List.takeWhile_append, if_neg hlt.ne]
  · cases h

theorem takeWhile_newline (s : CStr) : (s ++ ['\n']).takeWhile inLine = s.takeWhile inLine := by
  rw [List.takeWhile_append]
  split
  · rename_i hall
    rw [(List.takeWhile_prefix inLine).eq_of_length_le hall.ge]
    simp [isEol]
  · rfl

theorem readLine_newline (h : (s ++ ['\n']).length ≤ n) :
    readLine ((s ++ ['\n']).take n) = some (s.takeWhile inLine) := by
  have heol : (s ++ ['\n']).any isEol = true := List.any_eq_true.2 ⟨'\n', by simp, rfl⟩
  rw [List.take_of_length_le h, readLine, if_pos heol]
  exact congrArg some (takeWhile_newline s)

theorem inLine_showInt (r : Int) : ∀ c ∈ showInt r, inLine c = true := by
  intro c hc
  obtain rfl | hdigit := mem_showInt hc
  · rfl
  · by_contra heol
    obtain h | h : c = '\n' ∨ c = '\r' := by
      rw [inLine, Bool.not_eq_true, Bool.not_eq_false', isEol, Bool.or_eq_true, beq_iff_eq,
        beq_iff_eq] at heol
      exact heol
    · rw [h] at hdigit
      exact absurd hdigit (by decide)
    · rw [h] at hdigit
      exact absurd hdigit (by decide)

theorem blank_showInt (r : Int) : ' ' ∉ showInt r :=
  fun h => absurd (mem_showInt h) (by decide)

theorem escaped_showInt (r : Int) : escaped (showInt r) = showInt r := by
  refine escaped_eq_self fun c hc => ?_
  constructor
  · rintro rfl
    exact absurd (mem_showInt hc) (by decide)
  · rintro rfl
    exact absurd (mem_showInt hc) (by decide)

/-- The time as the receiver computes it. -/
def expireThere (now r : Int) (perm : Bool) : Int :=
  if perm then 0 else if eggAtoi (showInt r) = 0 then 0 else now + eggAtoi (showInt r)

/-- What becomes of the fields of a line. -/
theorem sharePlsIgnore_spec (now : Int) (there : List Igrec) (r : Int) (perm : Bool) (par : CStr)
    (hne : ign ≠ []) (hblank : ' ' ∉ ign) :
    sharePlsIgnore now there (escaped ign ++ ' ' :: (showInt r ++
        ' ' :: (if perm then 'p' else '-') :: ' ' :: par)) =
      some (setIgnore there ⟨ign, (newsplit par).1.take (handLen + 1), (newsplit par).2.take 65,
        expireThere now r perm, now, decide (expireThere now r perm = 0)⟩) := by
  have hword : ' ' ∉ escaped ign := by
    have hall : ∀ c ∈ ign, (c != ' ') = true := fun c hc => bne_iff_ne.2 fun h => hblank (h ▸ hc)
    have hplain : Plain (· != ' ') := by
      unfold Plain
      decide
    intro h
    exact absurd (mem_of_mem_escaped hplain hall _ h) (by decide)
  have hflag : newsplit ((if perm then 'p' else '-') :: ' ' :: par) =
      ([if perm then 'p' else '-'], par) := by
    cases perm
    · exact newsplit_word (a := ['-']) par (by decide) (by decide)
    · exact newsplit_word (a := ['p']) par (by decide) (by decide)
  rw [sharePlsIgnore, newsplit_word _ (escaped_ne_nil hne) hword]
  dsimp only
  rw [newsplit_word _ (showInt_ne_nil r) (blank_showInt r)]
  dsimp only
  rw [hflag, strUnescape_strEscape]
  cases perm <;> rfl

theorem sharein_line (now : Int) (there : List Igrec) (par : CStr) :
    sharein now there ("s +i ".toList ++ par) = sharePlsIgnore now there par := by
  have hcode : newsplit ("+i ".toList ++ par) = ("+i".toList, par) :=
    newsplit_word (a := "+i".toList) par (by decide) (by decide)
  have hfirst : ("s +i ".toList ++ par).takeWhile (· ≠ ' ') = ['s'] := rfl
  have hrest : (("s +i ".toList ++ par).dropWhile (· ≠ ' ')).drop 1 = "+i ".toList ++ par := rfl
  rw [sharein, if_pos hfirst, hrest, hcode]
  exact if_pos rfl

end Line

/-! ### Which ignores arrive -/

/-- An ignore made here is made at the other bot: the same mask, permanence, time left, creator and
comment. -/
def Arrives (now now' : Int) (ign user mnote : CStr) (expire : Int) : Prop :=
  ∀ here there : List Igrec, ∃ text there',
    (addignore false now here ign user mnote expire).2 = some text ∧
      applied now' there text = some there' ∧
      ∃ p ∈ there', p.igmask = ign ∧ p.perm = decide (expire = 0) ∧
        (expire ≠ 0 → p.expire - now' = expire - now) ∧ p.user = user ∧ p.msg = mnote

/-- Words without line ends, a comment and a line that are not cut, and a time left that is an `int`,
not 0, and does not end at the start of the epoch. -/
structure Sendable (now now' : Int) (ign user mnote : CStr) (expire : Int) : Prop where
  mask : ign ≠ [] ∧ ' ' ∉ ign ∧ ∀ c ∈ ign, inLine c = true
  creator : ' ' ∉ user ∧ (∀ c ∈ user, inLine c = true) ∧ user.length ≤ handLen + 1
  comment : (∀ c ∈ mnote, inLine c = true) ∧ mnote.length ≤ 65
  nobody : user = [] → mnote = []
  time : expire ≠ 0 →
    -2 ^ 31 ≤ expire - now ∧ expire - now < 2 ^ 31 ∧ expire - now ≠ 0 ∧ now' + (expire - now) ≠ 0
  line : ("s ".toList ++ ignoreLine now ign user mnote expire).length ≤ 511

section Arrival

variable {now now' expire : Int} {ign user mnote text s : CStr} {there there' : List Igrec}

/-- What stands behind the mask. -/
def fieldsOf (now : Int) (user mnote : CStr) (expire : Int) : CStr :=
  ' ' :: (showInt (expire - now) ++
    ' ' :: (if decide (expire = 0) then 'p' else '-') :: ' ' :: (user ++ ' ' :: mnote))

theorem shareLine_eq (now : Int) (ign user mnote : CStr) (expire : Int) :
    "s ".toList ++ ignoreLine now ign user mnote expire =
      ("s +i ".toList ++ (escaped ign ++ fieldsOf now user mnote expire)) ++ ['\n'] := by
  simp [ignoreLine, fieldsOf]

theorem plain_inLine : Plain inLine := by
  unfold Plain
  decide

theorem takeWhile_command (s : CStr) :
    ("s +i ".toList ++ s).takeWhile inLine = "s +i ".toList ++ s.takeWhile inLine :=
  List.takeWhile_append_of_pos (by decide)

theorem takeWhile_fieldsOf (now : Int) (user mnote : CStr) (expire : Int) :
    (fieldsOf now user mnote expire).takeWhile inLine =
      ' ' :: (showInt (expire - now) ++ ' ' :: (if decide (expire = 0) then 'p' else '-') ::
        ' ' :: (user ++ ' ' :: mnote).takeWhile inLine) := by
  have hflag : inLine (if decide (expire = 0) then 'p' else '-') = true := by
    split <;> rfl
  rw [fieldsOf, List.takeWhile_cons_of_pos rfl,
    List.takeWhile_append_of_pos (inLine_showInt _), List.takeWhile_cons_of_pos rfl,
    List.takeWhile_cons_of_pos hflag, List.takeWhile_cons_of_pos rfl]

theorem exists_mem_setIgnore (ignores : List Igrec) (p : Igrec) : p ∈ setIgnore ignores p := by
  unfold setIgnore
  split
  · rename_i i hi
    obtain ⟨hlt, -⟩ := List.findIdx?_eq_some_iff_getElem.1 hi
    exact List.mem_set hlt p
  · exact List.mem_cons_self

/-- The time left arrives where it is an `int`, is not 0, and ends at no time that means for good. -/
theorem expireThere_iff (now now' expire : Int) :
    (decide (expireThere now' (expire - now) (decide (expire = 0)) = 0) = decide (expire = 0) ∧
        (expire ≠ 0 →
          expireThere now' (expire - now) (decide (expire = 0)) - now' = expire - now)) ↔
      (expire ≠ 0 → -2 ^ 31 ≤ expire - now ∧ expire - now < 2 ^ 31 ∧ expire - now ≠ 0 ∧
        now' + (expire - now) ≠ 0) := by
  by_cases hperm : expire = 0
  · simp [hperm, expireThere]
  have hrange : -2 ^ 31 ≤ eggAtoi (showInt (expire - now)) ∧
      eggAtoi (showInt (expire - now)) < 2 ^ 31 := by
    rw [eggAtoi, toCInt]
    omega
  have hsame : -2 ^ 31 ≤ expire - now → expire - now < 2 ^ 31 →
      eggAtoi (showInt (expire - now)) = expire - now := eggAtoi_showInt
  simp only [hperm, decide_false, expireThere, Bool.false_eq_true, if_false, decide_eq_false_iff_not,
    ne_eq, not_false_eq_true, true_implies]
  generalize eggAtoi (showInt (expire - now)) = a at hrange hsame
  constructor
  · rintro ⟨hne, hleft⟩
    by_cases ha : a = 0
    · exact absurd (if_pos ha) hne
    · rw [if_neg ha] at hne hleft
      omega
  · rintro ⟨hlow, hhigh, hzero, hend⟩
    have ha := hsame hlow hhigh
    rw [if_neg (by omega)]
    omega

theorem arrives_of_sendable (h : Sendable now now' ign user mnote expire) :
    Arrives now now' ign user mnote expire := by
  intro here there
  obtain ⟨hne, hblank, hmask⟩ := h.mask
  have hrest : ∀ c ∈ user ++ ' ' :: mnote, inLine c = true := by
    intro c hc
    obtain hc | hc := List.mem_append.1 hc
    · exact h.creator.2.1 c hc
    · obtain rfl | hc := List.mem_cons.1 hc
      · rfl
      · exact h.comment.1 c hc
  have hfields : (fieldsOf now user mnote expire).takeWhile inLine =
      fieldsOf now user mnote expire := by
    rw [takeWhile_fieldsOf, List.takeWhile_eq_self_iff.2 hrest]
    rfl
  have hline : readLine (State.shareLine (ignoreLine now ign user mnote expire)) =
      some ("s +i ".toList ++ (escaped ign ++ fieldsOf now user mnote expire)) := by
    have hlen := h.line
    rw [shareLine_eq] at hlen
    rw [State.shareLine, shareLine_eq, readLine_newline hlen, takeWhile_command,
      List.takeWhile_append_of_pos (mem_of_mem_escaped plain_inLine hmask), hfields]
  have hcreator : newsplit (user ++ ' ' :: mnote) = (user, mnote) := by
    by_cases hnil : user = []
    · rw [hnil, h.nobody hnil]
      rfl
    · exact newsplit_word mnote hnil h.creator.1
  obtain ⟨hperm, hleft⟩ := (expireThere_iff now now' expire).2 h.time
  refine ⟨_, _, rfl, ?_, ⟨ign, user, mnote, expireThere now' (expire - now) (decide (expire = 0)), now',
    decide (expireThere now' (expire - now) (decide (expire = 0)) = 0)⟩, exists_mem_setIgnore there _,
    rfl, hperm, hleft, rfl, rfl⟩
  rw [applied, hline]
  dsimp only
  rw [sharein_line, fieldsOf, sharePlsIgnore_spec _ _ _ _ _ hne hblank, hcreator]
  dsimp only
  rw [List.take_of_length_le h.creator.2.2, List.take_of_length_le h.comment.2]

theorem newsplit_append (h : ' ' ∈ s.dropWhile (· == ' ')) (t : CStr) :
    (newsplit (s ++ t)).1 = (newsplit s).1 := by
  have hne : (s.dropWhile (· == ' ')).isEmpty = false := by
    rw [List.isEmpty_eq_false_iff]
    exact List.ne_nil_of_mem h
  have hlt : ((s.dropWhile (· == ' ')).takeWhile (· != ' ')).length ≠
      (s.dropWhile (· == ' ')).length := by
    intro heq
    have hall := (List.takeWhile_prefix (· != ' ')).eq_of_length_le heq.ge
    exact absurd (List.takeWhile_eq_self_iff.1 hall _ h) (by decide)
  show ((s ++ t).dropWhile (· == ' ')).takeWhile (· != ' ') = _
  rw [List.dropWhile_append, hne, if_neg Bool.noConfusion, List.takeWhile_append, if_neg hlt]
  rfl

theorem inLine_newsplit (h : ∀ c ∈ s, inLine c = true) : ∀ c ∈ (newsplit s).1, inLine c = true :=
  fun c hc => h c ((List.dropWhile_suffix _).subset (List.takeWhile_subset _ hc))

theorem mask_read (now : Int) (ign user mnote : CStr) (expire : Int) :
    ∃ w, (newsplit ((escaped ign ++ fieldsOf now user mnote expire).takeWhile inLine)).1 =
        escaped w ∧
      ' ' ∉ w ∧ (∀ c ∈ w, inLine c = true) ∧ (ign = [] → w ≠ []) := by
  -- the text of which the first word is read ends behind the seconds
  obtain ⟨z, hz⟩ : ∃ z, z = ign ++ ' ' :: (showInt (expire - now) ++ [' ']) := ⟨_, rfl⟩
  have htext : ∃ rest, escaped ign ++ fieldsOf now user mnote expire = escaped z ++ rest := by
    refine ⟨(if decide (expire = 0) then 'p' else '-') :: ' ' :: (user ++ ' ' :: mnote), ?_⟩
    rw [hz, escaped_append, escaped_cons_of_ne (by decide) (by decide), escaped_append,
      escaped_showInt]
    simp [fieldsOf, strEscape]
  obtain ⟨rest, htext⟩ := htext
  rw [htext]
  by_cases hall : ∀ c ∈ z, inLine c = true
  · have hblank : ' ' ∈ z.dropWhile (· == ' ') := by
      have hsplit : z = (ign ++ ' ' :: showInt (expire - now)) ++ [' '] := by simp [hz]
      have hne : ((ign ++ ' ' :: showInt (expire - now)).dropWhile (· == ' ')).isEmpty = false := by
        rw [List.isEmpty_eq_false_iff, ne_eq, List.dropWhile_eq_nil_iff]
        obtain ⟨c, hc⟩ := List.exists_mem_of_ne_nil _ (showInt_ne_nil (expire - now))
        intro h
        have hcb := h c (by simp [hc])
        rw [beq_iff_eq] at hcb
        exact blank_showInt _ (hcb ▸ hc)
      rw [hsplit, List.dropWhile_append, hne, if_neg Bool.noConfusion]
      exact List.mem_append_right _ List.mem_cons_self
    rw [List.takeWhile_append_of_pos (mem_of_mem_escaped plain_inLine hall),
      newsplit_append (by rw [dropWhile_escaped]; exact blank_mem_escaped hblank),
      newsplit_escaped]
    refine ⟨_, rfl, space_notMem_newsplit z, inLine_newsplit hall, ?_⟩
    intro hnil
    rw [hz, hnil, List.nil_append, newsplit_blank,
      newsplit_word [] (showInt_ne_nil _) (blank_showInt _)]
    exact showInt_ne_nil _
  · have hcut : (escaped z ++ rest).takeWhile inLine = escaped (z.takeWhile inLine) := by
      rw [List.takeWhile_append, if_neg, takeWhile_escaped plain_inLine]
      intro heq
      have hsame := (List.takeWhile_prefix inLine).eq_of_length_le heq.ge
      rw [takeWhile_escaped plain_inLine] at hsame
      exact hall (List.takeWhile_eq_self_iff.1 (escaped_injective hsame))
    rw [hcut, newsplit_escaped]
    refine ⟨_, rfl, space_notMem_newsplit _, inLine_newsplit fun c hc => List.mem_takeWhile_imp hc, ?_⟩
    intro hnil
    refine absurd (fun c hc => ?_) hall
    rw [hz, hnil, List.nil_append, List.mem_cons, List.mem_append, List.mem_singleton] at hc
    obtain rfl | hc | rfl := hc
    · rfl
    · exact inLine_showInt _ c hc
    · rfl

theorem fields_read
    (huser : (newsplit ((user ++ ' ' :: mnote).takeWhile inLine)).1.take (handLen + 1) = user)
    (hmsg : (newsplit ((user ++ ' ' :: mnote).takeWhile inLine)).2.take 65 = mnote) :
    (' ' ∉ user ∧ (∀ c ∈ user, inLine c = true) ∧ user.length ≤ handLen + 1) ∧
      ((∀ c ∈ mnote, inLine c = true) ∧ mnote.length ≤ 65) ∧ (user = [] → mnote = []) := by
  have hline : ∀ c ∈ (user ++ ' ' :: mnote).takeWhile inLine, inLine c = true :=
    fun c hc => List.mem_takeWhile_imp hc
  have hcreator : ' ' ∉ user ∧ (∀ c ∈ user, inLine c = true) ∧ user.length ≤ handLen + 1 := by
    refine ⟨fun h => ?_, fun c hc => ?_, ?_⟩
    · rw [← huser] at h
      exact space_notMem_newsplit _ (List.mem_of_mem_take h)
    · rw [← huser] at hc
      exact inLine_newsplit hline c (List.mem_of_mem_take hc)
    · rw [← huser]
      exact List.length_take_le _ _
  rw [List.takeWhile_append_of_pos hcreator.2.1, List.takeWhile_cons_of_pos rfl] at huser hmsg
  by_cases hnil : user = []
  · have hfirst : (newsplit (mnote.takeWhile inLine)).1 = [] := by
      rw [hnil, List.nil_append, newsplit_blank, List.take_eq_nil_iff] at huser
      exact huser.resolve_left (by decide)
    rw [hnil, List.nil_append, newsplit_blank, newsplit_nil_of_fst hfirst] at hmsg
    subst hmsg
    exact ⟨hcreator, ⟨fun c hc => absurd hc List.not_mem_nil, Nat.zero_le _⟩, fun _ => rfl⟩
  · rw [newsplit_word _ hnil hcreator.1] at hmsg
    dsimp only at hmsg
    refine ⟨hcreator, ⟨fun c hc => ?_, ?_⟩, fun h => absurd h hnil⟩
    · rw [← hmsg] at hc
      exact List.mem_takeWhile_imp (List.mem_of_mem_take hc)
    · rw [← hmsg]
      exact List.length_take_le _ _

theorem sendable_of_arrives (h : Arrives now now' ign user mnote expire) :
    Sendable now now' ign user mnote expire := by
  obtain ⟨text, there', htext, happlied, p, hp, hmask, hperm, hleft, huser, hmsg⟩ := h [] []
  obtain rfl := Option.some.inj htext
  rw [applied, State.shareLine, shareLine_eq] at happlied
  cases hread : readLine ((("s +i ".toList ++ (escaped ign ++ fieldsOf now user mnote expire)) ++
      ['\n']).take 511) with
  | none =>
    rw [hread] at happlied
    obtain rfl := Option.some.inj happlied
    cases hp
  | some line =>
    obtain ⟨rfl, hlength⟩ := readLine_take hread
    rw [hread] at happlied
    dsimp only at happlied
    rw [takeWhile_newline, takeWhile_command] at happlied hlength
    rw [sharein_line] at happlied
    -- the mask that is read is clean, and it is the one that was sent
    obtain ⟨w, hw, hwblank, hwline, hwne⟩ := mask_read now ign user mnote expire
    have hign : w = ign := by
      rw [sharePlsIgnore] at happlied
      dsimp only at happlied
      rw [hw, strUnescape_strEscape] at happlied
      obtain rfl := Option.some.inj happlied
      obtain rfl := List.mem_singleton.1 hp
      exact hmask
    subst hign
    have hne : w ≠ [] := fun hnil => hwne hnil hnil
    rw [List.takeWhile_append_of_pos (mem_of_mem_escaped plain_inLine hwline), takeWhile_fieldsOf]
      at happlied hlength
    rw [sharePlsIgnore_spec _ _ _ _ _ hne hwblank] at happlied
    obtain rfl := Option.some.inj happlied
    obtain rfl := List.mem_singleton.1 hp
    dsimp only at hperm hleft huser hmsg
    obtain ⟨hcreator, hcomment, hnobody⟩ := fields_read huser hmsg
    have hall : (user ++ ' ' :: mnote).takeWhile inLine = user ++ ' ' :: mnote := by
      rw [List.takeWhile_append_of_pos hcreator.2.1, List.takeWhile_cons_of_pos rfl,
        List.takeWhile_eq_self_iff.2 hcomment.1]
    refine ⟨⟨hne, hwblank, hwline⟩, hcreator, hcomment, hnobody,
      (expireThere_iff now now' expire).1 ⟨hperm, hleft⟩, ?_⟩
    rw [hall] at hlength
    rw [shareLine_eq, List.length_append, List.length_singleton]
    exact hlength

/-- Which ignores arrive as they are. -/
theorem arrives_iff (now now' : Int) (ign user mnote : CStr) (expire : Int) :
    Arrives now now' ign user mnote expire ↔ Sendable now now' ign user mnote expire :=
  ⟨sendable_of_arrives, arrives_of_sendable⟩

end Arrival

/-- An ignore that ends this second is made for good. -/
theorem not_arrives :
    ¬ ∀ (now now' : Int) (ign user mnote : CStr) (expire : Int),
      Arrives now now' ign user mnote expire := by
  intro h
  obtain ⟨text, there', htext, happlied, p, hp, -, hperm, -⟩ :=
    h 1000 2000 "*!*@spam.org".toList "joe".toList "requested".toList 1000 [] []
  obtain rfl := Option.some.inj htext
  have hrun : applied 2000 [] (ignoreLine 1000 "*!*@spam.org".toList "joe".toList
      "requested".toList 1000) =
      some [⟨"*!*@spam.org".toList, "joe".toList, "requested".toList, 0, 2000, true⟩] := by
    decide +kernel
  rw [hrun] at happlied
  obtain rfl := Option.some.inj happlied
  obtain rfl := List.mem_singleton.1 hp
  cases hperm

end Eggdrop.Share
