import Eggdrop.Server.Isupport

/-!
# MaxList — the lengths of lists that a server announces (irc.mod/chan_handlers.c)

`MAXLIST=be:100,I:50`: sections of letters, each with the limit that the modes of the section share.
`parse_maxlist` takes the limits for bans, exempts and invites from it, and their total.

* `parseMaxlist_eq`: what comes of a value, in terms of its sections.
* `maxlist_right_iff`: when that is what the value says.
-/

open List

namespace Eggdrop.MaxList

open Isupport

/-- `max_bans`, `max_exempts`, `max_invites` and `max_modes`. -/
structure Limits where
  bans : Int
  exempts : Int
  invites : Int
  modes : Int
deriving DecidableEq, Repr

def Limits.default : Limits := ⟨30, 20, 20, 30⟩

/-- The limit of a section, within bounds. -/
def clamp (tmpl : Int) : Int := if tmpl < 10 then 10 else if 100000 < tmpl then 100000 else tmpl

/-- The inner loop of `parse_maxlist`, up to the colon: the limits, and `addtosum`. -/
def scanModes (tmpl : Int) : CStr → Limits × Bool → Limits × Bool
  | [], r => r
  | c :: s, (l, addtosum) =>
    if c = ':' then (l, addtosum)
    else if c = 'b' then scanModes tmpl s ({ l with bans := tmpl }, true)
    else if c = 'e' then scanModes tmpl s ({ l with exempts := tmpl }, true)
    else if c = 'I' then scanModes tmpl s ({ l with invites := tmpl }, true)
    else scanModes tmpl s (l, addtosum)

/-- The text that `strtol` leaves is an end of what it was given. -/
theorem strtolEnd_suffix (s : CStr) : (strtolEnd 10 s).2 <:+ s := by
  have hblanks : s.dropWhile isSpace <:+ s := dropWhile_suffix _
  have hdigits : ∀ {t : CStr} {r : Nat × CStr}, readDigits 10 t = some r → r.2 <:+ t := by
    intro t r h
    unfold readDigits at h
    dsimp only at h
    split at h
    · cases h
    · rw [← Option.some.inj h]
      exact dropWhile_suffix _
  unfold strtolEnd
  generalize s.dropWhile isSpace = t at hblanks
  dsimp only
  split
  · exact suffix_rfl
  · next n rest hread =>
    refine (hdigits hread).trans ?_
    split
    · exact (suffix_cons _ _).trans hblanks
    · exact (suffix_cons _ _).trans hblanks
    · exact hblanks

/-- The outer loop of `parse_maxlist`: what it returns, and the limits. -/
def parseLoop (modechar : CStr) (tmpsum : Int) (l : Limits) : Int × Limits :=
  match _h : modechar.dropWhile (· ≠ ':') with
  | [] => (-1, l)
  | _ :: number =>
    let r := strtolEnd 10 number
    if r.2 ≠ [] ∧ r.2.head? ≠ some ',' then (-2, l)
    else
      let tmpl := clamp r.1
      let m := scanModes tmpl modechar (l, false)
      let tmpsum := if m.2 then toCInt (tmpsum + tmpl) else tmpsum
      if r.2.head? = some ',' then parseLoop r.2.tail tmpsum m.1
      else (0, { m.1 with modes := tmpsum })
termination_by modechar.length
decreasing_by
  have hdrop := (dropWhile_suffix (l := modechar) fun c => decide (c ≠ ':')).length_le
  have hend := (strtolEnd_suffix number).length_le
  rw [_h, length_cons] at hdrop
  rw [length_tail]
  omega

/-- `parse_maxlist`. -/
def parseMaxlist (value : Option CStr) : Int × Limits :=
  match value with
  | none => (0, .default)
  | some value =>
    if value.head? = some ':' then (0, .default) else parseLoop value 0 .default

/-! ### What a value says -/

/-- Letters, the limit behind the colon, and whether a number stands there. -/
structure Section where
  letters : CStr
  limit : Int
  numbered : Bool

/-- A section by its letters and the text behind its colon. -/
def Section.read (letters number : CStr) : Section :=
  ⟨letters, clamp (strtolEnd 10 number).1, number.takeWhile (· ≠ ',') ≠ []⟩

/-- The sections of a value, and whether it ends behind the last of them. -/
def sections (s : CStr) : List Section × Bool :=
  match _h : s.dropWhile (· ≠ ':') with
  | [] => ([], false)
  | _ :: number =>
    let r := strtolEnd 10 number
    let sec := Section.read (s.takeWhile (· ≠ ':')) number
    if r.2 = [] then ([sec], true)
    else if r.2.head? = some ',' then
      let rest := sections r.2.tail
      (sec :: rest.1, rest.2)
    else ([], false)
termination_by s.length
decreasing_by
  have hdrop := (dropWhile_suffix (l := s) fun c => decide (c ≠ ':')).length_le
  have hend := (strtolEnd_suffix number).length_le
  rw [_h, length_cons] at hdrop
  rw [length_tail]
  omega

/-- One letter or more, none of them a comma, and a number. -/
def Section.WellFormed (sec : Section) : Prop :=
  sec.letters ≠ [] ∧ ',' ∉ sec.letters ∧ sec.numbered = true

instance (sec : Section) : Decidable sec.WellFormed :=
  inferInstanceAs (Decidable (_ ∧ _ ∧ _))

/-- Sections of letters and a number, each number up to a comma or the end. -/
def WellFormed (value : CStr) : Prop :=
  (sections value).2 = true ∧ ∀ sec ∈ (sections value).1, sec.WellFormed

instance (value : CStr) : Decidable (WellFormed value) :=
  inferInstanceAs (Decidable (_ ∧ ∀ sec ∈ (sections value).1, sec.WellFormed))

def Section.names (sec : Section) (mode : Char) : Bool := sec.letters.contains mode

def Section.isOurs (sec : Section) : Bool := sec.names 'b' || sec.names 'e' || sec.names 'I'

/-- The limit of the section that names a mode. -/
def limitOf (mode : Char) (default : Int) (secs : List Section) : Int :=
  ((secs.filter (·.names mode)).getLast?.map Section.limit).getD default

def total (secs : List Section) : Int := ((secs.filter Section.isOurs).map Section.limit).sum

/-- The limits that the sections name. -/
def wanted (secs : List Section) : Limits :=
  ⟨limitOf 'b' 30 secs, limitOf 'e' 20 secs, limitOf 'I' 20 secs, total secs⟩

def Limits.largest (l : Limits) : Int := max l.bans (max l.exempts l.invites)

/-- The limits are what the value says, and the total leaves room for each; or it says nothing, and
they are the defaults. -/
def Right (value : CStr) : Prop :=
  if WellFormed value then
    parseMaxlist (some value) = (0, wanted (sections value).1) ∧
      (wanted (sections value).1).largest ≤ (wanted (sections value).1).modes
  else (parseMaxlist (some value)).2 = .default

instance (value : CStr) : Decidable (Right value) :=
  if h : WellFormed value then
    decidable_of_iff (parseMaxlist (some value) = (0, wanted (sections value).1) ∧
      (wanted (sections value).1).largest ≤ (wanted (sections value).1).modes) (by rw [Right, if_pos h])
  else decidable_of_iff ((parseMaxlist (some value)).2 = .default) (by rw [Right, if_neg h])

/-- The total of a well-formed value leaves room for each limit, and the sections before the fault in
another one name no limits but the defaults. -/
def Harmless (value : CStr) : Prop :=
  let secs := (sections value).1
  if WellFormed value then total secs < 2 ^ 31 ∧ (wanted secs).largest ≤ total secs
  else value.head? = some ':' ∨ (limitOf 'b' 30 secs = 30 ∧ limitOf 'e' 20 secs = 20 ∧
    limitOf 'I' 20 secs = 20 ∧ ((sections value).2 = true → toCInt (total secs) = 30))

/-! ### The loops -/

/-- What a section does to the limits. -/
def Section.apply (sec : Section) (l : Limits) : Limits :=
  { l with
    bans := if sec.names 'b' then sec.limit else l.bans
    exempts := if sec.names 'e' then sec.limit else l.exempts
    invites := if sec.names 'I' then sec.limit else l.invites }

theorem scanModes_eq (tmpl : Int) (s : CStr) (l : Limits) (addtosum numbered : Bool) :
    scanModes tmpl s (l, addtosum) = (Section.apply ⟨s.takeWhile (· ≠ ':'), tmpl, numbered⟩ l,
      addtosum || Section.isOurs ⟨s.takeWhile (· ≠ ':'), tmpl, numbered⟩) := by
  induction s generalizing l addtosum with
  | nil => simp [scanModes, Section.apply, Section.isOurs, Section.names]
  | cons c s ih =>
    rw [scanModes]
    by_cases hcolon : c = ':'
    · rw [if_pos hcolon, hcolon]
      simp [Section.apply, Section.isOurs, Section.names]
    · rw [if_neg hcolon, takeWhile_cons_of_pos (by simpa using hcolon)]
      by_cases hb : c = 'b'
      · rw [if_pos hb, ih, hb]
        simp [Section.apply, Section.isOurs, Section.names]
      · rw [if_neg hb]
        by_cases he : c = 'e'
        · rw [if_pos he, ih, he]
          simp [Section.apply, Section.isOurs, Section.names]
        · rw [if_neg he]
          by_cases hi : c = 'I'
          · rw [if_pos hi, ih, hi]
            simp [Section.apply, Section.isOurs, Section.names]
          · rw [if_neg hi, ih]
            simp [Section.apply, Section.isOurs, Section.names, Ne.symm hb, Ne.symm he, Ne.symm hi]

theorem toCInt_add (a b : Int) : toCInt (toCInt a + b) = toCInt (a + b) := by
  unfold toCInt
  omega

theorem limitOf_cons (mode : Char) (default : Int) (sec : Section) (secs : List Section) :
    limitOf mode default (sec :: secs) =
      limitOf mode (if sec.names mode then sec.limit else default) secs := by
  unfold limitOf
  by_cases h : sec.names mode = true
  · rw [filter_cons, if_pos h, if_pos h, getLast?_cons]
    cases (secs.filter (·.names mode)).getLast? with
    | none => rfl
    | some t => rfl
  · rw [filter_cons, if_neg h, if_neg h]

theorem foldl_apply (secs : List Section) (l : Limits) :
    secs.foldl (fun l sec => sec.apply l) l =
      ⟨limitOf 'b' l.bans secs, limitOf 'e' l.exempts secs, limitOf 'I' l.invites secs, l.modes⟩ := by
  induction secs generalizing l with
  | nil => rfl
  | cons sec secs ih =>
    rw [foldl_cons, ih, limitOf_cons, limitOf_cons, limitOf_cons]
    rfl

theorem total_cons (sec : Section) (secs : List Section) :
    total (sec :: secs) = (if sec.isOurs then sec.limit else 0) + total secs := by
  unfold total
  by_cases h : sec.isOurs = true
  · rw [filter_cons_of_pos h, if_pos h, map_cons, sum_cons]
  · rw [filter_cons_of_neg h, if_neg h, Int.zero_add]

theorem sections_nil {s : CStr} (h : s.dropWhile (· ≠ ':') = []) : sections s = ([], false) := by
  rw [sections]
  split
  · rfl
  · next heq =>
    rw [h] at heq
    cases heq

theorem sections_colon {s number : CStr} {c : Char} (h : s.dropWhile (· ≠ ':') = c :: number) :
    sections s =
      if (strtolEnd 10 number).2 = [] then
        ([Section.read (s.takeWhile (· ≠ ':')) number], true)
      else if (strtolEnd 10 number).2.head? = some ',' then
        (Section.read (s.takeWhile (· ≠ ':')) number ::
          (sections (strtolEnd 10 number).2.tail).1, (sections (strtolEnd 10 number).2.tail).2)
      else ([], false) := by
  rw [sections]
  split
  · next heq =>
    rw [h] at heq
    cases heq
  · next heq =>
    rw [h] at heq
    obtain ⟨-, rfl⟩ := cons.inj heq
    rfl

theorem parseLoop_nil {s : CStr} (h : s.dropWhile (· ≠ ':') = []) (sum : Int) (l : Limits) :
    parseLoop s sum l = (-1, l) := by
  rw [parseLoop]
  split
  · rfl
  · next heq =>
    rw [h] at heq
    cases heq

theorem parseLoop_colon {s number : CStr} {c : Char} (h : s.dropWhile (· ≠ ':') = c :: number) (sum : Int)
    (l : Limits) {sec : Section} (hsec : sec = Section.read (s.takeWhile (· ≠ ':')) number) :
    parseLoop s (toCInt sum) l =
      if (strtolEnd 10 number).2 ≠ [] ∧ (strtolEnd 10 number).2.head? ≠ some ',' then (-2, l)
      else if (strtolEnd 10 number).2.head? = some ',' then
        parseLoop (strtolEnd 10 number).2.tail (toCInt (sum + if sec.isOurs then sec.limit else 0))
          (sec.apply l)
      else (0, { sec.apply l with modes := toCInt (sum + if sec.isOurs then sec.limit else 0) }) := by
  have hsum : (if sec.isOurs then toCInt (toCInt sum + sec.limit) else toCInt sum) =
      toCInt (sum + if sec.isOurs then sec.limit else 0) := by
    split
    · exact toCInt_add sum sec.limit
    · rw [Int.add_zero]
  rw [parseLoop]
  split
  · next heq =>
    rw [h] at heq
    cases heq
  · next heq =>
    rw [h] at heq
    obtain ⟨-, rfl⟩ := cons.inj heq
    dsimp only
    rw [scanModes_eq _ _ _ _ (number.takeWhile (· ≠ ',') ≠ []), ← Section.read, ← hsec, Bool.false_or,
      ← hsum, hsec]
    rfl

theorem parseLoop_eq (s : CStr) (sum : Int) (l : Limits) :
    ((sections s).2 = true → parseLoop s (toCInt sum) l =
      (0, { (sections s).1.foldl (fun l sec => sec.apply l) l with
        modes := toCInt (sum + total (sections s).1) })) ∧
    ((sections s).2 = false →
      (parseLoop s (toCInt sum) l).2 = (sections s).1.foldl (fun l sec => sec.apply l) l) := by
  induction hn : s.length using Nat.strongRecOn generalizing s sum l with
  | ind n ih =>
    rcases hd : s.dropWhile (· ≠ ':') with _ | ⟨c, number⟩
    · rw [sections_nil hd, parseLoop_nil hd]
      exact ⟨fun h => absurd h Bool.false_ne_true, fun _ => rfl⟩
    obtain ⟨sec, hsec⟩ : ∃ sec, sec = Section.read (s.takeWhile (· ≠ ':')) number := ⟨_, rfl⟩
    have hdrop := (dropWhile_suffix (l := s) fun c => decide (c ≠ ':')).length_le
    have hend := (strtolEnd_suffix number).length_le
    rw [hd, length_cons] at hdrop
    rw [sections_colon hd, parseLoop_colon hd sum l hsec, ← hsec]
    by_cases hnil : (strtolEnd 10 number).2 = []
    · rw [if_pos hnil, hnil, if_neg (fun h => h.1 rfl), if_neg (by decide)]
      refine ⟨fun _ => ?_, fun h => absurd h Bool.false_ne_true.symm⟩
      rw [total_cons]
      simp [total]
    · rw [if_neg hnil]
      by_cases hcomma : (strtolEnd 10 number).2.head? = some ','
      · obtain ⟨hok, hbad⟩ := ih _ (by rw [length_tail]; omega) (strtolEnd 10 number).2.tail
          (sum + if sec.isOurs then sec.limit else 0) (sec.apply l) rfl
        rw [if_pos hcomma, if_neg (fun h => h.2 hcomma), if_pos hcomma]
        refine ⟨fun h => ?_, fun h => ?_⟩
        · rw [hok h, total_cons, foldl_cons, Int.add_assoc]
        · rw [hbad h, foldl_cons]
      · rw [if_neg hcomma, if_pos ⟨hnil, hcomma⟩]
        exact ⟨fun h => absurd h Bool.false_ne_true, fun _ => rfl⟩

/-! ### The limits of a value -/

variable {value : CStr}

theorem ten_le_clamp (n : Int) : 10 ≤ clamp n := by
  unfold clamp
  split_ifs
  · exact Int.le_refl 10
  · decide
  · omega

theorem ten_le_limit (s : CStr) : ∀ sec ∈ (sections s).1, 10 ≤ sec.limit := by
  induction hn : s.length using Nat.strongRecOn generalizing s with
  | ind n ih =>
    rcases hd : s.dropWhile (· ≠ ':') with _ | ⟨c, number⟩
    · rw [sections_nil hd]
      exact fun _ h => absurd h not_mem_nil
    have hdrop := (dropWhile_suffix (l := s) fun c => decide (c ≠ ':')).length_le
    have hend := (strtolEnd_suffix number).length_le
    rw [hd, length_cons] at hdrop
    rw [sections_colon hd]
    split_ifs with hnil hcomma
    · exact forall_mem_singleton.2 (ten_le_clamp _)
    · refine forall_mem_cons.2 ⟨ten_le_clamp _, ?_⟩
      exact ih _ (by rw [length_tail]; omega) (strtolEnd 10 number).2.tail rfl
    · exact fun _ h => absurd h not_mem_nil

theorem total_nonneg (s : CStr) : 0 ≤ total (sections s).1 := by
  have hlimits := ten_le_limit s
  generalize (sections s).1 = secs at hlimits
  induction secs with
  | nil => exact Int.le_refl 0
  | cons sec secs ih =>
    rw [forall_mem_cons] at hlimits
    have ih := ih hlimits.2
    rw [total_cons]
    split <;> omega

theorem parseMaxlist_eq (hcolon : value.head? ≠ some ':') :
    ((sections value).2 = true → parseMaxlist (some value) =
      (0, { wanted (sections value).1 with modes := toCInt (total (sections value).1) })) ∧
    ((sections value).2 = false → (parseMaxlist (some value)).2 =
      { wanted (sections value).1 with modes := 30 }) := by
  have hparse : parseMaxlist (some value) = parseLoop value (toCInt 0) .default := if_neg hcolon
  have hloop := parseLoop_eq value 0 .default
  rw [foldl_apply, Int.zero_add] at hloop
  rw [hparse]
  exact hloop

theorem toCInt_eq_iff {n : Int} (h : 0 ≤ n) : toCInt n = n ↔ n < 2 ^ 31 := by
  unfold toCInt
  omega

theorem WellFormed.head (h : WellFormed value) : value.head? ≠ some ':' := by
  intro hcolon
  obtain ⟨number, rfl⟩ : ∃ number, value = ':' :: number := by
    cases value with
    | nil => cases hcolon
    | cons c number => exact ⟨number, by rw [Option.some.inj hcolon]⟩
  obtain ⟨hend, hsecs⟩ := h
  rw [sections_colon (dropWhile_cons_of_neg (by decide)), takeWhile_cons_of_neg (by decide)] at hend hsecs
  split_ifs at hend hsecs with hnil hcomma
  · exact (hsecs _ (mem_singleton_self _)).1 rfl
  · exact (hsecs _ mem_cons_self).1 rfl

/-- When the limits are what the value says. -/
theorem maxlist_right_iff (value : CStr) : Right value ↔ Harmless value := by
  have hnonneg := total_nonneg value
  unfold Right Harmless
  dsimp only
  by_cases hwell : WellFormed value
  · obtain ⟨hok, -⟩ := parseMaxlist_eq hwell.head
    rw [if_pos hwell, if_pos hwell, hok hwell.1]
    have hsame : ((0 : Int), { wanted (sections value).1 with modes := toCInt (total (sections value).1) }) =
        (0, wanted (sections value).1) ↔ total (sections value).1 < 2 ^ 31 := by
      rw [← toCInt_eq_iff hnonneg, wanted, Prod.mk.injEq, Limits.mk.injEq]
      simp
    rw [hsame]
    rfl
  · rw [if_neg hwell, if_neg hwell]
    by_cases hcolon : value.head? = some ':'
    · have hparse : parseMaxlist (some value) = (0, .default) := if_pos hcolon
      exact iff_of_true (congrArg Prod.snd hparse) (.inl hcolon)
    · obtain ⟨hok, hbad⟩ := parseMaxlist_eq hcolon
      rw [or_iff_right hcolon]
      rcases hend : (sections value).2 with _ | _
      · rw [hbad hend, wanted, Limits.default, Limits.mk.injEq]
        simp
      · rw [hok hend, wanted, Limits.default, Limits.mk.injEq]
        simp

/-- The total of a value that names none of the three, limits that stay behind a fault, and a section
without a number. -/
theorem not_right : ¬ Right "x:100".toList ∧ ¬ Right "b:50,e".toList ∧ ¬ Right "beI:".toList := by
  refine ⟨?_, ?_, ?_⟩
  · decide +kernel
  · decide +kernel
  · decide +kernel

end Eggdrop.MaxList
