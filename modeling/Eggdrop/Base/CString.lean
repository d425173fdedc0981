import Mathlib.Algebra.Ring.Int.Defs
import Mathlib.Algebra.Ring.Nat
import Mathlib.Data.List.TakeWhile
import Mathlib.Tactic.Common

/-!
# CString — C strings and the string functions of misc.c and libop

A C string is the list of its characters, each a `char` read as a character below 256, without
the terminating NUL.  Two foldings of case are in use side by side: that of `strcasecmp`, which
knows the letters only, and that of RFC 1459, for which `{ | } ~` are the small letters of
`[ \ ] ^` as well.

* `strcaseEq_trans` and its like: both comparisons are equivalences.
* `rfcCaseEq_of_strcaseEq`: the second is coarser than the first.
* `istrFold_eq_iff_rfc`: the hash tables fold like RFC 1459, which makes no difference to plain names.
* `newsplit_word`, `strtol_showNat`: what was written is read.
-/

namespace Eggdrop

/-- The text of a `char *`. -/
abbrev CStr := List Char

/-! What holds of the characters of a text is tried out on them, not on all the characters there are. -/

section Decidable

variable (p : Char → Prop) [DecidablePred p]

instance decidableForallText (s : CStr) : Decidable (∀ c ∈ s, p c) := List.decidableBAll p s

instance decidableExistsText (s : CStr) : Decidable (∃ c ∈ s, p c) := List.decidableBEx p s

instance decidableForallChar (o : Option Char) : Decidable (∀ c ∈ o, p c) :=
  Option.decidableForallMem o

instance decidableExistsChar (o : Option Char) : Decidable (∃ c ∈ o, p c) :=
  Option.decidableExistsMem o

end Decidable

/-! ### Case -/

/-- `tolower` in the C locale. -/
def toLower (c : Char) : Char :=
  if 'A' ≤ c ∧ c ≤ 'Z' then Char.ofNat (c.toNat + 32) else c

/-- `rfc_toupper`: `a` to `z` and `{ | } ~` lie 32 above their capitals. -/
def rfcToupper (c : Char) : Char :=
  if 'a' ≤ c ∧ c ≤ '~' then Char.ofNat (c.toNat - 32) else c

/-- `!op_strcasecmp(a, b)`. -/
def strcaseEq (a b : CStr) : Bool := a.map toLower == b.map toLower

/-- `!rfc_casecmp(a, b)`. -/
def rfcCaseEq (a b : CStr) : Bool := a.map rfcToupper == b.map rfcToupper

theorem strcaseEq_iff {a b : CStr} : strcaseEq a b = true ↔ a.map toLower = b.map toLower :=
  beq_iff_eq

theorem rfcCaseEq_iff {a b : CStr} : rfcCaseEq a b = true ↔ a.map rfcToupper = b.map rfcToupper :=
  beq_iff_eq

@[simp] theorem strcaseEq_refl (a : CStr) : strcaseEq a a = true := strcaseEq_iff.2 rfl

theorem strcaseEq_comm (a b : CStr) : strcaseEq a b = strcaseEq b a := by
  rw [Bool.eq_iff_iff, strcaseEq_iff, strcaseEq_iff, eq_comm]

theorem strcaseEq_trans {a b c : CStr} (hab : strcaseEq a b = true) (hbc : strcaseEq b c = true) :
    strcaseEq a c = true :=
  strcaseEq_iff.2 ((strcaseEq_iff.1 hab).trans (strcaseEq_iff.1 hbc))

theorem strcaseEq_congr_left {a b : CStr} (hab : strcaseEq a b = true) (c : CStr) :
    strcaseEq a c = strcaseEq b c := by
  rw [Bool.eq_iff_iff, strcaseEq_iff, strcaseEq_iff, strcaseEq_iff.1 hab]

@[simp] theorem rfcCaseEq_refl (a : CStr) : rfcCaseEq a a = true := rfcCaseEq_iff.2 rfl

theorem rfcCaseEq_comm (a b : CStr) : rfcCaseEq a b = rfcCaseEq b a := by
  rw [Bool.eq_iff_iff, rfcCaseEq_iff, rfcCaseEq_iff, eq_comm]

theorem rfcCaseEq_trans {a b c : CStr} (hab : rfcCaseEq a b = true) (hbc : rfcCaseEq b c = true) :
    rfcCaseEq a c = true :=
  rfcCaseEq_iff.2 ((rfcCaseEq_iff.1 hab).trans (rfcCaseEq_iff.1 hbc))

theorem char_le_iff (a b : Char) : a ≤ b ↔ a.toNat ≤ b.toNat := Iff.rfl

theorem toNat_ofNat_of_lt {n : Nat} (h : n < 0xd800) : (Char.ofNat n).toNat = n := by
  rw [Char.ofNat, dif_pos (Or.inl h)]
  rfl

theorem rfcToupper_toLower (c : Char) : rfcToupper (toLower c) = rfcToupper c := by
  unfold toLower
  split
  · next h =>
    rw [char_le_iff, char_le_iff] at h
    have hA : 'A'.toNat = 65 := rfl
    have hZ : 'Z'.toNat = 90 := rfl
    have ha : 'a'.toNat = 97 := rfl
    have hz : '~'.toNat = 126 := rfl
    have hlow : (Char.ofNat (c.toNat + 32)).toNat = c.toNat + 32 := toNat_ofNat_of_lt (by omega)
    unfold rfcToupper
    simp only [char_le_iff, hlow]
    rw [if_pos (by omega), if_neg (by omega), Nat.add_sub_cancel, Char.ofNat_toNat]
  · rfl

theorem rfcCaseEq_of_strcaseEq {a b : CStr} (h : strcaseEq a b = true) : rfcCaseEq a b = true := by
  have hfold (s : CStr) : (s.map toLower).map rfcToupper = s.map rfcToupper := by
    rw [List.map_map]
    exact List.map_congr_left fun c _ => rfcToupper_toLower c
  rw [rfcCaseEq_iff, ← hfold a, ← hfold b, strcaseEq_iff.1 h]

theorem rfcCaseEq_congr_left {a b : CStr} (h : rfcCaseEq a b = true) (c : CStr) :
    rfcCaseEq a c = rfcCaseEq b c := by
  rw [Bool.eq_iff_iff, rfcCaseEq_iff, rfcCaseEq_iff, rfcCaseEq_iff.1 h]

/-! ### Hashing -/

/-- The folding of the tables of `op_htab_create_istr`: `A` to `Z` and `[ \ ] ^`. -/
def istrChar (c : Char) : Char :=
  if 'A' ≤ c ∧ c ≤ '^' then Char.ofNat (c.toNat + 32) else c

def istrFold (s : CStr) : CStr := s.map istrChar

/-- `op_htab_hash_istr` after the folding: FNV-1a, with 0 taken for empty slots. -/
def istrHash (folded : CStr) : UInt64 :=
  let h := folded.foldl (fun h c => (h ^^^ UInt64.ofNat c.toNat) * 1099511628211)
    14695981039346656037
  if h = 0 then 1 else h

/-- None of the characters that the tables fold and `strcasecmp` does not. -/
def isPlain (s : CStr) : Bool := s.all fun c => !(('[' ≤ c && c ≤ '^') || ('\x7b' ≤ c && c ≤ '~'))

theorem istrChar_toLower (c : Char) : istrChar (toLower c) = istrChar c := by
  unfold toLower
  split
  · next h =>
    rw [char_le_iff, char_le_iff] at h
    have hA : 'A'.toNat = 65 := rfl
    have hZ : 'Z'.toNat = 90 := rfl
    have hc : '^'.toNat = 94 := rfl
    have hlow : (Char.ofNat (c.toNat + 32)).toNat = c.toNat + 32 := toNat_ofNat_of_lt (by omega)
    unfold istrChar
    simp only [char_le_iff, hlow]
    rw [if_neg (by omega), if_pos (by omega)]
  · rfl

theorem istrFold_of_strcaseEq {a b : CStr} (h : strcaseEq a b = true) :
    istrFold a = istrFold b := by
  have hfold (s : CStr) : istrFold (s.map toLower) = istrFold s := by
    rw [istrFold, List.map_map]
    exact List.map_congr_left fun c _ => istrChar_toLower c
  rw [← hfold a, ← hfold b, strcaseEq_iff.1 h]

theorem toLower_of_istrChar {c d : Char} (hc : isPlain [c] = true)
    (h : istrChar c = istrChar d) : toLower c = toLower d := by
  have hA : 'A'.toNat = 65 := rfl
  have hZ : 'Z'.toNat = 90 := rfl
  have hl : '['.toNat = 91 := rfl
  have hr : '^'.toNat = 94 := rfl
  have hb : '\x7b'.toNat = 123 := rfl
  have ht : '~'.toNat = 126 := rfl
  simp only [isPlain, List.all_cons, List.all_nil, Bool.and_true, Bool.not_eq_true',
    Bool.or_eq_false_iff, Bool.and_eq_false_iff, decide_eq_false_iff_not, char_le_iff] at hc
  have hchar (x : Char) (hx : x.toNat ≤ 94) : (Char.ofNat (x.toNat + 32)).toNat = x.toNat + 32 :=
    toNat_ofNat_of_lt (by omega)
  unfold istrChar at h
  unfold toLower
  simp only [char_le_iff] at h ⊢
  by_cases hc' : 'A'.toNat ≤ c.toNat ∧ c.toNat ≤ '^'.toNat
  · rw [if_pos hc'] at h
    rw [if_pos (by omega)]
    by_cases hd : 'A'.toNat ≤ d.toNat ∧ d.toNat ≤ '^'.toNat
    · rw [if_pos hd] at h
      have := congrArg Char.toNat h
      rw [hchar c (by omega), hchar d (by omega)] at this
      rw [if_pos (by omega), h]
    · rw [if_neg hd] at h
      have := congrArg Char.toNat h
      rw [hchar c (by omega)] at this
      rw [if_neg (by omega), h]
  · rw [if_neg hc'] at h
    rw [if_neg (by omega)]
    by_cases hd : 'A'.toNat ≤ d.toNat ∧ d.toNat ≤ '^'.toNat
    · rw [if_pos hd] at h
      have := congrArg Char.toNat h
      rw [hchar d (by omega)] at this
      rw [if_pos (by omega), h]
    · rw [if_neg hd] at h
      rw [if_neg (by omega), h]

theorem strcaseEq_of_istrFold {a b : CStr} (ha : isPlain a = true)
    (h : istrFold a = istrFold b) : strcaseEq a b = true := by
  rw [strcaseEq_iff]
  induction a generalizing b with
  | nil =>
    obtain rfl : b = [] := by simpa [istrFold, eq_comm] using h
    rfl
  | cons c a ih =>
    cases b with
    | nil => simp [istrFold] at h
    | cons d b =>
      simp only [istrFold, List.map_cons, List.cons.injEq] at h
      simp only [isPlain, List.all_cons, Bool.and_eq_true] at ha
      rw [List.map_cons, List.map_cons, ih ha.2 h.2,
        toLower_of_istrChar (by simpa [isPlain] using ha.1) h.1]

theorem isPlain_congr {a b : CStr} (h : strcaseEq a b = true) : isPlain a = isPlain b := by
  have hchar (c : Char) : isPlain [toLower c] = isPlain [c] := by
    unfold toLower
    split
    · next hc =>
      rw [char_le_iff, char_le_iff] at hc
      have hA : 'A'.toNat = 65 := rfl
      have hZ : 'Z'.toNat = 90 := rfl
      have hl : '['.toNat = 91 := rfl
      have hr : '^'.toNat = 94 := rfl
      have hb : '\x7b'.toNat = 123 := rfl
      have hlow : (Char.ofNat (c.toNat + 32)).toNat = c.toNat + 32 := toNat_ofNat_of_lt (by omega)
      rw [Bool.eq_iff_iff]
      simp only [isPlain, List.all_cons, List.all_nil, Bool.and_true, Bool.not_eq_true',
        Bool.or_eq_false_iff, Bool.and_eq_false_iff, decide_eq_false_iff_not, char_le_iff, hlow]
      omega
    · rfl
  have hfold (s : CStr) : isPlain (s.map toLower) = isPlain s := by
    induction s with
    | nil => rfl
    | cons c s ih =>
      have hsplit (d : Char) (t : CStr) : isPlain (d :: t) = (isPlain [d] && isPlain t) := by
        simp [isPlain]
      rw [List.map_cons, hsplit, hsplit c, hchar, ih]
  rw [← hfold a, ← hfold b, strcaseEq_iff.1 h]

theorem rfcToupper_istrChar (c : Char) : rfcToupper (istrChar c) = rfcToupper c := by
  unfold istrChar
  split
  · next h =>
    rw [char_le_iff, char_le_iff] at h
    have hA : 'A'.toNat = 65 := rfl
    have hr : '^'.toNat = 94 := rfl
    have ha : 'a'.toNat = 97 := rfl
    have ht : '~'.toNat = 126 := rfl
    have hlow : (Char.ofNat (c.toNat + 32)).toNat = c.toNat + 32 := toNat_ofNat_of_lt (by omega)
    unfold rfcToupper
    simp only [char_le_iff, hlow]
    rw [if_pos (by omega), if_neg (by omega), Nat.add_sub_cancel, Char.ofNat_toNat]
  · rfl

theorem istrChar_rfcToupper (c : Char) : istrChar (rfcToupper c) = istrChar c := by
  unfold rfcToupper
  split
  · next h =>
    rw [char_le_iff, char_le_iff] at h
    have hA : 'A'.toNat = 65 := rfl
    have hr : '^'.toNat = 94 := rfl
    have ha : 'a'.toNat = 97 := rfl
    have ht : '~'.toNat = 126 := rfl
    have hup : (Char.ofNat (c.toNat - 32)).toNat = c.toNat - 32 := toNat_ofNat_of_lt (by omega)
    unfold istrChar
    simp only [char_le_iff, hup]
    rw [if_pos (by omega), if_neg (by omega), Nat.sub_add_cancel (by omega), Char.ofNat_toNat]
  · rfl

theorem istrFold_eq_iff_rfc {a b : CStr} : istrFold a = istrFold b ↔ rfcCaseEq a b = true := by
  have hrfc (s : CStr) : (istrFold s).map rfcToupper = s.map rfcToupper := by
    rw [istrFold, List.map_map]
    exact List.map_congr_left fun c _ => rfcToupper_istrChar c
  have histr (s : CStr) : istrFold (s.map rfcToupper) = istrFold s := by
    rw [istrFold, istrFold, List.map_map]
    exact List.map_congr_left fun c _ => istrChar_rfcToupper c
  rw [rfcCaseEq_iff]
  exact ⟨fun h => by rw [← hrfc a, ← hrfc b, h], fun h => by rw [← histr a, ← histr b, h]⟩

/-! ### The comparison that is set -/

/-- `!rfc_casecmp(a, b)`, which `rfc-compliant` sets to `_rfc_casecmp` or `op_strcasecmp`. -/
def caseEq (rfc : Bool) (a b : CStr) : Bool := if rfc then rfcCaseEq a b else strcaseEq a b

theorem istrFold_of_caseEq {rfc : Bool} {a b : CStr} (h : caseEq rfc a b = true) :
    istrFold a = istrFold b := by
  unfold caseEq at h
  split at h
  · exact istrFold_eq_iff_rfc.2 h
  · exact istrFold_of_strcaseEq h

/-- Where the first text is plain, or RFC 1459 compares. -/
theorem caseEq_iff {rfc : Bool} {a b : CStr} (h : rfc = true ∨ isPlain a = true) :
    caseEq rfc a b = true ↔ istrFold a = istrFold b := by
  refine ⟨istrFold_of_caseEq, fun hfold => ?_⟩
  unfold caseEq
  rcases h with rfl | hplain
  · exact istrFold_eq_iff_rfc.1 hfold
  · split
    · exact istrFold_eq_iff_rfc.1 hfold
    · exact strcaseEq_of_istrFold hplain hfold

/-! ### Words -/

/-- `HANDLEN`: the longest handle. -/
def handLen : Nat := 32

/-- `isspace` in the C locale. -/
def isSpace (c : Char) : Bool := c == ' ' || ('\t' ≤ c && c ≤ '\r')

/-- `newsplit`: the first word and what `*rest` then points to. -/
def newsplit (s : CStr) : CStr × CStr :=
  let o := s.dropWhile (· == ' ')
  (o.takeWhile (· != ' '), (o.dropWhile (· != ' ')).drop 1)

/-- `op_strlcat`. -/
def strlcat (dest src : CStr) (count : Nat) : CStr :=
  if count ≤ dest.length then dest else dest ++ src.take (count - dest.length - 1)

theorem strlcat_of_lt {dest src : CStr} {count : Nat} (h : dest.length + src.length < count) :
    strlcat dest src count = dest ++ src := by
  rw [strlcat, if_neg (by omega), List.take_of_length_le (by omega)]

/-- `rmspace`. -/
def rmspace (s : CStr) : CStr :=
  ((s.reverse.dropWhile isSpace).reverse).dropWhile isSpace

theorem space_notMem_newsplit (par : CStr) : ' ' ∉ (newsplit par).1 := by
  intro h
  simpa using List.mem_takeWhile_imp h

theorem newsplit_word {a : CStr} (rest : CStr) (hne : a ≠ []) (hword : ' ' ∉ a) :
    newsplit (a ++ ' ' :: rest) = (a, rest) := by
  have hall : ∀ c ∈ a, (c != ' ') = true := by
    intro c hc
    rw [bne_iff_ne]
    rintro rfl
    exact hword hc
  have hdrop : (a ++ ' ' :: rest).dropWhile (· == ' ') = a ++ ' ' :: rest := by
    cases a with
    | nil => exact absurd rfl hne
    | cons c a =>
      have hc := hall c List.mem_cons_self
      rw [List.cons_append, List.dropWhile_cons_of_neg]
      simpa [bne] using hc
  simp only [newsplit, hdrop]
  rw [List.takeWhile_append_of_pos hall, List.dropWhile_append_of_pos hall]
  simp

theorem newsplit_single {w : CStr} (hblank : ' ' ∉ w) : newsplit w = (w, []) := by
  have hall : ∀ c ∈ w, (c != ' ') = true := by
    intro c hc
    rw [bne_iff_ne]
    rintro rfl
    exact hblank hc
  have hdrop : w.dropWhile (· == ' ') = w := by
    cases w with
    | nil => rfl
    | cons c w =>
      have hc := hall c List.mem_cons_self
      rw [List.dropWhile_cons_of_neg]
      simpa [bne] using hc
  rw [newsplit, hdrop, List.takeWhile_eq_self_iff.2 hall, List.dropWhile_eq_nil_iff.2 hall]
  rfl

theorem newsplit_blank (s : CStr) : newsplit (' ' :: s) = newsplit s := rfl

theorem newsplit_nil_of_fst {s : CStr} (h : (newsplit s).1 = []) : (newsplit s).2 = [] := by
  rw [newsplit] at h ⊢
  cases hdrop : s.dropWhile (· == ' ') with
  | nil => rfl
  | cons c t =>
    have hc : (c == ' ') = false := by
      have := List.head?_dropWhile_not (· == ' ') s
      rw [hdrop] at this
      simpa using this
    rw [hdrop, List.takeWhile_cons_of_pos (by simpa using hc)] at h
    cases h

theorem length_newsplit {s : CStr} (h : (newsplit s).1 ≠ []) :
    (newsplit s).2.length < s.length := by
  have hle : (s.dropWhile (· == ' ')).length ≤ s.length := List.length_dropWhile_le _ _
  have hsum := congrArg List.length
    (List.takeWhile_append_dropWhile (p := (· != ' ')) (l := s.dropWhile (· == ' ')))
  have hpos : 0 < ((s.dropWhile (· == ' ')).takeWhile (· != ' ')).length := List.length_pos_iff.2 h
  show (((s.dropWhile (· == ' ')).dropWhile (· != ' ')).drop 1).length < s.length
  rw [List.length_append] at hsum
  rw [List.length_drop]
  omega

/-! ### Numbers -/

def isDigit (c : Char) : Bool := '0' ≤ c && c ≤ '9'

/-- The value of a run of decimal digits. -/
def digitsValue (s : CStr) : Nat := s.foldl (fun n c => 10 * n + (c.toNat - '0'.toNat)) 0

/-- `strtol(s, NULL, 10)`, which stops at the ends of `long`. -/
def strtol (s : CStr) : Int :=
  let s := s.dropWhile isSpace
  let magnitude (t : CStr) : Int := digitsValue (t.takeWhile isDigit)
  match s with
  | '-' :: t => max (-magnitude t) (-2 ^ 63)
  | '+' :: t => min (magnitude t) (2 ^ 63 - 1)
  | t => min (magnitude t) (2 ^ 63 - 1)

/-- A value converted to `int`. -/
def toCInt (n : Int) : Int := (n + 2 ^ 31) % 2 ^ 32 - 2 ^ 31

/-- `egg_atoi`. -/
def eggAtoi (s : CStr) : Int := toCInt (strtol s)

/-- `%u`. -/
def showNat (n : Nat) : CStr := Nat.toDigits 10 n

/-- `%d`. -/
def showInt (n : Int) : CStr := if n < 0 then '-' :: showNat n.natAbs else showNat n.natAbs

theorem showNat_injective : Function.Injective showNat := by
  intro a b h
  rw [← Nat.ofDigitChars_ten_toDigits (n := a), ← Nat.ofDigitChars_ten_toDigits (n := b)]
  exact congrArg (Nat.ofDigitChars 10 · 0) h

theorem minus_notMem_showNat (n : Nat) : '-' ∉ showNat n := fun h =>
  absurd (Nat.isDigit_of_mem_toDigits (by decide) (by decide) h) (by decide)

theorem showInt_injective : Function.Injective showInt := by
  intro a b h
  unfold showInt at h
  have hminus (m n : Nat) : '-' :: showNat m ≠ showNat n := fun heq =>
    minus_notMem_showNat n (heq ▸ List.mem_cons_self)
  split at h
  · split at h
    · have := showNat_injective (List.cons.inj h).2
      omega
    · exact absurd h (hminus _ _)
  · split at h
    · exact absurd h.symm (hminus _ _)
    · have := showNat_injective h
      omega

theorem isDigit_showNat {n : Nat} : ∀ c ∈ showNat n, isDigit c = true := by
  intro c hc
  have hdigit := Nat.isDigit_of_mem_toDigits (by decide) (by decide) hc
  rw [Char.isDigit, Bool.and_eq_true, decide_eq_true_iff, decide_eq_true_iff] at hdigit
  rw [isDigit, Bool.and_eq_true, decide_eq_true_iff, decide_eq_true_iff]
  exact hdigit

theorem isSpace_of_isDigit {c : Char} (h : isDigit c = true) : isSpace c = false := by
  rw [isDigit, Bool.and_eq_true, decide_eq_true_iff, decide_eq_true_iff, char_le_iff, char_le_iff]
    at h
  rw [isSpace, Bool.or_eq_false_iff, Bool.and_eq_false_iff]
  have h0 : '0'.toNat = 48 := rfl
  have hr : '\r'.toNat = 13 := rfl
  refine ⟨beq_eq_false_iff_ne.2 ?_, .inr (decide_eq_false ?_)⟩
  · rintro rfl
    exact absurd h.1 (by decide)
  · rw [char_le_iff]
    omega

theorem digitsValue_showNat (n : Nat) : digitsValue (showNat n) = n := by
  rw [digitsValue, ← Nat.ofDigitChars_eq_foldl]
  exact Nat.ofDigitChars_ten_toDigits

theorem takeWhile_isDigit_showNat (n : Nat) : (showNat n).takeWhile isDigit = showNat n :=
  List.takeWhile_eq_self_iff.2 isDigit_showNat

theorem showNat_eq_cons (n : Nat) : ∃ c t, showNat n = c :: t ∧ isDigit c = true := by
  obtain ⟨c, t, h⟩ := List.exists_cons_of_ne_nil (Nat.toDigits_ne_nil (n := n) (b := 10))
  exact ⟨c, t, h, isDigit_showNat c (by rw [showNat, h]; exact List.mem_cons_self)⟩

/-- What follows does not go on with what `p` holds of. -/
theorem takeWhile_append_stop {p : Char → Bool} {r : CStr} (hr : ∀ c ∈ r.head?, p c = false)
    (t : CStr) : (t ++ r).takeWhile p = t.takeWhile p := by
  induction t with
  | nil =>
    rcases r with _ | ⟨c, r⟩
    · rfl
    · rw [List.nil_append, List.takeWhile_cons_of_neg (by simp [hr c rfl]), List.takeWhile_nil]
  | cons b t ih =>
    by_cases hb : p b = true
    · rw [List.cons_append, List.takeWhile_cons_of_pos hb, List.takeWhile_cons_of_pos hb, ih]
    · rw [List.cons_append, List.takeWhile_cons_of_neg hb, List.takeWhile_cons_of_neg hb]

/-- What `strtol` makes of a text that begins with no blank. -/
theorem strtol_cons {c : Char} (hc : isSpace c = false) (t : CStr) :
    strtol (c :: t) =
      if c = '-' then max (-(digitsValue (t.takeWhile isDigit) : Int)) (-2 ^ 63)
      else min (digitsValue ((if c = '+' then t else c :: t).takeWhile isDigit) : Int) (2 ^ 63 - 1) := by
  rw [strtol, List.dropWhile_cons_of_neg (by simp [hc])]
  dsimp only
  split
  · next heq =>
    obtain ⟨rfl, rfl⟩ := List.cons.inj heq
    rw [if_pos rfl]
  · next heq =>
    obtain ⟨rfl, rfl⟩ := List.cons.inj heq
    rw [if_neg (by decide), if_pos rfl]
  · next hminus hplus =>
    have hc₁ : c ≠ '-' := fun h => hminus t (h ▸ rfl)
    have hc₂ : c ≠ '+' := fun h => hplus t (h ▸ rfl)
    rw [if_neg hc₁, if_neg hc₂]

theorem ne_sign_of_isDigit {c : Char} (hc : isDigit c = true) : c ≠ '-' ∧ c ≠ '+' := by
  constructor
  · rintro rfl
    exact absurd hc (by decide)
  · rintro rfl
    exact absurd hc (by decide)

theorem strtol_showNat (n : Nat) : strtol (showNat n) = min (n : Int) (2 ^ 63 - 1) := by
  obtain ⟨c, t, hcons, hc⟩ := showNat_eq_cons n
  obtain ⟨hminus, hplus⟩ := ne_sign_of_isDigit hc
  have hvalue : (digitsValue ((showNat n).takeWhile isDigit) : Int) = n := by
    rw [takeWhile_isDigit_showNat, digitsValue_showNat]
  rw [hcons] at hvalue ⊢
  rw [strtol_cons (isSpace_of_isDigit hc), if_neg hminus, if_neg hplus, hvalue]

theorem strtol_plus_showNat (n : Nat) : strtol ('+' :: showNat n) = min (n : Int) (2 ^ 63 - 1) := by
  rw [strtol_cons (by decide), if_neg (by decide), if_pos rfl, takeWhile_isDigit_showNat,
    digitsValue_showNat]

theorem eggAtoi_nil : eggAtoi [] = 0 := by decide

theorem toCInt_of_lt {n : Int} (h : -2 ^ 31 ≤ n) (h' : n < 2 ^ 31) : toCInt n = n := by
  rw [toCInt]
  omega

theorem eggAtoi_showInt {n : Int} (h : -2 ^ 31 ≤ n) (h' : n < 2 ^ 31) : eggAtoi (showInt n) = n := by
  have hstrtol : strtol (showInt n) = n := by
    unfold showInt
    split
    · have hmag : ((digitsValue ((showNat n.natAbs).takeWhile isDigit) : Nat) : Int) = -n := by
        rw [takeWhile_isDigit_showNat, digitsValue_showNat]
        omega
      rw [strtol_cons (by decide), if_pos rfl, hmag]
      omega
    · rw [strtol_showNat]
      omega
  rw [eggAtoi, hstrtol]
  exact toCInt_of_lt h h'

theorem showInt_ne_nil (n : Int) : showInt n ≠ [] := by
  obtain ⟨c, t, hshow, -⟩ := showNat_eq_cons n.natAbs
  unfold showInt
  split
  · exact List.cons_ne_nil _ _
  · rw [hshow]
    exact List.cons_ne_nil _ _

theorem mem_showInt {n : Int} {c : Char} (h : c ∈ showInt n) : c = '-' ∨ isDigit c = true := by
  unfold showInt at h
  split at h
  · obtain rfl | h := List.mem_cons.1 h
    · exact .inl rfl
    · exact .inr (isDigit_showNat c h)
  · exact .inr (isDigit_showNat c h)

end Eggdrop
