import Eggdrop.Base.CString

/-!
# IntText — numbers as text (src/botmsg.c, src/botcmd.c)

Numbers go through the botnet in base 64, and to users in base 10.  Both are written from the end of
a buffer on.

* `base64ToIntLoop_digitLoop`: what was written in base 64 is read, as far as the guard lets it.
* `digitLoop_ten`: what is written in base 10.
* `texts_iff`: which numbers come through.
-/

open List

namespace Eggdrop.IntText

/-! ### The source -/

/-- `INT_MAX`. -/
def intMax : ℤ := 2 ^ 31 - 1

/-- An `int`. -/
structure CInt where
  val : ℤ
  low : -2 ^ 31 ≤ val
  high : val ≤ intMax

/-- `tobase64array`. -/
def tobase64array : CStr := "ABCDEFGHIJKLMNOPQRSTUVWXYZabcdefghijklmnopqrstuvwxyz0123456789[]".toList

/-- `base64to`, where what is no digit is 0. -/
def base64to (c : Char) : ℕ := (tobase64array.idxOf? c).getD 0

/-- `while (val)`: the digits are written before `buf`, where `i` characters have room; `none` is a
character written before the buffer. -/
def digitLoop (base : ℕ) (digit : ℕ → Char) : ℕ → ℕ → CStr → Option CStr
  | _, 0, buf => some buf
  | 0, _ + 1, _ => none
  | i + 1, val + 1, buf =>
    digitLoop base digit i ((val + 1) / base) (digit ((val + 1) % base) :: buf)

/-- `int_to_base64`. -/
def intToBase64 (val : ℕ) : Option CStr :=
  if val = 0 then some ['A'] else digitLoop 64 (tobase64array.getD · 'A') 11 val []

/-- The digit `'0' + d`. -/
def decimal (d : ℕ) : Char := Char.ofNat ('0'.toNat + d)

/-- `int_to_base10`; `none` is a `val *= -1` that overflows. -/
def intToBase10 (val : CInt) : Option CStr :=
  if val.val = 0 then some ['0']
  else if val.val < 0 then
    if intMax < -val.val then none
    else (digitLoop 10 decimal 16 (-val.val).toNat []).map ('-' :: ·)
  else digitLoop 10 decimal 16 val.val.toNat []

/-- The loop of `base64_to_int`; `none` is an overflow. -/
def base64ToIntLoop : CStr → ℤ → Option ℤ
  | [], i => some i
  | c :: buf, i =>
    let j : ℤ := base64to c
    if intMax / 64 - j < i then some (-1)
    else if intMax < i * 64 + j then none
    else base64ToIntLoop buf (i * 64 + j)

/-- `base64_to_int`. -/
def base64ToInt (buf : CStr) : Option ℤ := base64ToIntLoop buf 0

/-! ### Base 64 -/

theorem base64to_tobase64array : ∀ d < 64, base64to (tobase64array.getD d 'A') = d := by
  decide +kernel

theorem base64ToIntLoop_ne_none (buf : CStr) (i : ℤ) : base64ToIntLoop buf i ≠ none := by
  induction buf generalizing i with
  | nil => exact Option.some_ne_none i
  | cons c buf ih =>
    rw [base64ToIntLoop]
    split
    · exact Option.some_ne_none _
    · next hguard =>
      rw [if_neg]
      · exact ih _
      · simp only [intMax] at hguard ⊢
        omega

theorem exists_digitLoop {base : ℕ} (hbase : 0 < base) (digit : ℕ → Char) {i val : ℕ}
    (h : val < base ^ i) (buf : CStr) : ∃ s, digitLoop base digit i val buf = some s := by
  induction i generalizing val buf with
  | zero =>
    obtain rfl : val = 0 := by simpa using h
    exact ⟨buf, rfl⟩
  | succ i ih =>
    cases val with
    | zero => exact ⟨buf, rfl⟩
    | succ val =>
      apply ih
      rw [Nat.div_lt_iff_lt_mul hbase, ← Nat.pow_succ]
      exact h

theorem base64ToIntLoop_digit {val : ℕ} (h : (val / 64 + val % 64 : ℕ) ≤ intMax / 64) (buf : CStr) :
    base64ToIntLoop (tobase64array.getD (val % 64) 'A' :: buf) (val / 64 : ℕ) =
      base64ToIntLoop buf val := by
  rw [base64ToIntLoop, base64to_tobase64array _ (Nat.mod_lt val (by decide))]
  have hmax : intMax = 2 ^ 31 - 1 := rfl
  rw [if_neg (by omega), if_neg (by omega)]
  congr 1
  omega

theorem base64ToIntLoop_digitLoop {i val : ℕ} (h : (val : ℤ) ≤ intMax / 64) {buf s : CStr}
    (hs : digitLoop 64 (tobase64array.getD · 'A') i val buf = some s) :
    base64ToInt s = base64ToIntLoop buf val := by
  induction i generalizing val buf with
  | zero =>
    cases val with
    | zero =>
      obtain rfl := Option.some.inj hs
      rfl
    | succ val => cases hs
  | succ i ih =>
    cases val with
    | zero =>
      obtain rfl := Option.some.inj hs
      rfl
    | succ val =>
      have hdigit : ((val + 1) / 64 + (val + 1) % 64 : ℕ) ≤ intMax / 64 := by
        simp only [intMax] at h ⊢
        omega
      rw [ih (by simp only [intMax] at h ⊢; omega) hs]
      exact base64ToIntLoop_digit hdigit buf

/-- Which numbers are read as they were written. -/
theorem base64_iff {val : ℕ} (h : (val : ℤ) ≤ intMax) :
    (intToBase64 val).bind base64ToInt = some (val : ℤ) ↔
      ((val / 64 + val % 64 : ℕ) : ℤ) ≤ intMax / 64 := by
  cases val with
  | zero => exact iff_of_true (by decide +kernel) (by decide)
  | succ val =>
    have hroom : (val + 1) / 64 < 64 ^ 10 := by
      simp only [intMax] at h
      omega
    obtain ⟨s, hs⟩ := exists_digitLoop (by decide) (tobase64array.getD · 'A') hroom
      [tobase64array.getD ((val + 1) % 64) 'A']
    have hread := base64ToIntLoop_digitLoop (by simp only [intMax] at h ⊢; omega) hs
    have hwrite : intToBase64 (val + 1) = some s := by
      rw [intToBase64, if_neg (Nat.succ_ne_zero val)]
      exact hs
    rw [hwrite, Option.bind_some, hread]
    by_cases hguard : (((val + 1) / 64 + (val + 1) % 64 : ℕ) : ℤ) ≤ intMax / 64
    · rw [base64ToIntLoop_digit hguard]
      exact iff_of_true rfl hguard
    · refine iff_of_false ?_ hguard
      rw [base64ToIntLoop, base64to_tobase64array _ (Nat.mod_lt _ (by decide)),
        if_pos (by simp only [intMax] at hguard ⊢; omega)]
      intro heq
      have := Option.some.inj heq
      omega

/-! ### Base 10 -/

theorem decimal_eq : ∀ d < 10, decimal d = Nat.digitChar d := by
  decide

theorem digitLoop_ten {i val : ℕ} (hval : 0 < val) (h : val < 10 ^ i) (buf : CStr) :
    digitLoop 10 decimal i val buf = some (showNat val ++ buf) := by
  induction i generalizing val buf with
  | zero => omega
  | succ i ih =>
    obtain ⟨n, rfl⟩ : ∃ n, val = n + 1 := ⟨val - 1, by omega⟩
    rw [digitLoop, showNat]
    have hdigit := decimal_eq ((n + 1) % 10) (Nat.mod_lt _ (by decide))
    by_cases hsmall : n + 1 < 10
    · rw [Nat.toDigits_of_lt_base hsmall, Nat.div_eq_of_lt hsmall, hdigit, Nat.mod_eq_of_lt hsmall]
      cases i <;> rfl
    · rw [Nat.toDigits_of_base_le (by decide) (by omega), ih (by omega) (by omega), hdigit, showNat,
        append_assoc]
      rfl

/-- Which numbers are rendered. -/
theorem intToBase10_iff (val : CInt) : intToBase10 val = some (showInt val.val) ↔ val.val ≠ -2 ^ 31 := by
  obtain ⟨val, hlow, hhigh⟩ := val
  rw [intToBase10, showInt]
  dsimp only at hlow hhigh ⊢
  have hmax : intMax = 2 ^ 31 - 1 := rfl
  split
  · next hzero =>
    subst hzero
    exact iff_of_true rfl (by decide)
  · next hne =>
    split
    · next hneg =>
      by_cases hbound : intMax < -val
      · rw [if_pos hbound]
        refine iff_of_false ?_ (by omega)
        intro h
        cases h
      · rw [if_neg hbound, digitLoop_ten (by omega) (by omega), append_nil, Option.map_some,
          show val.natAbs = (-val).toNat by omega]
        exact iff_of_true rfl (by omega)
    · next hpos =>
      rw [digitLoop_ten (by omega) (by omega), append_nil, show val.natAbs = val.toNat by omega]
      exact iff_of_true rfl (by omega)

/-! ### All three -/

/-- A number comes through the botnet, and a number is rendered; no text overflows. -/
def Texts (val : ℕ) (n : CInt) (s : CStr) : Prop :=
  (intToBase64 val).bind base64ToInt = some (val : ℤ) ∧ base64ToInt s ≠ none ∧
    intToBase10 n = some (showInt n.val)

/-- The guard refuses what comes near the end of `int` with a large last digit. -/
theorem texts_iff {val : ℕ} (h : (val : ℤ) ≤ intMax) (n : CInt) (s : CStr) :
    Texts val n s ↔ ((val / 64 + val % 64 : ℕ) : ℤ) ≤ intMax / 64 ∧ n.val ≠ -2 ^ 31 := by
  rw [Texts, base64_iff h, intToBase10_iff]
  constructor
  · rintro ⟨hval, -, hn⟩
    exact ⟨hval, hn⟩
  · rintro ⟨hval, hn⟩
    exact ⟨hval, base64ToIntLoop_ne_none s 0, hn⟩

/-- Two digits, a sign, and a text that overflows. -/
theorem texts_iff_digits :
    ((4095 : ℕ) : ℤ) ≤ intMax ∧ Texts 4095 ⟨-7, by decide, by decide⟩ "]]]]]]]".toList :=
  ⟨by decide, (texts_iff (by decide) _ _).2 ⟨by decide, by decide⟩⟩

/-- `INT_MAX` does not come back. -/
theorem not_texts : ¬ ∀ val : ℕ, (val : ℤ) ≤ intMax → ∀ n s, Texts val n s := by
  intro h
  have hall := h 2147483647 (by decide) ⟨0, by decide, by decide⟩ []
  have hguard := (base64_iff (by decide)).1 hall.1
  exact absurd hguard (by decide)

end Eggdrop.IntText
