import Mathlib.Data.List.Basic
import Eggdrop.Base.CString

/-!
# Utf8 — `utf8_sanitize` of misc.c

Bytes that start no whole and shortest UTF-8 sequence are replaced by question marks, one by one.

* `utf8Sanitize_append`: the text before and behind an ASCII character is replaced on its own.
-/

namespace Eggdrop

open List

/-- `utf8_char_len`. -/
def utf8CharLen (c : Char) : ℕ :=
  let p := c.toNat
  if p < 0x80 then 1
  else if p < 0xC2 then 0
  else if p < 0xE0 then 2
  else if p < 0xF0 then 3
  else if p ≤ 0xF4 then 4
  else 0

/-- A byte that is not the first one of its sequence. -/
def isContinuation (c : Char) : Bool := c.toNat &&& 0xC0 == 0x80

/-- What is checked of a sequence of that length, with `p` in front: its length, or 0. -/
@[grind =] def utf8Checked (p : Char) : ℕ → CStr → ℕ
  | 1, _ => 1
  | 2, q :: _ => if isContinuation q && p.toNat &&& 0x1E != 0 then 2 else 0
  | 3, q :: r :: _ =>
    let cp := (p.toNat &&& 0x0F) <<< 12 ||| (q.toNat &&& 0x3F) <<< 6 ||| (r.toNat &&& 0x3F)
    if isContinuation q && isContinuation r && !(cp < 0x800 || (0xD800 ≤ cp && cp ≤ 0xDFFF)) then 3
    else 0
  | 4, q :: r :: t :: _ =>
    let cp := (p.toNat &&& 0x07) <<< 18 ||| (q.toNat &&& 0x3F) <<< 12 |||
      (r.toNat &&& 0x3F) <<< 6 ||| (t.toNat &&& 0x3F)
    if isContinuation q && isContinuation r && isContinuation t &&
        !(cp < 0x10000 || 0x10FFFF < cp) then 4
    else 0
  | _, _ => 0

/-- The length of the sequence that the text starts with, or 0 where it is none. -/
@[grind =] def utf8Whole : CStr → ℕ
  | [] => 0
  | p :: s => utf8Checked p (utf8CharLen p) s

/-- The loop of `utf8_sanitize`; `k` more bytes belong to the sequence before. -/
@[grind =] def sanitizeFrom : ℕ → CStr → CStr
  | _, [] => []
  | k + 1, c :: s => c :: sanitizeFrom k s
  | 0, c :: s =>
    (if utf8Whole (c :: s) = 0 then '?' else c) :: sanitizeFrom (utf8Whole (c :: s) - 1) s

/-- `utf8_sanitize`. -/
def utf8Sanitize (s : CStr) : CStr := sanitizeFrom 0 s

def isAscii (c : Char) : Bool := c.toNat < 0x80

theorem not_continuation_of_ascii {c : Char} (h : isAscii c = true) : isContinuation c = false := by
  have hlt : c.toNat < 128 := of_decide_eq_true h
  have hle : c.toNat &&& 0xC0 ≤ c.toNat := Nat.and_le_left
  rw [isContinuation, beq_eq_false_iff_ne]
  omega

theorem utf8CharLen_of_ascii {c : Char} (h : isAscii c = true) : utf8CharLen c = 1 := by
  have hlt : c.toNat < 128 := of_decide_eq_true h
  rw [utf8CharLen]
  exact if_pos hlt

theorem utf8Whole_of_ascii {c : Char} (h : isAscii c = true) (s : CStr) :
    utf8Whole (c :: s) = 1 := by
  rw [utf8Whole, utf8CharLen_of_ascii h]
  rfl

theorem utf8Whole_append {c : Char} (h : isAscii c = true) (p : Char) (a b : CStr) :
    utf8Whole (p :: (a ++ c :: b)) = utf8Whole (p :: a) := by
  have hc := not_continuation_of_ascii h
  rw [utf8Whole, utf8Whole]
  generalize utf8CharLen p = len
  match a with
  | [] => match len, b with
    | 0, _ => rfl
    | 1, _ => rfl
    | 2, _ => simp [utf8Checked, hc]
    | 3, [] => rfl
    | 3, _ :: _ => simp [utf8Checked, hc]
    | 4, [] => rfl
    | 4, [_] => rfl
    | 4, _ :: _ :: _ => simp [utf8Checked, hc]
    | _ + 5, _ => rfl
  | [q] => match len, b with
    | 0, _ => rfl
    | 1, _ => rfl
    | 2, _ => rfl
    | 3, _ => simp [utf8Checked, hc]
    | 4, [] => rfl
    | 4, _ :: _ => simp [utf8Checked, hc]
    | _ + 5, _ => rfl
  | [q, r] => match len with
    | 0 => rfl
    | 1 => rfl
    | 2 => rfl
    | 3 => rfl
    | 4 => simp [utf8Checked, hc]
    | _ + 5 => rfl
  | q :: r :: t :: a => match len with
    | 0 => rfl
    | 1 => rfl
    | 2 => rfl
    | 3 => rfl
    | 4 => rfl
    | _ + 5 => rfl

theorem utf8Whole_le (p : Char) (a : CStr) : utf8Whole (p :: a) ≤ a.length + 1 := by
  rw [utf8Whole]
  generalize utf8CharLen p = len
  unfold utf8Checked
  split
  · omega
  · split <;> simp
  · dsimp only
    split <;> simp
  · dsimp only
    split <;> simp
  · omega

theorem sanitizeFrom_append {c : Char} (h : isAscii c = true) (b : CStr) :
    ∀ (a : CStr) (k : ℕ), k ≤ a.length →
      sanitizeFrom k (a ++ c :: b) = sanitizeFrom k a ++ c :: sanitizeFrom 0 b := by
  intro a
  induction a with
  | nil =>
    intro k hk
    obtain rfl : k = 0 := by simpa using hk
    rw [nil_append, sanitizeFrom, sanitizeFrom, utf8Whole_of_ascii h]
    rfl
  | cons p a ih =>
    intro k hk
    cases k with
    | succ k =>
      rw [cons_append, sanitizeFrom, sanitizeFrom, ih k (by simpa using hk), cons_append]
    | zero =>
      have hle := utf8Whole_le p a
      rw [cons_append, sanitizeFrom, sanitizeFrom, utf8Whole_append h, ih _ (by omega), cons_append]

theorem utf8Sanitize_append {c : Char} (h : isAscii c = true) (a b : CStr) :
    utf8Sanitize (a ++ c :: b) = utf8Sanitize a ++ c :: utf8Sanitize b :=
  sanitizeFrom_append h b a 0 (Nat.zero_le _)

theorem utf8Sanitize_cons {c : Char} (h : isAscii c = true) (b : CStr) :
    utf8Sanitize (c :: b) = c :: utf8Sanitize b := utf8Sanitize_append h [] b

theorem length_sanitizeFrom : ∀ (s : CStr) (k : ℕ), (sanitizeFrom k s).length = s.length := by
  intro s
  induction s with
  | nil => exact fun _ => rfl
  | cons p s ih =>
    intro k
    cases k with
    | succ k => rw [sanitizeFrom, length_cons, ih, length_cons]
    | zero => rw [sanitizeFrom, length_cons, ih, length_cons]

theorem length_utf8Sanitize (s : CStr) : (utf8Sanitize s).length = s.length := length_sanitizeFrom s 0

end Eggdrop
