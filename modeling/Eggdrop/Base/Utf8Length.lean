import Eggdrop.Base.Utf8

/-!
# Utf8Length — `utf8_valid` and `utf8_strlen` of misc.c

`utf8_strlen` goes by what the first byte of a sequence says and does not look at the others, so it
goes past the end of a text whose last sequence is cut.

* `utf8Strlen_concat`, `utf8Valid_concat`: a last byte that is exchanged, and an ASCII character behind a
  text.
-/

namespace Eggdrop

open List

/-! ### The two functions -/

/-- The loop of `utf8_valid`; `k` more bytes belong to the sequence before. -/
@[grind =] def validFrom : ℕ → CStr → Bool
  | _, [] => true
  | k + 1, _ :: s => validFrom k s
  | 0, c :: s => utf8Whole (c :: s) != 0 && validFrom (utf8Whole (c :: s) - 1) s

/-- `utf8_valid`. -/
def utf8Valid (s : CStr) : Bool := validFrom 0 s

/-- The loop of `utf8_strlen`. -/
@[grind =] def strlenFrom : ℕ → CStr → ℕ
  | _, [] => 0
  | k + 1, _ :: s => strlenFrom k s
  | 0, c :: s => strlenFrom (utf8CharLen c - 1) s + 1

/-- `utf8_strlen`, of a text whose last sequence is not cut. -/
def utf8Strlen (s : CStr) : ℕ := strlenFrom 0 s

/-- The last sequence is shorter than its first byte says. -/
def cutFrom : ℕ → CStr → Bool
  | k, [] => k != 0
  | k + 1, _ :: s => cutFrom k s
  | 0, c :: s => cutFrom (utf8CharLen c - 1) s

def utf8Cut (s : CStr) : Bool := cutFrom 0 s

/-! ### Texts one behind the other -/

theorem strlenFrom_concat (k : ℕ) (a : CStr) (c d : Char) :
    strlenFrom k (a ++ [c]) = strlenFrom k (a ++ [d]) := by
  induction a generalizing k with
  | nil =>
    rcases k with _ | k
    · rfl
    · rfl
  | cons p a ih =>
    rcases k with _ | k
    · rw [cons_append, cons_append, strlenFrom, strlenFrom, ih]
    · rw [cons_append, cons_append, strlenFrom, strlenFrom, ih]

theorem utf8Strlen_concat (a : CStr) (c d : Char) : utf8Strlen (a ++ [c]) = utf8Strlen (a ++ [d]) :=
  strlenFrom_concat 0 a c d

theorem utf8Whole_append_of_ne {p : Char} {a : CStr} (h : utf8Whole (p :: a) ≠ 0) (b : CStr) :
    utf8Whole (p :: (a ++ b)) = utf8Whole (p :: a) := by
  rw [utf8Whole] at h
  rw [utf8Whole, utf8Whole]
  generalize utf8CharLen p = len at h ⊢
  rcases len with _ | _ | _ | _ | _ | len
  · exact absurd rfl h
  · rfl
  · rcases a with _ | ⟨_, a⟩
    · exact absurd rfl h
    · rfl
  · rcases a with _ | ⟨_, _ | ⟨_, a⟩⟩
    · exact absurd rfl h
    · exact absurd rfl h
    · rfl
  · rcases a with _ | ⟨_, _ | ⟨_, _ | ⟨_, a⟩⟩⟩
    · exact absurd rfl h
    · exact absurd rfl h
    · exact absurd rfl h
    · rfl
  · exact absurd rfl h

theorem validFrom_append_ascii {c : Char} (hc : isAscii c = true) {k : ℕ} {a : CStr}
    (hk : k ≤ a.length) (b : CStr) :
    validFrom k (a ++ c :: b) = (validFrom k a && validFrom 0 b) := by
  induction a generalizing k with
  | nil =>
    obtain rfl : k = 0 := by simpa using hk
    show (utf8Whole (c :: b) != 0 && validFrom (utf8Whole (c :: b) - 1) b) = _
    rw [utf8Whole_of_ascii hc]
    rfl
  | cons p a ih =>
    rw [length_cons] at hk
    rcases k with _ | k
    · have hle := utf8Whole_le p a
      rw [cons_append, validFrom, utf8Whole_append hc, ih (by omega), validFrom, Bool.and_assoc]
    · rw [cons_append, validFrom, ih (by omega), validFrom]

theorem utf8Valid_concat {c : Char} (hc : isAscii c = true) (a : CStr) :
    utf8Valid (a ++ [c]) = utf8Valid a := by
  rw [utf8Valid, validFrom_append_ascii hc (Nat.zero_le _), validFrom, Bool.and_true, utf8Valid]

end Eggdrop
