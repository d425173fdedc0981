import Eggdrop.Base.Base64
import Mathlib.Tactic.Common

/-!
# Base64Inverse — `b64_pton` reads what `b64_ntop` writes (compat/base64.c)

* `b64Pton_b64Ntop`: the bytes come back, if they fit.
-/

namespace Eggdrop

open List

/-! ### Digits -/

theorem base64Char_digit (n : Fin 64) :
    isSpace (base64Char n) = false ∧ base64Char n ≠ '=' ∧
      base64.idxOf? (base64Char n) = some n.val := by
  revert n
  decide +kernel

section Digit

variable {n : ℕ} (hn : n < 64)
include hn

theorem isSpace_base64Char : isSpace (base64Char n) = false := (base64Char_digit ⟨n, hn⟩).1

theorem base64Char_ne_pad : base64Char n ≠ '=' := (base64Char_digit ⟨n, hn⟩).2.1

theorem idxOf?_base64Char : base64.idxOf? (base64Char n) = some n := (base64Char_digit ⟨n, hn⟩).2.2

theorem Decoder.loop_base64Char (targsize : ℕ) (d : Decoder) (src : CStr) :
    loop targsize d (base64Char n :: src) =
      (d.put targsize n).bind fun d => loop targsize d src := by
  rw [loop, isSpace_base64Char hn, if_neg (by simp), if_neg (base64Char_ne_pad hn),
    idxOf?_base64Char hn]
  dsimp only
  cases d.put targsize n <;> rfl

end Digit

/-! ### Groups -/

namespace Decoder

variable {targsize : ℕ} {done : List ℕ} {a b c : ℕ}

theorem put_zero (h : done.length < targsize) (x : ℕ) :
    put ⟨done, none, 0⟩ targsize x = some ⟨done, some (x * 4), 1⟩ :=
  if_neg (Nat.not_le.2 h)

theorem put_one (h : done.length + 1 < targsize) (x y : ℕ) :
    put ⟨done, some y, 1⟩ targsize x = some ⟨done ++ [y + x / 16], some (x % 16 * 16), 2⟩ :=
  (if_neg (show ¬ targsize ≤ done.length by omega)).trans (if_pos h)

theorem put_two (h : done.length + 1 < targsize) (x y : ℕ) :
    put ⟨done, some y, 2⟩ targsize x = some ⟨done ++ [y + x / 4], some (x % 4 * 64), 3⟩ :=
  (if_neg (show ¬ targsize ≤ done.length by omega)).trans (if_pos h)

theorem put_three (h : done.length < targsize) (x y : ℕ) :
    put ⟨done, some y, 3⟩ targsize x = some ⟨done ++ [y + x], none, 0⟩ :=
  if_neg (Nat.not_le.2 h)

theorem put_one_last (h : done.length < targsize) {x : ℕ} (hx : x % 16 = 0) (y : ℕ) :
    ∃ next, put ⟨done, some y, 1⟩ targsize x = some ⟨done ++ [y + x / 16], next, 2⟩ ∧
      next.getD 0 = 0 := by
  by_cases hroom : done.length + 1 < targsize
  · exact ⟨_, put_one hroom x y, by simp [hx]⟩
  · refine ⟨none, ?_, rfl⟩
    refine (if_neg (Nat.not_le.2 h)).trans ((if_neg hroom).trans (if_neg ?_))
    simp [hx]

theorem put_two_last (h : done.length < targsize) {x : ℕ} (hx : x % 4 = 0) (y : ℕ) :
    ∃ next, put ⟨done, some y, 2⟩ targsize x = some ⟨done ++ [y + x / 4], next, 3⟩ ∧
      next.getD 0 = 0 := by
  by_cases hroom : done.length + 1 < targsize
  · exact ⟨_, put_two hroom x y, by simp [hx]⟩
  · refine ⟨none, ?_, rfl⟩
    refine (if_neg (Nat.not_le.2 h)).trans ((if_neg hroom).trans (if_neg ?_))
    simp [hx]

theorem loop_group (ha : a < 256) (hb : b < 256) (hc : c < 256) (hfit : done.length + 3 ≤ targsize)
    (src : CStr) :
    loop targsize ⟨done, none, 0⟩ (base64Char (a / 4) :: base64Char (a % 4 * 16 + b / 16) ::
      base64Char (b % 16 * 4 + c / 64) :: base64Char (c % 64) :: src) =
      loop targsize ⟨done ++ [a, b, c], none, 0⟩ src := by
  rw [loop_base64Char (by omega), put_zero (by omega), Option.bind_some,
    loop_base64Char (by omega), put_one (by omega), Option.bind_some,
    loop_base64Char (by omega), put_two (by simp; omega), Option.bind_some,
    loop_base64Char (by omega), put_three (by simp; omega), Option.bind_some]
  have h₁ : a / 4 * 4 + (a % 4 * 16 + b / 16) / 16 = a := by omega
  have h₂ : (a % 4 * 16 + b / 16) % 16 * 16 + (b % 16 * 4 + c / 64) / 4 = b := by omega
  have h₃ : (b % 16 * 4 + c / 64) % 4 * 64 + c % 64 = c := by omega
  rw [h₁, h₂, h₃]
  simp

theorem loop_pad {next : Option ℕ} (hnext : next.getD 0 = 0) :
    loop targsize ⟨done, next, 2⟩ ['=', '='] = some ⟨done, next, 2⟩ ∧
      loop targsize ⟨done, next, 3⟩ ['='] = some ⟨done, next, 3⟩ := by
  constructor
  · rw [loop, if_neg (by decide), if_pos rfl, if_pos]
    simp [paddingOk, hnext, isSpace]
  · rw [loop, if_neg (by decide), if_pos rfl, if_pos]
    simp [paddingOk, hnext]

theorem loop_groups : ∀ (bytes done : List ℕ), (∀ a ∈ bytes, a < 256) →
    done.length + bytes.length ≤ targsize →
    ∃ d, loop targsize ⟨done, none, 0⟩ (b64Groups bytes) = some d ∧ d.done = done ++ bytes
  | [], done, _, _ => ⟨⟨done, none, 0⟩, by simp [b64Groups, loop, paddingOk], by simp⟩
  | [a], done, h, hfit => by
    have ha : a < 256 := h a (by simp)
    have hroom : done.length < targsize := by
      simp only [length_cons, length_nil] at hfit
      omega
    obtain ⟨next, hput, hnext⟩ :=
      put_one_last hroom (x := a % 4 * 16) (by omega) (a / 4 * 4)
    have hbyte : a / 4 * 4 + a % 4 * 16 / 16 = a := by omega
    rw [hbyte] at hput
    refine ⟨⟨done ++ [a], next, 2⟩, ?_, rfl⟩
    rw [b64Groups, loop_base64Char (by omega), put_zero hroom, Option.bind_some,
      loop_base64Char (by omega), hput, Option.bind_some, (loop_pad hnext).1]
  | [a, b], done, h, hfit => by
    have ha : a < 256 := h a (by simp)
    have hb : b < 256 := h b (by simp)
    have hroom : done.length + 1 < targsize := by
      simp only [length_cons, length_nil] at hfit
      omega
    have hroom' : (done ++ [a]).length < targsize := by simpa using hroom
    obtain ⟨next, hput, hnext⟩ :=
      put_two_last hroom' (x := b % 16 * 4) (by omega) ((a % 4 * 16 + b / 16) % 16 * 16)
    have h₁ : a / 4 * 4 + (a % 4 * 16 + b / 16) / 16 = a := by omega
    have h₂ : (a % 4 * 16 + b / 16) % 16 * 16 + b % 16 * 4 / 4 = b := by omega
    rw [h₂] at hput
    refine ⟨⟨done ++ [a] ++ [b], next, 3⟩, ?_, by simp⟩
    rw [b64Groups, loop_base64Char (by omega), put_zero (by omega), Option.bind_some,
      loop_base64Char (by omega), put_one hroom, Option.bind_some, h₁,
      loop_base64Char (by omega), hput, Option.bind_some, (loop_pad hnext).2]
  | a :: b :: c :: bytes, done, h, hfit => by
    simp only [length_cons] at hfit
    obtain ⟨d, hd, hdone⟩ := loop_groups bytes (done ++ [a, b, c])
      (fun x hx => h x (by simp [hx])) (by simp; omega)
    rw [b64Groups, loop_group (h a (by simp)) (h b (by simp)) (h c (by simp)) (by omega)]
    exact ⟨d, hd, by simpa using hdone⟩

end Decoder

/-! ### Bytes -/

/-- Every character is a byte. -/
def IsBytes (s : CStr) : Prop := ∀ c ∈ s, c.toNat < 256

instance (s : CStr) : Decidable (IsBytes s) := inferInstanceAs (Decidable (∀ c ∈ s, c.toNat < 256))

/-- What `b64_ntop` writes, `b64_pton` reads back, where there is room for it. -/
theorem b64Pton_b64Groups {s : CStr} (hs : IsBytes s) {targsize : ℕ} (hfit : s.length ≤ targsize) :
    ∃ behind, b64Pton (b64Groups (s.map Char.toNat)) targsize = some (s, behind) := by
  have hroom : ([] : List ℕ).length + (s.map Char.toNat).length ≤ targsize := by simpa using hfit
  obtain ⟨d, hd, hdone⟩ := Decoder.loop_groups _ [] (by simpa [IsBytes] using hs) hroom
  refine ⟨d.next.toList.map Char.ofNat, ?_⟩
  unfold b64Pton
  rw [hd, Option.map_some, hdone]
  simp [Function.comp_def]

/-- A text that `b64_ntop` has written is read back, whatever the bytes. -/
theorem b64Pton_b64Ntop {s t : CStr} (hs : IsBytes s) {n targsize : ℕ} (h : b64Ntop s n = some t)
    (hfit : s.length ≤ targsize) : ∃ behind, b64Pton t targsize = some (s, behind) := by
  unfold b64Ntop at h
  dsimp only at h
  split_ifs at h
  obtain rfl := Option.some.inj h
  exact b64Pton_b64Groups hs hfit

theorem b64Pton_b64Ntop_hello :
    ∃ behind, b64Pton "aGVsbG8=".toList 5 = some ("hello".toList, behind) :=
  b64Pton_b64Ntop (n := 9) (by decide) (by decide) (by decide)

end Eggdrop
