import Eggdrop.Base.Utf8Length

/-!
# Utf8Count — the three decoders of misc.c side by side

`utf8_valid` and `utf8_sanitize` look at every byte of a sequence, `utf8_strlen` at the first one
only.

* `utf8Valid_sanitize`, `sanitizeFrom_of_valid`: what is replaced makes a text valid, and in a
  valid text nothing is.
* `strlenLoop_eq`: `utf8_strlen` in memory, which reads past the NUL where the last sequence is cut.
* `utf8_meets_iff`: when it counts at the beginnings of the code points.
-/

namespace Eggdrop

open List

/-! ### The source, and what it counts -/

/-- The loop of `utf8_strlen` on memory, for so many rounds; `none` where it reads behind the end. -/
def strlenLoop (mem : CStr) : ℕ → ℕ → Option ℕ
  | 0, _ => none
  | k + 1, p =>
    match mem[p]? with
    | none => none
    | some c =>
      if c = '\x00' then some 0
      -- Invalid byte: treat as single replacement character and advance 1
      else if utf8CharLen c = 0 then (strlenLoop mem k (p + 1)).map (· + 1)
      else (strlenLoop mem k (p + utf8CharLen c)).map (· + 1)

/-- `utf8_strlen` on memory that holds the string and its NUL. -/
def strlenMem (s : CStr) : Option ℕ := strlenLoop (s ++ ['\x00']) (s.length + 1) 0

/-- For each byte whether the walk of `utf8_strlen` stops there. -/
def strlenStops : ℕ → CStr → List Bool
  | _, [] => []
  | k + 1, _ :: s => false :: strlenStops k s
  | 0, c :: s => true :: strlenStops (utf8CharLen c - 1) s

/-- For each byte whether a code point begins there: a valid sequence, or a byte that starts none. -/
def codeStarts : ℕ → CStr → List Bool
  | _, [] => []
  | k + 1, _ :: s => false :: codeStarts k s
  | 0, c :: s => true :: codeStarts (utf8Whole (c :: s) - 1) s

/-- The number of code points. -/
def codePoints (s : CStr) : ℕ := (codeStarts 0 s).count true

/-- Where the walk of `utf8_strlen` meets a first byte of a sequence, the sequence is valid. -/
def leadsFrom : ℕ → CStr → Bool
  | k, [] => k == 0
  | k + 1, _ :: s => leadsFrom k s
  | 0, c :: s => (utf8CharLen c == 0 || utf8Whole (c :: s) != 0) && leadsFrom (utf8CharLen c - 1) s

def LeadsWhole (s : CStr) : Prop := leadsFrom 0 s = true

instance (s : CStr) : Decidable (LeadsWhole s) := by unfold LeadsWhole; infer_instance

/-! ### Replacing -/

theorem utf8Whole_eq_charLen {c : Char} {s : CStr} (h : utf8Whole (c :: s) ≠ 0) :
    utf8Whole (c :: s) = utf8CharLen c := by
  rw [utf8Whole] at h ⊢
  generalize utf8CharLen c = len at h ⊢
  unfold utf8Checked at h ⊢
  split at h
  · rfl
  · split at h
    · next hq => rw [if_pos hq]
    · exact absurd rfl h
  · dsimp only at h ⊢
    split at h
    · next hq => rw [if_pos hq]
    · exact absurd rfl h
  · dsimp only at h ⊢
    split at h
    · next hq => rw [if_pos hq]
    · exact absurd rfl h
  · exact absurd rfl h

theorem utf8Whole_take {c : Char} {s : CStr} (h : utf8Whole (c :: s) ≠ 0) :
    utf8Whole (c :: s.take (utf8Whole (c :: s) - 1)) ≠ 0 := by
  rw [utf8Whole_eq_charLen h]
  rw [utf8Whole] at h ⊢
  generalize utf8CharLen c = len at h ⊢
  rcases len with _ | _ | _ | _ | _ | len
  · exact h
  · exact h
  · rcases s with _ | ⟨q, s⟩
    · exact h
    · exact h
  · rcases s with _ | ⟨q, _ | ⟨r, s⟩⟩
    · exact h
    · exact h
    · exact h
  · rcases s with _ | ⟨q, _ | ⟨r, _ | ⟨t, s⟩⟩⟩
    · exact h
    · exact h
    · exact h
    · exact h
  · exact absurd rfl h

theorem sanitizeFrom_skip {k : ℕ} {a : CStr} (hk : a.length = k) (b : CStr) :
    sanitizeFrom k (a ++ b) = a ++ sanitizeFrom 0 b := by
  induction a generalizing k with
  | nil =>
    obtain rfl : 0 = k := hk
    rfl
  | cons c a ih =>
    obtain rfl : a.length + 1 = k := hk
    rw [cons_append, sanitizeFrom, ih rfl, cons_append]

theorem validFrom_skip {k : ℕ} {a : CStr} (hk : a.length = k) (b : CStr) :
    validFrom k (a ++ b) = validFrom 0 b := by
  induction a generalizing k with
  | nil =>
    obtain rfl : 0 = k := hk
    rfl
  | cons c a ih =>
    obtain rfl : a.length + 1 = k := hk
    rw [cons_append, validFrom, ih rfl]

/-- What `utf8_sanitize` leaves is valid. -/
theorem utf8Valid_sanitize (s : CStr) : utf8Valid (utf8Sanitize s) = true := by
  induction hn : s.length using Nat.strongRecOn generalizing s with
  | ind n ih =>
    cases s with
    | nil => rfl
    | cons c s =>
      rw [length_cons] at hn
      unfold utf8Sanitize utf8Valid at *
      rw [sanitizeFrom]
      by_cases hw : utf8Whole (c :: s) = 0
      · have hmark : utf8Whole ('?' :: sanitizeFrom 0 s) = 1 := utf8Whole_of_ascii rfl _
        rw [if_pos hw, hw, Nat.zero_sub, validFrom, hmark]
        exact ih s.length (by omega) s rfl
      · -- the sequence stays, and the rest begins behind it
        have hle := utf8Whole_le c s
        have hlen : (s.take (utf8Whole (c :: s) - 1)).length = utf8Whole (c :: s) - 1 := by
          rw [length_take]
          omega
        have htake := utf8Whole_take hw
        have hsame := utf8Whole_append_of_ne htake
          (sanitizeFrom 0 (s.drop (utf8Whole (c :: s) - 1)))
        have hback := utf8Whole_append_of_ne htake (s.drop (utf8Whole (c :: s) - 1))
        rw [take_append_drop] at hback
        have hskip := sanitizeFrom_skip hlen (s.drop (utf8Whole (c :: s) - 1))
        rw [take_append_drop] at hskip
        rw [if_neg hw, hskip, validFrom, hsame, ← hback, bne_iff_ne.2 hw, Bool.true_and,
          validFrom_skip hlen]
        refine ih _ ?_ _ rfl
        rw [length_drop]
        omega

theorem sanitizeFrom_of_valid {k : ℕ} {s : CStr} (h : validFrom k s = true) : sanitizeFrom k s = s := by
  induction s generalizing k with
  | nil => rfl
  | cons c s ih =>
    cases k with
    | succ k => rw [sanitizeFrom, ih h]
    | zero =>
      rw [validFrom, Bool.and_eq_true, bne_iff_ne] at h
      rw [sanitizeFrom, if_neg h.1, ih h.2]

/-! ### Counting -/

variable {mem : CStr}

/-- The walk in memory, `j` bytes behind the beginning of the rest `t` of the string. -/
theorem strlenLoop_eq {t : CStr} (ht : '\x00' ∉ t) {p j k : ℕ} (hmem : mem.drop p = t ++ ['\x00'])
    (hk : t.length < k) :
    strlenLoop mem k (p + j) = if cutFrom j t = true then none else some (strlenFrom j t) := by
  induction t generalizing p j k with
  | nil =>
    obtain ⟨k, rfl⟩ := Nat.exists_eq_succ_of_ne_zero (Nat.ne_of_gt hk)
    have hat : mem[p + j]? = (['\x00'] : CStr)[j]? := by rw [← getElem?_drop, hmem, nil_append]
    cases j with
    | zero =>
      rw [strlenLoop, hat]
      rfl
    | succ j =>
      rw [strlenLoop, hat]
      rfl
  | cons c t ih =>
    have hc : c ≠ '\x00' := fun heq => ht (heq ▸ mem_cons_self)
    have htail : '\x00' ∉ t := fun hin => ht (mem_cons_of_mem _ hin)
    have hnext : mem.drop (p + 1) = t ++ ['\x00'] := by
      rw [← drop_drop, hmem]
      rfl
    rw [length_cons] at hk
    cases j with
    | succ j =>
      rw [cutFrom, strlenFrom, show p + (j + 1) = p + 1 + j by omega]
      exact ih htail hnext (by omega)
    | zero =>
      obtain ⟨k, rfl⟩ := Nat.exists_eq_succ_of_ne_zero (Nat.ne_of_gt (Nat.zero_lt_of_lt hk))
      have hat : mem[p + 0]? = some c := by
        rw [← getElem?_drop, hmem]
        rfl
      -- the next stop is behind what the first byte announces, or behind the byte
      have hstep : strlenLoop mem (k + 1) (p + 0) =
          (strlenLoop mem k (p + 1 + (utf8CharLen c - 1))).map (· + 1) := by
        rw [strlenLoop, hat]
        dsimp only
        rw [if_neg hc]
        by_cases hlen : utf8CharLen c = 0
        · rw [if_pos hlen, hlen]
        · rw [if_neg hlen, show p + 0 + utf8CharLen c = p + 1 + (utf8CharLen c - 1) by omega]
      rw [hstep, ih htail hnext (by omega), cutFrom, strlenFrom]
      cases cutFrom (utf8CharLen c - 1) t with
      | true => rfl
      | false => rfl

theorem strlenMem_eq {s : CStr} (hs : '\x00' ∉ s) :
    strlenMem s = if utf8Cut s = true then none else some (utf8Strlen s) :=
  strlenLoop_eq (j := 0) hs rfl (Nat.lt_succ_self _)

theorem strlenFrom_eq_count (k : ℕ) (s : CStr) : strlenFrom k s = (strlenStops k s).count true := by
  induction s generalizing k with
  | nil => cases k <;> rfl
  | cons c s ih =>
    cases k with
    | succ k =>
      rw [strlenFrom, strlenStops, ih]
      rfl
    | zero => rw [strlenFrom, strlenStops, ih, count_cons_self]

theorem utf8Whole_of_charLen_one {c : Char} (h : utf8CharLen c = 1) (s : CStr) :
    utf8Whole (c :: s) = 1 := by
  rw [utf8Whole, h]
  rfl

theorem utf8Whole_of_charLen_zero {c : Char} (h : utf8CharLen c = 0) (s : CStr) :
    utf8Whole (c :: s) = 0 := by
  rw [utf8Whole, h]
  rfl

/-- The walk stops where the code points begin as long as each first byte it meets has a sequence. -/
theorem leadsFrom_iff (k : ℕ) (s : CStr) :
    leadsFrom k s = true ↔ cutFrom k s = false ∧ strlenStops k s = codeStarts k s := by
  induction s generalizing k with
  | nil => cases k <;> simp [leadsFrom, cutFrom, strlenStops, codeStarts]
  | cons c s ih =>
    cases k with
    | succ k => rw [leadsFrom, cutFrom, strlenStops, codeStarts, ih, cons_inj_right]
    | zero =>
      rw [leadsFrom, cutFrom, strlenStops, codeStarts, cons_inj_right, Bool.and_eq_true, ih,
        Bool.or_eq_true, beq_iff_eq, bne_iff_ne]
      by_cases hzero : utf8CharLen c = 0
      · rw [utf8Whole_of_charLen_zero hzero, hzero]
        exact and_iff_right (.inl rfl)
      · by_cases hwhole : utf8Whole (c :: s) = 0
        · -- the walk goes over the next byte, and a code point begins there
          rw [hwhole]
          constructor
          · intro h
            rcases h.1 with h | h
            · exact absurd h hzero
            · exact absurd rfl h
          · intro h
            exfalso
            rcases hlen : utf8CharLen c with _ | _ | n
            · exact hzero hlen
            · rw [utf8Whole_of_charLen_one hlen] at hwhole
              exact absurd hwhole Nat.one_ne_zero
            · rw [hlen] at h
              cases s with
              | nil => exact absurd h.1 (by simp [cutFrom])
              | cons d s => exact absurd h.2 (by simp [strlenStops, codeStarts])
        · rw [utf8Whole_eq_charLen hwhole]
          exact and_iff_right (.inr (by rwa [← utf8Whole_eq_charLen hwhole]))

/-! ### The three together -/

/-- What `utf8_sanitize` does to a string. -/
structure Sanitizes (s : CStr) : Prop where
  length : (utf8Sanitize s).length = s.length
  valid : utf8Valid (utf8Sanitize s) = true
  kept : utf8Valid s = true → utf8Sanitize s = s
  again : utf8Sanitize (utf8Sanitize s) = utf8Sanitize s

theorem sanitizes (s : CStr) : Sanitizes s where
  length := length_utf8Sanitize s
  valid := utf8Valid_sanitize s
  kept := sanitizeFrom_of_valid
  again := sanitizeFrom_of_valid (utf8Valid_sanitize s)

/-- `utf8_strlen` stays in the string and counts where the code points begin. -/
def CountsCodePoints (s : CStr) : Prop :=
  strlenMem s = some ((strlenStops 0 s).count true) ∧ strlenStops 0 s = codeStarts 0 s

instance (s : CStr) : Decidable (CountsCodePoints s) := by unfold CountsCodePoints; infer_instance

variable {s : CStr}

/-- `utf8_sanitize` is right always, `utf8_strlen` stays in memory if the last sequence is not cut,
and it counts the code points if behind each first byte that it meets there is its sequence. -/
theorem utf8_meets_iff (hs : '\x00' ∉ s) :
    Sanitizes s ∧ (strlenMem s ≠ none ↔ utf8Cut s = false) ∧
      ((Sanitizes s ∧ CountsCodePoints s) ↔ LeadsWhole s) ∧
      (LeadsWhole s → strlenMem s = some (codePoints s)) := by
  have hmem := strlenMem_eq hs
  have hcount : utf8Strlen s = (strlenStops 0 s).count true := strlenFrom_eq_count 0 s
  have hcuts : strlenMem s ≠ none ↔ utf8Cut s = false := by
    rw [hmem]
    cases utf8Cut s with
    | true => simp
    | false => simp
  have hiff : CountsCodePoints s ↔ LeadsWhole s := by
    rw [CountsCodePoints, LeadsWhole, leadsFrom_iff, hmem, hcount]
    refine and_congr_left fun _ => ?_
    unfold utf8Cut
    cases cutFrom 0 s with
    | true => simp
    | false => simp
  refine ⟨sanitizes s, hcuts, (and_iff_right (sanitizes s)).trans hiff, fun hlead => ?_⟩
  obtain ⟨hread, hstops⟩ := hiff.2 hlead
  rw [hread, hstops, codePoints]

/-- A sequence of three bytes, a byte that starts none and a letter: three code points. -/
theorem utf8_meets_euro :
    Sanitizes ['\u00e2', '\u0082', '\u00ac', '\u00ff', 'a'] ∧
      strlenMem ['\u00e2', '\u0082', '\u00ac', '\u00ff', 'a'] =
        some (codePoints ['\u00e2', '\u0082', '\u00ac', '\u00ff', 'a']) :=
  have h := utf8_meets_iff (s := ['\u00e2', '\u0082', '\u00ac', '\u00ff', 'a']) (by decide)
  ⟨h.1, h.2.2.2 (by decide)⟩

/-- The first byte of a sequence of two and the NUL: two are read behind it; and with a letter behind
it the letter is not counted. -/
theorem not_countsCodePoints :
    ¬ strlenMem ['\u00c3'] ≠ none ∧
      ¬ strlenMem ['\u00c3', 'A'] = some (codePoints ['\u00c3', 'A']) := by decide

end Eggdrop
