import Eggdrop.Users.FlagText

/-!
# FlagRoundTrip — flag records written and read back (src/flags.c)

`build_flags` writes a record and the flags to take away as one text, `break_down_flags` reads such
a text.  The text has a global or bot part and a channel part, never three; and the separator is
only heard after a global part.

* `breakDownLoop_part`: one part is read back, with and without flags to take away.
* `readBack_eq`: what is read back of any two records.
* `writtenBack_iff`: when that is the records that were written.
-/

namespace Eggdrop.Users

/-! ### Writing both records -/

/-- The words of one kind, as `flag2str` or `bot2str` writes them. -/
def FlagRecord.text (r : FlagRecord) : FlagMode → CStr
  | .glob => flag2str r.global r.udefGlobal
  | .chan => flag2str r.chan r.udefChan
  | .bot => bot2str r.bot

/-- Whether a word of one kind has a flag. -/
def FlagRecord.any (r : FlagRecord) : FlagMode → Bool
  | .glob => r.global != 0 || r.udefGlobal != 0
  | .chan => r.chan != 0 || r.udefChan != 0
  | .bot => r.bot != 0

/-- One of the three parts of the text. -/
def flagPart (mode : FlagMode) (plus : FlagRecord) (minus : Option FlagRecord) : CStr :=
  (if minus.isSome && plus.any mode then ['+'] else []) ++ plus.text mode ++
    minus.elim [] fun m => if m.any mode then '-' :: m.text mode else []

/-- `build_flags`: the text it writes. -/
def buildFlagsBoth (plus : FlagRecord) (minus : Option FlagRecord) : CStr :=
  let first :=
    if plus.matchType.has frGlobal then flagPart .glob plus minus
    else if plus.matchType.has frBot then flagPart .bot plus minus
    else []
  let chan :=
    if plus.matchType.has frChan then
      (if plus.matchType.has (frGlobal ||| frBot) then
        [if plus.matchType.has frAnd then '&' else '|'] else []) ++ flagPart .chan plus minus
    else []
  orDash (first ++ chan)

/-! ### The letters of a word -/

/-- The bits from `bit` on, `n` of them. -/
def flagBits (w : FlagWord) (bit : ℕ) : ℕ → FlagWord
  | 0 => 0
  | n + 1 => flagBits w bit n ||| (if w.getLsbD (bit + n) then 1#32 <<< (bit + n) else 0)

theorem getLsbD_flagBits (w : FlagWord) {bit n : ℕ} (h : bit + n ≤ 32) (i : ℕ) :
    (flagBits w bit n).getLsbD i = (w.getLsbD i && decide (bit ≤ i ∧ i < bit + n)) := by
  induction n with
  | zero =>
    simp [flagBits]
  | succ n ih =>
    have hbit : (if w.getLsbD (bit + n) then 1#32 <<< (bit + n) else 0).getLsbD i =
        (w.getLsbD i && decide (i = bit + n)) := by
      by_cases hi : i = bit + n
      · subst hi
        split_ifs with hw
        · simp [hw]
          omega
        · simp [hw]
      · split_ifs with hw
        · simp [hi]
          omega
        · simp [hi]
    rw [flagBits, BitVec.getLsbD_or, ih (by omega), hbit, ← Bool.and_or_distrib_left]
    congr 1
    rw [Bool.eq_iff_iff]
    simp only [Bool.or_eq_true, decide_eq_true_eq]
    omega

theorem flagChars_succ (w : FlagWord) (first : Char) (bit n : ℕ) :
    flagChars w first bit (n + 1) = flagChars w first bit n ++
      (if w.getLsbD (bit + n) then [Char.ofNat (first.toNat + n)] else []) := by
  unfold flagChars
  rw [List.range_succ, List.filter_append, List.map_append]
  split_ifs with h <;> simp [h]

theorem foldl_flagChars {σ : Type} (read : σ → Char → σ) (put : σ → FlagWord → σ) (w : FlagWord)
    (first : Char) (bit n : ℕ) (hzero : ∀ s, put s 0 = s)
    (hput : ∀ s v v', put (put s v) v' = put s (v ||| v'))
    (hread : ∀ s, ∀ k < n, read s (Char.ofNat (first.toNat + k)) = put s (1#32 <<< (bit + k)))
    (s : σ) : (flagChars w first bit n).foldl read s = put s (flagBits w bit n) := by
  induction n with
  | zero => exact (hzero s).symm
  | succ n ih =>
    rw [flagChars_succ, List.foldl_append, ih fun s k hk => hread s k (by omega), flagBits, ← hput]
    split_ifs
    · exact hread _ n (by omega)
    · exact (hzero _).symm

namespace FlagRecord

/-- The letters of the words of one kind. -/
def letters (r : FlagRecord) : FlagMode → CStr
  | .glob => flagChars r.global 'a' 0 26 ++ flagChars r.udefGlobal 'A' 0 26
  | .chan => flagChars r.chan 'a' 0 26 ++ flagChars r.udefChan 'A' 0 26
  | .bot => flagChars r.bot 'a' 0 21 ++ flagChars r.bot '0' 21 10

theorem text_eq (r : FlagRecord) (mode : FlagMode) : r.text mode = orDash (r.letters mode) := by
  cases mode <;> rfl

/-- The record `r` with the words of one kind of `src` added. -/
def store (r src : FlagRecord) : FlagMode → FlagRecord
  | .glob => { r with
      global := r.global ||| flagBits src.global 0 26
      udefGlobal := r.udefGlobal ||| flagBits src.udefGlobal 0 26 }
  | .chan => { r with
      chan := r.chan ||| flagBits src.chan 0 26
      udefChan := r.udefChan ||| flagBits src.udefChan 0 26 }
  | .bot => { r with bot := r.bot ||| flagBits src.bot 0 21 ||| flagBits src.bot 21 10 }

/-- Small letters, capitals and digits, and their bits. -/
theorem small_spec : ∀ k < 26, let c := Char.ofNat ('a'.toNat + k)
    ('a' ≤ c ∧ c ≤ 'z') ∧ (c ≤ 'u' ↔ k < 21) ∧ flagBit c 'a' = 1#32 <<< (0 + k) := by
  decide

theorem capital_spec : ∀ k < 26, let c := Char.ofNat ('A'.toNat + k)
    ¬('a' ≤ c ∧ c ≤ 'z') ∧ ('A' ≤ c ∧ c ≤ 'Z') ∧ flagBit c 'A' = 1#32 <<< (0 + k) := by
  decide

theorem digit_spec : ∀ k < 10, let c := Char.ofNat ('0'.toNat + k)
    ¬('a' ≤ c ∧ c ≤ 'z') ∧ ¬('A' ≤ c ∧ c ≤ 'Z') ∧ ('0' ≤ c ∧ c ≤ '9') ∧
      botFlag0 <<< (c.toNat - '0'.toNat) = 1#32 <<< (21 + k) := by
  decide

theorem foldl_letters (r src : FlagRecord) (mode : FlagMode) :
    (src.letters mode).foldl (fun r c => r.addFlag mode c) r = r.store src mode := by
  cases mode with
  | glob =>
    have hsmall (r : FlagRecord) (k : ℕ) (hk : k < 26) :
        r.addFlag .glob (Char.ofNat ('a'.toNat + k)) =
          { r with global := r.global ||| 1#32 <<< (0 + k) } := by
      obtain ⟨hsmall, -, hbit⟩ := small_spec k hk
      rw [addFlag, if_pos hsmall, hbit]
    have hcapital (r : FlagRecord) (k : ℕ) (hk : k < 26) :
        r.addFlag .glob (Char.ofNat ('A'.toNat + k)) =
          { r with udefGlobal := r.udefGlobal ||| 1#32 <<< (0 + k) } := by
      obtain ⟨hsmall, hcap, hbit⟩ := capital_spec k hk
      rw [addFlag, if_neg hsmall, if_pos hcap, hbit]
    rw [letters, List.foldl_append,
      foldl_flagChars _ (fun r v => { r with udefGlobal := r.udefGlobal ||| v }) _ _ _ _ (by simp)
        (by simp [BitVec.or_assoc]) hcapital,
      foldl_flagChars _ (fun r v => { r with global := r.global ||| v }) _ _ _ _ (by simp)
        (by simp [BitVec.or_assoc]) hsmall]
    rfl
  | chan =>
    have hsmall (r : FlagRecord) (k : ℕ) (hk : k < 26) :
        r.addFlag .chan (Char.ofNat ('a'.toNat + k)) =
          { r with chan := r.chan ||| 1#32 <<< (0 + k) } := by
      obtain ⟨hsmall, -, hbit⟩ := small_spec k hk
      rw [addFlag, if_pos hsmall, hbit]
    have hcapital (r : FlagRecord) (k : ℕ) (hk : k < 26) :
        r.addFlag .chan (Char.ofNat ('A'.toNat + k)) =
          { r with udefChan := r.udefChan ||| 1#32 <<< (0 + k) } := by
      obtain ⟨hsmall, hcap, hbit⟩ := capital_spec k hk
      rw [addFlag, if_neg hsmall, if_pos hcap, hbit]
    rw [letters, List.foldl_append,
      foldl_flagChars _ (fun r v => { r with udefChan := r.udefChan ||| v }) _ _ _ _ (by simp)
        (by simp [BitVec.or_assoc]) hcapital,
      foldl_flagChars _ (fun r v => { r with chan := r.chan ||| v }) _ _ _ _ (by simp)
        (by simp [BitVec.or_assoc]) hsmall]
    rfl
  | bot =>
    have hsmall (r : FlagRecord) (k : ℕ) (hk : k < 21) :
        r.addFlag .bot (Char.ofNat ('a'.toNat + k)) =
          { r with bot := r.bot ||| 1#32 <<< (0 + k) } := by
      obtain ⟨hsmall, hu, hbit⟩ := small_spec k (by omega)
      rw [addFlag, if_pos hsmall, hbit]
      exact if_pos (hu.2 hk)
    have hdigit (r : FlagRecord) (k : ℕ) (hk : k < 10) :
        r.addFlag .bot (Char.ofNat ('0'.toNat + k)) =
          { r with bot := r.bot ||| 1#32 <<< (21 + k) } := by
      obtain ⟨hsmall, hcap, hdigit, hbit⟩ := digit_spec k hk
      rw [addFlag, if_neg hsmall, if_neg hcap, if_pos hdigit, hbit]
    rw [letters, List.foldl_append,
      foldl_flagChars _ (fun r v => { r with bot := r.bot ||| v }) _ _ _ _ (by simp)
        (by simp [BitVec.or_assoc]) hdigit,
      foldl_flagChars _ (fun r v => { r with bot := r.bot ||| v }) _ _ _ _ (by simp)
        (by simp [BitVec.or_assoc]) hsmall]
    rfl

end FlagRecord

/-! ### Reading one part -/

namespace FlagScan

/-- What a letter does. -/
def addFlag (st : FlagScan) (c : Char) : FlagScan :=
  if st.toMinus then { st with minus := st.minus.addFlag st.mode c }
  else { st with plus := st.plus.addFlag st.mode c }

/-- The state with the words of one record added to the one that is written to. -/
def store (st : FlagScan) (src : FlagRecord) : FlagScan :=
  if st.toMinus then { st with minus := st.minus.store src st.mode }
  else { st with plus := st.plus.store src st.mode }

end FlagScan

variable {flags : FlagWord} {hasMinus : Bool}

/-- A letter or digit. -/
def IsFlag (c : Char) : Prop := c ≠ '+' ∧ c ≠ '-' ∧ c ≠ '|' ∧ c ≠ '&'

instance (c : Char) : Decidable (IsFlag c) := by unfold IsFlag; infer_instance

theorem isFlag_of_mem_flagChars {w : FlagWord} {first : Char} {bit n : ℕ} {c : Char}
    (h : ∀ k < n, IsFlag (Char.ofNat (first.toNat + k))) (hc : c ∈ flagChars w first bit n) :
    IsFlag c := by
  unfold flagChars at hc
  obtain ⟨k, hk, rfl⟩ := List.mem_map.1 hc
  exact h k (List.mem_range.1 (List.mem_filter.1 hk).1)

theorem isFlag_of_mem_letters {r : FlagRecord} {mode : FlagMode} {c : Char}
    (hc : c ∈ r.letters mode) : IsFlag c := by
  have hsmall : ∀ k < 26, IsFlag (Char.ofNat ('a'.toNat + k)) := by decide
  have hcapital : ∀ k < 26, IsFlag (Char.ofNat ('A'.toNat + k)) := by decide
  have hdigit : ∀ k < 10, IsFlag (Char.ofNat ('0'.toNat + k)) := by decide
  have hbot : ∀ k < 21, IsFlag (Char.ofNat ('a'.toNat + k)) := by decide
  cases mode with
  | glob =>
    cases List.mem_append.1 hc with
    | inl h => exact isFlag_of_mem_flagChars hsmall h
    | inr h => exact isFlag_of_mem_flagChars hcapital h
  | chan =>
    cases List.mem_append.1 hc with
    | inl h => exact isFlag_of_mem_flagChars hsmall h
    | inr h => exact isFlag_of_mem_flagChars hcapital h
  | bot =>
    cases List.mem_append.1 hc with
    | inl h => exact isFlag_of_mem_flagChars hbot h
    | inr h => exact isFlag_of_mem_flagChars hdigit h

theorem breakDownLoop_flag (st : FlagScan) {c : Char} (h : IsFlag c) (s : CStr) :
    breakDownLoop flags hasMinus st (c :: s) = breakDownLoop flags hasMinus (st.addFlag c) s := by
  obtain ⟨hplus, hminus, hbar, hand⟩ := h
  rw [breakDownLoop]
  · rw [if_neg (by simp [hbar, hand])]
    rfl
  · exact hplus
  · exact hminus

theorem breakDownLoop_flags (st : FlagScan) {cs : CStr} (h : ∀ c ∈ cs, IsFlag c) (s : CStr) :
    breakDownLoop flags hasMinus st (cs ++ s) =
      breakDownLoop flags hasMinus (cs.foldl FlagScan.addFlag st) s := by
  induction cs generalizing st with
  | nil => rfl
  | cons c cs ih =>
    rw [List.cons_append, breakDownLoop_flag st (h c List.mem_cons_self),
      ih _ fun c' hc' => h c' (List.mem_cons_of_mem _ hc')]
    rfl

theorem FlagScan.foldl_addFlag (st : FlagScan) (r : FlagRecord) :
    (r.letters st.mode).foldl FlagScan.addFlag st = st.store r := by
  obtain ⟨plus, minus, toMinus, mode⟩ := st
  have hfold (cs : CStr) : ∀ plus minus, cs.foldl FlagScan.addFlag ⟨plus, minus, toMinus, mode⟩ =
      if toMinus then ⟨plus, cs.foldl (fun r c => r.addFlag mode c) minus, true, mode⟩
      else ⟨cs.foldl (fun r c => r.addFlag mode c) plus, minus, false, mode⟩ := by
    cases toMinus with
    | true =>
      induction cs with
      | nil => exact fun _ _ => rfl
      | cons c cs ih => exact fun plus minus => ih plus (minus.addFlag mode c)
    | false =>
      induction cs with
      | nil => exact fun _ _ => rfl
      | cons c cs ih => exact fun plus minus => ih (plus.addFlag mode c) minus
  rw [hfold, FlagRecord.foldl_letters, FlagRecord.foldl_letters]
  cases toMinus <;> rfl

theorem FlagScan.store_nil {st : FlagScan} {r : FlagRecord} (h : r.letters st.mode = []) :
    st.store r = st := by
  rw [← FlagScan.foldl_addFlag, h]
  rfl

/-- The words of one kind are read back; where there are none, the `-` in their place may turn to
the second record. -/
theorem breakDownLoop_text (st : FlagScan) (r : FlagRecord) (s : CStr) :
    ∃ b, breakDownLoop flags hasMinus st (r.text st.mode ++ s) =
      breakDownLoop flags hasMinus { st.store r with toMinus := b } s := by
  rw [FlagRecord.text_eq]
  unfold orDash
  split_ifs with h
  · refine ⟨hasMinus, ?_⟩
    rw [FlagScan.store_nil h]
    rfl
  · refine ⟨(st.store r).toMinus, ?_⟩
    rw [breakDownLoop_flags st (fun c hc => isFlag_of_mem_letters hc), FlagScan.foldl_addFlag]

theorem FlagRecord.letters_of_any_eq_false {r : FlagRecord} {mode : FlagMode}
    (h : r.any mode = false) : r.letters mode = [] := by
  have hzero (first : Char) (bit n : ℕ) : flagChars 0 first bit n = [] := by
    unfold flagChars
    simp
  cases mode with
  | glob =>
    simp only [any, Bool.or_eq_false_iff, bne_eq_false_iff_eq] at h
    rw [letters, h.1, h.2, hzero, hzero, List.append_nil]
  | chan =>
    simp only [any, Bool.or_eq_false_iff, bne_eq_false_iff_eq] at h
    rw [letters, h.1, h.2, hzero, hzero, List.append_nil]
  | bot =>
    simp only [any, bne_eq_false_iff_eq] at h
    rw [letters, h, hzero, hzero, List.append_nil]

theorem FlagRecord.store_of_any_eq_false (r : FlagRecord) {src : FlagRecord} {mode : FlagMode}
    (h : src.any mode = false) : r.store src mode = r := by
  rw [← foldl_letters, letters_of_any_eq_false h]
  rfl

theorem breakDownLoop_part (p q plus : FlagRecord) (minus : Option FlagRecord) (mode : FlagMode)
    (s : CStr) : ∃ b, breakDownLoop flags minus.isSome ⟨p, q, false, mode⟩
        (flagPart mode plus minus ++ s) =
      breakDownLoop flags minus.isSome
        ⟨p.store plus mode, minus.elim q fun m => q.store m mode, b, mode⟩ s := by
  have hsign (t : CStr) : breakDownLoop flags minus.isSome ⟨p, q, false, mode⟩
      ((if minus.isSome && plus.any mode then ['+'] else []) ++ t) =
      breakDownLoop flags minus.isSome ⟨p, q, false, mode⟩ t := by
    split_ifs <;> rfl
  unfold flagPart
  rw [List.append_assoc, List.append_assoc, hsign]
  obtain ⟨b, hplus⟩ := @breakDownLoop_text flags minus.isSome ⟨p, q, false, mode⟩ plus
    ((minus.elim [] fun m => if m.any mode then '-' :: m.text mode else []) ++ s)
  rw [hplus]
  cases minus with
  | none => exact ⟨b, rfl⟩
  | some m =>
    cases hm : m.any mode with
    | false =>
      refine ⟨b, ?_⟩
      simp only [hm, Option.elim_some, FlagRecord.store_of_any_eq_false q hm]
      rfl
    | true =>
      obtain ⟨b', hminus⟩ := @breakDownLoop_text flags true ⟨p.store plus mode, q, true, mode⟩ m s
      refine ⟨b', ?_⟩
      rw [Option.elim_some, if_pos hm]
      exact hminus

/-! ### Reading the whole text -/

/-- The kinds of a record. -/
def FlagRecord.kinds (r : FlagRecord) : FlagWord := r.matchType &&& (frGlobal ||| frBot ||| frChan)

/-- What `break_down_flags` reads in the text that `build_flags` writes, for the same kinds. -/
def readBack (plus : FlagRecord) (minus : Option FlagRecord) : FlagRecord × FlagRecord :=
  breakDownFlags (buildFlagsBoth plus minus) plus.kinds minus.isSome

/-- What is left of the words of one kind when they are read back. -/
def FlagRecord.kept (r : FlagRecord) (g b c : Bool) : FlagRecord :=
  { r with
    global := if g then r.global &&& userValid else 0
    udefGlobal := if g then r.udefGlobal &&& udefValid else 0
    bot := if b then r.bot &&& botValid else 0
    chan := if c then r.chan &&& chanValid else 0
    udefChan := if c then r.udefChan &&& udefValid else 0 }

theorem flagBits_valid {w valid : FlagWord} (h : ∀ i < 32, valid.getLsbD i → i < 26) :
    flagBits w 0 26 &&& valid = w &&& valid := by
  apply BitVec.eq_of_getLsbD_eq
  intro i hi
  rw [BitVec.getLsbD_and, BitVec.getLsbD_and, getLsbD_flagBits w (by omega)]
  cases hv : valid.getLsbD i with
  | false => rw [Bool.and_false, Bool.and_false]
  | true =>
    have hlt := h i hi hv
    simp [hlt]

theorem flagBits_bot (w : FlagWord) :
    (flagBits w 0 21 ||| flagBits w 21 10) &&& botValid = w &&& botValid := by
  have hbot : ∀ i < 32, botValid.getLsbD i → i < 31 := by decide
  apply BitVec.eq_of_getLsbD_eq
  intro i hi
  rw [BitVec.getLsbD_and, BitVec.getLsbD_and, BitVec.getLsbD_or,
    getLsbD_flagBits w (by omega), getLsbD_flagBits w (by omega), ← Bool.and_or_distrib_left]
  cases hv : botValid.getLsbD i with
  | false => rw [Bool.and_false, Bool.and_false]
  | true =>
    have hlt := hbot i hi hv
    have hcover : (decide (0 ≤ i ∧ i < 0 + 21) || decide (21 ≤ i ∧ i < 21 + 10)) = true := by
      simp only [Bool.or_eq_true, decide_eq_true_eq]
      omega
    rw [hcover, Bool.and_true]

/-- The record `z` with the words of one kind of `r` added, and those of the channel if there are
two parts. -/
def FlagRecord.stored (z r : FlagRecord) (mode : FlagMode) (two : Bool) : FlagRecord :=
  if two then (z.store r mode).store r .chan else z.store r mode

theorem FlagRecord.stored_matchType (z r : FlagRecord) (mode : FlagMode) (two : Bool) :
    (z.stored r mode two).matchType = z.matchType := by
  cases mode <;> cases two <;> rfl

theorem FlagRecord.stored_one (z r : FlagRecord) (mode : FlagMode) :
    z.stored r mode false = z.store r mode := rfl

theorem FlagRecord.stored_two (z r : FlagRecord) (mode : FlagMode) :
    z.stored r mode true = (z.store r mode).store r .chan := rfl

theorem FlagRecord.store_matchType (z r : FlagRecord) (mode : FlagMode) (w : FlagWord) :
    { z.store r mode with matchType := w } =
      ({ z with matchType := w } : FlagRecord).store r mode := by
  cases mode <;> rfl

theorem FlagRecord.mask_stored (w : FlagWord) (r : FlagRecord) (mode : FlagMode) (two : Bool) :
    ({ FlagRecord.zero with matchType := w }.stored r mode two : FlagRecord).mask =
      { r.kept (mode = .glob) (mode = .bot) (two || mode = .chan) with matchType := w } := by
  have huser : ∀ i < 32, userValid.getLsbD i → i < 26 := by decide
  have hchan : ∀ i < 32, chanValid.getLsbD i → i < 26 := by decide
  have hudef : ∀ i < 32, udefValid.getLsbD i → i < 26 := by decide
  cases mode <;> cases two <;>
    simp [stored, store, mask, kept, zero, flagBits_valid huser, flagBits_valid hchan,
      flagBits_valid hudef, flagBits_bot]

section ReadBack

variable (plus : FlagRecord) (minus : Option FlagRecord)

/-- The end of `break_down_flags`. -/
def finishFlags (flags : FlagWord) (hasMinus : Bool) (p q : FlagRecord) :
    FlagRecord × FlagRecord :=
  let p := { p.mask with matchType := p.matchType ||| flags }
  if hasMinus then
    ({ p with
        matchType := if p.matchType.has (frAnd ||| frOr) then p.matchType
          else p.matchType ||| frOr },
      { q.mask with matchType := q.matchType ||| flags })
  else (p, FlagRecord.zero)

/-- The kind that a text begins with. -/
def startMode (flags : FlagWord) : FlagMode :=
  if flags.has frGlobal then .glob else if flags.has frBot then .bot else .chan

theorem breakDownFlags_eq (string : CStr)
    (h : flags.has frGlobal || flags.has frBot || flags.has frChan) :
    breakDownFlags string flags hasMinus =
      let st := breakDownLoop flags hasMinus
        ⟨{ FlagRecord.zero with matchType := frOr }, FlagRecord.zero, false, startMode flags⟩ string
      finishFlags flags hasMinus st.plus st.minus := by
  unfold breakDownFlags startMode
  dsimp only
  by_cases hg : flags.has frGlobal
  · rw [if_pos hg, if_pos hg]
    rfl
  · rw [if_neg hg, if_neg hg]
    by_cases hb : flags.has frBot
    · rw [if_pos hb, if_pos hb]
      rfl
    · rw [if_neg hb, if_neg hb, if_pos (by simpa [hg, hb] using h)]
      rfl

theorem breakDownLoop_separator (p q : FlagRecord) (b conj : Bool) (mode : FlagMode) (s : CStr)
    (h : mode.next ≠ .bot) :
    breakDownLoop flags hasMinus ⟨p, q, b, mode⟩ ((if conj then '&' else '|') :: s) =
      breakDownLoop flags hasMinus
        ⟨if mode = .glob then { p with matchType := if conj then frAnd else frOr } else p, q, false,
          mode.next⟩ s := by
  cases conj <;> simp [breakDownLoop, h]

theorem FlagRecord.has_kinds (r : FlagRecord) :
    r.kinds.has frGlobal = r.matchType.has frGlobal ∧ r.kinds.has frBot = r.matchType.has frBot ∧
      r.kinds.has frChan = r.matchType.has frChan := by
  have hbit (k : ℕ) : r.kinds.getLsbD k =
      (r.matchType.getLsbD k && (frGlobal ||| frBot ||| frChan).getLsbD k) :=
    BitVec.getLsbD_and
  have h0 : (frGlobal ||| frBot ||| frChan).getLsbD 0 = true := by decide
  have h1 : (frGlobal ||| frBot ||| frChan).getLsbD 1 = true := by decide
  have h2 : (frGlobal ||| frBot ||| frChan).getLsbD 2 = true := by decide
  rw [show frGlobal = BitVec.twoPow 32 0 from rfl, show frBot = BitVec.twoPow 32 1 from rfl,
    show frChan = BitVec.twoPow 32 2 from rfl, has_twoPow, has_twoPow, has_twoPow, has_twoPow,
    has_twoPow, has_twoPow, hbit, hbit, hbit, h0, h1, h2, Bool.and_true, Bool.and_true,
    Bool.and_true]
  exact ⟨rfl, rfl, rfl⟩

/-- The text with its first part and, where there are two parts, the separator and the channel
part. -/
def flagText (mode : FlagMode) (two conj : Bool) : CStr :=
  orDash (flagPart mode plus minus ++
    if two then (if conj then '&' else '|') :: flagPart .chan plus minus else [])

theorem flagPart_ne_nil (mode : FlagMode) : flagPart mode plus minus ≠ [] := by
  have htext : plus.text mode ≠ [] := by
    rw [FlagRecord.text_eq]
    unfold orDash
    split_ifs with h
    · exact List.cons_ne_nil _ _
    · exact h
  unfold flagPart
  simp [htext]

theorem breakDownLoop_flagText (z q : FlagRecord) (mode : FlagMode) (two conj : Bool)
    (h : two → mode.next = .chan) :
    ∃ b m, breakDownLoop flags minus.isSome ⟨z, q, false, mode⟩
        (flagText plus minus mode two conj) =
      ⟨(if two ∧ mode = .glob then { z with matchType := if conj then frAnd else frOr }
          else z).stored plus mode two, minus.elim q fun m => q.stored m mode two, b, m⟩ := by
  unfold flagText orDash
  rw [if_neg (by simp [flagPart_ne_nil])]
  obtain ⟨b, hfirst⟩ := @breakDownLoop_part flags z q plus minus mode
    (if two then (if conj then '&' else '|') :: flagPart .chan plus minus else [])
  rw [hfirst]
  cases two with
  | false =>
    refine ⟨b, mode, ?_⟩
    rw [if_neg (by decide), breakDownLoop, if_neg (by simp), FlagRecord.stored_one]
    cases minus <;> rfl
  | true =>
    have hmode := h rfl
    rw [if_pos rfl, breakDownLoop_separator _ _ _ _ _ _ (by rw [hmode]; decide), hmode]
    obtain ⟨b', hchan⟩ := @breakDownLoop_part flags
      (if mode = .glob then
          { z.store plus mode with matchType := if conj then frAnd else frOr }
        else z.store plus mode)
      (minus.elim q fun m => q.store m mode) plus minus .chan []
    rw [List.append_nil] at hchan
    refine ⟨b', .chan, hchan.trans ?_⟩
    rw [breakDownLoop, FlagRecord.stored_two]
    congr 1
    · cases mode with
      | glob =>
        have hglob : true = true ∧ FlagMode.glob = .glob := ⟨rfl, rfl⟩
        rw [if_pos rfl, if_pos hglob, FlagRecord.store_matchType]
      | chan => exact absurd hmode (by decide)
      | bot => rfl
    · cases minus with
      | none => rfl
      | some m => exact (FlagRecord.stored_two _ _ _).symm

theorem has_andOr (w : FlagWord) (conj : Bool) :
    ((if conj then frAnd else frOr) ||| w).has (frAnd ||| frOr) := by
  have hbit : (frAnd ||| frOr) = BitVec.twoPow 32 29 ||| BitVec.twoPow 32 30 := by decide
  have hand : frAnd.getLsbD 29 = true := by decide
  have hor : frOr.getLsbD 30 = true := by decide
  rw [hbit, has_or, has_twoPow, has_twoPow, BitVec.getLsbD_or, BitVec.getLsbD_or]
  cases conj with
  | true => rw [if_pos rfl, hand, Bool.true_or, Bool.true_or]
  | false => rw [if_neg (by decide), hor, Bool.true_or, Bool.or_true]

theorem finishFlags_eq (p q : FlagRecord) (conj : Bool)
    (h : p.matchType = if conj then frAnd else frOr) :
    finishFlags flags hasMinus p q =
      ({ p.mask with matchType := p.matchType ||| flags },
        if hasMinus then { q.mask with matchType := q.matchType ||| flags }
        else FlagRecord.zero) := by
  unfold finishFlags
  cases hasMinus with
  | false => rfl
  | true =>
    dsimp only
    rw [h, if_pos rfl, if_pos (has_andOr flags conj), if_pos rfl]

theorem buildFlagsBoth_eq (g b c : Bool) (hg : plus.matchType.has frGlobal = g)
    (hb : plus.matchType.has frBot = b) (hc : plus.matchType.has frChan = c) (h : g || b || c) :
    buildFlagsBoth plus minus =
      flagText plus minus (startMode plus.kinds) ((g || b) && c) (plus.matchType.has frAnd) := by
  obtain ⟨hkg, hkb, hkc⟩ := plus.has_kinds
  unfold buildFlagsBoth flagText startMode
  rw [hkg, hkb, has_or, hg, hb, hc]
  cases g <;> cases b <;> cases c <;> simp_all

/-- What is read back: the global or bot part and the channel part, and the separator where it
follows a global part. -/
theorem readBack_eq (g b c : Bool) (hg : plus.matchType.has frGlobal = g)
    (hb : plus.matchType.has frBot = b) (hc : plus.matchType.has frChan = c) (h : g || b || c) :
    readBack plus minus =
      ({ plus.kept g (b && !g) c with
          matchType := (if g && c && plus.matchType.has frAnd then frAnd else frOr) |||
            plus.kinds },
        minus.elim FlagRecord.zero fun m =>
          { m.kept g (b && !g) c with matchType := plus.kinds }) := by
  obtain ⟨hkg, hkb, hkc⟩ := plus.has_kinds
  unfold readBack
  rw [breakDownFlags_eq _ (by rw [hkg, hkb, hkc, hg, hb, hc]; exact h),
    buildFlagsBoth_eq plus minus g b c hg hb hc h]
  have hmode : startMode plus.kinds = if g then .glob else if b then .bot else .chan := by
    unfold startMode
    rw [hkg, hkb, hg, hb]
  obtain ⟨e, m, hloop⟩ := @breakDownLoop_flagText plus.kinds plus minus
    { FlagRecord.zero with matchType := frOr } FlagRecord.zero (startMode plus.kinds)
    ((g || b) && c) (plus.matchType.has frAnd) (by
      rw [hmode]
      cases g <;> cases b <;> simp [FlagMode.next])
  have hsep : (if ((g || b) && c) = true ∧ startMode plus.kinds = .glob then
        { FlagRecord.zero with
          matchType := if plus.matchType.has frAnd then frAnd else frOr }
      else { FlagRecord.zero with matchType := frOr }) =
      { FlagRecord.zero with
        matchType := if g && c && plus.matchType.has frAnd then frAnd else frOr } := by
    rw [hmode]
    cases g <;> cases b <;> cases c <;> simp
  rw [hloop, hsep]
  dsimp only
  rw [finishFlags_eq _ _ _ (FlagRecord.stored_matchType _ _ _ _), FlagRecord.mask_stored,
    FlagRecord.stored_matchType]
  have hminus (m : FlagRecord) : (FlagRecord.zero.stored m (startMode plus.kinds)
      ((g || b) && c)).mask = { m.kept _ _ _ with matchType := 0 } :=
    FlagRecord.mask_stored 0 m (startMode plus.kinds) ((g || b) && c)
  have hzero (m : FlagRecord) : (FlagRecord.zero.stored m (startMode plus.kinds)
      ((g || b) && c)).matchType = 0 := FlagRecord.stored_matchType _ _ _ _
  rw [hmode] at hminus hzero ⊢
  cases minus with
  | none =>
    cases g <;> cases b <;> cases c <;> simp_all
  | some m =>
    dsimp only [Option.elim_some]
    rw [hminus, hzero]
    cases g <;> cases b <;> cases c <;> simp_all

end ReadBack

/-! ### What comes back -/

/-- Every flag has a letter. -/
structure FlagRecord.Lettered (r : FlagRecord) : Prop where
  global : r.global &&& userValid = r.global
  udefGlobal : r.udefGlobal &&& udefValid = r.udefGlobal
  bot : r.bot &&& botValid = r.bot
  chan : r.chan &&& chanValid = r.chan
  udefChan : r.udefChan &&& udefValid = r.udefChan

/-- No flag but of the given kinds. -/
structure FlagRecord.Within (r : FlagRecord) (g b c : Bool) : Prop where
  global : g = false → r.global = 0 ∧ r.udefGlobal = 0
  bot : b = false → r.bot = 0
  chan : c = false → r.chan = 0 ∧ r.udefChan = 0

/-- Two records that `build_flags` may be asked to write: every flag has a letter, the second
record is of the kinds of the first, and there is one way to combine the kinds. -/
structure Writable (plus : FlagRecord) (minus : Option FlagRecord) : Prop where
  lettered : plus.Lettered
  second : ∀ m ∈ minus, m.Lettered ∧ m.matchType = plus.kinds
  combine : plus.matchType = frOr ||| plus.kinds ∨ plus.matchType = frAnd ||| plus.kinds

/-- The text has room for all there is in the two records. -/
def Restorable (plus : FlagRecord) (minus : Option FlagRecord) : Prop :=
  let g := plus.matchType.has frGlobal
  let b := plus.matchType.has frBot && !g
  let c := plus.matchType.has frChan
  (g || b || c) ∧ (plus.matchType.has frAnd → g && c) ∧ plus.Within g b c ∧
    ∀ m ∈ minus, m.Within g b c

theorem FlagRecord.kept_eq_iff {r : FlagRecord} (h : r.Lettered) (g b c : Bool) (w : FlagWord) :
    { r.kept g b c with matchType := w } = r ↔ w = r.matchType ∧ r.Within g b c := by
  have hword {x : Bool} {v : FlagWord} : (if x then v else 0) = v ↔ (x = false → v = 0) := by
    cases x with
    | true => simp
    | false =>
      rw [if_neg (by decide)]
      exact ⟨fun h _ => h.symm, fun h => (h rfl).symm⟩
  unfold kept
  rw [FlagRecord.mk.injEq, h.global, h.udefGlobal, h.bot, h.chan, h.udefChan, hword, hword, hword,
    hword, hword]
  constructor
  · intro hr
    obtain ⟨hw, hglobal, hudef, hbot, hchan, hudefChan⟩ := hr
    exact ⟨hw, fun hg => ⟨hglobal hg, hudef hg⟩, hbot, fun hc => ⟨hchan hc, hudefChan hc⟩⟩
  · intro hr
    obtain ⟨hw, hr⟩ := hr
    exact ⟨hw, fun hg => (hr.global hg).1, fun hg => (hr.global hg).2, hr.bot,
      fun hc => (hr.chan hc).1, fun hc => (hr.chan hc).2⟩

theorem FlagRecord.kinds_or_inj (r : FlagRecord) :
    frOr ||| r.kinds ≠ frAnd ||| r.kinds ∧ r.kinds ≠ frOr ||| r.kinds ∧
      r.kinds ≠ frAnd ||| r.kinds ∧ (frOr ||| r.kinds).has frAnd = false ∧
      (frAnd ||| r.kinds).has frAnd := by
  have hkinds : r.kinds.getLsbD 29 = false ∧ r.kinds.getLsbD 30 = false := by
    unfold kinds
    rw [BitVec.getLsbD_and, BitVec.getLsbD_and,
      show (frGlobal ||| frBot ||| frChan).getLsbD 29 = false by decide,
      show (frGlobal ||| frBot ||| frChan).getLsbD 30 = false by decide]
    exact ⟨Bool.and_false _, Bool.and_false _⟩
  have hor : (frOr ||| r.kinds).getLsbD 29 = false ∧ (frOr ||| r.kinds).getLsbD 30 = true := by
    rw [BitVec.getLsbD_or, BitVec.getLsbD_or, hkinds.1, hkinds.2]
    decide
  have hand : (frAnd ||| r.kinds).getLsbD 29 = true ∧ (frAnd ||| r.kinds).getLsbD 30 = false := by
    rw [BitVec.getLsbD_or, BitVec.getLsbD_or, hkinds.1, hkinds.2]
    decide
  refine ⟨?_, ?_, ?_, ?_, ?_⟩
  · intro h
    rw [h, hand.1] at hor
    exact absurd hor.1 (by decide)
  · intro h
    rw [← h, hkinds.2] at hor
    exact absurd hor.2 (by decide)
  · intro h
    rw [← h, hkinds.1] at hand
    exact absurd hand.1 (by decide)
  · rw [show frAnd = BitVec.twoPow 32 29 by decide, has_twoPow]
    exact hor.1
  · rw [show frAnd = BitVec.twoPow 32 29 by decide, has_twoPow]
    exact hand.1

theorem readBack_none (plus : FlagRecord) (minus : Option FlagRecord)
    (h : ¬(plus.matchType.has frGlobal || plus.matchType.has frBot || plus.matchType.has frChan)) :
    (readBack plus minus).1.matchType = plus.kinds := by
  obtain ⟨hkg, hkb, hkc⟩ := plus.has_kinds
  rw [← hkg, ← hkb, ← hkc] at h
  simp only [Bool.or_eq_true, not_or] at h
  unfold readBack breakDownFlags
  dsimp only
  rw [if_neg h.1.1, if_neg h.1.2, if_neg h.2]

/-- The records are read back exactly when the text has room for them. -/
theorem writtenBack_iff (plus : FlagRecord) (minus : Option FlagRecord) (h : Writable plus minus) :
    readBack plus minus = (plus, minus.getD FlagRecord.zero) ↔ Restorable plus minus := by
  obtain ⟨hne, hor, hand, hasOr, hasAnd⟩ := plus.kinds_or_inj
  unfold Restorable
  dsimp only
  generalize hg : plus.matchType.has frGlobal = g
  generalize hb : plus.matchType.has frBot = b
  generalize hc : plus.matchType.has frChan = c
  by_cases hkind : (g || b || c) = true
  · rw [readBack_eq plus minus g b c hg hb hc hkind, Prod.mk.injEq,
      FlagRecord.kept_eq_iff h.lettered]
    have hminus : (minus.elim FlagRecord.zero fun m =>
          { m.kept g (b && !g) c with matchType := plus.kinds }) = minus.getD FlagRecord.zero ↔
        ∀ m ∈ minus, m.Within g (b && !g) c := by
      cases minus with
      | none => simp
      | some m =>
        have hm := h.second m rfl
        simp only [Option.elim_some, Option.getD_some, FlagRecord.kept_eq_iff hm.1, hm.2, true_and,
          Option.mem_def, Option.some.injEq, forall_eq']
    have hmatch : (if g && c && plus.matchType.has frAnd then frAnd else frOr) ||| plus.kinds =
        plus.matchType ↔ (plus.matchType.has frAnd → g && c) := by
      cases h.combine with
      | inl hw =>
        rw [hw, hasOr, Bool.and_false]
        simp
      | inr hw =>
        rw [hw, hasAnd, Bool.and_true]
        cases g && c with
        | true => simp
        | false => simp [hne]
    have hkind' : (g || b && !g || c) = true := by
      cases g <;> simp_all
    rw [hminus, hmatch]
    simp only [hkind', true_and, and_assoc]
  · have hkind' : (g || b && !g || c) ≠ true := by
      cases g <;> simp_all
    refine iff_of_false ?_ fun hr => hkind' hr.1
    intro hread
    have hfirst := readBack_none plus minus (by rw [hg, hb, hc]; exact hkind)
    rw [hread] at hfirst
    cases h.combine with
    | inl hw => exact hor (hfirst.symm.trans hw)
    | inr hw => exact hand (hfirst.symm.trans hw)

/-- Global and channel flags, with flags to take away. -/
theorem writtenBack_someone :
    let plus : FlagRecord := ⟨frOr ||| frGlobal ||| frChan, userOp, 1, 0, userVoice, 0⟩
    let minus : FlagRecord := ⟨frGlobal ||| frChan, userDeop, 0, 0, 0, 2⟩
    readBack plus (some minus) = (plus, minus) := by
  refine (writtenBack_iff _ _ ⟨?_, ?_, ?_⟩).2 ?_
  · exact ⟨by decide, by decide, by decide, by decide, by decide⟩
  · intro m hm
    cases hm
    exact ⟨⟨by decide, by decide, by decide, by decide, by decide⟩, by decide⟩
  · exact .inl (by decide)
  · refine ⟨by decide, by decide, ⟨by decide, by decide, by decide⟩, ?_⟩
    intro m hm
    cases hm
    exact ⟨by decide, by decide, by decide⟩

/-- `&` after a bot part is not heard, and the flags of a bot have no place beside global ones. -/
theorem not_writtenBack :
    readBack ⟨frAnd ||| frBot ||| frChan, 0, 0, botAggressive, userOp, 0⟩ none ≠
        (⟨frAnd ||| frBot ||| frChan, 0, 0, botAggressive, userOp, 0⟩, FlagRecord.zero) ∧
      readBack ⟨frOr ||| frGlobal ||| frBot, userOp, 0, botAggressive, 0, 0⟩ none ≠
        (⟨frOr ||| frGlobal ||| frBot, userOp, 0, botAggressive, 0, 0⟩, FlagRecord.zero) := by
  constructor
  · decide +kernel
  · decide +kernel

end Eggdrop.Users
