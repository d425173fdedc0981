import Eggdrop.Users.UserFile

/-!
# MaskLine — the lines of the ban, exempt and invite lists in the userfile

Each record is a line with its fields between colons; only the mask is escaped.

* `recordLine`: the line that `write_bans` and its like print.
* `readBack_eq_iff`: what is read from a line is the record exactly when no colon is in the creator,
  no blanks are where the reader cuts them off, and the three times are `int`s.
-/

namespace Eggdrop.Channels

open List Users

/-! ### Writing -/

/-- `"%02x"` of an `unsigned char`. -/
def showHex2 (n : Nat) : CStr := [Nat.digitChar (n / 16), Nat.digitChar (n % 16)]

/-- `str_escape`. -/
def strEscape (str : CStr) (div mask : Char) : CStr :=
  str.flatMap fun s => if s = div ∨ s = mask then mask :: showHex2 s.toNat else [s]

/-- `"%lu"` of a `long`. -/
def showUlong (n : Int) : CStr := showNat (n % 2 ^ 64).toNat

def expireText (b : Maskrec) : CStr :=
  (if b.perm then ['+'] else []) ++ showUlong b.expire ++ (if b.sticky then ['*'] else [])

/-- The fields of a line. -/
def recordBody (b : Maskrec) : CStr :=
  strEscape b.mask ':' '\\' ++ ':' :: (expireText b ++ ':' :: '+' :: (showUlong b.added ++ ':' ::
    (showUlong b.lastactive ++ ':' :: (b.user ++ ':' :: b.desc))))

/-- The character that the lines of a list begin with. -/
def lineMark : MaskKind → CStr
  | .ban => "-".toList
  | .exempt => "%".toList
  | .invite => "@".toList

def recordLine (kind : MaskKind) (b : Maskrec) : CStr :=
  lineMark kind ++ ' ' :: recordBody b ++ ['\n']

/-! ### Reading -/

theorem strchrUnescape_escape (s rest : CStr) :
    strchrUnescape ':' '\\' (strEscape s ':' '\\' ++ ':' :: rest) = .ok (s, some rest) := by
  induction s with
  | nil =>
    rw [strEscape, flatMap_nil, nil_append, strchrUnescape.eq_def]
    simp
  | cons c s ih =>
    rw [strEscape, flatMap_cons, append_assoc, ← strEscape]
    by_cases hesc : c = ':' ∨ c = '\\'
    · rw [if_pos hesc]
      have hcode : Char.ofNat (strtol16 (Nat.digitChar (c.toNat / 16)) (Nat.digitChar (c.toNat % 16))) =
          c := by
        obtain rfl | rfl := hesc <;> decide
      rw [showHex2, cons_append, cons_append, cons_append, nil_append, strchrUnescape, if_pos rfl, ih]
      simp only [Except.map, hcode]
    · obtain ⟨hcolon, hslash⟩ := not_or.1 hesc
      rw [if_neg hesc, singleton_append, strchrUnescape.eq_def]
      simp only [if_neg hslash, if_neg hcolon, ih, Except.map]

theorem splitChar_append {c : Char} {a : CStr} (h : c ∉ a) (b : CStr) :
    splitChar c (a ++ c :: b) = some (a, b) := by
  have hall : ∀ d ∈ a, (decide (d ≠ c)) = true := by
    intro d hd
    exact decide_eq_true fun heq => h (heq ▸ hd)
  rw [splitChar, dropWhile_append_of_pos hall, takeWhile_append_of_pos hall]
  simp

theorem notMem_showUlong {c : Char} (h : isDigit c = false) (n : Int) : c ∉ showUlong n := by
  intro hmem
  rw [isDigit_showNat c hmem] at h
  cases h

theorem plusSign_expireText (b : Maskrec) (rest : CStr) :
    plusSign (expireText b ++ rest) =
      (b.perm, showUlong b.expire ++ (if b.sticky then ['*'] else []) ++ rest) := by
  obtain ⟨c, t, hcons, hc⟩ := showNat_eq_cons (b.expire % 2 ^ 64).toNat
  rw [expireText]
  cases b.perm with
  | true => rfl
  | false =>
    have hplus : c ≠ '+' := by
      rintro rfl
      exact absurd hc (by decide)
    rw [if_neg Bool.false_ne_true, nil_append, showUlong, hcons, cons_append, cons_append, plusSign]
    intro s heq
    exact hplus (cons.inj heq).1

theorem eggAtoi_showUlong (n : Int) :
    eggAtoi (showUlong n) = toCInt (min (n % 2 ^ 64) (2 ^ 63 - 1)) := by
  have hpos : 0 ≤ n % 2 ^ 64 := Int.emod_nonneg _ (by decide)
  rw [eggAtoi, showUlong, strtol_showNat, Int.toNat_of_nonneg hpos]

theorem eggAtoi_plus_showUlong (n : Int) : eggAtoi ('+' :: showUlong n) = eggAtoi (showUlong n) := by
  rw [eggAtoi, eggAtoi, showUlong, strtol_plus_showNat, strtol_showNat]

/-- A time that is the same after it was written as an `unsigned long` and read as an `int`. -/
def InInt (n : Int) : Prop := -1 ≤ n ∧ n < 2 ^ 31

/-- Of a `long`. -/
theorem eggAtoi_showUlong_iff {n : Int} (hmin : -2 ^ 63 ≤ n) (hmax : n < 2 ^ 63) :
    eggAtoi (showUlong n) = n ↔ InInt n := by
  rw [eggAtoi_showUlong, InInt, toCInt]
  by_cases hneg : n < 0
  · have hmod : n % 2 ^ 64 = n + 2 ^ 64 := by omega
    rw [hmod, min_eq_right (by omega)]
    omega
  · have hmod : n % 2 ^ 64 = n := by omega
    rw [hmod, min_eq_left (by omega)]
    omega

/-- The record that is read from the line of `b`. -/
def reread (b : Maskrec) : Maskrec where
  mask := cstring b.mask
  user := b.user.takeWhile (· ≠ ':')
  desc := ((b.user ++ ':' :: b.desc).dropWhile (· ≠ ':')).drop 1
  expire := eggAtoi (showUlong b.expire)
  added := eggAtoi (showUlong b.added)
  lastactive := eggAtoi (showUlong b.lastactive)
  sticky := b.sticky
  perm := b.perm

theorem splitChar_eq_some {c : Char} {s : CStr} (h : c ∈ s) :
    splitChar c s = some (s.takeWhile (· ≠ c), (s.dropWhile (· ≠ c)).drop 1) := by
  rw [splitChar]
  cases hdrop : s.dropWhile (· ≠ c) with
  | nil =>
    have hall := dropWhile_eq_nil_iff.1 hdrop c h
    simp at hall
  | cons d t => rfl

theorem sticky_text (n : Int) (sticky : Bool) :
    decide ((showUlong n ++ if sticky then ['*'] else []).getLast? = some '*') = sticky ∧
      (if (showUlong n ++ if sticky then ['*'] else []).getLast? = some '*' then
        (showUlong n ++ if sticky then ['*'] else []).dropLast
      else showUlong n ++ if sticky then ['*'] else []) = showUlong n := by
  cases sticky with
  | true => simp
  | false =>
    have hlast : (showUlong n).getLast? ≠ some '*' := fun h =>
      notMem_showUlong (by decide) n (mem_of_getLast? h)
    simp [hlast]

theorem parseMask_body (now : Int) (b : Maskrec) :
    parseMask now (recordBody b) = .ok (some (reread b)) := by
  have hexpi : ':' ∉ showUlong b.expire ++ (if b.sticky then ['*'] else []) := by
    rw [mem_append, not_or]
    refine ⟨notMem_showUlong (by decide) _, ?_⟩
    cases b.sticky <;> decide
  have hadd : ':' ∉ '+' :: showUlong b.added := by
    rw [mem_cons, not_or]
    exact ⟨by decide, notMem_showUlong (by decide) _⟩
  have hlast : ':' ∉ showUlong b.lastactive := notMem_showUlong (by decide) _
  have hsplit := splitChar_append hexpi ('+' :: (showUlong b.added ++ ':' ::
    (showUlong b.lastactive ++ ':' :: (b.user ++ ':' :: b.desc))))
  have hsplit' := splitChar_append hadd (showUlong b.lastactive ++ ':' :: (b.user ++ ':' :: b.desc))
  have hsplit'' := splitChar_append hlast (b.user ++ ':' :: b.desc)
  have huser := splitChar_eq_some (show ':' ∈ b.user ++ ':' :: b.desc by simp)
  have htake : (b.user ++ ':' :: b.desc).takeWhile (· ≠ ':') = b.user.takeWhile (· ≠ ':') := by
    simp only [takeWhile_append]
    split
    · next hlen =>
      have hself := ( takeWhile_prefix _).eq_of_length hlen
      rw [hself]
      simp
    · rfl
  obtain ⟨hsticky, hexpire⟩ := sticky_text b.expire b.sticky
  unfold parseMask recordBody
  rw [strchrUnescape_escape]
  show Except.ok _ = _
  rw [cons_append] at hsplit'
  simp only [Option.bind_eq_bind, Option.bind_some, plusSign_expireText, hsplit, head?_cons, if_true,
    hsplit', hsplit'', huser, hsticky, hexpire, htake, eggAtoi_plus_showUlong]
  rfl

/-- Without the blanks that the reader cuts off. -/
def trimmed (b : Maskrec) : Maskrec :=
  { b with mask := b.mask.dropWhile isSpace, desc := (b.desc.reverse.dropWhile isSpace).reverse }

theorem dropWhile_append_cons {α : Type*} {p : α → Bool} {c : α} (h : p c = false) (a b : List α) :
    (a ++ c :: b).dropWhile p = a.dropWhile p ++ c :: b := by
  rw [dropWhile_append]
  cases hnil : a.dropWhile p with
  | nil => rw [isEmpty_nil, if_pos rfl, dropWhile_cons_of_neg (by simp [h]), nil_append]
  | cons d t => rfl

theorem dropWhile_strEscape (s rest : CStr) :
    (strEscape s ':' '\\' ++ ':' :: rest).dropWhile isSpace =
      strEscape (s.dropWhile isSpace) ':' '\\' ++ ':' :: rest := by
  induction s with
  | nil => exact dropWhile_cons_of_neg (by decide)
  | cons c s ih =>
    by_cases hspace : isSpace c = true
    · have hesc : ¬ (c = ':' ∨ c = '\\') := by
        rintro (rfl | rfl) <;> exact absurd hspace (by decide)
      rw [dropWhile_cons_of_pos hspace, ← ih, strEscape, flatMap_cons, if_neg hesc, ← strEscape,
        singleton_append, cons_append, dropWhile_cons_of_pos hspace]
    · rw [dropWhile_cons_of_neg hspace, strEscape, flatMap_cons]
      by_cases hesc : c = ':' ∨ c = '\\'
      · rw [if_pos hesc, cons_append, cons_append]
        exact dropWhile_cons_of_neg (by decide)
      · rw [if_neg hesc, singleton_append, cons_append]
        exact dropWhile_cons_of_neg hspace

theorem rmspace_body (b : Maskrec) : rmspace (recordBody b ++ ['\n']) = recordBody (trimmed b) := by
  have hcolon : isSpace ':' = false := by decide
  have hassoc : recordBody b = strEscape b.mask ':' '\\' ++ ':' :: (expireText b ++ ':' :: '+' ::
      (showUlong b.added ++ ':' :: (showUlong b.lastactive ++ ':' :: b.user))) ++ ':' :: b.desc := by
    simp [recordBody]
  rw [rmspace, hassoc, reverse_append, reverse_singleton, singleton_append,
    dropWhile_cons_of_pos (by decide), reverse_append, reverse_cons, append_assoc, singleton_append,
    dropWhile_append_cons hcolon, reverse_append, reverse_cons, append_assoc, reverse_reverse,
    singleton_append]
  rw [append_assoc, cons_append, dropWhile_strEscape]
  simp only [recordBody, trimmed, expireText, append_assoc, cons_append]
  rfl

/-- What is read from the line of a record. -/
def readBack (b : Maskrec) : Maskrec := reread (trimmed b)

/-- The fields of a record that come back: no colon in the creator, and times that are `int`s. -/
structure Exact (b : Maskrec) : Prop where
  user : ':' ∉ b.user
  expire : InInt b.expire
  added : InInt b.added
  lastactive : InInt b.lastactive

/-- A record in memory: C strings, and times that are `long`s. -/
structure InMemory (b : Maskrec) : Prop where
  mask : '\x00' ∉ b.mask
  user : '\x00' ∉ b.user
  desc : '\x00' ∉ b.desc
  expire : -2 ^ 63 ≤ b.expire ∧ b.expire < 2 ^ 63
  added : -2 ^ 63 ≤ b.added ∧ b.added < 2 ^ 63
  lastactive : -2 ^ 63 ≤ b.lastactive ∧ b.lastactive < 2 ^ 63

theorem cstring_of_notMem {s : CStr} (h : '\x00' ∉ s) : cstring s = s :=
  takeWhile_eq_self_iff.2 fun _ hc => decide_eq_true fun heq => h (heq ▸ hc)

theorem reread_user_desc {b : Maskrec} (h : ':' ∉ b.user) :
    (reread b).user = b.user ∧ (reread b).desc = b.desc := by
  have hall : ∀ c ∈ b.user, decide (c ≠ ':') = true := fun _ hc =>
    decide_eq_true fun heq => h (heq ▸ hc)
  refine ⟨takeWhile_eq_self_iff.2 hall, ?_⟩
  show ((b.user ++ ':' :: b.desc).dropWhile (· ≠ ':')).drop 1 = b.desc
  rw [dropWhile_append_of_pos hall]
  simp

theorem colon_notMem_of_reread {b : Maskrec} (h : (reread b).user = b.user) : ':' ∉ b.user :=
  fun hmem => absurd (takeWhile_eq_self_iff.1 h ':' hmem) (by decide)

theorem reread_eq_iff {b : Maskrec} (h : InMemory b) : reread b = b ↔ Exact b := by
  have hexpire := eggAtoi_showUlong_iff h.expire.1 h.expire.2
  have hadded := eggAtoi_showUlong_iff h.added.1 h.added.2
  have hlastactive := eggAtoi_showUlong_iff h.lastactive.1 h.lastactive.2
  constructor
  · intro heq
    exact ⟨colon_notMem_of_reread (congrArg Maskrec.user heq),
      hexpire.1 (congrArg Maskrec.expire heq), hadded.1 (congrArg Maskrec.added heq),
      hlastactive.1 (congrArg Maskrec.lastactive heq)⟩
  · intro hexact
    obtain ⟨huser, hdesc⟩ := reread_user_desc hexact.user
    rw [reread] at huser hdesc ⊢
    dsimp only at huser hdesc
    rw [cstring_of_notMem h.mask, huser, hdesc, hexpire.2 hexact.expire, hadded.2 hexact.added,
      hlastactive.2 hexact.lastactive]

/-- A record of which everything comes back. -/
structure Restorable (b : Maskrec) : Prop extends Exact b where
  mask : ∀ c ∈ b.mask.head?, isSpace c = false
  desc : ∀ c ∈ b.desc.getLast?, isSpace c = false

theorem dropWhile_eq_self_iff_head {s : CStr} :
    s.dropWhile isSpace = s ↔ ∀ c ∈ s.head?, isSpace c = false := by
  cases s with
  | nil => simp
  | cons c s =>
    rw [head?_cons]
    cases hc : isSpace c with
    | true =>
      rw [dropWhile_cons_of_pos hc]
      refine iff_of_false (fun h => ?_) fun h => ?_
      · have hlen := congrArg length h
        have hle := (dropWhile_sublist (p := isSpace) (l := s)).length_le
        rw [length_cons] at hlen
        omega
      · exact absurd (h c rfl) (by simp [hc])
    | false => simp [dropWhile_cons_of_neg, hc]

theorem trimmed_eq_iff {b : Maskrec} : trimmed b = b ↔
    (∀ c ∈ b.mask.head?, isSpace c = false) ∧ ∀ c ∈ b.desc.getLast?, isSpace c = false := by
  rw [← dropWhile_eq_self_iff_head, ← head?_reverse, ← dropWhile_eq_self_iff_head]
  constructor
  · intro h
    refine ⟨congrArg Maskrec.mask h, ?_⟩
    rw [← reverse_eq_iff]
    exact congrArg Maskrec.desc h
  · rintro ⟨hmask, hdesc⟩
    rw [trimmed, hmask, hdesc, reverse_reverse]

theorem trimmed_of_readBack {b : Maskrec} (h : readBack b = b) : trimmed b = b := by
  have hmask : cstring (b.mask.dropWhile isSpace) = b.mask := congrArg Maskrec.mask h
  have huser : (readBack b).user = b.user := congrArg Maskrec.user h
  have hcolon : ':' ∉ (trimmed b).user := colon_notMem_of_reread huser
  have hdesc : (trimmed b).desc = b.desc := by
    rw [← (reread_user_desc hcolon).2]
    exact congrArg Maskrec.desc h
  have hdrop : b.mask.dropWhile isSpace = b.mask := by
    have hle := (takeWhile_sublist (p := (· ≠ '\x00')) (l := b.mask.dropWhile isSpace)).length_le
    have hlen := congrArg length hmask
    rw [cstring] at hlen
    exact (dropWhile_suffix isSpace).eq_of_length_le (by omega)
  rw [trimmed] at hdesc ⊢
  rw [hdrop]
  exact congrArg (fun desc => ({ b with desc } : Maskrec)) hdesc

theorem readBack_eq_iff {b : Maskrec} (h : InMemory b) : readBack b = b ↔ Restorable b := by
  constructor
  · intro heq
    have htrim := trimmed_of_readBack heq
    obtain ⟨hmask, hdesc⟩ := trimmed_eq_iff.1 htrim
    rw [readBack, htrim] at heq
    exact ⟨(reread_eq_iff h).1 heq, hmask, hdesc⟩
  · intro hb
    rw [readBack, trimmed_eq_iff.2 ⟨hb.mask, hb.desc⟩]
    exact (reread_eq_iff h).2 hb.toExact

theorem inInt_reread (n : Int) : InInt (eggAtoi (showUlong (eggAtoi (showUlong n)))) := by
  simp only [eggAtoi_showUlong, toCInt, InInt]
  omega

theorem isSpace_head_dropWhile (s : CStr) : ∀ c ∈ (s.dropWhile isSpace).head?, isSpace c = false := by
  intro c hc
  have hnot := head?_dropWhile_not isSpace s
  rw [Option.mem_def.1 hc] at hnot
  exact hnot

theorem mem_getLast?_of_suffix {s t : CStr} (h : s <:+ t) {c : Char} (hc : c ∈ s.getLast?) :
    c ∈ t.getLast? := by
  obtain ⟨a, rfl⟩ := h
  rw [getLast?_append, Option.mem_def.1 hc]
  rfl

theorem restorable_readBack (b : Maskrec) : Restorable (readBack (readBack b)) where
  user h := absurd (mem_takeWhile_imp h) (by decide)
  expire := inInt_reread b.expire
  added := inInt_reread b.added
  lastactive := inInt_reread b.lastactive
  mask c hc := by
    refine isSpace_head_dropWhile (readBack b).mask c ?_
    replace hc : c ∈ (((readBack b).mask.dropWhile isSpace).takeWhile (· ≠ '\x00')).head? := hc
    cases hdrop : (readBack b).mask.dropWhile isSpace with
    | nil =>
      rw [hdrop] at hc
      cases hc
    | cons d s =>
      rw [hdrop, takeWhile_cons] at hc
      split at hc
      · exact hc
      · cases hc
  desc c hc := by
    have hlast := mem_getLast?_of_suffix ((drop_suffix 1 _).trans (dropWhile_suffix _)) hc
    rw [getLast?_append_of_ne_nil _ (cons_ne_nil _ _), getLast?_cons] at hlast
    cases hdesc : (trimmed (readBack b)).desc.getLast? with
    | none =>
      rw [hdesc] at hlast
      obtain rfl : ':' = c := by simpa using hlast
      decide
    | some d =>
      rw [hdesc] at hlast
      obtain rfl : d = c := by simpa using hlast
      refine isSpace_head_dropWhile (readBack b).desc.reverse d ?_
      rw [← getLast?_reverse]
      exact hdesc

end Eggdrop.Channels
