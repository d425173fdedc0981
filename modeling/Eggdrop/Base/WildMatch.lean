import Eggdrop.Base.RegexParts
import Eggdrop.Lib.Pieces

/-!
# WildMatch — wildcards (src/match.c)

`wild_match` and `wild_match_per` translate a mask into a regular expression, which is compiled and
run.  The expression is written into a buffer, and what does not fit is left out.

* `ircLoop_eq`, `tokenise_items`: the expression of a mask that fits, written and read.
* `wildMatch_iff`, `wildMatchPer_iff`: what such a mask takes.
* `wildMatch_glob`: of a text without newlines, all of it.
-/

open List

namespace Eggdrop.WildMatch

/-! ### The source -/

/-- `regex_meta`. -/
def regexMeta : CStr :=
  ['\\', '.', '^', '$', '|', '\x7b', '\x7d', '[', ']', '(', ')', '+', '-', '?', '*']

/-- Nothing is skipped. -/
def noSkip : Char → Bool := fun _ => false

/-- The loop of `irc_to_ere`; `bound` is where `end` is.  The loops in it, which skip the rest of a
run, are rounds of this one. -/
def ircLoop (perMode : Bool) (bound : ℕ) : (Char → Bool) → CStr → CStr → CStr
  | _, [], out => out
  | skip, c :: m, out =>
    if skip c then ircLoop perMode bound skip m out
    else if bound ≤ out.length then out
    else if perMode ∧ c = '\\' then
      match m with
      | [] => out
      | d :: m =>
        if d ∈ regexMeta then
          if bound ≤ out.length + 1 then out
          else ircLoop perMode bound noSkip m (out ++ ['\\', d])
        else ircLoop perMode bound noSkip m (out ++ [d])
    else if c = '*' then
      if bound < out.length + 2 then out
      else ircLoop perMode bound (· == '*') m (out ++ ['.', '*'])
    else if c = '?' then ircLoop perMode bound noSkip m (out ++ ['.'])
    else if perMode ∧ c = '%' then
      if bound < out.length + 5 then out
      else ircLoop perMode bound (· == '%') m (out ++ ['[', '^', ' ', ']', '*'])
    else if perMode ∧ c = '~' then
      if bound < out.length + 4 then out
      else ircLoop perMode bound (fun c => c == '~' || c == ' ') m (out ++ ['[', ' ', ']', '+'])
    else if c ∈ regexMeta then
      if bound ≤ out.length + 1 then out
      else ircLoop perMode bound noSkip m (out ++ ['\\', c])
    else ircLoop perMode bound noSkip m (out ++ [c])

/-- `irc_to_ere`; `none` is -1. -/
def ircToEre (m : CStr) (outsz : ℕ) (perMode : Bool) : Option CStr :=
  if outsz < 4 then none
  else some (ircLoop perMode (outsz - 2) noSkip m ['^'] ++ ['$'])

/-- The expression, compiled and run. -/
def search (m n : CStr) (perMode : Bool) : ℕ :=
  match ircToEre m 1024 perMode with
  | none => 0
  | some ere =>
    match Regex.opRegexCompile ere with
    | none => 0
    | some re => if Regex.opRegexMatch re n then 1 else 0

/-- `_wild_match`. -/
def wildMatch (m n : CStr) : ℕ := if m = [] ∨ n = [] then 0 else search m n false

/-- `_wild_match_per`. -/
def wildMatchPer (m n : CStr) : ℕ := if n = [] then 0 else search m n true

/-! ### What a mask means -/

/-- The character, up to the case of ASCII letters. -/
def same (c : Char) : Char → Bool := fun a => toLower c == toLower a

/-- The pieces of a mask, where the first character is quoted, or behind a `~`, where further ones
and blanks mean no more. -/
def pieces (perMode : Bool) : Bool → Bool → CStr → List (Pieces.Piece Char)
  | _, _, [] => []
  | true, _, c :: m => .one (same c) :: pieces perMode false false m
  | false, blanks, c :: m =>
    if blanks ∧ (c = '~' ∨ c = ' ') then pieces perMode false true m
    else if perMode ∧ c = '\\' then pieces perMode true false m
    else if c = '*' then .star (fun _ => true) :: pieces perMode false false m
    else if c = '?' then .one (fun _ => true) :: pieces perMode false false m
    else if perMode ∧ c = '%' then .star (fun a => a != ' ') :: pieces perMode false false m
    else if perMode ∧ c = '~' then .plus (fun a => a == ' ') :: pieces perMode false true m
    else .one (same c) :: pieces perMode false false m

/-- The items of a mask without quotes, `%` and `~`. -/
def mask (m : CStr) : List (Glob.Item Char) :=
  m.map fun c => if c = '*' then .many else if c = '?' then .one fun _ => true
    else .one (same c)

/-! ### What is written -/

/-- What of the mask becomes one part of the expression. -/
inductive Item
  | lit (c : Char)
  | quest
  | star
  | percent
  | tilde

namespace Item

/-- The part of the expression. -/
def ere : Item → CStr
  | lit c => if c ∈ regexMeta then ['\\', c] else [c]
  | quest => ['.']
  | star => ['.', '*']
  | percent => ['[', '^', ' ', ']', '*']
  | tilde => ['[', ' ', ']', '+']

def part : Item → Regex.Part
  | lit c => .one (.lit (toLower c))
  | quest => .one .any
  | star => .star .any
  | percent => .star (.cls fun d => !Regex.clsSet (fun _ => false) ' ' d)
  | tilde => .plus (.cls (Regex.clsSet (fun _ => false) ' '))

def piece : Item → Pieces.Piece Char
  | lit c => .one (same c)
  | quest => .one fun _ => true
  | star => .star fun _ => true
  | percent => .star fun a => a != ' '
  | tilde => .plus fun a => a == ' '

end Item

/-- The items of a mask, where the first character is quoted, or what is skipped belongs to the item
before. -/
def items (perMode : Bool) : Bool → (Char → Bool) → CStr → List Item
  | _, _, [] => []
  | true, _, c :: m => .lit c :: items perMode false noSkip m
  | false, skip, c :: m =>
    if skip c then items perMode false skip m
    else if perMode ∧ c = '\\' then items perMode true noSkip m
    else if c = '*' then .star :: items perMode false (· == '*') m
    else if c = '?' then .quest :: items perMode false noSkip m
    else if perMode ∧ c = '%' then .percent :: items perMode false (· == '%') m
    else if perMode ∧ c = '~' then .tilde :: items perMode false (fun c => c == '~' || c == ' ') m
    else .lit c :: items perMode false noSkip m

/-- The expression without its anchors. -/
def body (perMode : Bool) (m : CStr) : CStr := (items perMode false noSkip m).flatMap Item.ere

/-- The expression fits into the buffer. -/
def Fits (perMode : Bool) (m : CStr) : Prop := (body perMode m).length ≤ 1021

instance decidableFits (perMode : Bool) (m : CStr) : Decidable (Fits perMode m) :=
  inferInstanceAs (Decidable (_ ≤ _))

variable {perMode : Bool} {m n out : CStr} {bound : ℕ}

theorem write_lit {d : Char} (h : out.length + (Item.lit d).ere.length ≤ bound) (go : CStr → CStr) :
    (if d ∈ regexMeta then
      if bound ≤ out.length + 1 then out else go (out ++ ['\\', d])
    else go (out ++ [d])) = go (out ++ (Item.lit d).ere) := by
  rw [Item.ere] at h ⊢
  split
  · next hmeta =>
    rw [if_pos hmeta, length_cons, length_singleton] at h
    rw [if_neg (by omega)]
  · rfl

theorem length_ere_pos (i : Item) : 0 < i.ere.length := by
  cases i with
  | lit c =>
    rw [Item.ere]
    split <;> exact Nat.succ_pos _
  | _ => exact Nat.succ_pos _

theorem ircLoop_eq {skip : Char → Bool}
    (h : out.length + ((items perMode false skip m).flatMap Item.ere).length ≤ bound) :
    ircLoop perMode bound skip m out = out ++ (items perMode false skip m).flatMap Item.ere := by
  induction hlen : m.length using Nat.strong_induction_on generalizing m skip out with
  | _ len ih =>
    cases m with
    | nil => rw [ircLoop, items, flatMap_nil, append_nil]
    | cons c m =>
      rw [length_cons] at hlen
      -- an item is written, and the loop goes on
      have hnext (i : Item) (skip' : Char → Bool) {m' : CStr} (hm' : m'.length < len)
          (h : out.length + ((i :: items perMode false skip' m').flatMap Item.ere).length ≤ bound) :
          out.length + i.ere.length ≤ bound ∧ ircLoop perMode bound skip' m' (out ++ i.ere) =
            out ++ (i :: items perMode false skip' m').flatMap Item.ere := by
        rw [flatMap_cons, length_append] at h
        refine ⟨by omega, ?_⟩
        rw [ih _ hm' (by rw [length_append]; omega) rfl, flatMap_cons, append_assoc]
      rw [ircLoop.eq_def]
      rw [items] at h ⊢
      dsimp only
      by_cases hskip : skip c = true
      · rw [if_pos hskip] at h ⊢
        rw [if_pos hskip]
        exact ih _ (by omega) h rfl
      rw [if_neg hskip] at h ⊢
      rw [if_neg hskip]
      by_cases hquote : perMode = true ∧ c = '\\'
      · rw [if_pos hquote] at h ⊢
        rw [if_pos hquote]
        cases m with
        | nil => rw [items, flatMap_nil, append_nil, ite_self]
        | cons d m =>
          rw [length_cons] at hlen
          rw [items] at h ⊢
          obtain ⟨hroom, hgo⟩ := hnext (.lit d) noSkip (by omega) h
          have hpos := length_ere_pos (.lit d)
          rw [if_neg (by omega), ← hgo]
          exact write_lit hroom _
      rw [if_neg hquote] at h ⊢
      rw [if_neg hquote]
      by_cases hstar : c = '*'
      · rw [if_pos hstar] at h ⊢
        obtain ⟨hroom, hgo⟩ := hnext .star (· == '*') (by omega) h
        rw [Item.ere, length_cons, length_singleton] at hroom
        rw [if_neg (by omega), if_pos hstar, if_neg (by omega), ← hgo]
        rfl
      rw [if_neg hstar] at h ⊢
      rw [if_neg hstar]
      by_cases hone : c = '?'
      · rw [if_pos hone] at h ⊢
        obtain ⟨hroom, hgo⟩ := hnext .quest noSkip (by omega) h
        rw [Item.ere, length_singleton] at hroom
        rw [if_neg (by omega), if_pos hone, ← hgo]
        rfl
      rw [if_neg hone] at h ⊢
      rw [if_neg hone]
      by_cases hpercent : perMode = true ∧ c = '%'
      · rw [if_pos hpercent] at h ⊢
        obtain ⟨hroom, hgo⟩ := hnext .percent (· == '%') (by omega) h
        have hlength : Item.percent.ere.length = 5 := rfl
        rw [if_neg (by omega), if_pos hpercent, if_neg (by omega), ← hgo]
        rfl
      rw [if_neg hpercent] at h ⊢
      rw [if_neg hpercent]
      by_cases htilde : perMode = true ∧ c = '~'
      · rw [if_pos htilde] at h ⊢
        obtain ⟨hroom, hgo⟩ := hnext .tilde (fun c => c == '~' || c == ' ') (by omega) h
        have hlength : Item.tilde.ere.length = 4 := rfl
        rw [if_neg (by omega), if_pos htilde, if_neg (by omega), ← hgo]
        rfl
      rw [if_neg htilde] at h ⊢
      rw [if_neg htilde]
      obtain ⟨hroom, hgo⟩ := hnext (.lit c) noSkip (by omega) h
      have hpos := length_ere_pos (.lit c)
      rw [if_neg (by omega), ← hgo]
      exact write_lit hroom _

/-! ### The expression, read -/

theorem escape_meta {c : Char} (h : c ∈ regexMeta) : Regex.escape c = some (.lit (toLower c)) := by
  have hnot : ∀ c ∈ regexMeta, c ∉ ['d', 'D', 'w', 'W', 's', 'S', 'b', 'B'] ∧ c ≠ 'n' ∧ c ≠ 't' ∧ c ≠ 'r' := by
    decide
  obtain ⟨hclass, hn, ht, hr⟩ := hnot c h
  rw [Regex.escape, if_neg hclass, if_neg hn, if_neg ht, if_neg hr]

theorem charToken_plain {c : Char} (h : c ∉ regexMeta) :
    Regex.charToken c = some (.lit (toLower c)) := by
  have hmem {d : Char} (hd : d ∈ regexMeta) : c ≠ d := ne_of_mem_of_not_mem hd h |>.symm
  have hleft : c ∉ ['\x7b', '|', '(', ')'] := fun hc => h ((by decide : ['\x7b', '|', '(', ')'] ⊆ regexMeta) hc)
  rw [Regex.charToken, if_neg (hmem (by decide)), if_neg (hmem (by decide)), if_neg (hmem (by decide)),
    if_neg (hmem (by decide)), if_neg (hmem (by decide)), if_neg (hmem (by decide)), if_neg hleft]

theorem tokenise_item (i : Item) (f : ℕ) (p : CStr) :
    Regex.tokenise (f + i.part.tokens.length) (i.ere ++ p) =
      (Regex.tokenise f p).map (i.part.tokens ++ ·) := by
  cases i with
  | lit c =>
    rw [Item.ere]
    split
    · next hmeta =>
      show Regex.tokenise (f + 1) ('\\' :: c :: p) = _
      rw [Regex.tokenise, if_pos ⟨rfl, cons_ne_nil c p⟩]
      show (Regex.escape c).bind _ = _
      rw [escape_meta hmeta]
      show (Regex.tokenise f p).bind _ = _
      cases Regex.tokenise f p <;> rfl
    · next hmeta =>
      have hslash : c ≠ '\\' := fun hc => hmeta (hc ▸ by decide)
      have hclass : c ≠ '[' := fun hc => hmeta (hc ▸ by decide)
      show Regex.tokenise (f + 1) (c :: p) = _
      rw [Regex.tokenise, if_neg fun h => hslash h.1, if_neg hclass, charToken_plain hmeta]
      show (Regex.tokenise f p).bind _ = _
      cases Regex.tokenise f p <;> rfl
  | quest =>
    show (Regex.tokenise f p).bind _ = _
    cases Regex.tokenise f p <;> rfl
  | star =>
    show ((Regex.tokenise f p).bind _).bind _ = _
    cases Regex.tokenise f p <;> rfl
  | percent =>
    show ((Regex.tokenise f p).bind _).bind _ = _
    cases Regex.tokenise f p <;> rfl
  | tilde =>
    show ((Regex.tokenise f p).bind _).bind _ = _
    cases Regex.tokenise f p <;> rfl

theorem length_tokens_le (i : Item) : i.part.tokens.length ≤ i.ere.length := by
  cases i with
  | lit c => exact length_ere_pos _
  | _ => decide

theorem tokenise_items (is : List Item) (f : ℕ) (p : CStr) :
    Regex.tokenise (f + ((is.map Item.part).flatMap Regex.Part.tokens).length) (is.flatMap Item.ere ++ p) =
      (Regex.tokenise f p).map ((is.map Item.part).flatMap Regex.Part.tokens ++ ·) := by
  induction is with
  | nil =>
    show Regex.tokenise f p = (Regex.tokenise f p).map fun ts => ts
    rw [Option.map_id']
  | cons i is ih =>
    rw [map_cons, flatMap_cons, flatMap_cons, append_assoc, length_append,
      Nat.add_comm i.part.tokens.length, ← Nat.add_assoc, tokenise_item, ih, Option.map_map]
    refine congrFun (congrArg _ (funext fun ts => ?_)) _
    exact (append_assoc _ _ _).symm

theorem length_flatMap_tokens_le (is : List Item) :
    ((is.map Item.part).flatMap Regex.Part.tokens).length ≤ (is.flatMap Item.ere).length := by
  induction is with
  | nil => exact Nat.le_refl 0
  | cons i is ih =>
    have hi := length_tokens_le i
    rw [map_cons, flatMap_cons, flatMap_cons, length_append, length_append]
    omega

/-- The parts of an expression with its anchors. -/
def anchored (is : List Item) : List Regex.Part := .bol :: (is.map Item.part ++ [.eol])

theorem tokenise_anchored (is : List Item) :
    Regex.tokenise ((('^' :: is.flatMap Item.ere) ++ ['$']).length + 1)
      (('^' :: is.flatMap Item.ere) ++ ['$']) = some ((anchored is).flatMap Regex.Part.tokens) := by
  have hle := length_flatMap_tokens_le is
  obtain ⟨f, hf⟩ : ∃ f, (is.flatMap Item.ere).length + 2 =
      f + 2 + ((is.map Item.part).flatMap Regex.Part.tokens).length :=
    ⟨(is.flatMap Item.ere).length - ((is.map Item.part).flatMap Regex.Part.tokens).length, by omega⟩
  have hlength : ((('^' :: is.flatMap Item.ere) ++ ['$']).length + 1) =
      f + 2 + ((is.map Item.part).flatMap Regex.Part.tokens).length + 1 := by
    rw [length_append, length_cons, length_singleton, hf]
  rw [hlength, cons_append]
  show (Regex.tokenise _ (is.flatMap Item.ere ++ ['$'])).bind _ = _
  rw [tokenise_items]
  show some _ = _
  rw [anchored, flatMap_cons, flatMap_append]
  rfl

/-! ### What is taken -/

/-- A character below the letters. -/
theorem toLower_eq_iff {c : Char} (hc : c.toNat < 65) (a : Char) : toLower a = c ↔ a = c := by
  rw [toLower]
  split
  · next h =>
    rw [char_le_iff, char_le_iff] at h
    have hA : 'A'.toNat = 65 := rfl
    have hZ : 'Z'.toNat = 90 := rfl
    refine iff_of_false ?_ ?_
    · intro heq
      have hcode := congrArg Char.toNat heq
      rw [toNat_ofNat_of_lt (by omega)] at hcode
      omega
    · rintro rfl
      omega
  · exact Iff.rfl

theorem clsSet_blank (a : Char) :
    Regex.clsSet (fun _ => false) ' ' (toLower a) = (a == ' ') := by
  have hblank : toLower ' ' = ' ' := rfl
  rw [Regex.clsSet, Bool.or_false, hblank, Bool.eq_iff_iff, beq_iff_eq, beq_iff_eq,
    toLower_eq_iff (by decide), toLower_eq_iff (by decide)]

theorem takes_item (i : Item) (ps : List Regex.Part) (g : List (Pieces.Piece Char))
    (h : ∀ prev cur, Regex.Takes ps prev cur ↔
      ∃ x y, cur = x ++ y ∧ Pieces.Matches g x ∧ Regex.atEol y) (prev : Option Char) (cur : CStr) :
    Regex.Takes (i.part :: ps) prev cur ↔
      ∃ x y, cur = x ++ y ∧ Pieces.Matches (i.piece :: g) x ∧ Regex.atEol y := by
  -- one character, and a run of characters
  have hone (a : Regex.Atom) (q : Char → Bool) (hq : ∀ c, a.takes c = q c) :
      Regex.Takes (.one a :: ps) prev cur ↔
        ∃ x y, cur = x ++ y ∧ Pieces.Matches (.one q :: g) x ∧ Regex.atEol y := by
    constructor
    · rintro ⟨c, t, rfl, hc, ht⟩
      obtain ⟨x, y, rfl, hx, hy⟩ := (h _ _).1 ht
      exact ⟨c :: x, y, rfl, ⟨c, x, rfl, (hq c).symm.trans hc, hx⟩, hy⟩
    · rintro ⟨_, y, rfl, ⟨c, x, rfl, hc, hx⟩, hy⟩
      exact ⟨c, x ++ y, rfl, (hq c).trans hc, (h _ _).2 ⟨x, y, rfl, hx, hy⟩⟩
  have hstar (a : Regex.Atom) (q : Char → Bool) (hq : ∀ c, a.takes c = q c) :
      Regex.Takes (.star a :: ps) prev cur ↔
        ∃ x y, cur = x ++ y ∧ Pieces.Matches (.star q :: g) x ∧ Regex.atEol y := by
    constructor
    · rintro ⟨u, t, rfl, hu, ht⟩
      obtain ⟨x, y, rfl, hx, hy⟩ := (h _ _).1 ht
      exact ⟨u ++ x, y, (append_assoc _ _ _).symm,
        ⟨u, x, rfl, fun c hc => (hq c).symm.trans (hu c hc), hx⟩, hy⟩
    · rintro ⟨_, y, rfl, ⟨u, x, rfl, hu, hx⟩, hy⟩
      exact ⟨u, x ++ y, append_assoc _ _ _, fun c hc => (hq c).trans (hu c hc),
        (h _ _).2 ⟨x, y, rfl, hx, hy⟩⟩
  cases i with
  | lit c => exact hone _ _ fun _ => rfl
  | quest => exact hone _ _ fun _ => rfl
  | star => exact hstar _ _ fun _ => rfl
  | percent =>
    refine hstar _ _ fun c => ?_
    show (!Regex.clsSet (fun _ => false) ' ' (toLower c)) = (c != ' ')
    rw [clsSet_blank]
    rfl
  | tilde =>
    have hq (c : Char) : Regex.Atom.takes (.cls (Regex.clsSet (fun _ => false) ' ')) c = (c == ' ') :=
      clsSet_blank c
    constructor
    · rintro ⟨u, t, rfl, hne, hu, ht⟩
      obtain ⟨x, y, rfl, hx, hy⟩ := (h _ _).1 ht
      exact ⟨u ++ x, y, (append_assoc _ _ _).symm,
        ⟨u, x, rfl, hne, fun c hc => (hq c).symm.trans (hu c hc), hx⟩, hy⟩
    · rintro ⟨_, y, rfl, ⟨u, x, rfl, hne, hu, hx⟩, hy⟩
      exact ⟨u, x ++ y, append_assoc _ _ _, hne, fun c hc => (hq c).trans (hu c hc),
        (h _ _).2 ⟨x, y, rfl, hx, hy⟩⟩

theorem takes_items (is : List Item) (prev : Option Char) (cur : CStr) :
    Regex.Takes (is.map Item.part ++ [.eol]) prev cur ↔
      ∃ x y, cur = x ++ y ∧ Pieces.Matches (is.map Item.piece) x ∧ Regex.atEol y := by
  induction is generalizing prev cur with
  | nil =>
    constructor
    · rintro ⟨heol, -⟩
      exact ⟨[], cur, rfl, rfl, heol⟩
    · rintro ⟨x, y, rfl, rfl, hy⟩
      exact ⟨hy, trivial⟩
  | cons i is ih => exact takes_item i _ _ ih prev cur

/-! ### Runs that are collapsed -/

/-- Two patterns that take the same texts. -/
def Alike (g g' : List (Pieces.Piece Char)) : Prop := ∀ s, Pieces.Matches g s ↔ Pieces.Matches g' s

theorem Alike.cons {g g' : List (Pieces.Piece Char)} (h : Alike g g') (p : Pieces.Piece Char) :
    Alike (p :: g) (p :: g') := by
  intro s
  cases p with
  | one p => exact exists_congr fun a => exists_congr fun t => and_congr_right fun _ =>
      and_congr_right fun _ => h t
  | star p => exact exists_congr fun x => exists_congr fun y => and_congr_right fun _ =>
      and_congr_right fun _ => h y
  | plus p => exact exists_congr fun x => exists_congr fun y => and_congr_right fun _ =>
      and_congr_right fun _ => and_congr_right fun _ => h y

theorem alike_star_star (p : Char → Bool) (g : List (Pieces.Piece Char)) :
    Alike (.star p :: .star p :: g) (.star p :: g) := by
  intro s
  constructor
  · rintro ⟨x, _, rfl, hx, y, z, rfl, hy, hz⟩
    refine ⟨x ++ y, z, (append_assoc _ _ _).symm, fun a ha => ?_, hz⟩
    rcases mem_append.1 ha with ha | ha
    · exact hx a ha
    · exact hy a ha
  · intro h
    exact ⟨[], s, rfl, fun a ha => absurd ha not_mem_nil, h⟩

/-- What the items of a mask take, behind each kind of item. -/
structure Read (perMode : Bool) (m : CStr) : Prop where
  plain : ∀ quoted,
    Alike ((items perMode quoted noSkip m).map Item.piece) (pieces perMode quoted false m)
  star : Alike (.star (fun _ => true) :: (items perMode false (· == '*') m).map Item.piece)
    (.star (fun _ => true) :: pieces perMode false false m)
  percent : perMode = true →
    Alike (.star (fun a => a != ' ') :: (items perMode false (· == '%') m).map Item.piece)
      (.star (fun a => a != ' ') :: pieces perMode false false m)
  tilde : perMode = true →
    Alike ((items perMode false (fun c => c == '~' || c == ' ') m).map Item.piece)
      (pieces perMode false true m)

theorem items_of_skip (skip : Char → Bool) {c : Char} (h : skip c = true) (m : CStr) :
    items perMode false skip (c :: m) = items perMode false skip m := by
  rw [items, if_pos h]

theorem items_of_not_skip (skip : Char → Bool) {c : Char} (h : ¬skip c = true) (m : CStr) :
    items perMode false skip (c :: m) = items perMode false noSkip (c :: m) := by
  rw [items, items, if_neg h, if_neg (show ¬noSkip c = true from Bool.false_ne_true)]

theorem Read.cons_plain (h : Read perMode m) (c : Char) (quoted : Bool) :
    Alike ((items perMode quoted noSkip (c :: m)).map Item.piece)
      (pieces perMode quoted false (c :: m)) := by
  cases quoted with
  | true =>
    rw [items, pieces, map_cons]
    exact (h.plain false).cons _
  | false =>
    have hnot : ¬(false = true ∧ (c = '~' ∨ c = ' ')) := fun hc => Bool.false_ne_true hc.1
    rw [items, pieces, if_neg (show ¬noSkip c = true from Bool.false_ne_true), if_neg hnot]
    by_cases hquote : perMode = true ∧ c = '\\'
    · rw [if_pos hquote, if_pos hquote]
      exact h.plain true
    rw [if_neg hquote, if_neg hquote]
    by_cases hstar : c = '*'
    · rw [if_pos hstar, if_pos hstar]
      exact h.star
    rw [if_neg hstar, if_neg hstar]
    by_cases hone : c = '?'
    · rw [if_pos hone, if_pos hone]
      exact (h.plain false).cons _
    rw [if_neg hone, if_neg hone]
    by_cases hpercent : perMode = true ∧ c = '%'
    · rw [if_pos hpercent, if_pos hpercent]
      exact h.percent hpercent.1
    rw [if_neg hpercent, if_neg hpercent]
    by_cases htilde : perMode = true ∧ c = '~'
    · rw [if_pos htilde, if_pos htilde]
      exact (h.tilde htilde.1).cons _
    rw [if_neg htilde, if_neg htilde]
    exact (h.plain false).cons _

theorem read (perMode : Bool) (m : CStr) : Read perMode m := by
  induction m with
  | nil =>
    refine ⟨fun quoted => ?_, fun s => Iff.rfl, fun _ s => Iff.rfl, fun _ s => Iff.rfl⟩
    cases quoted <;> exact fun s => Iff.rfl
  | cons c m ih =>
    have hplain := ih.cons_plain c
    refine ⟨hplain, ?_, fun hper => ?_, fun hper => ?_⟩
    · by_cases hc : (c == '*') = true
      · obtain rfl := beq_iff_eq.1 hc
        have hpieces : pieces perMode false false ('*' :: m) =
            .star (fun _ => true) :: pieces perMode false false m := by
          rw [pieces, if_neg (fun hc => Bool.false_ne_true hc.1),
            if_neg (fun hc => absurd hc.2 (by decide)), if_pos rfl]
        rw [items_of_skip (· == '*') rfl, hpieces]
        exact fun s => (ih.star s).trans (alike_star_star _ _ s).symm
      · rw [items_of_not_skip (· == '*') hc]
        exact (hplain false).cons _
    · by_cases hc : (c == '%') = true
      · obtain rfl := beq_iff_eq.1 hc
        have hpieces : pieces perMode false false ('%' :: m) =
            .star (fun a => a != ' ') :: pieces perMode false false m := by
          rw [pieces, if_neg fun hc => Bool.false_ne_true hc.1, if_neg fun hc => absurd hc.2 (by decide),
            if_neg (by decide), if_neg (by decide), if_pos ⟨hper, rfl⟩]
        rw [items_of_skip (· == '%') rfl, hpieces]
        exact fun s => (ih.percent hper s).trans (alike_star_star _ _ s).symm
      · rw [items_of_not_skip (· == '%') hc]
        exact (hplain false).cons _
    · by_cases hc : (c == '~' || c == ' ') = true
      · have hc' : c = '~' ∨ c = ' ' := by
          rw [Bool.or_eq_true, beq_iff_eq, beq_iff_eq] at hc
          exact hc
        rw [items_of_skip (fun c => c == '~' || c == ' ') hc, pieces, if_pos ⟨rfl, hc'⟩]
        exact ih.tilde hper
      · have hpieces : pieces perMode false true (c :: m) = pieces perMode false false (c :: m) := by
          rw [Bool.or_eq_true, beq_iff_eq, beq_iff_eq] at hc
          have htrue : ¬(true = true ∧ (c = '~' ∨ c = ' ')) := fun h => hc h.2
          have hfalse : ¬(false = true ∧ (c = '~' ∨ c = ' ')) := fun h => Bool.false_ne_true h.1
          rw [pieces, pieces, if_neg htrue, if_neg hfalse]
        rw [items_of_not_skip (fun c => c == '~' || c == ' ') hc, hpieces]
        exact hplain false

/-! ### What matches -/

/-- A mask whose expression fits takes the start of the text up to its end, or up to a newline. -/
theorem search_iff (h : Fits perMode m) : search m n perMode ≠ 0 ↔
    ∃ x y, n = x ++ y ∧ Pieces.Matches (pieces perMode false false m) x ∧ Regex.atEol y := by
  have hloop := @ircLoop_eq perMode m ['^'] 1022 noSkip (by
    rw [length_singleton, Nat.add_comm]
    exact Nat.succ_le_succ h)
  obtain ⟨re, hre, hmatch⟩ := Regex.opRegexMatch_parts
    (tokenise_anchored (items perMode false noSkip m))
  have here : ircToEre m 1024 perMode =
      some (('^' :: (items perMode false noSkip m).flatMap Item.ere) ++ ['$']) := by
    rw [ircToEre, if_neg (by decide), hloop]
    rfl
  rw [search, here]
  dsimp only
  rw [hre]
  dsimp only
  have htakes : Regex.opRegexMatch re n = true ↔
      ∃ x y, n = x ++ y ∧ Pieces.Matches (pieces perMode false false m) x ∧ Regex.atEol y := by
    rw [hmatch n]
    refine (and_iff_right (.inl rfl)).trans ((takes_items _ none n).trans ?_)
    exact exists_congr fun x => exists_congr fun y => and_congr_right fun _ =>
      and_congr_left fun _ => (read perMode m).plain false x
  rw [← htakes]
  cases Regex.opRegexMatch re n <;> decide

theorem fits_of_length (h : m.length ≤ 510) : Fits false m := by
  have hle (skip : Char → Bool) :
      ((items false false skip m).flatMap Item.ere).length ≤ 2 * m.length := by
    clear h
    have hno {p : Prop} : ¬(false = true ∧ p) := fun h => Bool.false_ne_true h.1
    induction m generalizing skip with
    | nil => exact Nat.le_refl 0
    | cons c m ih =>
      have hcons (i : Item) (skip' : Char → Bool) (hi : i.ere.length ≤ 2) :
          ((i :: items false false skip' m).flatMap Item.ere).length ≤ 2 * (c :: m).length := by
        have := ih skip'
        rw [flatMap_cons, length_append, length_cons]
        omega
      rw [items, if_neg hno, if_neg hno, if_neg hno]
      split
      · exact (ih skip).trans (Nat.mul_le_mul_left 2 (Nat.le_succ _))
      split
      · exact hcons .star _ (Nat.le_refl 2)
      split
      · exact hcons .quest _ (Nat.le_succ 1)
      · refine hcons (.lit c) _ ?_
        rw [Item.ere]
        split
        · exact Nat.le_refl 2
        · exact Nat.le_succ 1
  have := hle noSkip
  rw [Fits, body]
  omega

theorem wildMatch_iff (h : Fits false m) : wildMatch m n ≠ 0 ↔ m ≠ [] ∧ n ≠ [] ∧
    ∃ x y, n = x ++ y ∧ Pieces.Matches (pieces false false false m) x ∧ Regex.atEol y := by
  rw [wildMatch]
  split
  · next hnil =>
    refine iff_of_false (fun hne => hne rfl) ?_
    rintro ⟨hm, hn, -⟩
    exact hnil.elim hm hn
  · next hne =>
    rw [not_or] at hne
    rw [search_iff h, and_iff_right hne.1, and_iff_right hne.2]

theorem wildMatchPer_iff (h : Fits true m) : wildMatchPer m n ≠ 0 ↔ n ≠ [] ∧
    ∃ x y, n = x ++ y ∧ Pieces.Matches (pieces true false false m) x ∧ Regex.atEol y := by
  rw [wildMatchPer]
  split
  · next hnil => exact iff_of_false (fun hne => hne rfl) fun hn => hn.1 hnil
  · next hne => rw [search_iff h, and_iff_right hne]

/-- Without a newline, a text goes up to its end. -/
theorem whole_iff {g : List (Pieces.Piece Char)} (hn : '\n' ∉ n) :
    (∃ x y, n = x ++ y ∧ Pieces.Matches g x ∧ Regex.atEol y) ↔ Pieces.Matches g n := by
  constructor
  · rintro ⟨x, y, rfl, hx, hy⟩
    cases y with
    | nil => rwa [append_nil]
    | cons c y =>
      rcases hy with hy | hy
      · cases hy
      · obtain rfl := Option.some.inj hy
        exact absurd (mem_append_right x mem_cons_self) hn
  · intro h
    exact ⟨n, [], (append_nil n).symm, h, .inl rfl⟩

/-- The pieces of a mask without quotes, `%` and `~` are the items of a plain pattern. -/
theorem pieces_eq_mask (m : CStr) : pieces false false false m = (mask m).map Pieces.ofItem := by
  induction m with
  | nil => rfl
  | cons c m ih =>
    have hfalse {p : Prop} : ¬(false = true ∧ p) := fun h => Bool.false_ne_true h.1
    rw [pieces, if_neg hfalse, if_neg hfalse, if_neg hfalse, if_neg hfalse, ih, mask, mask, map_cons,
      map_cons]
    split
    · rfl
    · split <;> rfl

/-- Masks are wildcards: of a text without newlines, a mask that fits takes what its items say.  Letters
are compared without the case of ASCII, and only `wild_match_per` knows quotes, `%` and `~`. -/
theorem wildMatch_glob (hn : '\n' ∉ n) :
    (Fits false m → (wildMatch m n ≠ 0 ↔ m ≠ [] ∧ n ≠ [] ∧ Glob.Matches (mask m) n)) ∧
      (Fits true m →
        (wildMatchPer m n ≠ 0 ↔ n ≠ [] ∧ Pieces.Matches (pieces true false false m) n)) := by
  constructor
  · intro hfits
    rw [wildMatch_iff hfits, whole_iff hn, pieces_eq_mask, Pieces.matches_glob]
  · intro hfits
    rw [wildMatchPer_iff hfits, whole_iff hn]

theorem wildMatch_glob_host : wildMatch ['*', '.', 'D', '?'] ['a', '.', 'd', 'e'] ≠ 0 :=
  ((wildMatch_glob (by decide)).1 (by decide)).2 ⟨by decide, by decide, by decide⟩

/-! ### Quotes and RFC 1459 -/

/-- The items of a mask in which a backslash quotes, compared as RFC 1459 has it. -/
def quotedMask : CStr → List (Glob.Item Char)
  | [] => []
  | ['\\'] => []
  | '\\' :: c :: m => .one (fun a => rfcToupper c == rfcToupper a) :: quotedMask m
  | c :: m =>
    (if c = '*' then .many else if c = '?' then .one fun _ => true
      else .one fun a => rfcToupper c == rfcToupper a) :: quotedMask m

/-- `wild_match` is not like that: for it, the left brace is not the small letter of `[`. -/
theorem not_quotedMask : ¬∀ m n : CStr, wildMatch m n ≠ 0 ↔ Glob.Matches (quotedMask m) n := by
  intro h
  have hno : wildMatch ['\x7b'] ['['] = 0 := rfl
  exact (h ['\x7b'] ['[']).2 (by decide) hno

end Eggdrop.WildMatch
