import Mathlib.Data.List.Basic
import Eggdrop.Base.CString

/-!
# NoteLine — the lines of a file of notes

A note is a line: whom it is for, whom it is from, when it was left, and the text.  The readers of
notes.c take a line in one call of `fgets` if it fits their buffer, and in several calls otherwise.

* `filterMap_readLines`: what is read where all lines fit.
* `lineOf_render`, `lineOf_words`: a line that is written back holds the note that was read.
-/

namespace Eggdrop.Notes

open List

/-- What `fgets` returns call by call, with room for `n` characters; `acc` has the characters of
this call so far, the last one first. -/
def fgetsLoop (n : ℕ) : CStr → ℕ → CStr → List CStr
  | [], _, [] => []
  | acc, _, [] => [acc.reverse]
  | acc, room, c :: s =>
    if c = '\n' ∨ room ≤ 1 then (c :: acc).reverse :: fgetsLoop n [] n s
    else fgetsLoop n (c :: acc) (room - 1) s

def fgetsCalls (n : ℕ) (text : CStr) : List CStr := fgetsLoop n [] n text

/-- A line end is cut off. -/
def chomp (s : CStr) : CStr := if s.getLast? = some '\n' then s.dropLast else s

structure Note where
  toHand : CStr
  fromHand : CStr
  ts : CStr
  text : CStr
deriving DecidableEq, Repr

/-- The words of a note after the first one. -/
def Note.of (toHand rest : CStr) : Note :=
  { toHand := toHand, fromHand := (newsplit rest).1, ts := (newsplit (newsplit rest).2).1
    text := (newsplit (newsplit rest).2).2 }

/-- What a reader makes of the characters that one call of `fgets` gave. -/
inductive Line where
  | note (toHand rest : CStr)
  | other (s : CStr)
deriving DecidableEq, Repr

/-- An empty line or a comment. -/
def isComment (s : CStr) : Bool := s.head?.all fun c => c = '#' || c = ';'

def Line.parse (s : CStr) : Line :=
  if isComment s then .other s else .note (newsplit s).1 (newsplit s).2

def Line.of (buf : CStr) : Line := .parse (rmspace (chomp buf))

/-- The line as it is written back, without the line end. -/
def Line.render : Line → CStr
  | .note toHand rest => toHand ++ ' ' :: rest
  | .other s => s

def Line.note? : Line → Option Note
  | .note toHand rest => some (.of toHand rest)
  | .other _ => none

def readLines (n : ℕ) (text : CStr) : List Line := (fgetsCalls n text).map Line.of

/-- The notes in a file: a line each. -/
def held (text : CStr) : List Note := (text.splitOn '\n').filterMap fun l => (Line.of l).note?

/-- Every line fits a buffer for `n` characters. -/
def Fits (n : ℕ) (text : CStr) : Prop := ∀ l ∈ text.splitOn '\n', l.length ≤ n

variable {n room : ℕ} {acc l s t text : CStr}

/-! ### Lines -/

theorem splitOn_line (h : '\n' ∉ l) : (l ++ '\n' :: t).splitOn '\n' = l :: t.splitOn '\n' :=
  splitOnP_append_cons_of_forall_mem (p := (· == '\n')) (fun c hc => by
    rw [beq_eq_false_iff_ne]
    rintro rfl
    exact h hc) '\n' (beq_self_eq_true _) t

theorem splitOn_last (h : '\n' ∉ l) : l.splitOn '\n' = [l] :=
  splitOnP_eq_singleton fun c hc => by
    rw [beq_eq_false_iff_ne]
    rintro rfl
    exact h hc

theorem fgetsLoop_cons (acc : CStr) (room : ℕ) (c : Char) (s : CStr) :
    fgetsLoop n acc room (c :: s) =
      if c = '\n' ∨ room ≤ 1 then (c :: acc).reverse :: fgetsLoop n [] n s
      else fgetsLoop n (c :: acc) (room - 1) s := by
  cases acc <;> rfl

theorem fgetsLoop_line (h : '\n' ∉ l) (hroom : l.length < room) :
    fgetsLoop n acc room (l ++ '\n' :: t) = (acc.reverse ++ l ++ ['\n']) :: fgetsCalls n t := by
  induction l generalizing acc room with
  | nil =>
    rw [nil_append, fgetsLoop_cons, if_pos (.inl rfl)]
    simp [fgetsCalls]
  | cons c l ih =>
    rw [length_cons] at hroom
    rw [mem_cons, not_or] at h
    rw [cons_append, fgetsLoop_cons, if_neg (not_or.2 ⟨Ne.symm h.1, by omega⟩), ih h.2 (by omega)]
    simp

theorem fgetsLoop_full (h : '\n' ∉ l) (hne : l ≠ []) (hroom : l.length = room) :
    fgetsLoop n acc room (l ++ t) = (acc.reverse ++ l) :: fgetsCalls n t := by
  induction l generalizing acc room with
  | nil => exact absurd rfl hne
  | cons c l ih =>
    rw [length_cons] at hroom
    rw [mem_cons, not_or] at h
    rw [cons_append, fgetsLoop_cons]
    by_cases hl : l = []
    · subst hl
      rw [if_pos (.inr (by simp at hroom; omega))]
      simp [fgetsCalls]
    · have hlen := length_pos_iff.2 hl
      rw [if_neg (not_or.2 ⟨Ne.symm h.1, by omega⟩), ih h.2 hl (by omega)]
      simp

theorem fgetsLoop_last (h : '\n' ∉ l) (hne : acc ++ l ≠ []) (hroom : l.length < room) :
    fgetsLoop n acc room l = [acc.reverse ++ l] := by
  induction l generalizing acc room with
  | nil =>
    rw [append_nil] at hne ⊢
    cases acc with
    | nil => exact absurd rfl hne
    | cons c acc => rfl
  | cons c l ih =>
    rw [length_cons] at hroom
    rw [mem_cons, not_or] at h
    rw [fgetsLoop_cons, if_neg (not_or.2 ⟨Ne.symm h.1, by omega⟩),
      ih h.2 (by simp) (by omega)]
    simp

theorem line_cases (text : CStr) : '\n' ∉ text ∨ ∃ l t, '\n' ∉ l ∧ text = l ++ '\n' :: t := by
  by_cases h : '\n' ∈ text
  · obtain ⟨l, t, htext, hl⟩ := eq_append_cons_of_mem h
    exact .inr ⟨l, t, hl, htext⟩
  · exact .inl h

theorem chomp_newline (s : CStr) : chomp (s ++ ['\n']) = s := by
  rw [chomp, if_pos (by simp), dropLast_concat]

theorem chomp_of_notMem (h : '\n' ∉ s) : chomp s = s := by
  rw [chomp, if_neg]
  intro hlast
  exact h (mem_of_getLast? hlast)

theorem lineOf_newline (h : '\n' ∉ l) : Line.of (l ++ ['\n']) = Line.of l := by
  rw [Line.of, Line.of, chomp_newline, chomp_of_notMem h]

theorem readLines_line (h : '\n' ∉ l) (hn : l.length < n) :
    readLines n (l ++ '\n' :: t) = Line.of l :: readLines n t := by
  rw [readLines, fgetsCalls, fgetsLoop_line h hn, map_cons, reverse_nil, nil_append, lineOf_newline h]
  rfl

theorem readLines_full (h : '\n' ∉ l) (hne : l ≠ []) :
    readLines l.length (l ++ '\n' :: t) = Line.of l :: .other [] :: readLines l.length t := by
  rw [readLines, fgetsCalls, fgetsLoop_full h hne rfl, map_cons, reverse_nil, nil_append]
  rfl

theorem readLines_last (h : '\n' ∉ l) (hne : l ≠ []) (hn : l.length ≤ n) :
    readLines n l = [Line.of l] := by
  rcases hn.lt_or_eq with hlt | rfl
  · rw [readLines, fgetsCalls, fgetsLoop_last h (by simpa using hne) hlt]
    rfl
  · have hfull : fgetsLoop l.length [] l.length (l ++ []) = ([].reverse ++ l) :: [] :=
      fgetsLoop_full h hne rfl
    rw [append_nil] at hfull
    rw [readLines, fgetsCalls, hfull]
    rfl

theorem filterMap_readLines {β : Type*} (hn : 0 < n) (hfits : Fits n text) {f : Line → Option β}
    (hf : f (.other []) = none) :
    (readLines n text).filterMap f = (text.splitOn '\n').filterMap fun l => f (.of l) := by
  induction hlen : text.length using Nat.strong_induction_on generalizing text with
  | _ len ih =>
    subst hlen
    rcases line_cases text with h | ⟨l, t, hl, rfl⟩
    · rw [Fits, splitOn_last h, forall_mem_singleton] at hfits
      rw [splitOn_last h]
      by_cases hne : text = []
      · subst hne
        exact (filterMap_cons_none hf).symm
      · rw [readLines_last h hne hfits]
        rfl
    · rw [Fits, splitOn_line hl, forall_mem_cons] at hfits
      have ht := ih t.length (by rw [length_append, length_cons]; omega) hfits.2 rfl
      rw [splitOn_line hl, filterMap_cons, ← ht]
      rcases hfits.1.lt_or_eq with hlt | rfl
      · rw [readLines_line hl hlt, filterMap_cons]
      · rw [readLines_full hl (length_pos_iff.1 hn), filterMap_cons, filterMap_cons, hf]

theorem notes_readLines (hn : 0 < n) (hfits : Fits n text) :
    (readLines n text).filterMap Line.note? = held text :=
  filterMap_readLines hn hfits rfl

/-! ### Blanks -/

/-- The last character is no blank. -/
def EndsWell (s : CStr) : Prop := ∀ c ∈ s.getLast?, isSpace c = false

def StartsWell (s : CStr) : Prop := ∀ c ∈ s.head?, isSpace c = false

theorem dropWhile_of_head {p : Char → Bool} (h : ∀ c ∈ s.head?, p c = false) : s.dropWhile p = s := by
  cases s with
  | nil => rfl
  | cons c s => exact dropWhile_cons_of_neg (by simp [h c rfl])

theorem head?_dropWhile_of {p : Char → Bool} (s : CStr) : ∀ c ∈ (s.dropWhile p).head?, p c = false := by
  intro c hc
  have hnot := head?_dropWhile_not p s
  rw [Option.mem_def.1 hc] at hnot
  exact hnot

theorem EndsWell.suffix (h : EndsWell s) (ht : t <:+ s) : EndsWell t := by
  obtain ⟨p, rfl⟩ := ht
  intro c hc
  refine h c ?_
  rw [getLast?_append, Option.mem_def.1 hc]
  rfl

theorem rmspace_eq_self (hfirst : StartsWell s) (hlast : EndsWell s) : rmspace s = s := by
  have hback : s.reverse.dropWhile isSpace = s.reverse :=
    dropWhile_of_head fun c hc => hlast c (by rwa [head?_reverse] at hc)
  rw [rmspace, hback, reverse_reverse, dropWhile_of_head hfirst]

theorem rmspace_append_blanks {b : CStr} (s : CStr) (hb : ∀ c ∈ b, isSpace c = true) :
    rmspace (s ++ b) = rmspace s := by
  rw [rmspace, rmspace, reverse_append, dropWhile_append_of_pos]
  intro c hc
  exact hb c (mem_reverse.1 hc)

theorem endsWell_rmspace (s : CStr) : EndsWell (rmspace s) := by
  refine EndsWell.suffix ?_ (dropWhile_suffix isSpace)
  intro c hc
  rw [getLast?_reverse] at hc
  exact head?_dropWhile_of _ c hc

theorem startsWell_rmspace (s : CStr) : StartsWell (rmspace s) := head?_dropWhile_of _

theorem mem_rmspace {c : Char} (h : c ∈ rmspace s) : c ∈ s := by
  have hback := (dropWhile_suffix isSpace).subset h
  rw [mem_reverse] at hback
  exact mem_reverse.1 ((dropWhile_suffix isSpace).subset hback)

/-! ### Words -/

theorem rest_suffix (s : CStr) : (newsplit s).2 <:+ s :=
  (drop_suffix 1 _).trans ((dropWhile_suffix _).trans (dropWhile_suffix _))

theorem EndsWell.word (h : EndsWell s) (hrest : (newsplit s).2 = []) : EndsWell (newsplit s).1 := by
  have ho : EndsWell (s.dropWhile (· == ' ')) := h.suffix (dropWhile_suffix _)
  rw [newsplit] at hrest ⊢
  generalize s.dropWhile (· == ' ') = o at ho hrest
  dsimp only at hrest ⊢
  cases hdrop : o.dropWhile (· != ' ') with
  | nil =>
    have hsplit := takeWhile_append_dropWhile (p := (· != ' ')) (l := o)
    rw [hdrop, append_nil] at hsplit
    rwa [hsplit]
  | cons c t =>
    rw [hdrop, drop_one, tail_cons] at hrest
    subst hrest
    have hblank : c = ' ' := by simpa using head?_dropWhile_of (p := (· != ' ')) o c (by rw [hdrop]; rfl)
    have hlast : c ∈ o.getLast? := by
      rw [← takeWhile_append_dropWhile (p := (· != ' ')) (l := o), hdrop, getLast?_append]
      rfl
    rw [hblank] at hlast
    exact absurd (ho ' ' hlast) (by decide)

theorem word_blanks {w core b : CStr} (hblank : ' ' ∉ w) (hcore : EndsWell core)
    (hlast : core = [] → EndsWell w) (hnil : w = [] → core = []) (hb : ∀ c ∈ b, isSpace c = true) :
    ∃ core' b', w ++ ' ' :: (core ++ b) = core' ++ b' ∧ EndsWell core' ∧ newsplit core' = (w, core) ∧
      (w ≠ [] → core'.head? = w.head?) ∧ ∀ c ∈ b', isSpace c = true := by
  by_cases h : core = []
  · subst h
    exact ⟨w, ' ' :: b, rfl, hlast rfl, newsplit_single hblank, fun _ => rfl,
      forall_mem_cons.2 ⟨rfl, hb⟩⟩
  · have hw : w ≠ [] := fun hw => h (hnil hw)
    refine ⟨w ++ ' ' :: core, b, by simp, ?_, newsplit_word core hw hblank, fun _ => ?_, hb⟩
    · intro c hc
      refine hcore c ?_
      rw [getLast?_append, getLast?_cons_of_ne_nil h] at hc
      obtain ⟨d, hd⟩ := Option.ne_none_iff_exists'.1 (mt getLast?_eq_none_iff.1 h)
      rw [hd] at hc ⊢
      exact hc
    · cases w with
      | nil => exact absurd rfl hw
      | cons c w => rfl

/-! ### Lines that were read -/

theorem lineOf_of_notMem (h : '\n' ∉ l) : Line.of l = .parse (rmspace l) := by
  rw [Line.of, chomp_of_notMem h]

/-- A line that a reader gives. -/
def Line.IsRead (ℓ : Line) : Prop :=
  ∃ s, StartsWell s ∧ EndsWell s ∧ '\n' ∉ s ∧ ℓ = .parse s

theorem newline_notMem_fgetsLoop (text : CStr) : ∀ (acc : CStr) (room : ℕ), '\n' ∉ acc →
    ∀ b ∈ fgetsLoop n acc room text, '\n' ∉ chomp b := by
  induction text with
  | nil =>
    intro acc room hacc b hb
    cases acc with
    | nil => cases hb
    | cons c acc =>
      rw [mem_singleton.1 hb, chomp_of_notMem (by rwa [mem_reverse])]
      rwa [mem_reverse]
  | cons c text ih =>
    intro acc room hacc b hb
    rw [fgetsLoop_cons] at hb
    split at hb
    · rcases mem_cons.1 hb with rfl | hb
      · rw [reverse_cons]
        by_cases hc : c = '\n'
        · rw [hc, chomp_newline]
          rwa [mem_reverse]
        · have hnot : '\n' ∉ acc.reverse ++ [c] := by
            simp [hacc, Ne.symm hc]
          rwa [chomp_of_notMem hnot]
      · exact ih [] n not_mem_nil b hb
    · next hc =>
      rw [not_or] at hc
      refine ih _ _ ?_ b hb
      rw [mem_cons, not_or]
      exact ⟨Ne.symm hc.1, hacc⟩

theorem isRead_of_mem {ℓ : Line} (h : ℓ ∈ readLines n text) : ℓ.IsRead := by
  obtain ⟨b, hb, rfl⟩ := mem_map.1 h
  have hnl := newline_notMem_fgetsLoop text [] n not_mem_nil b hb
  exact ⟨_, startsWell_rmspace _, endsWell_rmspace _, fun hmem => hnl (mem_rmspace hmem), rfl⟩

theorem parse_note {s w rest : CStr} (h : Line.parse s = .note w rest) :
    isComment s = false ∧ newsplit s = (w, rest) := by
  rw [Line.parse] at h
  split at h
  · cases h
  · next hcomment =>
    rw [Line.note.injEq] at h
    exact ⟨by simpa using hcomment, Prod.ext h.1 h.2⟩

/-- The words of a note that was read. -/
structure NoteRead (w rest : CStr) : Prop where
  word : w ≠ []
  blank : ' ' ∉ w
  comment : isComment w = false
  starts : StartsWell w
  ends : EndsWell rest
  last : rest = [] → EndsWell w
  newline : '\n' ∉ w ∧ '\n' ∉ rest

theorem Line.IsRead.note {w rest : CStr} (h : (Line.note w rest).IsRead) : NoteRead w rest := by
  obtain ⟨s, hstarts, hends, hnl, hparse⟩ := h
  obtain ⟨hcomment, hsplit⟩ := parse_note hparse.symm
  obtain ⟨rfl, rfl⟩ : (newsplit s).1 = w ∧ (newsplit s).2 = rest := by simp [hsplit]
  cases s with
  | nil => cases hcomment
  | cons c s =>
    have hc : c ≠ ' ' := by
      rintro rfl
      exact absurd (hstarts ' ' rfl) (by decide)
    have hfirst : (newsplit (c :: s)).1 = c :: s.takeWhile (· != ' ') := by
      rw [newsplit, dropWhile_cons_of_neg (by simpa using hc)]
      exact takeWhile_cons_of_pos (p := (· != ' ')) (by simpa using hc)
    refine ⟨by rw [hfirst]; exact cons_ne_nil _ _, space_notMem_newsplit _, ?_, ?_,
      hends.suffix (rest_suffix _), hends.word, fun hmem => hnl ?_, fun hmem => hnl ?_⟩
    · rw [hfirst]
      exact hcomment
    · rw [hfirst]
      exact hstarts
    · exact (dropWhile_suffix _).subset (( takeWhile_prefix _).subset hmem)
    · exact (rest_suffix _).subset hmem

theorem lineOf_note {w rest core b : CStr} (h : NoteRead w core) (hrest : rest = core ++ b)
    (hb : ∀ c ∈ b, isSpace c = true) (hnl : '\n' ∉ rest) :
    Line.of (w ++ ' ' :: rest) = .note w core := by
  obtain ⟨s, b', hs, hends, hsplit, hhead, hb'⟩ :=
    word_blanks h.blank h.ends h.last (fun hw => absurd hw h.word) hb
  have hhead := hhead h.word
  have hnl : '\n' ∉ w ++ ' ' :: rest := by
    simp [h.newline.1, hnl]
  rw [lineOf_of_notMem hnl, hrest, hs, rmspace_append_blanks s hb',
    rmspace_eq_self (fun c hc => h.starts c (hhead ▸ hc)) hends, Line.parse]
  have hcomment : isComment s = isComment w := by rw [isComment, isComment, hhead]
  rw [hcomment, h.comment, hsplit]
  rfl

theorem lineOf_note_self {w rest : CStr} (h : NoteRead w rest) :
    Line.of (w ++ ' ' :: rest) = .note w rest :=
  lineOf_note h (append_nil rest).symm (fun _ hc => nomatch hc) h.newline.2

theorem lineOf_render {ℓ : Line} (h : ℓ.IsRead) : Line.of ℓ.render = ℓ := by
  cases ℓ with
  | note w rest => exact lineOf_note_self h.note
  | other s =>
    obtain ⟨s', hstarts, hends, hnl, hparse⟩ := h
    have hs : s = s' ∧ isComment s' = true := by
      rw [Line.parse] at hparse
      split at hparse
      · next hcomment => exact ⟨Line.other.inj hparse, hcomment⟩
      · cases hparse
    obtain ⟨rfl, hcomment⟩ := hs
    rw [Line.render, lineOf_of_notMem hnl, rmspace_eq_self hstarts hends, Line.parse, if_pos hcomment]

theorem newline_notMem_render {ℓ : Line} (h : ℓ.IsRead) : '\n' ∉ ℓ.render := by
  cases ℓ with
  | note w rest =>
    obtain ⟨hw, hrest⟩ := h.note.newline
    simp [Line.render, hw, hrest]
  | other s =>
    obtain ⟨s', -, -, hnl, hparse⟩ := h
    rw [Line.parse] at hparse
    split at hparse
    · obtain rfl := Line.other.inj hparse
      exact hnl
    · cases hparse

theorem EndsWell.eq_nil (h : EndsWell s) (hword : (newsplit s).1 = []) : s = [] := by
  have hdrop : s.dropWhile (· == ' ') = [] := by
    rw [newsplit] at hword
    cases hdrop : s.dropWhile (· == ' ') with
    | nil => rfl
    | cons c t =>
      have hc : (c == ' ') = false := head?_dropWhile_of s c (by rw [hdrop]; rfl)
      rw [hdrop, takeWhile_cons_of_pos (by simpa using hc)] at hword
      cases hword
  by_contra hne
  obtain ⟨c, hc⟩ := Option.ne_none_iff_exists'.1 (mt getLast?_eq_none_iff.1 hne)
  have hblank : c = ' ' := by
    simpa using dropWhile_eq_nil_iff.1 hdrop c (mem_of_getLast? hc)
  rw [hblank] at hc
  exact absurd (h ' ' hc) (by decide)

/-- The four words of a note, with one blank between each two. -/
def Note.render (n : Note) : CStr := n.toHand ++ ' ' :: (n.fromHand ++ ' ' :: (n.ts ++ ' ' :: n.text))

theorem newline_notMem_words {w rest : CStr} (h : NoteRead w rest) :
    '\n' ∉ (Note.of w rest).render := by
  have hword : ∀ s, '\n' ∈ (newsplit s).1 → '\n' ∈ s := fun s hs =>
    (dropWhile_suffix _).subset (( takeWhile_prefix _).subset hs)
  intro hmem
  simp only [Note.render, Note.of, mem_append, mem_cons, Char.reduceEq, false_or] at hmem
  rcases hmem with hs | hs | hs | hs
  · exact h.newline.1 hs
  · exact h.newline.2 (hword _ hs)
  · exact h.newline.2 ((rest_suffix _).subset (hword _ hs))
  · exact h.newline.2 ((rest_suffix _).subset ((rest_suffix _).subset hs))

theorem lineOf_words {w rest : CStr} (h : NoteRead w rest) :
    (Line.of (Note.of w rest).render).note? = some (.of w rest) := by
  have hends := h.ends.suffix (rest_suffix rest)
  have hends' := hends.suffix (rest_suffix (newsplit rest).2)
  obtain ⟨core₁, b₁, hcore₁, hends₁, hsplit₁, -, hb₁⟩ := word_blanks (b := [])
    (space_notMem_newsplit (newsplit rest).2) hends' hends.word newsplit_nil_of_fst
    (fun _ hc => nomatch hc)
  have hnil₁ : core₁ = [] → (newsplit rest).2 = [] := by
    rintro rfl
    exact hends.eq_nil (congrArg Prod.fst hsplit₁).symm
  have hfirst : (newsplit rest).1 = [] → core₁ = [] := by
    intro hw
    rw [newsplit_nil_of_fst hw] at hsplit₁
    exact hends₁.eq_nil (congrArg Prod.fst hsplit₁)
  obtain ⟨core, b, hcore, hends₂, hsplit, -, hb⟩ := word_blanks (space_notMem_newsplit rest) hends₁
    (fun hnil => h.ends.word (hnil₁ hnil)) hfirst hb₁
  have hsame : Note.of w core = Note.of w rest := by
    rw [Note.of, Note.of, hsplit, hsplit₁]
  have hcanon : (Note.of w rest).fromHand ++ ' ' :: ((Note.of w rest).ts ++ ' ' ::
      (Note.of w rest).text) = core ++ b := by
    rw [append_nil] at hcore₁
    rw [← hcore, ← hcore₁, Note.of]
  have hnl : '\n' ∉ core ++ b := by
    rw [← hcanon]
    exact fun hmem => newline_notMem_words h (mem_append_right _ (mem_cons_of_mem _ hmem))
  have hread : NoteRead w core := by
    refine ⟨h.word, h.blank, h.comment, h.starts, hends₂, ?_, h.newline.1,
      fun hmem => hnl (mem_append_left _ hmem)⟩
    rintro rfl
    exact h.last (h.ends.eq_nil (congrArg Prod.fst hsplit).symm)
  have hline : Line.of (Note.of w rest).render = .note w core := by
    refine lineOf_note hread hcanon hb ?_
    rw [hcanon]
    exact hnl
  rw [hline, Line.note?, hsame]

end Eggdrop.Notes
