import Eggdrop.Notes.NoteLine

/-!
# NoteFile — files of notes that are written anew

A handle that changes, notes that are erased and notes that are too old: the file is read line by
line and an image of it is built, which replaces it.  Where the lines fit the buffer of the reader
the notes in the image are the notes in the file, but for the change.

* `held_changeImage`, `held_expireImage`, `held_delImage`: the three images.
* `held_append_note`: a note that is written at the end.
-/

namespace Eggdrop.Notes

open List

/-- Room for the characters of a line in `s[513]`. -/
def lineRoom : ℕ := 512

/-- Room for the characters of a line in `s[601]`. -/
def readRoom : ℕ := 600

/-- `notes_parse`: pairs of bounds, of which there is room for 62. -/
def parseLoop (maxnotes : ℤ) : ℕ → CStr → List (ℤ × ℤ)
  | 0, _ => []
  | k + 1, s =>
    let s := s.dropWhile (· = ';')
    if s = [] then []
    else
      let lo := if s.head? = some '-' then 1 else eggAtoi s
      let t := s.dropWhile fun c => c ≠ '-' && c ≠ ';'
      let hi :=
        if t.head? = some '-' then (if eggAtoi t.tail = 0 then maxnotes else eggAtoi t.tail) else lo
      (lo, hi) :: parseLoop maxnotes k (t.dropWhile (· ≠ ';'))

def notesParse (maxnotes : ℤ) (s : CStr) : List (ℤ × ℤ) := parseLoop maxnotes 62 s

/-- `notes_in`: a lower bound of -1 ends the array. -/
def notesIn (dl : List (ℤ × ℤ)) (i : ℕ) : Bool :=
  (dl.takeWhile (·.1 ≠ -1)).any fun d => d.1 ≤ i && i ≤ d.2

/-! ### Images -/

/-- `notes_change`, the image. -/
def changeImage (old new text : CStr) : CStr :=
  (readLines lineRoom text).flatMap fun
    | .note toHand rest => (if strcaseEq toHand old then new else toHand) ++ ' ' :: rest ++ ['\n']
    | .other s => s ++ ['\n']

/-- A note that is too old, or to no user; `lapse` is an `int`. -/
def expired (now noteLife : ℤ) (isUser : CStr → Bool) (n : Note) : Bool :=
  let lapse := toCInt ((now - eggAtoi n.ts).tdiv 86400)
  lapse > noteLife || !isUser n.toHand

/-- `expire_notes`, the image. -/
def expireImage (now noteLife : ℤ) (isUser : CStr → Bool) (text : CStr) : CStr :=
  (readLines lineRoom text).flatMap fun
    | .note toHand rest =>
      if expired now noteLife isUser (.of toHand rest) then []
      else (Note.of toHand rest).render ++ ['\n']
    | .other s => s ++ ['\n']

/-- The loop of `notes_del` and `tcl_erasenotes`, of which the second keeps no comments. -/
def delLoop (hand : CStr) (dl : List (ℤ × ℤ)) (comments : Bool) : ℕ → List Line → CStr
  | _, [] => []
  | i, .note toHand rest :: ls =>
    if strcaseEq toHand hand then
      (if notesIn dl i then [] else toHand ++ ' ' :: rest ++ ['\n']) ++
        delLoop hand dl comments (i + 1) ls
    else toHand ++ ' ' :: rest ++ ['\n'] ++ delLoop hand dl comments i ls
  | i, .other s :: ls => (if comments then s ++ ['\n'] else []) ++ delLoop hand dl comments i ls

/-- `notes_del`, the image. -/
def delImage (maxnotes : ℤ) (hand sdl text : CStr) : CStr :=
  delLoop hand (notesParse maxnotes (if sdl = [] then ['-'] else sdl)) true 1 (readLines lineRoom text)

/-- `tcl_erasenotes`, the image. -/
def eraseImage (maxnotes : ℤ) (hand sdl text : CStr) : CStr :=
  delLoop hand (notesParse maxnotes (if sdl = [] then ['-'] else sdl)) false 1 (readLines readRoom text)

/-! ### Changes of notes -/

/-- The notes of one handle are another's now, unless the two are the same. -/
def rename (old new : CStr) (notes : List Note) : List Note :=
  if strcaseEq old new then notes
  else notes.map fun n => if strcaseEq n.toHand old then { n with toHand := new } else n

/-- The notes to a handle are numbered, and those selected are erased. -/
def eraseFrom (hand : CStr) (dl : List (ℤ × ℤ)) : ℕ → List Note → List Note
  | _, [] => []
  | i, n :: ns =>
    if strcaseEq n.toHand hand then
      (if notesIn dl i then [] else [n]) ++ eraseFrom hand dl (i + 1) ns
    else n :: eraseFrom hand dl i ns

variable {n : ℕ} {a l t text : CStr}

/-- All lines have their ends. -/
def Ended (text : CStr) : Prop := ∀ c ∈ text.getLast?, c = '\n'

theorem held_nil : held [] = [] := by decide

theorem held_line (h : '\n' ∉ l) (t : CStr) :
    held (l ++ ['\n'] ++ t) = (Line.of l).note?.toList ++ held t := by
  rw [append_assoc, singleton_append, held, splitOn_line h, filterMap_cons]
  cases (Line.of l).note? with
  | none => rfl
  | some n => rfl

theorem held_append (h : Ended a) (t : CStr) : held (a ++ t) = held a ++ held t := by
  induction hlen : a.length using Nat.strong_induction_on generalizing a with
  | _ len ih =>
    subst hlen
    rcases line_cases a with hnl | ⟨l, b, hl, rfl⟩
    · cases hlast : a.getLast? with
      | none =>
        rw [getLast?_eq_none_iff.1 hlast, held_nil]
        rfl
      | some c =>
        have hc : c = '\n' := h c hlast
        rw [hc] at hlast
        exact absurd (mem_of_getLast? hlast) hnl
    · have hb : Ended b := by
        intro c hc
        refine h c ?_
        rw [getLast?_append, getLast?_cons, Option.mem_def.1 hc]
        rfl
      have hlen : b.length < (l ++ '\n' :: b).length := by
        rw [length_append, length_cons]
        omega
      have hsplit := held_line hl
      simp only [append_assoc, singleton_append] at hsplit
      rw [append_assoc, cons_append, hsplit, hsplit, ih _ hlen hb rfl, append_assoc]

theorem held_flatMap {f : Line → CStr} {g : Line → Option Note} {ls : List Line}
    (h : ∀ ℓ ∈ ls, ∀ t, held (f ℓ ++ t) = (g ℓ).toList ++ held t) :
    held (ls.flatMap f) = ls.filterMap g := by
  induction ls with
  | nil => exact held_nil
  | cons ℓ ls ih =>
    rw [forall_mem_cons] at h
    rw [flatMap_cons, h.1, ih h.2, filterMap_cons]
    cases g ℓ with
    | none => rfl
    | some n => rfl

theorem held_render {ℓ : Line} (h : ℓ.IsRead) (t : CStr) :
    held (ℓ.render ++ ['\n'] ++ t) = ℓ.note?.toList ++ held t := by
  rw [held_line (newline_notMem_render h), lineOf_render h]

/-- A handle as it can be given to a user. -/
structure Word (w : CStr) : Prop where
  ne : w ≠ []
  blanks : ∀ c ∈ w, isSpace c = false
  comment : isComment w = false

theorem Word.noteRead {w rest : CStr} (h : Word w) (hends : EndsWell rest) (hnl : '\n' ∉ rest) :
    NoteRead w rest where
  word := h.ne
  blank hmem := absurd (h.blanks ' ' hmem) (by decide)
  comment := h.comment
  starts c hc := h.blanks c (mem_of_head? hc)
  ends := hends
  last _ c hc := h.blanks c (mem_of_getLast? hc)
  newline := ⟨fun hmem => absurd (h.blanks '\n' hmem) (by decide), hnl⟩

theorem NoteRead.newline_notMem {w rest : CStr} (h : NoteRead w rest) : '\n' ∉ w ++ ' ' :: rest := by
  obtain ⟨hw, hrest⟩ := h.newline
  simp [hw, hrest]

theorem held_changeImage {old new : CStr} (hfits : Fits lineRoom text) (hnew : Word new)
    (hne : strcaseEq old new = false) : held (changeImage old new text) = rename old new (held text) := by
  have hlines : ∀ ℓ ∈ readLines lineRoom text, ∀ t, held ((match ℓ with
      | .note toHand rest => (if strcaseEq toHand old then new else toHand) ++ ' ' :: rest ++ ['\n']
      | .other s => s ++ ['\n']) ++ t) = (ℓ.note?.map fun n =>
        if strcaseEq n.toHand old then { n with toHand := new } else n).toList ++ held t := by
    intro ℓ hℓ t
    have hread := isRead_of_mem hℓ
    cases ℓ with
    | note w rest =>
      dsimp only
      by_cases hw : strcaseEq w old = true
      · have hnote := hnew.noteRead hread.note.ends hread.note.newline.2
        rw [if_pos hw, held_line hnote.newline_notMem, lineOf_note_self hnote]
        simp [Line.note?, Note.of, hw]
      · rw [if_neg hw]
        have hheld := held_render hread t
        rw [Line.render] at hheld
        rw [hheld]
        simp [Line.note?, Note.of, hw]
    | other s => exact held_render hread t
  rw [changeImage, held_flatMap hlines, rename, if_neg (by simp [hne]),
    ← notes_readLines (by decide) hfits, map_filterMap]

theorem held_expireImage {now noteLife : ℤ} {isUser : CStr → Bool} (hfits : Fits lineRoom text) :
    held (expireImage now noteLife isUser text) =
      (held text).filter fun n => !expired now noteLife isUser n := by
  have hlines : ∀ ℓ ∈ readLines lineRoom text, ∀ t, held ((match ℓ with
      | .note toHand rest => if expired now noteLife isUser (.of toHand rest) then []
        else (Note.of toHand rest).render ++ ['\n']
      | .other s => s ++ ['\n']) ++ t) =
        (ℓ.note?.filter fun n => !expired now noteLife isUser n).toList ++ held t := by
    intro ℓ hℓ t
    have hread := isRead_of_mem hℓ
    cases ℓ with
    | note w rest =>
      dsimp only
      by_cases hexp : expired now noteLife isUser (.of w rest) = true
      · rw [if_pos hexp]
        simp [Line.note?, hexp]
      · rw [if_neg hexp, held_line (newline_notMem_words hread.note), lineOf_words hread.note]
        simp [Line.note?, Option.filter_some, hexp]
    | other s => exact held_render hread t
  rw [expireImage, held_flatMap hlines, ← notes_readLines (by decide) hfits, filter_filterMap]

theorem held_delLoop {hand : CStr} {dl : List (ℤ × ℤ)} {comments : Bool} {ls : List Line}
    (h : ∀ ℓ ∈ ls, ℓ.IsRead) (i : ℕ) :
    held (delLoop hand dl comments i ls) = eraseFrom hand dl i (ls.filterMap Line.note?) := by
  induction ls generalizing i with
  | nil => exact held_nil
  | cons ℓ ls ih =>
    rw [forall_mem_cons] at h
    have hheld := held_render h.1
    cases ℓ with
    | note w rest =>
      rw [Line.render] at hheld
      have hcons : (Line.note w rest :: ls).filterMap Line.note? =
          Note.of w rest :: ls.filterMap Line.note? := rfl
      rw [delLoop, hcons, eraseFrom]
      by_cases hw : strcaseEq w hand = true
      · rw [if_pos hw, if_pos (show strcaseEq (Note.of w rest).toHand hand = true from hw), ← ih h.2]
        by_cases hin : notesIn dl i = true
        · rw [if_pos hin, if_pos hin]
          rfl
        · rw [if_neg hin, if_neg hin, hheld]
          rfl
      · rw [if_neg hw, if_neg (show ¬ strcaseEq (Note.of w rest).toHand hand = true from hw), hheld,
          ih h.2]
        rfl
    | other s =>
      rw [delLoop, filterMap_cons_none rfl, ← ih h.2]
      by_cases hcomments : comments = true
      · rw [if_pos hcomments]
        exact hheld _
      · rw [if_neg hcomments]
        rfl

theorem held_delImage {maxnotes : ℤ} {hand sdl : CStr} (hfits : Fits lineRoom text) :
    held (delImage maxnotes hand sdl text) =
      eraseFrom hand (notesParse maxnotes (if sdl = [] then ['-'] else sdl)) 1 (held text) := by
  rw [delImage, held_delLoop (fun _ => isRead_of_mem), notes_readLines (by decide) hfits]

theorem held_eraseImage {maxnotes : ℤ} {hand sdl : CStr} (hfits : Fits readRoom text) :
    held (eraseImage maxnotes hand sdl text) =
      eraseFrom hand (notesParse maxnotes (if sdl = [] then ['-'] else sdl)) 1 (held text) := by
  rw [eraseImage, held_delLoop (fun _ => isRead_of_mem), notes_readLines (by decide) hfits]

/-! ### A note that is left -/

/-- Blanks at the end are cut off. -/
def trimEnd (s : CStr) : CStr := (s.reverse.dropWhile isSpace).reverse

theorem endsWell_trimEnd (s : CStr) : EndsWell (trimEnd s) := by
  intro c hc
  rw [trimEnd, getLast?_reverse] at hc
  exact head?_dropWhile_of _ c hc

theorem trimEnd_append (s : CStr) : ∃ b, s = trimEnd s ++ b ∧ ∀ c ∈ b, isSpace c = true := by
  refine ⟨(s.reverse.takeWhile isSpace).reverse, ?_, fun c hc => ?_⟩
  · rw [trimEnd, ← reverse_append, takeWhile_append_dropWhile, reverse_reverse]
  · exact mem_takeWhile_imp (mem_reverse.1 hc)

/-- A word that is written in the middle of a line. -/
structure Unspaced (w : CStr) : Prop where
  ne : w ≠ []
  blanks : ∀ c ∈ w, isSpace c = false

theorem Unspaced.space_notMem {w : CStr} (h : Unspaced w) : ' ' ∉ w :=
  fun hmem => absurd (h.blanks ' ' hmem) (by decide)

theorem Unspaced.newline_notMem {w : CStr} (h : Unspaced w) : '\n' ∉ w :=
  fun hmem => absurd (h.blanks '\n' hmem) (by decide)

theorem Unspaced.endsWell {w : CStr} (h : Unspaced w) : EndsWell w :=
  fun c hc => h.blanks c (mem_of_getLast? hc)

theorem unspaced_showInt (k : ℤ) : Unspaced (showInt k) := by
  have hdigit : ∀ m, ∀ c ∈ showNat m, isSpace c = false :=
    fun m c hc => isSpace_of_isDigit (isDigit_showNat c hc)
  obtain ⟨c, t, hshow, -⟩ := showNat_eq_cons k.natAbs
  have hne : showNat k.natAbs ≠ [] := by
    rw [hshow]
    exact cons_ne_nil _ _
  rw [showInt]
  split
  · refine ⟨cons_ne_nil _ _, forall_mem_cons.2 ⟨by decide, hdigit _⟩⟩
  · exact ⟨hne, hdigit _⟩

/-- The line of a note. -/
def noteLine (toHand fromHand : CStr) (now : ℤ) (text : CStr) : CStr :=
  toHand ++ ' ' :: (fromHand ++ ' ' :: (showInt now ++ ' ' :: text)) ++ ['\n']

theorem held_append_note {toHand fromHand : CStr} {now : ℤ} (h : Ended a) (hto : Word toHand)
    (hfrom : Unspaced fromHand) (hnl : '\n' ∉ text) :
    held (a ++ noteLine toHand fromHand now text) = held a ++
      [{ toHand := toHand, fromHand := fromHand, ts := showInt now, text := trimEnd text }] := by
  have hts := unspaced_showInt now
  obtain ⟨b, hb, hspace⟩ := trimEnd_append text
  obtain ⟨core₁, b₁, hcore₁, hends₁, hsplit₁, -, hb₁⟩ := word_blanks hts.space_notMem
    (endsWell_trimEnd text) (fun _ => hts.endsWell) (fun hw => absurd hw hts.ne) hspace
  obtain ⟨core, b', hcore, hends, hsplit, -, hb'⟩ := word_blanks hfrom.space_notMem hends₁
    (fun _ => hfrom.endsWell) (fun hw => absurd hw hfrom.ne) hb₁
  rw [← hb] at hcore₁
  rw [← hcore₁] at hcore
  have hrest : '\n' ∉ fromHand ++ ' ' :: (showInt now ++ ' ' :: text) := by
    simp [hfrom.newline_notMem, hts.newline_notMem, hnl]
  have hread : NoteRead toHand core := by
    refine hto.noteRead hends fun hmem => hrest ?_
    rw [hcore]
    exact mem_append_left _ hmem
  have hline : Line.of (toHand ++ ' ' :: (fromHand ++ ' ' :: (showInt now ++ ' ' :: text))) =
      .note toHand core := lineOf_note hread hcore hb' hrest
  have hall : '\n' ∉ toHand ++ ' ' :: (fromHand ++ ' ' :: (showInt now ++ ' ' :: text)) := by
    simp [hread.newline.1, hfrom.newline_notMem, hts.newline_notMem, hnl]
  have hheld := held_line hall []
  rw [append_nil, hline, held_nil, append_nil] at hheld
  rw [held_append h, noteLine, hheld]
  simp [Line.note?, Note.of, hsplit, hsplit₁]

end Eggdrop.Notes
