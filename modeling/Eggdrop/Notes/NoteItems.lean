import Eggdrop.Notes.NoteFile

/-!
# NoteItems — what of a file of notes is kept

The lines of account in a file are its notes and its comments.  Four functions write the file anew and
have business with some of the notes only.  They read a line in as many calls of `fgets` as it takes
and write a line for each of them; one of them writes no comments.  Blanks around a line are no part
of it.

* `items_readLines`: what is read, line by line.
* `items_changeImage`, `items_expireImage`, `items_delImage`, `items_eraseImage`: the images, in terms
  of what is read.
* `items_kept`: when the images keep what they have to.
-/

namespace Eggdrop.Notes

open List

/-! ### Items -/

/-- A line of account. -/
inductive Item where
  | note (n : Note)
  | comment (s : CStr)
deriving DecidableEq, Repr

def Line.item? : Line → Option Item
  | .note toHand rest => some (.note (.of toHand rest))
  | .other s => if s = [] then none else some (.comment s)

/-- The notes and comments of a file: a line each. -/
def items (text : CStr) : List Item := (text.splitOn '\n').filterMap fun l => (Line.of l).item?

/-- Those that a reader with room for `n` characters gets. -/
def readItems (n : ℕ) (text : CStr) : List Item := (readLines n text).filterMap Line.item?

/-! ### What the functions have business with -/

/-- A note to one handle is for another. -/
def Item.readdressed (old new : CStr) : Item → Item
  | .note n => .note (if strcaseEq n.toHand old then { n with toHand := new } else n)
  | .comment s => .comment s

/-- Notes that are too old, or to no user. -/
def Item.expired (now noteLife : ℤ) (isUser : CStr → Bool) : Item → Bool
  | .note n => Notes.expired now noteLife isUser n
  | .comment _ => false

/-- The notes to a handle are numbered, and those selected are erased. -/
def eraseItems (hand : CStr) (dl : List (ℤ × ℤ)) : ℕ → List Item → List Item
  | _, [] => []
  | i, .note n :: is =>
    if strcaseEq n.toHand hand then
      (if notesIn dl i then [] else [.note n]) ++ eraseItems hand dl (i + 1) is
    else .note n :: eraseItems hand dl i is
  | i, .comment s :: is => .comment s :: eraseItems hand dl i is

def Item.isNote : Item → Bool
  | .note _ => true
  | .comment _ => false

/-- A note to the handle. -/
def Item.isTo (hand : CStr) : Item → Bool
  | .note n => strcaseEq n.toHand hand
  | .comment _ => false

/-- The selection of an erasure; none is all. -/
def selection (maxnotes : ℤ) (sdl : CStr) : List (ℤ × ℤ) :=
  notesParse maxnotes (if sdl = [] then ['-'] else sdl)

/-- A line comes in at most one call of `fgets` that gives more than blanks. -/
def Whole (n : ℕ) (text : CStr) : Prop :=
  ∀ l ∈ text.splitOn '\n', (fgetsCalls n l).countP (fun b => rmspace b ≠ []) ≤ 1

instance (n : ℕ) (text : CStr) : Decidable (Whole n text) :=
  inferInstanceAs (Decidable (∀ l ∈ text.splitOn '\n', _))

variable {n : ℕ} {l t text : CStr}

/-! ### Lines -/

theorem item?_parse_eq_none {s : CStr} : (Line.parse s).item? = none ↔ s = [] := by
  rw [Line.parse]
  split
  · rw [Line.item?]
    split
    · next h => exact iff_of_true rfl h
    · next h => exact iff_of_false (Option.some_ne_none _) h
  · next hcomment =>
    refine iff_of_false (Option.some_ne_none _) ?_
    rintro rfl
    exact hcomment rfl

theorem items_line (h : '\n' ∉ l) (t : CStr) :
    items (l ++ ['\n'] ++ t) = (Line.of l).item?.toList ++ items t := by
  rw [append_assoc, singleton_append, items, splitOn_line h, filterMap_cons]
  rcases (Line.of l).item? with _ | i
  · rfl
  · rfl

theorem items_render {ℓ : Line} (h : ℓ.IsRead) (t : CStr) :
    items (ℓ.render ++ ['\n'] ++ t) = ℓ.item?.toList ++ items t := by
  rw [items_line (newline_notMem_render h), lineOf_render h]

theorem items_flatMap {f : Line → CStr} {g : Line → Option Item} {ls : List Line}
    (h : ∀ ℓ ∈ ls, ∀ t, items (f ℓ ++ t) = (g ℓ).toList ++ items t) :
    items (ls.flatMap f) = ls.filterMap g := by
  induction ls with
  | nil => rfl
  | cons ℓ ls ih =>
    rw [forall_mem_cons] at h
    rw [flatMap_cons, h.1, ih h.2, filterMap_cons]
    rcases g ℓ with _ | i
    · rfl
    · rfl

/-! ### The images -/

/-- The calls of `fgets` that a line takes do not reach into the next. -/
theorem readLoop_line (h : '\n' ∉ l) (acc : CStr) (hacc : '\n' ∉ acc) (room : ℕ) :
    ((fgetsLoop n acc room (l ++ '\n' :: t)).map Line.of).filterMap Line.item? =
      ((fgetsLoop n acc room l).map Line.of).filterMap Line.item? ++ readItems n t := by
  induction l generalizing acc room with
  | nil =>
    rw [nil_append, fgetsLoop_cons, if_pos (.inl rfl), reverse_cons, map_cons,
      lineOf_newline (by rwa [mem_reverse]), filterMap_cons]
    rcases acc with _ | ⟨c, acc⟩
    · rfl
    · rw [fgetsLoop, map_singleton, filterMap_cons, filterMap_nil]
      rcases (Line.of (c :: acc).reverse).item? with _ | i
      · rfl
      · rfl
      · exact cons_ne_nil _ _
  | cons c l ih =>
    rw [mem_cons, not_or] at h
    rw [cons_append, fgetsLoop_cons, fgetsLoop_cons]
    have hc : ¬ c = '\n' := Ne.symm h.1
    by_cases hroom : room ≤ 1
    · rw [if_pos (.inr hroom), if_pos (.inr hroom), map_cons, map_cons, filterMap_cons, filterMap_cons,
        ih h.2 [] not_mem_nil n]
      rcases (Line.of (c :: acc).reverse).item? with _ | i
      · rfl
      · rfl
    · have hnot : ¬ (c = '\n' ∨ room ≤ 1) := not_or.2 ⟨hc, hroom⟩
      have hacc' : '\n' ∉ c :: acc := by
        rw [mem_cons, not_or]
        exact ⟨h.1, hacc⟩
      rw [if_neg hnot, if_neg hnot, ih h.2 _ hacc']

theorem items_readLines (text : CStr) :
    readItems n text = (text.splitOn '\n').flatMap (readItems n) := by
  induction hlen : text.length using Nat.strong_induction_on generalizing text with
  | _ len ih =>
    subst hlen
    rcases line_cases text with h | ⟨l, t, hl, rfl⟩
    · rw [splitOn_last h, flatMap_singleton]
    · have ht := ih t.length (by rw [length_append, length_cons]; omega) t rfl
      rw [splitOn_line hl, flatMap_cons, ← ht]
      exact readLoop_line hl [] not_mem_nil n

theorem items_changeImage {old new : CStr} (hnew : Word new) :
    items (changeImage old new text) = (readItems lineRoom text).map (Item.readdressed old new) := by
  have hlines : ∀ ℓ ∈ readLines lineRoom text, ∀ t, items ((match ℓ with
      | .note toHand rest => (if strcaseEq toHand old then new else toHand) ++ ' ' :: rest ++ ['\n']
      | .other s => s ++ ['\n']) ++ t) =
        (ℓ.item?.map (Item.readdressed old new)).toList ++ items t := by
    intro ℓ hℓ t
    have hread := isRead_of_mem hℓ
    rcases ℓ with ⟨w, rest⟩ | s
    · dsimp only
      by_cases hw : strcaseEq w old = true
      · have hnote := hnew.noteRead hread.note.ends hread.note.newline.2
        rw [if_pos hw, items_line hnote.newline_notMem, lineOf_note_self hnote]
        simp [Line.item?, Item.readdressed, Note.of, hw]
      · rw [if_neg hw]
        have hitems := items_render hread t
        rw [Line.render] at hitems
        rw [hitems]
        simp [Line.item?, Item.readdressed, Note.of, hw]
    · have hitems := items_render hread t
      rw [Line.render] at hitems
      dsimp only
      rw [hitems, Line.item?]
      split
      · rfl
      · rfl
  refine Eq.trans (items_flatMap hlines) ?_
  rw [readItems, map_filterMap]

theorem items_expireImage {now noteLife : ℤ} {isUser : CStr → Bool} :
    items (expireImage now noteLife isUser text) =
      (readItems lineRoom text).filter fun i => !i.expired now noteLife isUser := by
  have hlines : ∀ ℓ ∈ readLines lineRoom text, ∀ t, items ((match ℓ with
      | .note toHand rest => if Notes.expired now noteLife isUser (.of toHand rest) then []
        else (Note.of toHand rest).render ++ ['\n']
      | .other s => s ++ ['\n']) ++ t) =
        (ℓ.item?.filter fun i => !i.expired now noteLife isUser).toList ++ items t := by
    intro ℓ hℓ t
    have hread := isRead_of_mem hℓ
    rcases ℓ with ⟨w, rest⟩ | s
    · dsimp only
      by_cases hexp : Notes.expired now noteLife isUser (.of w rest) = true
      · rw [if_pos hexp]
        simp [Line.item?, Item.expired, hexp]
      · have hnote : (Line.of (Note.of w rest).render).item? = some (.note (.of w rest)) := by
          have hwords := lineOf_words hread.note
          generalize Line.of (Note.of w rest).render = m at hwords ⊢
          rcases m with ⟨w', rest'⟩ | s'
          · rw [Line.item?, ← Option.some.inj hwords]
          · cases hwords
        rw [if_neg hexp, items_line (newline_notMem_words hread.note), hnote]
        simp [Option.filter_some, Line.item?, Item.expired, hexp]
    · have hitems := items_render hread t
      rw [Line.render] at hitems
      dsimp only
      rw [hitems, Line.item?]
      split
      · rfl
      · rfl
  refine Eq.trans (items_flatMap hlines) ?_
  rw [readItems, filter_filterMap]

theorem items_delLoop {hand : CStr} {dl : List (ℤ × ℤ)} {comments : Bool} {ls : List Line}
    (h : ∀ ℓ ∈ ls, ℓ.IsRead) (i : ℕ) :
    items (delLoop hand dl comments i ls) =
      (eraseItems hand dl i (ls.filterMap Line.item?)).filter fun x => comments || x.isNote := by
  induction ls generalizing i with
  | nil => rfl
  | cons ℓ ls ih =>
    rw [forall_mem_cons] at h
    have hitems := items_render h.1
    rcases ℓ with ⟨w, rest⟩ | s
    · have hcons : (Line.note w rest :: ls).filterMap Line.item? =
          .note (.of w rest) :: ls.filterMap Line.item? := rfl
      rw [Line.render, Line.item?] at hitems
      rw [delLoop, hcons, eraseItems]
      by_cases hw : strcaseEq w hand = true
      · rw [if_pos hw, if_pos (show strcaseEq (Note.of w rest).toHand hand = true from hw),
          filter_append, ← ih h.2]
        by_cases hin : notesIn dl i = true
        · rw [if_pos hin, if_pos hin]
          rfl
        · rw [if_neg hin, if_neg hin, hitems, filter_cons_of_pos (by simp [Item.isNote])]
          rfl
      · rw [if_neg hw, if_neg (show ¬ strcaseEq (Note.of w rest).toHand hand = true from hw), hitems,
          filter_cons_of_pos (by simp [Item.isNote]), ih h.2]
        rfl
    · rw [Line.render] at hitems
      rw [delLoop]
      by_cases hs : s = []
      · have hnone : (Line.other s).item? = none := by rw [Line.item?, if_pos hs]
        rw [filterMap_cons_none hnone, ← ih h.2]
        split
        · rw [hitems, hnone]
          rfl
        · rfl
      · have hsome : (Line.other s).item? = some (.comment s) := by rw [Line.item?, if_neg hs]
        rw [filterMap_cons_some hsome, eraseItems]
        by_cases hcomments : comments = true
        · rw [if_pos hcomments, hitems, hsome, filter_cons_of_pos (by simp [hcomments]), ih h.2]
          rfl
        · rw [if_neg hcomments, filter_cons_of_neg (by simp [hcomments, Item.isNote]), ← ih h.2]
          rfl

theorem items_delImage {maxnotes : ℤ} {hand sdl : CStr} :
    items (delImage maxnotes hand sdl text) =
      eraseItems hand (selection maxnotes sdl) 1 (readItems lineRoom text) := by
  rw [delImage, items_delLoop fun _ => isRead_of_mem]
  exact filter_eq_self.2 fun _ _ => rfl

/-- The image of `tcl_erasenotes` has no comments. -/
theorem items_eraseImage {maxnotes : ℤ} {hand sdl : CStr} :
    items (eraseImage maxnotes hand sdl text) =
      (eraseItems hand (selection maxnotes sdl) 1 (readItems readRoom text)).filter Item.isNote := by
  rw [eraseImage, items_delLoop fun _ => isRead_of_mem]
  rfl

/-! ### Lines that are split -/

theorem flatten_fgetsLoop (acc : CStr) (room : ℕ) (text : CStr) :
    (fgetsLoop n acc room text).flatten = acc.reverse ++ text := by
  induction text generalizing acc room with
  | nil =>
    rcases acc with _ | ⟨c, acc⟩
    · rfl
    · rw [fgetsLoop, flatten_singleton, append_nil]
      exact cons_ne_nil _ _
  | cons c text ih =>
    rw [fgetsLoop_cons]
    split
    · rw [flatten_cons, ih]
      simp
    · rw [ih]
      simp

theorem flatten_fgetsCalls (n : ℕ) (text : CStr) : (fgetsCalls n text).flatten = text :=
  flatten_fgetsLoop [] n text

theorem newline_notMem_call (h : '\n' ∉ l) : ∀ b ∈ fgetsCalls n l, '\n' ∉ b := by
  intro b hb hmem
  rw [← flatten_fgetsCalls n l] at h
  exact h (mem_flatten_of_mem hb hmem)

theorem rmspace_eq_nil_iff {s : CStr} : rmspace s = [] ↔ ∀ c ∈ s, isSpace c = true := by
  constructor
  · intro h
    rw [rmspace, dropWhile_eq_nil_iff] at h
    intro c hc
    have hsplit := takeWhile_append_dropWhile (p := isSpace) (l := s.reverse)
    have hmem : c ∈ s.reverse := mem_reverse.2 hc
    rw [← hsplit, mem_append] at hmem
    rcases hmem with hmem | hmem
    · exact mem_takeWhile_imp hmem
    · exact h c (mem_reverse.2 hmem)
  · intro h
    rw [← nil_append s, rmspace_append_blanks [] h]
    rfl

theorem rmspace_blanks_append {b : CStr} (hb : ∀ c ∈ b, isSpace c = true) (s : CStr) :
    rmspace (b ++ s) = rmspace s := by
  by_cases hs : ∀ c ∈ s, isSpace c = true
  · rw [rmspace_eq_nil_iff.2 hs, rmspace_eq_nil_iff]
    intro c hc
    rcases mem_append.1 hc with hc | hc
    · exact hb c hc
    · exact hs c hc
  · have hne : s.reverse.dropWhile isSpace ≠ [] := by
      rw [ne_eq, dropWhile_eq_nil_iff]
      exact fun h => hs fun c hc => h c (mem_reverse.2 hc)
    rw [rmspace, rmspace, reverse_append, dropWhile_append, if_neg (by simpa using hne),
      reverse_append, reverse_reverse, dropWhile_append_of_pos hb]

section Pieces

variable {bs : List CStr}

theorem filterMap_pieces (hnl : ∀ b ∈ bs, '\n' ∉ b)
    (hone : bs.countP (fun b => rmspace b ≠ []) ≤ 1) :
    (bs.filterMap fun b => (Line.of b).item?) = (Line.of bs.flatten).item?.toList := by
  induction bs with
  | nil => rfl
  | cons b bs ih =>
    rw [forall_mem_cons] at hnl
    have hrest : '\n' ∉ bs.flatten := by
      intro hmem
      obtain ⟨x, hx, hmem⟩ := mem_flatten.1 hmem
      exact hnl.2 x hx hmem
    have hall : '\n' ∉ b ++ bs.flatten := fun hmem => (mem_append.1 hmem).elim hnl.1 hrest
    rw [flatten_cons, lineOf_of_notMem hall]
    by_cases hb : rmspace b = []
    · have hnone : (Line.of b).item? = none := by
        rw [lineOf_of_notMem hnl.1, hb]
        rfl
      rw [countP_cons_of_neg (by simpa using hb)] at hone
      rw [filterMap_cons, hnone]
      dsimp only
      rw [ih hnl.2 hone, rmspace_blanks_append (rmspace_eq_nil_iff.1 hb),
        lineOf_of_notMem hrest]
    · rw [countP_cons_of_pos (by simpa using hb)] at hone
      have hzero : bs.countP (fun b => rmspace b ≠ []) = 0 := by omega
      have hblank : ∀ x ∈ bs, rmspace x = [] := by
        intro x hx
        simpa using countP_eq_zero.1 hzero x hx
      have hnil : (bs.filterMap fun b => (Line.of b).item?) = [] := by
        rw [filterMap_eq_nil_iff]
        intro x hx
        rw [lineOf_of_notMem (hnl.2 x hx), hblank x hx]
        rfl
      have hspace : ∀ c ∈ bs.flatten, isSpace c = true := by
        intro c hc
        obtain ⟨x, hx, hc⟩ := mem_flatten.1 hc
        exact rmspace_eq_nil_iff.1 (hblank x hx) c hc
      obtain ⟨i, hi⟩ := Option.ne_none_iff_exists'.1 (mt item?_parse_eq_none.1 hb)
      rw [← lineOf_of_notMem hnl.1] at hi
      rw [filterMap_cons, hi]
      dsimp only
      rw [hnil, rmspace_append_blanks b hspace, ← lineOf_of_notMem hnl.1, hi]
      rfl

theorem length_filterMap_pieces (hnl : ∀ b ∈ bs, '\n' ∉ b) :
    (bs.filterMap fun b => (Line.of b).item?).length = bs.countP fun b => rmspace b ≠ [] := by
  rw [length_filterMap_eq_countP]
  refine countP_congr fun b hb => ?_
  rw [lineOf_of_notMem (hnl b hb), Option.isSome_iff_ne_none, decide_eq_true_iff]
  exact not_congr item?_parse_eq_none

theorem length_item?_le (hnl : ∀ b ∈ bs, '\n' ∉ b) :
    (Line.of bs.flatten).item?.toList.length ≤ (bs.filterMap fun b => (Line.of b).item?).length := by
  by_cases hone : bs.countP (fun b => rmspace b ≠ []) ≤ 1
  · rw [filterMap_pieces hnl hone]
  · have hlen : (Line.of bs.flatten).item?.toList.length ≤ 1 := by
      rcases (Line.of bs.flatten).item? with _ | i
      · exact Nat.zero_le _
      · exact Nat.le_refl _
    rw [length_filterMap_pieces hnl]
    omega

end Pieces

theorem length_eq_of_flatMap {α β : Type*} {f g : α → List β} {ls : List α}
    (hle : ∀ a ∈ ls, (f a).length ≤ (g a).length)
    (hlen : (ls.flatMap g).length ≤ (ls.flatMap f).length) :
    ∀ a ∈ ls, (g a).length = (f a).length := by
  have hsum : ∀ ls : List α, (∀ a ∈ ls, (f a).length ≤ (g a).length) →
      (ls.flatMap f).length ≤ (ls.flatMap g).length := by
    intro ls hle
    induction ls with
    | nil => exact Nat.le_refl _
    | cons a ls ih =>
      rw [forall_mem_cons] at hle
      have hrest := ih hle.2
      rw [flatMap_cons, flatMap_cons, length_append, length_append]
      omega
  induction ls with
  | nil => exact fun a ha => absurd ha not_mem_nil
  | cons a ls ih =>
    rw [forall_mem_cons] at hle ⊢
    have hrest := hsum ls hle.2
    rw [flatMap_cons, flatMap_cons, length_append, length_append] at hlen
    exact ⟨by omega, ih hle.2 (by omega)⟩

theorem newline_notMem_line {text : CStr} : ∀ l ∈ text.splitOn '\n', '\n' ∉ l := by
  induction hlen : text.length using Nat.strong_induction_on generalizing text with
  | _ len ih =>
    subst hlen
    intro l hl
    rcases line_cases text with h | ⟨k, t, hk, rfl⟩
    · rw [splitOn_last h, mem_singleton] at hl
      rwa [hl]
    · rw [splitOn_line hk, mem_cons] at hl
      rcases hl with rfl | hl
      · exact hk
      · exact ih t.length (by rw [length_append, length_cons]; omega) rfl l hl

theorem readItems_call (n : ℕ) (l : CStr) :
    readItems n l = (fgetsCalls n l).filterMap fun b => (Line.of b).item? := by
  rw [readItems, readLines, filterMap_map]
  rfl

theorem items_eq (text : CStr) :
    items text = (text.splitOn '\n').flatMap fun l => (Line.of l).item?.toList := by
  rw [items]
  generalize text.splitOn '\n' = ls
  induction ls with
  | nil => rfl
  | cons l ls ih =>
    rw [flatMap_cons, filterMap_cons, ← ih]
    rcases (Line.of l).item? with _ | i
    · rfl
    · rfl

theorem length_readItems_line (h : '\n' ∉ l) :
    (readItems n l).length = (fgetsCalls n l).countP fun b => rmspace b ≠ [] := by
  rw [readItems_call, length_filterMap_pieces (newline_notMem_call h)]

theorem readItems_line_le (h : '\n' ∉ l) :
    (Line.of l).item?.toList.length ≤ (readItems n l).length := by
  have hle := length_item?_le (newline_notMem_call (n := n) h)
  rwa [flatten_fgetsCalls, ← readItems_call] at hle

theorem whole_of_length (h : (readItems n text).length ≤ (items text).length) : Whole n text := by
  rw [items_eq, items_readLines] at h
  have hline := length_eq_of_flatMap
    (fun l hl => readItems_line_le (n := n) (newline_notMem_line l hl)) h
  intro l hl
  have hlen : (Line.of l).item?.toList.length ≤ 1 := by
    rcases (Line.of l).item? with _ | i
    · exact Nat.zero_le _
    · exact Nat.le_refl _
  rw [← length_readItems_line (newline_notMem_line l hl), hline l hl]
  exact hlen

theorem readItems_of_whole (h : Whole n text) : readItems n text = items text := by
  rw [items_eq, items_readLines]
  refine flatMap_congr fun l hl => ?_
  have hpieces := filterMap_pieces (newline_notMem_call (n := n) (newline_notMem_line l hl)) (h l hl)
  rwa [flatten_fgetsCalls, ← readItems_call] at hpieces

/-! ### What is kept -/

section Kept

variable (text)

/-- `notes_change`, the file: nothing is written for a handle that is the same. -/
def changeFile (old new : CStr) : CStr :=
  if strcaseEq old new then text else changeImage old new text

/-- `tcl_erasenotes`, the file: nothing is written for a handle that no user has. -/
def eraseFile (isUser : CStr → Bool) (maxnotes : ℤ) (hand sdl : CStr) : CStr :=
  if isUser hand then eraseImage maxnotes hand sdl text else text

/-- The notes to one handle are another's, unless the two are the same, and all else is kept. -/
def ChangeKeeps (old new : CStr) : Prop :=
  items (changeFile text old new) =
    if strcaseEq old new then items text else (items text).map (Item.readdressed old new)

/-- All but the notes that are expired is kept. -/
def ExpireKeeps (now noteLife : ℤ) (isUser : CStr → Bool) : Prop :=
  items (expireImage now noteLife isUser text) =
    (items text).filter fun i => !i.expired now noteLife isUser

/-- All but the notes that are selected is kept by `notes_del`. -/
def DelKeeps (maxnotes : ℤ) (hand sdl : CStr) : Prop :=
  items (delImage maxnotes hand sdl text) = eraseItems hand (selection maxnotes sdl) 1 (items text)

/-- And by `tcl_erasenotes`, which selects none for a handle that no user has. -/
def EraseKeeps (isUser : CStr → Bool) (maxnotes : ℤ) (hand sdl : CStr) : Prop :=
  items (eraseFile text isUser maxnotes hand sdl) =
    if isUser hand then eraseItems hand (selection maxnotes sdl) 1 (items text) else items text

variable {text}

theorem length_eraseItems_le (hand : CStr) (dl : List (ℤ × ℤ)) (i : ℕ) (is : List Item) :
    (eraseItems hand dl i is).length ≤ is.length := by
  induction is generalizing i with
  | nil => exact Nat.le_refl _
  | cons x is ih =>
    have hrest := ih i
    have hnext := ih (i + 1)
    rcases x with n | s
    · rw [eraseItems]
      split
      · split
        · rw [nil_append, length_cons]
          omega
        · rw [singleton_append, length_cons, length_cons]
          omega
      · rw [length_cons, length_cons]
        omega
    · rw [eraseItems, length_cons, length_cons]
      omega

theorem eraseItems_of_not_isTo {hand : CStr} {dl : List (ℤ × ℤ)} {i : ℕ} {is : List Item}
    (h : ∀ x ∈ is, x.isTo hand = false) : eraseItems hand dl i is = is := by
  induction is with
  | nil => rfl
  | cons x is ih =>
    rw [forall_mem_cons] at h
    rcases x with n | s
    · have hn : ¬ strcaseEq n.toHand hand = true := by
        rw [Bool.not_eq_true]
        exact h.1
      rw [eraseItems, if_neg hn, ih h.2]
    · rw [eraseItems, ih h.2]

theorem comment_mem_eraseItems {hand s : CStr} {dl : List (ℤ × ℤ)} {is : List Item} (i : ℕ) :
    Item.comment s ∈ eraseItems hand dl i is ↔ Item.comment s ∈ is := by
  induction is generalizing i with
  | nil => rfl
  | cons x is ih =>
    rcases x with n | s'
    · rw [eraseItems]
      split
      · rw [mem_append, ih, mem_cons]
        split
        · simp
        · simp
      · rw [mem_cons, ih, mem_cons]
    · rw [eraseItems, mem_cons, ih, mem_cons]

theorem all_isNote_iff {hand : CStr} {dl : List (ℤ × ℤ)} {is : List Item} (i : ℕ) :
    (∀ x ∈ eraseItems hand dl i is, x.isNote = true) ↔
      (∀ s, Item.comment s ∉ is) := by
  constructor
  · intro h s hs
    exact absurd (h _ ((comment_mem_eraseItems i).2 hs)) (by simp [Item.isNote])
  · intro h x hx
    rcases x with n | s
    · rfl
    · exact absurd ((comment_mem_eraseItems i).1 hx) (h s)

theorem changeKeeps_iff {old new : CStr} (hnew : Word new) :
    ChangeKeeps text old new ↔ strcaseEq old new = true ∨ Whole lineRoom text := by
  rw [ChangeKeeps, changeFile]
  by_cases hsame : strcaseEq old new = true
  · rw [if_pos hsame, if_pos hsame]
    exact iff_of_true rfl (.inl hsame)
  rw [if_neg hsame, if_neg hsame, items_changeImage hnew, or_iff_right hsame]
  constructor
  · intro h
    have hlen := congrArg length h
    rw [length_map, length_map] at hlen
    exact whole_of_length (Nat.le_of_eq hlen)
  · intro h
    rw [readItems_of_whole h]

section Expire

variable {now noteLife : ℤ} {isUser : CStr → Bool}

theorem expireKeeps_of_whole (h : Whole lineRoom text) : ExpireKeeps text now noteLife isUser := by
  rw [ExpireKeeps, items_expireImage, readItems_of_whole h]

theorem whole_of_expireKeeps (hkept : ∀ i ∈ readItems lineRoom text, i.expired now noteLife isUser = false)
    (h : ExpireKeeps text now noteLife isUser) : Whole lineRoom text := by
  have hall : (readItems lineRoom text).filter (fun i => !i.expired now noteLife isUser) =
      readItems lineRoom text := by
    rw [filter_eq_self]
    intro i hi
    rw [hkept i hi]
    rfl
  rw [ExpireKeeps, items_expireImage, hall] at h
  refine whole_of_length ?_
  rw [h]
  exact length_filter_le _ _

end Expire

section Erase

variable {maxnotes : ℤ} {hand sdl : CStr}

theorem delKeeps_of_whole (h : Whole lineRoom text) : DelKeeps text maxnotes hand sdl := by
  rw [DelKeeps, items_delImage, readItems_of_whole h]

theorem whole_of_delKeeps (hnone : ∀ i ∈ readItems lineRoom text, i.isTo hand = false)
    (h : DelKeeps text maxnotes hand sdl) : Whole lineRoom text := by
  rw [DelKeeps, items_delImage, eraseItems_of_not_isTo hnone] at h
  refine whole_of_length ?_
  rw [h]
  exact length_eraseItems_le _ _ _ _

/-- `tcl_erasenotes` loses the comments. -/
theorem eraseKeeps_iff {isUser : CStr → Bool} (h : Whole readRoom text) :
    EraseKeeps text isUser maxnotes hand sdl ↔
      isUser hand = false ∨ ∀ s, Item.comment s ∉ items text := by
  rw [EraseKeeps, eraseFile]
  rcases huser : isUser hand with _ | _
  · exact iff_of_true rfl (.inl rfl)
  · rw [if_pos rfl, if_pos rfl, items_eraseImage, readItems_of_whole h, filter_eq_self, all_isNote_iff,
      or_iff_right (by decide)]

end Erase

end Kept

/-- The images keep all they have to if no line is split and, for `tcl_erasenotes`, if there are no
comments; and only then, as far as nothing else is dropped. -/
theorem items_kept (text : CStr) :
    (∀ old new, Word new →
        (ChangeKeeps text old new ↔ strcaseEq old new = true ∨ Whole lineRoom text)) ∧
      (∀ now noteLife isUser,
        (Whole lineRoom text → ExpireKeeps text now noteLife isUser) ∧
          ((∀ i ∈ readItems lineRoom text, i.expired now noteLife isUser = false) →
            ExpireKeeps text now noteLife isUser → Whole lineRoom text)) ∧
      (∀ maxnotes hand sdl,
        (Whole lineRoom text → DelKeeps text maxnotes hand sdl) ∧
          ((∀ i ∈ readItems lineRoom text, i.isTo hand = false) →
            DelKeeps text maxnotes hand sdl → Whole lineRoom text)) ∧
      ∀ isUser maxnotes hand sdl, Whole readRoom text →
        (EraseKeeps text isUser maxnotes hand sdl ↔
          isUser hand = false ∨ ∀ s, Item.comment s ∉ items text) :=
  ⟨fun _ _ => changeKeeps_iff, fun _ _ _ => ⟨expireKeeps_of_whole, whole_of_expireKeeps⟩,
    fun _ _ _ => ⟨delKeeps_of_whole, whole_of_delKeeps⟩, fun _ _ _ _ => eraseKeeps_iff⟩

/-- A file with a comment and two notes: all but `tcl_erasenotes` for a user keep it. -/
theorem items_kept_file :
    ChangeKeeps "# kept\nann bob 1 hi\nbob ann 2 hello\n".toList "bob".toList "cat".toList ∧
      DelKeeps "# kept\nann bob 1 hi\nbob ann 2 hello\n".toList 50 "ann".toList [] ∧
      ¬ EraseKeeps "# kept\nann bob 1 hi\nbob ann 2 hello\n".toList (· == "ann".toList) 50
        "ann".toList [] := by
  obtain ⟨hchange, -, hdel, herase⟩ :=
    items_kept "# kept\nann bob 1 hi\nbob ann 2 hello\n".toList
  have hword : Word "cat".toList := ⟨by decide, by decide, by decide⟩
  refine ⟨(hchange _ _ hword).2 (.inr (by decide +kernel)), (hdel _ _ _).1 (by decide +kernel), ?_⟩
  rw [herase _ _ _ _ (by decide +kernel)]
  rintro (huser | hnone)
  · exact absurd huser (by decide)
  · exact hnone "# kept".toList (by decide +kernel)

/-- A note of 530 characters to someone else is split when notes are erased, and a comment is lost. -/
theorem not_items_kept :
    ¬ DelKeeps ("ann bob 1 ".toList ++ replicate 520 'x' ++ ['\n']) 50 "cat".toList [] ∧
      ¬ EraseKeeps "# kept\n".toList (fun _ => true) 50 "cat".toList [] := by
  rw [DelKeeps, EraseKeeps]
  exact ⟨by decide +kernel, by decide +kernel⟩

end Eggdrop.Notes
