import Mathlib.Data.Int.Notation
import Mathlib.Data.List.Basic
import Eggdrop.Base.CString

/-!
# Dumplots — a long text, line by line (src/misc.c)

`dumplots` puts out a text behind a prefix, in lines of at most 500 characters.  It splits at line
feeds, at the last space that lets a line fit, or in the middle of a word.  A line of the text that
ends in a line feed exactly at the limit is taken for one that is too long.

* `dumpLoop_eq`: what is put out, line of the text by line of the text.
* `layout_eq_called_iff`: when the lines that end in line feeds are wrapped as they should be.
* `dumplots_iff`: when the output is the one the text calls for.
-/

namespace Eggdrop.Dumplots

open List

/-! ### The source -/

/-- `strlen(p) > max_data_len`; a negative `int` is a large `size_t`. -/
def tooLong (max : ℤ) (p : CStr) : Bool := decide (0 ≤ max ∧ max < p.length)

/-- The search backwards from `p + q` for a space; it stops at `p`. -/
def backToSpace (p : CStr) : ℕ → ℕ
  | 0 => 0
  | q + 1 => if p[q + 1]? = some ' ' then q + 1 else backToSpace p q

/-- Where a line without a line feed is split: what is put out, and what is left.  A space there
goes. -/
def cut (max : ℕ) (p : CStr) : CStr × CStr :=
  let q := if backToSpace p max = 0 then max else backToSpace p max
  (p.take q, if p[q]? = some ' ' then p.drop (q + 1) else p.drop q)

/-- The last trailing bit, split by line feeds, for so many rounds. -/
def trailing (pre : CStr) : ℕ → CStr → Option (List CStr)
  | 0, _ => none
  | k + 1, p =>
    match p.findIdx? (· == '\n') with
    | some n => (trailing pre k (p.drop (n + 1))).map ((pre ++ p.take n) :: ·)
    | none => some (if p = [] then [] else [pre ++ p])

/-- The loop of `dumplots`, for so many rounds, and what comes behind it. -/
def dumpLoop (pre : CStr) (max : ℤ) : ℕ → CStr → Option (List CStr)
  | 0, _ => none
  | k + 1, p =>
    if tooLong max p then
      -- Search for embedded linefeed first
      match (p.findIdx? (· == '\n')).filter fun n : ℕ => decide ((n : ℤ) < max) with
      | some n => (dumpLoop pre max k (p.drop (n + 1))).map ((pre ++ p.take n) :: ·)
      | none => (dumpLoop pre max k (cut max.toNat p).2).map ((pre ++ (cut max.toNat p).1) :: ·)
    else trailing pre (p.length + 1) p

/-- `dumplots`: the lines it puts out, without their line feeds, if it is done within so many
rounds. -/
def dumplots (rounds : ℕ) (pre data : CStr) : Option (List CStr) :=
  if data = [] then some [pre] else dumpLoop pre (500 - pre.length) rounds data

/-! ### What the text calls for -/

/-- The lines of a text that end in a line feed. -/
def followed : CStr → List CStr
  | [] => []
  | c :: p => if c = '\n' then [] :: followed p else (followed p).modifyHead (c :: ·)

/-- What is behind the last line feed. -/
def lastLine : CStr → CStr
  | [] => []
  | c :: p => if c = '\n' then lastLine p else if '\n' ∈ p then lastLine p else c :: p

theorem backToSpace_le (p : CStr) (q : ℕ) : backToSpace p q ≤ q := by
  induction q with
  | zero => exact Nat.le_refl 0
  | succ q ih =>
    rw [backToSpace]
    split
    · exact Nat.le_refl _
    · omega

theorem cut_length_lt {max : ℕ} {p : CStr} (hmax : 0 < max) (hp : max ≤ p.length) :
    (cut max p).2.length < p.length := by
  have hle := backToSpace_le p max
  unfold cut
  dsimp only
  split <;> split <;> rw [length_drop] <;> omega

/-- A line in pieces that fit, as few as the search for a space makes of it. -/
def wrap (max : ℕ) (r : CStr) : List CStr :=
  if _h : 0 < max ∧ max < r.length then
    (cut max r).1 :: (if (cut max r).2 = [] then [] else wrap max (cut max r).2)
  else [r]
termination_by r.length
decreasing_by exact cut_length_lt _h.1 (Nat.le_of_lt _h.2)

/-- The lines a text calls for: each of its lines, wrapped; nothing behind a line feed at the end. -/
def called (max : ℕ) (data : CStr) : List CStr :=
  (followed data).flatMap (wrap max) ++ if lastLine data = [] then [] else wrap max (lastLine data)

/-- The pieces are the text, with at most a space or a line feed gone behind each. -/
inductive Joins : CStr → List CStr → Prop
  | done : Joins [] []
  | whole (w : CStr) : Joins w [w]
  | mid {t : CStr} {ps : List CStr} (w : CStr) : Joins t ps → Joins (w ++ t) (w :: ps)
  | sep {t : CStr} {ps : List CStr} (w : CStr) {c : Char} : c = ' ' ∨ c = '\n' → Joins t ps →
      Joins (w ++ c :: t) (w :: ps)

/-- The pieces that are put out for a line that ends in a line feed. -/
def wrapFollowed (max : ℕ) (r : CStr) : List CStr :=
  if _h : 0 < max ∧ max ≤ r.length then (cut max r).1 :: wrapFollowed max (cut max r).2 else [r]
termination_by r.length
decreasing_by exact cut_length_lt _h.1 _h.2

/-- All that is put out, without the prefix. -/
def layout (max : ℕ) (data : CStr) : List CStr :=
  (followed data).flatMap (wrapFollowed max) ++ if lastLine data = [] then [] else wrap max (lastLine data)

/-! ### The lines of a text -/

section Text

theorem followed_eq_nil {r : CStr} (h : '\n' ∉ r) : followed r = [] := by
  induction r with
  | nil => rfl
  | cons c r ih =>
    rw [mem_cons, not_or] at h
    rw [followed, if_neg (Ne.symm h.1), ih h.2]
    rfl

theorem lastLine_eq_self {r : CStr} (h : '\n' ∉ r) : lastLine r = r := by
  cases r with
  | nil => rfl
  | cons c r =>
    rw [mem_cons, not_or] at h
    rw [lastLine, if_neg (Ne.symm h.1), if_neg h.2]

theorem followed_append {r : CStr} (h : '\n' ∉ r) (p : CStr) :
    followed (r ++ '\n' :: p) = r :: followed p := by
  induction r with
  | nil => rfl
  | cons c r ih =>
    rw [mem_cons, not_or] at h
    rw [cons_append, followed, if_neg (Ne.symm h.1), ih h.2]
    rfl

theorem lastLine_append {r : CStr} (h : '\n' ∉ r) (p : CStr) :
    lastLine (r ++ '\n' :: p) = lastLine p := by
  induction r with
  | nil => rfl
  | cons c r ih =>
    rw [mem_cons, not_or] at h
    rw [cons_append, lastLine, if_neg (Ne.symm h.1), if_pos (mem_append_right _ mem_cons_self), ih h.2]

theorem first_line (p : CStr) :
    ('\n' ∉ p ∧ p.findIdx? (· == '\n') = none) ∨
      ∃ r p', '\n' ∉ r ∧ p = r ++ '\n' :: p' ∧ p.findIdx? (· == '\n') = some r.length := by
  induction p with
  | nil => exact .inl ⟨not_mem_nil, rfl⟩
  | cons c p ih =>
    rw [findIdx?_cons]
    by_cases hc : c = '\n'
    · subst hc
      exact .inr ⟨[], p, not_mem_nil, rfl, rfl⟩
    · rw [if_neg (by simpa using hc)]
      obtain ⟨hp, hf⟩ | ⟨r, p', hr, rfl, hf⟩ := ih
      · exact .inl ⟨by simp [hp, Ne.symm hc], by rw [hf]; rfl⟩
      · exact .inr ⟨c :: r, p', by simp [hr, Ne.symm hc], rfl, by rw [hf]; rfl⟩

end Text

/-! ### One split -/

section Cut

variable {max : ℕ} {r p : CStr}

theorem backToSpace_append {q : ℕ} (hq : q ≤ r.length) (p : CStr) :
    backToSpace (r ++ '\n' :: p) q = backToSpace r q := by
  induction q with
  | zero => rfl
  | succ q ih =>
    have hat : (r ++ '\n' :: p)[q + 1]? = some ' ' ↔ r[q + 1]? = some ' ' := by
      rcases Nat.lt_or_ge (q + 1) r.length with hlt | hge
      · rw [getElem?_append_left hlt]
      · obtain heq : q + 1 = r.length := by omega
        rw [heq, getElem?_append_right (Nat.le_refl _), Nat.sub_self, getElem?_eq_none (Nat.le_refl _)]
        simp
    rw [backToSpace, backToSpace, ih (by omega)]
    simp only [hat]

theorem cut_append (hr : max ≤ r.length) (p : CStr) :
    cut max (r ++ '\n' :: p) = ((cut max r).1, (cut max r).2 ++ '\n' :: p) := by
  unfold cut
  rw [backToSpace_append hr]
  have hq : (if backToSpace r max = 0 then max else backToSpace r max) ≤ r.length := by
    have := backToSpace_le r max
    split <;> omega
  generalize (if backToSpace r max = 0 then max else backToSpace r max) = q at hq ⊢
  dsimp only
  rw [take_append_of_le_length hq]
  rcases Nat.lt_or_ge q r.length with hlt | hge
  · rw [getElem?_append_left hlt, drop_append_of_le_length hq, drop_append_of_le_length (by omega)]
    split <;> rfl
  · obtain rfl : q = r.length := by omega
    rw [getElem?_append_right (Nat.le_refl _), Nat.sub_self, getElem?_eq_none (Nat.le_refl _),
      if_neg (by simp), if_neg (by simp), drop_append_of_le_length hq]

theorem length_cut_fst (max : ℕ) (r : CStr) : (cut max r).1.length ≤ max := by
  have := backToSpace_le r max
  unfold cut
  dsimp only
  rw [length_take]
  split <;> omega

theorem joins_cut {ps : List CStr} {t : CStr} (h : Joins ((cut max r).2 ++ t) ps) :
    Joins (r ++ t) ((cut max r).1 :: ps) := by
  unfold cut at h ⊢
  generalize (if backToSpace r max = 0 then max else backToSpace r max) = q at h ⊢
  dsimp only at h ⊢
  split at h
  · next hq =>
    obtain ⟨hlt, hget⟩ := List.getElem?_eq_some_iff.1 hq
    have hr : r ++ t = r.take q ++ ' ' :: (r.drop (q + 1) ++ t) := by
      rw [← cons_append, ← append_assoc, ← hget, getElem_cons_drop, take_append_drop]
    rw [hr]
    exact .sep _ (.inl rfl) h
  · have hr : r ++ t = r.take q ++ (r.drop q ++ t) := by
      rw [← append_assoc, take_append_drop]
    rw [hr]
    exact .mid _ h

end Cut

/-! ### What is put out -/

section Output

variable {max : ℕ}

theorem wrapFollowed_short {r : CStr} (h : r.length < max) : wrapFollowed max r = [r] := by
  rw [wrapFollowed, dif_neg (by omega)]

theorem wrapFollowed_long (hmax : 0 < max) {r : CStr} (h : max ≤ r.length) :
    wrapFollowed max r = (cut max r).1 :: wrapFollowed max (cut max r).2 := by
  rw [wrapFollowed, dif_pos ⟨hmax, h⟩]

theorem layout_append {r : CStr} (hr : '\n' ∉ r) (p : CStr) :
    layout max (r ++ '\n' :: p) = wrapFollowed max r ++ layout max p := by
  unfold layout
  rw [followed_append hr, lastLine_append hr, flatMap_cons, append_assoc]

theorem layout_last {r : CStr} (hr : '\n' ∉ r) :
    layout max r = if r = [] then [] else wrap max r := by
  unfold layout
  rw [followed_eq_nil hr, lastLine_eq_self hr]
  rfl

theorem trailing_eq (pre : CStr) {k : ℕ} {p : CStr} (hp : p.length ≤ max) (hk : p.length < k) :
    trailing pre k p = some ((layout max p).map (pre ++ ·)) := by
  induction k generalizing p with
  | zero => exact absurd hk (Nat.not_lt_zero _)
  | succ k ih =>
    rw [trailing]
    obtain ⟨hno, hf⟩ | ⟨r, p', hr, rfl, hf⟩ := first_line p
    · rw [hf, layout_last hno]
      dsimp only
      split
      · rfl
      · rw [wrap, dif_neg (by omega)]
        rfl
    · rw [length_append, length_cons] at hp hk
      have htake : (r ++ '\n' :: p').take r.length = r := take_left
      have hdrop : (r ++ '\n' :: p').drop (r.length + 1) = p' := by
        rw [← drop_drop, drop_left]
        rfl
      rw [hf]
      dsimp only
      rw [htake, hdrop, ih (by omega) (by omega), layout_append hr, wrapFollowed_short (by omega)]
      rfl

theorem notMem_cut {r : CStr} {c : Char} (h : c ∉ r) : c ∉ (cut max r).2 := by
  intro hm
  unfold cut at hm
  generalize (if backToSpace r max = 0 then max else backToSpace r max) = q at hm
  dsimp only at hm
  split at hm <;> exact h ((drop_sublist _ _).subset hm)

theorem dumpLoop_eq (pre : CStr) (hmax : 0 < max) {k : ℕ} {p : CStr} (hk : p.length < k) :
    dumpLoop pre max k p = some ((layout max p).map (pre ++ ·)) := by
  induction k generalizing p with
  | zero => exact absurd hk (Nat.not_lt_zero _)
  | succ k ih =>
    rw [dumpLoop]
    by_cases hlong : max < p.length
    · rw [if_pos (by simp [tooLong, hlong])]
      have hshort := cut_length_lt hmax (Nat.le_of_lt hlong)
      have hcut : (dumpLoop pre max k (cut max p).2).map ((pre ++ (cut max p).1) :: ·) =
          some (((cut max p).1 :: layout max (cut max p).2).map (pre ++ ·)) := by
        rw [ih (by omega)]
        rfl
      obtain ⟨hno, hf⟩ | ⟨r, p', hr, rfl, hf⟩ := first_line p
      · -- one line is left, and it is too long
        rw [hf, Option.filter_none]
        dsimp only
        rw [Int.toNat_natCast, hcut, layout_last hno, layout_last (notMem_cut hno)]
        have hne : p ≠ [] := by
          rintro rfl
          exact absurd hlong (Nat.not_lt_zero _)
        rw [if_neg hne, wrap.eq_def max p, dif_pos ⟨hmax, hlong⟩]
      · rw [hf]
        by_cases hfit : r.length < max
        · have htake : (r ++ '\n' :: p').take r.length = r := take_left
          have hdrop : (r ++ '\n' :: p').drop (r.length + 1) = p' := by
            rw [← drop_drop, drop_left]
            rfl
          rw [Option.filter_some, if_pos (by simpa using hfit)]
          dsimp only
          rw [length_append, length_cons] at hk
          rw [htake, hdrop, ih (by omega), layout_append hr, wrapFollowed_short hfit]
          rfl
        · -- the line is at least as long as the limit, its line feed is not looked for
          rw [Option.filter_some, if_neg (by simpa using hfit)]
          dsimp only
          rw [Int.toNat_natCast, hcut, cut_append (Nat.le_of_not_lt hfit)]
          dsimp only
          rw [layout_append (notMem_cut hr), layout_append hr,
            wrapFollowed_long hmax (Nat.le_of_not_lt hfit), cons_append]
    · rw [if_neg (by simp [tooLong]; omega), trailing_eq pre (Nat.le_of_not_lt hlong) (by omega)]

theorem length_le_of_mem_wrap (hmax : 0 < max) {r w : CStr} (hw : w ∈ wrap max r) : w.length ≤ max := by
  induction r using wrap.induct max with
  | case1 r h ih =>
    rw [wrap, dif_pos h] at hw
    rcases mem_cons.1 hw with rfl | hw
    · exact length_cut_fst max r
    · split at hw
      · exact absurd hw not_mem_nil
      · next hne => exact ih hw
  | case2 r h =>
    rw [wrap, dif_neg h, mem_singleton] at hw
    subst hw
    omega

theorem length_le_of_mem_wrapFollowed (hmax : 0 < max) {r w : CStr} (hw : w ∈ wrapFollowed max r) :
    w.length ≤ max := by
  induction r using wrapFollowed.induct max with
  | case1 r h ih =>
    rw [wrapFollowed, dif_pos h] at hw
    rcases mem_cons.1 hw with rfl | hw
    · exact length_cut_fst max r
    · exact ih hw
  | case2 r h =>
    rw [wrapFollowed, dif_neg h, mem_singleton] at hw
    subst hw
    omega

theorem length_le_of_mem_layout (hmax : 0 < max) {data w : CStr} (hw : w ∈ layout max data) :
    w.length ≤ max := by
  unfold layout at hw
  rcases mem_append.1 hw with hw | hw
  · obtain ⟨r, -, hw⟩ := mem_flatMap.1 hw
    exact length_le_of_mem_wrapFollowed hmax hw
  · split at hw
    · exact absurd hw not_mem_nil
    · exact length_le_of_mem_wrap hmax hw

/-! ### Nothing is lost -/

theorem joins_wrapFollowed {t : CStr} {ps : List CStr} (h : Joins t ps) (r : CStr) :
    Joins (r ++ '\n' :: t) (wrapFollowed max r ++ ps) := by
  induction r using wrapFollowed.induct max with
  | case1 r hr ih =>
    rw [wrapFollowed, dif_pos hr, cons_append]
    exact joins_cut ih
  | case2 r hr =>
    rw [wrapFollowed, dif_neg hr]
    exact .sep r (.inr rfl) h

theorem joins_wrap (r : CStr) : Joins r (if r = [] then [] else wrap max r) := by
  induction r using wrap.induct max with
  | case1 r hr ih =>
    have hne : r ≠ [] := by
      rintro rfl
      exact absurd hr.2 (Nat.not_lt_zero _)
    rw [if_neg hne, wrap, dif_pos hr]
    have h := @joins_cut max r (if (cut max r).2 = [] then [] else wrap max (cut max r).2) []
    rw [append_nil, append_nil] at h
    exact h ih
  | case2 r hr =>
    split
    · next h0 =>
      rw [h0]
      exact .done
    · rw [wrap, dif_neg hr]
      exact .whole r

theorem joins_layout (data : CStr) : Joins data (layout max data) := by
  induction hn : data.length using Nat.strongRecOn generalizing data with
  | ind n ih =>
    obtain ⟨hno, -⟩ | ⟨r, p, hr, rfl, -⟩ := first_line data
    · rw [layout_last hno]
      exact joins_wrap data
    · rw [layout_append hr]
      refine joins_wrapFollowed (ih p.length ?_ p rfl) r
      rw [← hn, length_append, length_cons]
      omega

end Output

/-! ### When the output is what the text calls for -/

section Main

/-- While a line is split, what is left is never empty, and never just as long as the limit. -/
def Clean (max : ℕ) (r : CStr) : Prop :=
  if _h : 0 < max ∧ max ≤ r.length then
    r.length ≠ max ∧ (cut max r).2 ≠ [] ∧ Clean max (cut max r).2
  else True
termination_by r.length
decreasing_by exact cut_length_lt _h.1 _h.2

variable {max : ℕ}

theorem wrapFollowed_ne_nil (r : CStr) : wrapFollowed max r ≠ [] := by
  rw [wrapFollowed]
  split <;> exact cons_ne_nil _ _

/-- A line is wrapped as it should be, or makes more lines than it should. -/
theorem wrapFollowed_spec (hmax : 0 < max) (r : CStr) :
    (Clean max r → wrapFollowed max r = wrap max r) ∧
      (¬ Clean max r → (wrap max r).length < (wrapFollowed max r).length) := by
  induction r using wrapFollowed.induct max with
  | case1 r h ih =>
    rw [Clean, dif_pos h, wrapFollowed, dif_pos h]
    by_cases heq : r.length = max
    · rw [wrap, dif_neg (by omega)]
      refine ⟨fun hc => absurd heq hc.1, fun _ => ?_⟩
      have := length_pos_iff.2 (@wrapFollowed_ne_nil max (cut max r).2)
      rw [length_singleton, length_cons]
      omega
    · rw [wrap.eq_def max r, dif_pos ⟨hmax, by omega⟩]
      by_cases hnil : (cut max r).2 = []
      · rw [if_pos hnil, hnil, wrapFollowed_short hmax]
        exact ⟨fun hc => absurd rfl hc.2.1, fun _ => Nat.lt_succ_self _⟩
      · rw [if_neg hnil]
        constructor
        · intro hc
          rw [ih.1 hc.2.2]
        · intro hc
          have := ih.2 fun hclean => hc ⟨heq, hnil, hclean⟩
          rw [length_cons, length_cons]
          omega
  | case2 r h =>
    rw [Clean, dif_neg h, wrapFollowed, dif_neg h, wrap, dif_neg (by omega)]
    exact ⟨fun _ => rfl, fun hn => absurd trivial hn⟩

/-- Where no element makes fewer, the results are equal only if they are for every element. -/
theorem flatMap_eq_iff {α β : Type*} {f g : α → List β} {C : α → Prop}
    (h : ∀ a, (C a → f a = g a) ∧ (¬ C a → (g a).length < (f a).length)) (l : List α) :
    l.flatMap f = l.flatMap g ↔ ∀ a ∈ l, C a := by
  have hle : ∀ a, (g a).length ≤ (f a).length := by
    intro a
    by_cases ha : C a
    · rw [(h a).1 ha]
    · exact Nat.le_of_lt ((h a).2 ha)
  have hsum : ∀ l : List α, (l.flatMap g).length ≤ (l.flatMap f).length := by
    intro l
    induction l with
    | nil => exact Nat.le_refl _
    | cons a l ih =>
      rw [flatMap_cons, flatMap_cons, length_append, length_append]
      exact Nat.add_le_add (hle a) ih
  induction l with
  | nil => exact iff_of_true rfl fun a ha => absurd ha not_mem_nil
  | cons a l ih =>
    rw [flatMap_cons, flatMap_cons, List.forall_mem_cons]
    constructor
    · intro heq
      have hlen := congrArg length heq
      rw [length_append, length_append] at hlen
      have ha : C a := by
        by_contra hn
        have := (h a).2 hn
        have := hsum l
        omega
      rw [(h a).1 ha] at heq
      exact ⟨ha, ih.1 (append_cancel_left heq)⟩
    · rintro ⟨ha, hl⟩
      rw [(h a).1 ha, ih.2 hl]

theorem layout_eq_called_iff (hmax : 0 < max) (data : CStr) :
    layout max data = called max data ↔ ∀ r ∈ followed data, Clean max r := by
  unfold layout called
  rw [append_left_inj]
  exact flatMap_eq_iff (wrapFollowed_spec hmax) _

/-- What is asked of the lines put out: the limit, that they are the text, and that they are those
the text calls for; an empty text calls for one line. -/
structure Dumped (pre data : CStr) (out : List CStr) : Prop where
  limit : ∀ line ∈ out, line.length ≤ 500
  joins : ∃ ps, out = ps.map (pre ++ ·) ∧ Joins data ps
  called : out = (if data = [] then [[]] else called (500 - pre.length) data).map (pre ++ ·)

/-- There is room behind the prefix, and no line of the text that ends in a line feed comes to a rest
that is empty or as long as the limit. -/
def Fine (pre data : CStr) : Prop :=
  if data = [] then pre.length ≤ 500
  else pre.length < 500 ∧ ∀ r ∈ followed data, Clean (500 - pre.length) r

/-- With no room behind the prefix a text that does not begin with a line feed calls for a line that
is too long. -/
theorem exists_called_ne_nil {c : Char} (hc : c ≠ '\n') (p : CStr) : ∃ r ∈ called 0 (c :: p), r ≠ [] := by
  have hwrap : ∀ r : CStr, wrap 0 r = [r] := by
    intro r
    rw [wrap, dif_neg (by omega)]
  unfold called
  obtain ⟨hno, -⟩ | ⟨r, p', hr, hp, -⟩ := first_line (c :: p)
  · refine ⟨c :: p, mem_append_right _ ?_, cons_ne_nil c p⟩
    rw [lastLine_eq_self hno, if_neg (cons_ne_nil c p), hwrap]
    exact mem_singleton_self _
  · refine ⟨r, mem_append_left _ ?_, ?_⟩
    · rw [hp, followed_append hr, flatMap_cons, hwrap]
      exact mem_cons_self
    · rintro rfl
      exact hc (cons.inj hp).1

theorem dumpLoop_zero (pre p : CStr) (k : ℕ) : dumpLoop pre 0 k ('\n' :: p) = none := by
  induction k with
  | zero => rfl
  | succ k ih =>
    rw [dumpLoop, if_pos (by simp [tooLong]), findIdx?_cons, if_pos (beq_self_eq_true _),
      Option.filter_some, if_neg (by decide)]
    have hcut : (cut (0 : ℤ).toNat ('\n' :: p)).2 = '\n' :: p := by
      unfold cut backToSpace
      simp
    dsimp only
    rw [hcut, ih]
    rfl

theorem trailing_ne_nil (pre : CStr) {k : ℕ} {p : CStr} (hp : p ≠ []) : trailing pre k p ≠ some [] := by
  cases k with
  | zero =>
    intro h
    cases h
  | succ k =>
    rw [trailing]
    split
    · intro h
      obtain ⟨l, -, hl⟩ := Option.map_eq_some_iff.1 h
      cases hl
    · rw [if_neg hp]
      intro h
      cases h

theorem pre_lt_of_dumped {pre data : CStr} (hdata : data ≠ []) {rounds : ℕ} {out : List CStr}
    (hrun : dumplots rounds pre data = some out) (h : Dumped pre data out) : pre.length < 500 := by
  by_contra hlong
  rw [dumplots, if_neg hdata] at hrun
  have hcalled := h.called
  rw [if_neg hdata] at hcalled
  rcases Nat.lt_or_ge 500 pre.length with hgt | hle
  · -- a line that begins with the prefix is too long
    have hout : out ≠ [] := by
      rintro rfl
      cases rounds with
      | zero => cases hrun
      | succ k =>
        rw [dumpLoop, if_neg (by simp [tooLong]; omega)] at hrun
        exact trailing_ne_nil pre hdata hrun
    obtain ⟨line, hline⟩ := exists_mem_of_ne_nil out hout
    have hlimit := h.limit line hline
    rw [hcalled] at hline
    obtain ⟨w, -, rfl⟩ := mem_map.1 hline
    rw [length_append] at hlimit
    omega
  · have hlen : pre.length = 500 := by omega
    cases data with
    | nil => exact hdata rfl
    | cons c p =>
      by_cases hc : c = '\n'
      · subst hc
        have hzero : (500 - (pre.length : ℤ)) = 0 := by omega
        rw [hzero, dumpLoop_zero] at hrun
        cases hrun
      · obtain ⟨r, hr, hne⟩ := exists_called_ne_nil hc p
        have hline : pre ++ r ∈ out := by
          rw [hcalled, hlen]
          exact mem_map.2 ⟨r, hr, rfl⟩
        have hlimit := h.limit _ hline
        have hpos := length_pos_iff.2 hne
        rw [length_append] at hlimit
        omega

theorem dumplots_eq {pre data : CStr} (hdata : data ≠ []) (hpre : pre.length < 500) {rounds : ℕ}
    (hk : data.length < rounds) :
    dumplots rounds pre data = some ((layout (500 - pre.length) data).map (pre ++ ·)) := by
  have hcast : (500 - (pre.length : ℤ)) = ((500 - pre.length : ℕ) : ℤ) := by omega
  rw [dumplots, if_neg hdata, hcast, dumpLoop_eq pre (by omega) hk]

theorem dumpLoop_mono (pre : CStr) (max : ℤ) {k : ℕ} {p : CStr} {out : List CStr}
    (h : dumpLoop pre max k p = some out) : dumpLoop pre max (k + 1) p = some out := by
  induction k generalizing p out with
  | zero => cases h
  | succ k ih =>
    rw [dumpLoop] at h ⊢
    by_cases hlong : tooLong max p = true
    · rw [if_pos hlong] at h ⊢
      split at h
      · obtain ⟨l, hl, rfl⟩ := Option.map_eq_some_iff.1 h
        simp only [*, ih hl, Option.map_some]
      · obtain ⟨l, hl, rfl⟩ := Option.map_eq_some_iff.1 h
        simp only [*, ih hl, Option.map_some]
    · rw [if_neg hlong] at h ⊢
      exact h

theorem dumplots_mono {pre data : CStr} {k n : ℕ} {out : List CStr} (hkn : k ≤ n)
    (h : dumplots k pre data = some out) : dumplots n pre data = some out := by
  induction n, hkn using Nat.le_induction with
  | base => exact h
  | succ n _ ih =>
    unfold dumplots at ih ⊢
    split
    · next h0 => rwa [if_pos h0] at ih
    · next h0 =>
      rw [if_neg h0] at ih
      exact dumpLoop_mono pre _ ih

theorem fine_of_dumped {pre data : CStr} {rounds : ℕ} {out : List CStr}
    (hrun : dumplots rounds pre data = some out) (h : Dumped pre data out) : Fine pre data := by
  unfold Fine
  by_cases hdata : data = []
  · subst hdata
    rw [if_pos rfl]
    cases hrun
    exact h.limit pre (mem_singleton_self pre)
  · rw [if_neg hdata]
    have hpre := pre_lt_of_dumped hdata hrun h
    refine ⟨hpre, (layout_eq_called_iff (by omega) data).1 ?_⟩
    have hmore := dumplots_mono (Nat.le_max_left rounds (data.length + 1)) hrun
    rw [dumplots_eq hdata hpre (Nat.lt_of_lt_of_le (Nat.lt_succ_self _) (Nat.le_max_right _ _))] at hmore
    have hcalled := h.called
    rw [if_neg hdata, ← Option.some.inj hmore] at hcalled
    exact List.map_injective_iff.2 (fun a b hab => append_cancel_left hab) hcalled

theorem dumped_of_fine {pre data : CStr} (h : Fine pre data) :
    ∃ rounds out, dumplots rounds pre data = some out ∧ Dumped pre data out := by
  unfold Fine at h
  by_cases hdata : data = []
  · subst hdata
    rw [if_pos rfl] at h
    refine ⟨0, [pre], rfl, ?_, ⟨[[]], ?_, .whole []⟩, ?_⟩
    · intro line hline
      rwa [mem_singleton.1 hline]
    · rw [map_singleton, append_nil]
    · rw [if_pos rfl, map_singleton, append_nil]
  · rw [if_neg hdata] at h
    obtain ⟨hpre, hclean⟩ := h
    have hmax : 0 < 500 - pre.length := by omega
    refine ⟨data.length + 1, _, dumplots_eq hdata hpre (Nat.lt_succ_self _), ?_,
      ⟨_, rfl, joins_layout data⟩, ?_⟩
    · intro line hline
      obtain ⟨w, hw, rfl⟩ := mem_map.1 hline
      have := length_le_of_mem_layout hmax hw
      rw [length_append]
      omega
    · rw [if_neg hdata, (layout_eq_called_iff hmax data).2 hclean]

/-- For every prefix and text: `dumplots` comes to an end, with the lines the text calls for, if and
only if there is room behind the prefix and the lines of the text are clean. -/
theorem dumplots_iff (pre data : CStr) :
    (∃ rounds out, dumplots rounds pre data = some out ∧ Dumped pre data out) ↔ Fine pre data := by
  constructor
  · rintro ⟨rounds, out, hrun, h⟩
    exact fine_of_dumped hrun h
  · exact dumped_of_fine

/-- A Tcl result whose first line is as long as the limit: an empty line is put out behind it. -/
theorem not_dumplots_full_line :
    ¬ ∃ rounds out, dumplots rounds "Tcl: ".toList (replicate 495 'a' ++ '\n' :: "b".toList) = some out ∧
      Dumped "Tcl: ".toList (replicate 495 'a' ++ '\n' :: "b".toList) out := by
  rintro ⟨rounds, out, hrun, h⟩
  have hfine := fine_of_dumped hrun h
  have hno : '\n' ∉ replicate 495 'a' := by
    intro hm
    exact absurd (eq_of_mem_replicate hm) (by decide)
  rw [Fine, if_neg (append_ne_nil_of_right_ne_nil _ (cons_ne_nil _ _)), followed_append hno] at hfine
  have hclean := hfine.2 _ mem_cons_self
  rw [Clean, dif_pos ⟨by decide, by rw [length_replicate]; decide⟩] at hclean
  exact hclean.1 (length_replicate ..)

end Main

end Eggdrop.Dumplots
