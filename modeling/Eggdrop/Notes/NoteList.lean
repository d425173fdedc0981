import Eggdrop.Notes.NoteFile

/-!
# NoteList — which notes a list selects

A list of notes is elements between semicolons, each a number, a range, or a range with one end open.
`notes_parse` reads them into pairs of bounds in an array and `notes_in` looks a number up.  An open
end is read as the setting `maxnotes`, and what is no number is read as far as it looks like one.

* `notesParse_eq`: the pairs are those of the first 62 elements.
* `scanSlots_eq`: the search stays in the array.
* `selects_of_clean`: a list of elements that are read right selects the notes that are asked for.
* `selects_single_iff`: when a list of one element does.
* `note_selection`: together.
-/

namespace Eggdrop.Notes

open List

/-! ### The array -/

/-- The array that `notes_parse` leaves. -/
def slots (dl : List (ℤ × ℤ)) : List ℤ := dl.flatMap (fun d => [d.1, d.2]) ++ [-1]

/-- The loop of `notes_in` over the array; `none` is a read behind it. -/
def scanSlots (n : ℤ) : List ℤ → Option Bool
  | [] => none
  | lo :: rest =>
    if lo = -1 then some false
    else
      match rest with
      | [] => none
      | hi :: rest => if lo ≤ n ∧ n ≤ hi then some true else scanSlots n rest

/-! ### What is asked for -/

/-- The elements of a list. -/
def elements (s : CStr) : List CStr := (s.splitOn ';').filter fun e => e ≠ []

/-- A number: digits alone. -/
def Number (x : CStr) : Prop := x ≠ [] ∧ ∀ c ∈ x, isDigit c = true

instance (x : CStr) : Decidable (Number x) := inferInstanceAs (Decidable (_ ∧ _))

/-- What an element is. -/
inductive Form
  | number (v : ℕ)
  /-- from `lo` on, to `hi` or without an end -/
  | range (lo : ℕ) (hi : Option ℕ)
  | junk
  deriving DecidableEq

/-- The part of an element before its first `-`. -/
def front (e : CStr) : CStr := e.takeWhile (· ≠ '-')

/-- The part behind it, if there is one. -/
def back (e : CStr) : Option CStr := (e.dropWhile (· ≠ '-')).tail?

def form (e : CStr) : Form :=
  match back e with
  | none => if Number e then .number (digitsValue e) else .junk
  | some b =>
    if (front e = [] ∨ Number (front e)) ∧ (b = [] ∨ Number b) then
      .range (if front e = [] then 1 else digitsValue (front e))
        (if b = [] then none else some (digitsValue b))
    else .junk

/-- A note that an element asks for. -/
def Form.Asks (n : ℕ) : Form → Prop
  | .number v => n = v
  | .range lo hi => lo ≤ n ∧ ∀ h ∈ hi, n ≤ h
  | .junk => False

instance (n : ℕ) (f : Form) : Decidable (f.Asks n) :=
  match f with
  | .number v => inferInstanceAs (Decidable (n = v))
  | .range _ _ => inferInstanceAs (Decidable (_ ∧ _))
  | .junk => inferInstanceAs (Decidable False)

/-- The notes from 1 to `count` are selected that the list asks for, and no others. -/
def Selects (maxnotes : ℤ) (count : ℕ) (s : CStr) : Prop :=
  ∀ n : ℕ, 1 ≤ n → n ≤ count →
    (notesIn (notesParse maxnotes s) n = true ↔ ∃ e ∈ elements s, (form e).Asks n)

/-! ### How elements are read -/

/-- The lower bound that is read. -/
def lower (e : CStr) : ℤ := if e.head? = some '-' then 1 else eggAtoi e

/-- The upper bound that is read. -/
def upper (maxnotes : ℤ) (e : CStr) : ℤ :=
  match back e with
  | none => lower e
  | some b => if eggAtoi b = 0 then maxnotes else eggAtoi b

/-- The numbers of an element fit in an `int`. -/
def Form.Small : Form → Prop
  | .number v => v < 2 ^ 31
  | .range lo hi => lo < 2 ^ 31 ∧ ∀ h ∈ hi, h < 2 ^ 31
  | .junk => True

instance (f : Form) : Decidable f.Small :=
  match f with
  | .number v => inferInstanceAs (Decidable (v < 2 ^ 31))
  | .range _ _ => inferInstanceAs (Decidable (_ ∧ _))
  | .junk => inferInstanceAs (Decidable True)

/-- An element is read right for the notes up to `count`: one with an open end if there are not more
notes than `maxnotes` from its lower bound on, one with the upper bound 0, which is read as `maxnotes`,
if there are no notes up to there, and what is no number if no note is between the bounds that are
read. -/
def Proper (maxnotes : ℤ) (count : ℕ) (e : CStr) : Prop :=
  match form e with
  | .number _ => True
  | .range lo none => (count : ℤ) ≤ maxnotes ∨ (count : ℤ) < max lo 1
  | .range lo (some hi) => hi ≠ 0 ∨ maxnotes < max lo 1 ∨ (count : ℤ) < max lo 1
  | .junk => lower e = -1 ∨ upper maxnotes e < max (lower e) 1 ∨ (count : ℤ) < max (lower e) 1

instance (maxnotes : ℤ) (count : ℕ) (e : CStr) : Decidable (Proper maxnotes count e) := by
  unfold Proper
  split <;> infer_instance

/-- All the elements are read and read right, and none is taken for the end of the array. -/
def Clean (maxnotes : ℤ) (count : ℕ) (s : CStr) : Prop :=
  (elements s).length ≤ 62 ∧
    ∀ e ∈ elements s, (form e).Small ∧ Proper maxnotes count e ∧ lower e ≠ -1

instance (maxnotes : ℤ) (count : ℕ) (s : CStr) : Decidable (Clean maxnotes count s) :=
  inferInstanceAs (Decidable (_ ∧ _))

/-! ### Numbers -/

/-- `egg_atoi` stops at the end of an element. -/
theorem eggAtoi_append {r : CStr} (hr : ∀ c ∈ r.head?, c = ';') (x : CStr) :
    eggAtoi (x ++ r) = eggAtoi x := by
  have hdigit : ∀ c ∈ r.head?, isDigit c = false := by
    intro c hc
    rw [hr c hc]
    decide
  have hstrtol : strtol (x ++ r) = strtol x := by
    induction x with
    | nil =>
      rcases r with _ | ⟨c, r⟩
      · rfl
      · obtain rfl := hr c rfl
        rw [nil_append, strtol_cons (by decide), if_neg (by decide), if_neg (by decide),
          takeWhile_cons_of_neg (by decide)]
        decide
    | cons b x ih =>
      by_cases hb : isSpace b = true
      · have hskip (t : CStr) : strtol (b :: t) = strtol t := by
          rw [strtol, strtol, dropWhile_cons_of_pos hb]
        rw [cons_append, hskip, hskip, ih]
      · rw [Bool.not_eq_true] at hb
        have hcons : (if b = '+' then x ++ r else b :: (x ++ r)) =
            (if b = '+' then x else b :: x) ++ r := by
          split
          · rfl
          · rfl
        rw [cons_append, strtol_cons hb, strtol_cons hb, hcons, takeWhile_append_stop hdigit,
          takeWhile_append_stop hdigit]
  rw [eggAtoi, hstrtol, eggAtoi]

theorem eggAtoi_number {x r : CStr} (hx : Number x) (hr : ∀ c ∈ r.head?, isDigit c = false)
    (hsmall : digitsValue x < 2 ^ 31) : eggAtoi (x ++ r) = digitsValue x := by
  obtain ⟨hne, hdigits⟩ := hx
  obtain ⟨c, t, rfl⟩ := exists_cons_of_ne_nil hne
  have hc := hdigits c mem_cons_self
  have hself : (c :: t).takeWhile isDigit = c :: t := takeWhile_eq_self_iff.2 hdigits
  obtain ⟨hminus, hplus⟩ := ne_sign_of_isDigit hc
  have hstrtol : strtol (c :: t ++ r) = digitsValue (c :: t) := by
    rw [cons_append, strtol_cons (isSpace_of_isDigit hc), if_neg hminus, if_neg hplus, ← cons_append,
      takeWhile_append_stop hr, hself]
    omega
  rw [eggAtoi, hstrtol]
  exact toCInt_of_lt (by omega) (by omega)

/-! ### Elements -/

theorem elements_append (x s : CStr) : elements (x ++ ';' :: s) = elements x ++ elements s := by
  rw [elements, splitOn_append_cons_self, filter_append]
  rfl

theorem elements_single {x : CStr} (hx : ';' ∉ x) (hne : x ≠ []) : elements x = [x] := by
  rw [elements, splitOn_eq_singleton hx, filter_cons_of_pos (by simpa using hne), filter_nil]

theorem elements_dropWhile (s : CStr) : elements (s.dropWhile (· = ';')) = elements s := by
  induction s with
  | nil => rfl
  | cons c s ih =>
    by_cases hc : c = ';'
    · rw [dropWhile_cons_of_pos (by simpa using hc), ih, hc]
      exact (elements_append [] s).symm
    · rw [dropWhile_cons_of_neg (by simpa using hc)]

theorem exists_element {s : CStr} (hne : s ≠ []) (hhead : s.head? ≠ some ';') :
    ∃ e r, s = e ++ r ∧ e ≠ [] ∧ ';' ∉ e ∧ (∀ c ∈ r.head?, c = ';') ∧
      elements s = e :: elements r := by
  obtain ⟨c, t, rfl⟩ := exists_cons_of_ne_nil hne
  have hc : c ≠ ';' := fun h => hhead (h ▸ rfl)
  have he : (c :: t).takeWhile (fun x => decide (x ≠ ';')) ≠ [] := by
    rw [takeWhile_cons_of_pos (by simpa using hc)]
    exact cons_ne_nil _ _
  have hno : ';' ∉ (c :: t).takeWhile (fun x => decide (x ≠ ';')) := fun h => by
    simpa using mem_takeWhile_imp h
  refine ⟨_, (c :: t).dropWhile (fun x => decide (x ≠ ';')), (takeWhile_append_dropWhile ..).symm, he,
    hno, fun x hx => ?_, ?_⟩
  · have hstop := head?_dropWhile_not (fun x => decide (x ≠ ';')) (c :: t)
    rw [hx] at hstop
    simpa using hstop
  · generalize hrest : (c :: t).dropWhile (fun x => decide (x ≠ ';')) = r
    have hsplit := takeWhile_append_dropWhile (p := fun x => decide (x ≠ ';')) (l := c :: t)
    rw [hrest] at hsplit
    rcases r with _ | ⟨d, r⟩
    · rw [append_nil] at hsplit
      have hone := elements_single hno he
      rw [hsplit] at hone ⊢
      exact hone
    · have hstop := head?_dropWhile_not (fun x => decide (x ≠ ';')) (c :: t)
      rw [hrest] at hstop
      obtain rfl : d = ';' := by simpa using hstop
      have hrest : elements (';' :: r) = elements r := elements_append [] r
      have happ := elements_append ((c :: t).takeWhile fun x => decide (x ≠ ';')) r
      rw [hsplit, elements_single hno he] at happ
      rw [happ, hrest, singleton_append]

/-! ### Reading -/

theorem dropWhile_element {e r : CStr} (he : ';' ∉ e) (hr : ∀ c ∈ r.head?, c = ';') :
    (e ++ r).dropWhile (fun c => c ≠ '-' && c ≠ ';') = e.dropWhile (· ≠ '-') ++ r := by
  induction e with
  | nil =>
    rcases r with _ | ⟨c, r⟩
    · rfl
    · obtain rfl := hr c rfl
      rw [nil_append, dropWhile_cons_of_neg (by decide)]
      rfl
  | cons b e ih =>
    have hb : b ≠ ';' := fun h => he (h ▸ mem_cons_self)
    by_cases hminus : b = '-'
    · rw [cons_append, dropWhile_cons_of_neg (by simp [hminus]), dropWhile_cons_of_neg (by simp [hminus])]
      rfl
    · rw [cons_append, dropWhile_cons_of_pos (by simp [hminus, hb]),
        dropWhile_cons_of_pos (by simp [hminus]), ih fun h => he (mem_cons_of_mem b h)]

theorem dropWhile_rest {t r : CStr} (ht : ';' ∉ t) (hr : ∀ c ∈ r.head?, c = ';') :
    (t ++ r).dropWhile (· ≠ ';') = r := by
  have hall : ∀ c ∈ t, decide (c ≠ ';') = true := by
    intro c hc
    rw [decide_eq_true_iff]
    rintro rfl
    exact ht hc
  rw [dropWhile_append_of_pos hall]
  rcases r with _ | ⟨c, r⟩
  · rfl
  · obtain rfl := hr c rfl
    rw [dropWhile_cons_of_neg (by decide)]

theorem parseLoop_element {maxnotes : ℤ} {k : ℕ} {e r : CStr} (hne : e ≠ []) (he : ';' ∉ e)
    (hr : ∀ c ∈ r.head?, c = ';') :
    parseLoop maxnotes (k + 1) (e ++ r) =
      (lower e, upper maxnotes e) :: parseLoop maxnotes k r := by
  have hdrop : (e ++ r).dropWhile (· = ';') = e ++ r := by
    obtain ⟨c, t, rfl⟩ := exists_cons_of_ne_nil hne
    have hc : c ≠ ';' := fun h => he (h ▸ mem_cons_self)
    rw [cons_append, dropWhile_cons_of_neg (by simpa using hc)]
  have hlo : (if (e ++ r).head? = some '-' then 1 else eggAtoi (e ++ r)) = lower e := by
    rw [head?_append_of_ne_nil _ hne, eggAtoi_append hr, lower]
  have hback := dropWhile_element he hr
  have hmem : ';' ∉ e.dropWhile (· ≠ '-') := fun h => he ((dropWhile_suffix _).subset h)
  rw [parseLoop, hdrop]
  dsimp only
  rw [if_neg (append_ne_nil_of_left_ne_nil hne r), hback, hlo, dropWhile_rest hmem hr, upper, back]
  rcases hb : e.dropWhile (· ≠ '-') with _ | ⟨d, b⟩
  · have hhead : r.head? ≠ some '-' := fun h => absurd (hr '-' h) (by decide)
    rw [nil_append, if_neg hhead]
    rfl
  · have hd : d = '-' := by
      have hstop := head?_dropWhile_not (fun c => decide (c ≠ '-')) e
      rw [hb] at hstop
      simpa using hstop
    rw [hd, cons_append, head?_cons, if_pos rfl, tail_cons, eggAtoi_append hr]
    rfl

theorem parseLoop_eq (maxnotes : ℤ) (k : ℕ) (s : CStr) :
    parseLoop maxnotes k s = ((elements s).take k).map fun e => (lower e, upper maxnotes e) := by
  induction k generalizing s with
  | zero => rfl
  | succ k ih =>
    have hhead : (s.dropWhile (· = ';')).head? ≠ some ';' := by
      intro h
      have hstop := head?_dropWhile_not (fun c => decide (c = ';')) s
      rw [h] at hstop
      simp at hstop
    have hsame : parseLoop maxnotes (k + 1) s = parseLoop maxnotes (k + 1) (s.dropWhile (· = ';')) := by
      have hidem : (s.dropWhile (· = ';')).dropWhile (· = ';') = s.dropWhile (· = ';') := by
        rcases hd : s.dropWhile (· = ';') with _ | ⟨c, t⟩
        · rfl
        · rw [hd, head?_cons, ne_eq, Option.some.injEq] at hhead
          rw [dropWhile_cons_of_neg (by simpa using hhead)]
      rw [parseLoop, parseLoop, hidem]
    rw [hsame, ← elements_dropWhile]
    by_cases hne : s.dropWhile (· = ';') = []
    · rw [hne]
      rfl
    · obtain ⟨e, r, hs, hene, he, hr, helements⟩ := exists_element hne hhead
      rw [helements, hs, parseLoop_element hene he hr, ih, take_succ_cons, map_cons]

theorem notesParse_eq (maxnotes : ℤ) (s : CStr) :
    notesParse maxnotes s = ((elements s).take 62).map fun e => (lower e, upper maxnotes e) :=
  parseLoop_eq maxnotes 62 s

/-! ### The search -/

theorem length_slots (dl : List (ℤ × ℤ)) : (slots dl).length = 2 * dl.length + 1 := by
  induction dl with
  | nil => rfl
  | cons d dl ih =>
    show (d.1 :: d.2 :: slots dl).length = _
    rw [length_cons, length_cons, ih, length_cons]
    omega

theorem length_slots_notesParse (maxnotes : ℤ) (s : CStr) :
    (slots (notesParse maxnotes s)).length ≤ 125 := by
  rw [length_slots, notesParse_eq, length_map, length_take]
  omega

theorem scanSlots_eq (n : ℕ) (dl : List (ℤ × ℤ)) : scanSlots n (slots dl) = some (notesIn dl n) := by
  induction dl with
  | nil => rfl
  | cons d dl ih =>
    rw [slots, flatMap_cons, append_assoc]
    show scanSlots n (d.1 :: d.2 :: slots dl) = _
    rw [scanSlots, notesIn]
    by_cases hend : d.1 = -1
    · rw [if_pos hend, takeWhile_cons_of_neg (by simpa using hend)]
      rfl
    · rw [if_neg hend, takeWhile_cons_of_pos (by simpa using hend), any_cons]
      by_cases hin : d.1 ≤ (n : ℤ) ∧ (n : ℤ) ≤ d.2
      · rw [if_pos hin]
        simp [hin]
      · rw [if_neg hin, ih]
        have hout : (decide (d.1 ≤ (n : ℤ)) && decide ((n : ℤ) ≤ d.2)) = false := by
          simpa using hin
        rw [hout, Bool.false_or, notesIn]

/-! ### Elements that are read right -/

/-- An element has the note between the bounds that are read. -/
def Reads (maxnotes : ℤ) (n : ℕ) (e : CStr) : Prop := lower e ≤ n ∧ (n : ℤ) ≤ upper maxnotes e

theorem notesIn_iff (maxnotes : ℤ) (s : CStr) (n : ℕ) :
    notesIn (notesParse maxnotes s) n = true ↔
      ∃ e ∈ ((elements s).take 62).takeWhile (lower · ≠ -1), Reads maxnotes n e := by
  rw [notesIn, notesParse_eq, takeWhile_map, any_map, any_eq_true]
  simp only [Function.comp_def, Bool.and_eq_true, decide_eq_true_eq]
  rfl

section Element

variable {maxnotes : ℤ} {count n : ℕ} {e : CStr}

theorem element_eq (e : CStr) :
    (back e = none ∧ e = front e) ∨ ∃ b, back e = some b ∧ e = front e ++ '-' :: b := by
  have hsplit := takeWhile_append_dropWhile (p := fun c => decide (c ≠ '-')) (l := e)
  rw [back, front]
  rcases hb : e.dropWhile (· ≠ '-') with _ | ⟨d, b⟩
  · rw [hb, append_nil] at hsplit
    exact .inl ⟨rfl, hsplit.symm⟩
  · have hd : d = '-' := by
      have hstop := head?_dropWhile_not (fun c => decide (c ≠ '-')) e
      rw [hb] at hstop
      simpa using hstop
    rw [hb, hd] at hsplit
    exact .inr ⟨b, rfl, hsplit.symm⟩

theorem not_isDigit_minus (b : CStr) : ∀ c ∈ ('-' :: b).head?, isDigit c = false := by
  rintro c ⟨⟩
  decide

theorem head?_number {x : CStr} (hx : Number x) (t : CStr) : (x ++ t).head? ≠ some '-' := by
  obtain ⟨hne, hdigits⟩ := hx
  obtain ⟨c, y, rfl⟩ := exists_cons_of_ne_nil hne
  intro h
  have hc := hdigits c mem_cons_self
  rw [cons_append, head?_cons, Option.some.injEq] at h
  rw [h] at hc
  exact absurd hc (by decide)

theorem reads_number (maxnotes : ℤ) {v : ℕ} (hform : form e = .number v) (hsmall : v < 2 ^ 31) :
    lower e = v ∧ upper maxnotes e = v := by
  rw [form] at hform
  rcases element_eq e with ⟨hback, -⟩ | ⟨b, hback, -⟩
  · rw [hback] at hform
    dsimp only at hform
    split at hform
    · next hnum =>
      cases hform
      have hlower : lower e = digitsValue e := by
        have hhead := head?_number hnum []
        have hread := eggAtoi_number hnum (r := []) (by simp) hsmall
        rw [append_nil] at hhead hread
        rw [lower, if_neg hhead, hread]
      exact ⟨hlower, by rw [upper, hback]; exact hlower⟩
    · cases hform
  · rw [hback] at hform
    dsimp only at hform
    split at hform
    · cases hform
    · cases hform

theorem reads_range (maxnotes : ℤ) {lo : ℕ} {hi : Option ℕ} (hform : form e = .range lo hi) (hlo : lo < 2 ^ 31)
    (hhi : ∀ h ∈ hi, h < 2 ^ 31) :
    lower e = lo ∧ upper maxnotes e = match hi with
      | some h => if h = 0 then maxnotes else h
      | none => maxnotes := by
  rw [form] at hform
  rcases element_eq e with ⟨hback, -⟩ | ⟨b, hback, he⟩
  · rw [hback] at hform
    dsimp only at hform
    split at hform
    · cases hform
    · cases hform
  · rw [hback] at hform
    dsimp only at hform
    split at hform
    · next hparts =>
      cases hform
      refine ⟨?_, ?_⟩
      · rcases hparts.1 with hnil | hnum
        · rw [if_pos hnil, lower, if_pos]
          · rfl
          · rw [he, hnil]
            rfl
        · rw [if_neg hnum.1] at hlo ⊢
          rw [lower, if_neg]
          · nth_rewrite 1 [he]
            exact eggAtoi_number hnum (not_isDigit_minus b) hlo
          · rw [he]
            exact head?_number hnum _
      · rw [upper, hback]
        rcases hparts.2 with hnil | hnum
        · rw [if_pos hnil, hnil]
          dsimp only
          rw [if_pos eggAtoi_nil]
        · rw [if_neg hnum.1] at hhi ⊢
          have hread := eggAtoi_number hnum (r := []) (by simp) (hhi _ rfl)
          rw [append_nil] at hread
          dsimp only
          rw [hread]
          norm_cast
    · cases hform

theorem reads_iff_asks (hsmall : (form e).Small) (hproper : Proper maxnotes count e)
    (hend : lower e ≠ -1) (hn : 1 ≤ n) (hcount : n ≤ count) :
    Reads maxnotes n e ↔ (form e).Asks n := by
  rw [Proper] at hproper
  rw [Reads]
  rcases hform : form e with v | ⟨lo, hi⟩ | _
  · rw [hform] at hsmall
    obtain ⟨hlower, hupper⟩ := reads_number maxnotes hform hsmall
    rw [hlower, hupper, Form.Asks]
    omega
  · rw [hform] at hsmall hproper
    obtain ⟨hlower, hupper⟩ := reads_range maxnotes hform hsmall.1 hsmall.2
    rw [hlower, hupper, Form.Asks]
    rcases hi with _ | hi
    · simp only [Option.mem_def, reduceCtorEq, false_implies, implies_true, and_true]
      dsimp only at hproper
      omega
    · simp only [Option.mem_def, Option.some.injEq, forall_eq']
      dsimp only at hproper
      split
      · omega
      · omega
  · rw [hform] at hproper
    rw [Form.Asks, iff_false]
    rintro ⟨hle, hge⟩
    dsimp only at hproper
    omega

theorem proper_of_reads (hsmall : (form e).Small)
    (h : ∀ n : ℕ, 1 ≤ n → n ≤ count → (Reads maxnotes n e ↔ (form e).Asks n)) :
    Proper maxnotes count e := by
  rw [Proper]
  rcases hform : form e with v | ⟨lo, hi⟩ | _
  · trivial
  · rw [hform] at hsmall h
    obtain ⟨hlower, hupper⟩ := reads_range maxnotes hform hsmall.1 hsmall.2
    rcases hi with _ | hi
    · dsimp only
      by_contra hnot
      rw [not_or] at hnot
      have hlast := h count (by omega) (Nat.le_refl _)
      rw [Reads, hlower, hupper, Form.Asks] at hlast
      simp only [Option.mem_def, reduceCtorEq, false_implies, implies_true, and_true] at hlast
      omega
    · dsimp only
      by_contra hnot
      rw [not_or, not_or, not_not] at hnot
      obtain ⟨rfl, hmax, hcount⟩ := hnot
      have hfirst := h (max lo 1) (by omega) (by omega)
      rw [Reads, hlower, hupper, Form.Asks] at hfirst
      simp only [Option.mem_def, Option.some.injEq, forall_eq', if_true] at hfirst
      omega
  · rw [hform] at h
    dsimp only
    by_contra hnot
    rw [not_or, not_or] at hnot
    have hfirst := h (max (lower e) 1).toNat (by omega) (by omega)
    rw [Reads, Form.Asks, iff_false] at hfirst
    omega

end Element

/-! ### Lists -/

theorem selects_of_clean {maxnotes : ℤ} {count : ℕ} {s : CStr} (h : Clean maxnotes count s) :
    Selects maxnotes count s := by
  obtain ⟨hlen, hall⟩ := h
  intro n hn hcount
  have hseen : ((elements s).take 62).takeWhile (fun e => decide (lower e ≠ -1)) = elements s := by
    rw [take_of_length_le hlen, takeWhile_eq_self_iff]
    intro e he
    simpa using (hall e he).2.2
  rw [notesIn_iff, hseen]
  refine exists_congr fun e => and_congr_right fun he => ?_
  obtain ⟨hsmall, hproper, hend⟩ := hall e he
  exact reads_iff_asks hsmall hproper hend hn hcount

/-- A list of one element does exactly if the element is read right. -/
theorem selects_single_iff {maxnotes : ℤ} {count : ℕ} {s e : CStr} (hs : elements s = [e])
    (hsmall : (form e).Small) : Selects maxnotes count s ↔ Proper maxnotes count e := by
  have hone : ([e] : List CStr).take 62 = [e] := rfl
  have hin (n : ℕ) : notesIn (notesParse maxnotes s) n = true ↔ lower e ≠ -1 ∧ Reads maxnotes n e := by
    rw [notesIn_iff, hs, hone]
    by_cases hend : lower e = -1
    · rw [takeWhile_cons_of_neg (by simpa using hend)]
      simp [hend]
    · rw [takeWhile_cons_of_pos (by simpa using hend), takeWhile_nil]
      simp [hend]
  have hselects : Selects maxnotes count s ↔ ∀ n : ℕ, 1 ≤ n → n ≤ count →
      (lower e ≠ -1 ∧ Reads maxnotes n e ↔ (form e).Asks n) := by
    rw [Selects, hs]
    simp only [hin, mem_singleton, exists_eq_left]
  rw [hselects]
  by_cases hend : lower e = -1
  · have hjunk : form e = .junk := by
      rcases hform : form e with v | ⟨lo, hi⟩ | _
      · rw [hform] at hsmall
        have hlower := (reads_number 0 hform hsmall).1
        omega
      · rw [hform] at hsmall
        have hlower := (reads_range 0 hform hsmall.1 hsmall.2).1
        omega
      · rfl
    refine iff_of_true (fun n _ _ => ?_) ?_
    · rw [hjunk]
      exact iff_of_false (fun h => h.1 hend) id
    · rw [Proper, hjunk]
      exact .inl hend
  · constructor
    · intro h
      refine proper_of_reads hsmall fun n hn hcount => ?_
      rw [← h n hn hcount]
      exact (and_iff_right hend).symm
    · intro h n hn hcount
      rw [and_iff_right hend]
      exact reads_iff_asks hsmall h hend hn hcount

/-- The list is read into the array and searched there, and selects what is asked for if all its
elements are read right; a list of one element only then. -/
theorem note_selection (maxnotes : ℤ) (count : ℕ) (s : CStr) :
    (slots (notesParse maxnotes s)).length ≤ 128 ∧
      (∀ n : ℕ, scanSlots n (slots (notesParse maxnotes s)) = some (notesIn (notesParse maxnotes s) n)) ∧
      (Clean maxnotes count s → Selects maxnotes count s) ∧
      (∀ e, elements s = [e] → (form e).Small →
        (Selects maxnotes count s ↔ Proper maxnotes count e)) := by
  have hlen := length_slots_notesParse maxnotes s
  refine ⟨by omega, fun n => scanSlots_eq n _, selects_of_clean, fun e hs hsmall => ?_⟩
  exact selects_single_iff hs hsmall

/-- In a list with an open range, where there are as many notes as the setting allows. -/
theorem note_selection_three :
    Clean 50 50 "2-4;8;16-".toList ∧ Selects 50 50 "2-4;8;16-".toList ∧
      (Selects 50 50 "16-".toList ↔ Proper 50 50 "16-".toList) := by
  have hclean : Clean 50 50 "2-4;8;16-".toList := by decide
  exact ⟨hclean, (note_selection 50 50 _).2.2.1 hclean,
    (note_selection 50 50 "16-".toList).2.2.2 _ (by decide) (by decide)⟩

/-- What is no number selects all the notes, or hides the number behind it, and an open range ends at
the setting. -/
theorem not_note_selection :
    ¬ Selects 50 1 "x-".toList ∧ ¬ Selects 50 3 " -1;3".toList ∧ ¬ Selects 1 2 "1-".toList := by
  refine ⟨fun h => ?_, fun h => ?_, fun h => ?_⟩
  · exact absurd ((h 1 (by decide) (by decide)).1 (by decide)) (by decide)
  · exact absurd ((h 3 (by decide) (by decide)).2 (by decide)) (by decide)
  · exact absurd ((h 2 (by decide) (by decide)).2 (by decide)) (by decide)

end Eggdrop.Notes
