import Eggdrop.Base.CString
import Eggdrop.Lib.Glob

/-!
# WildMatchFile — masks for the names of files (transfer.c)

`wild_match_file` goes through mask and name with one place in each, and with the places of the last
star.  A pointer into a text is what stands from there on, up to the NUL.  Where the mask ends before
the name, the pointer into the mask goes back over question marks, to see whether there is a star in
front of them; if there is none, the comparison that follows is made where the pointer has come to.

* `items`: what a mask means.
* `over_cases`, `FirstOver`: what the comparison behind the end of the mask comes to.
* `wildMatchFile_iff`: for which masks and names the answer is right.
-/

open List

namespace Eggdrop.Transfer

open Glob Glob.Item

/-! ### The function -/

inductive Fault
  /-- what stands before a text is read, or what stands behind its NUL -/
  | outside
  deriving DecidableEq

/-- The variables of the loop: `m` and `n`, `lsm` and `lsn`, and the counters, which no name is long
enough to make overflow. -/
structure Scan where
  m : CStr
  n : CStr
  ls : Option (CStr × CStr)
  matched : ℕ
  sofar : ℕ

/-- What one round of the loop comes to: a next round, or the result. -/
inductive Round
  | next (s : Scan)
  | done (result : Except Fault ℕ)

/-- `do m--; while ((m > ma) && (*m == '?'))`, for the index of `m` in the mask. -/
def stepBack (mask : CStr) : ℕ → Except Fault ℕ
  | 0 => .error .outside
  | m + 1 => if 0 < m ∧ mask[m]? = some '?' then stepBack mask m else .ok m

/-- `(m > ma) ? ((*m == '*') && (m[-1] != FILEQUOTE)) : (*m == '*')`. -/
def isStar (mask : CStr) (m : ℕ) : Bool :=
  mask[m]? == some '*' && (m == 0 || mask[m - 1]? != some '\\')

/-- `FILEMATCH`. -/
def Scan.fileMatch (s : Scan) : ℕ := s.matched + s.sofar

/-- The comparison of `*m` with `*n`, with `m` where the `switch` has left it and `d` and `n` for the
character and what stands behind it. -/
def Scan.compare (s : Scan) (m : CStr) (d : Char) (n : CStr) : Round :=
  match m, s.ls with
  | c :: m, ls =>
    if c = d then .next { s with m := m, n := n, sofar := s.sofar + 1 } else retry ls
  | [], ls => retry ls
where
  retry : Option (CStr × CStr) → Round
    | some (lsm, _ :: lsn) =>
      .next { s with m := lsm, n := lsn, ls := some (lsm, lsn), sofar := 0 }
    | some (_, []) => .done (.error .outside)
    | none => .done (.ok 0)

/-- One round of the loop, or what follows it. -/
def Scan.round (mask : CStr) (s : Scan) : Round :=
  match s.n with
  | [] => .done (.ok (if s.m.dropWhile (· == '*') = [] then s.fileMatch else 0))
  | d :: n =>
    match s.m with
    | [] =>
      match stepBack mask mask.length with
      | .error e => .done (.error e)
      | .ok m => if isStar mask m = true then .done (.ok s.fileMatch) else s.compare (mask.drop m) d n
    | '*' :: m =>
      let m := m.dropWhile (· == '*')
      .next { s with m := m, ls := some (m, d :: n), matched := s.matched + s.sofar, sofar := 0 }
    | '?' :: m => .next { s with m := m, n := n }
    | '\\' :: m => s.compare m d n
    | m => s.compare m d n

def Scan.rounds (mask : CStr) : ℕ → Scan → Option (Except Fault ℕ)
  | 0, _ => none
  | fuel + 1, s =>
    match s.round mask with
    | .next s => rounds mask fuel s
    | .done result => some result

/-- So many rounds are enough. -/
def enoughRounds (mask name : CStr) : ℕ := (name.length + 2) * ((name.length + 1) * (mask.length + 1)) + 1

/-- `wild_match_file`; none if it would not return. -/
def wildMatchFile (mask name : CStr) : Option (Except Fault ℕ) :=
  if name = [] then some (.ok 0)
  else Scan.rounds mask (enoughRounds mask name) ⟨mask, name, none, 1, 0⟩

/-! ### What a mask means -/

/-- A backslash takes away what the character behind it means; with nothing behind it, it stands for
no character. -/
def items : CStr → List (Item Char)
  | [] => []
  | '*' :: m => many :: items m
  | '?' :: m => one (fun _ => true) :: items m
  | ['\\'] => [one fun _ => false]
  | '\\' :: c :: m => one (· == c) :: items m
  | c :: m => one (· == c) :: items m

/-- The answer that it should give. -/
def Right (mask name : CStr) : Prop :=
  ∃ v, wildMatchFile mask name = some (.ok v) ∧ (v ≠ 0 ↔ Matches (items mask) name)

/-! ### Behind the end of the mask -/

/-- `c` is the last character of the mask that is not `?`, with `k` question marks behind it; in a
mask of question marks it is the first of them. -/
structure Ending (mask u : CStr) (c : Char) (k : ℕ) : Prop where
  eq : mask = u ++ c :: replicate k '?'
  other : u = [] ∨ c ≠ '?'

/-- The mask ends in a star, with question marks behind it, which the loop takes for one. -/
def EndsInStar (u : CStr) (c : Char) : Prop := c = '*' ∧ u.getLast? ≠ some '\\'

/-- The text is made of parts that start with `c` and have `k` characters more. -/
inductive Repeats (c : Char) (k : ℕ) : CStr → Prop
  | nil : Repeats c k []
  | cons {x r : CStr} (hx : x.length = k) (hr : Repeats c k r) : Repeats c k (c :: (x ++ r))

/-- The last of the parts is cut short. -/
inductive Cut (c : Char) (k : ℕ) : CStr → Prop
  | here {x : CStr} (hx : x.length < k) : Cut c k (c :: x)
  | cons {x r : CStr} (hx : x.length = k) (hr : Cut c k r) : Cut c k (c :: (x ++ r))

/-- One of the parts starts with another character. -/
inductive Strays (c : Char) (k : ℕ) : CStr → Prop
  | here {d : Char} {r : CStr} (hd : d ≠ c) : Strays c k (d :: r)
  | cons {x r : CStr} (hx : x.length = k) (hr : Strays c k r) : Strays c k (c :: (x ++ r))

/-- What is left of the name decides about it. -/
def Decides (c : Char) (k : ℕ) (r : CStr) : Prop := r ≠ [] ∧ (Repeats c k r ∨ Cut c k r)

/-- The whole mask has been taken where `r` is left of the name, and `r` decides: the first such place
from where the last star was come to, each star before it having taken as little as possible; or the
only one, for a mask without stars. -/
def FirstOver (mask : CStr) (c : Char) (k : ℕ) (name r : CStr) : Prop :=
  (Ones (items mask) ∧ Stands (items mask) name r ∧ Decides c k r) ∨
    ∃ h g y, items mask = h ++ many :: g ∧ Ones g ∧ Rest h name y ∧ First g (Decides c k) y r

/-- The mask is not empty; and unless it ends in a star that the loop takes for one, the first rest of
the name that decides, at a place where the whole mask has been taken, repeats the end of the mask
exactly if the name is as the mask says. -/
def Fair (mask name : CStr) : Prop :=
  mask ≠ [] ∧ ∀ u c k, Ending mask u c k → ¬ EndsInStar u c →
    ∀ r, FirstOver mask c k name r → (Repeats c k r ↔ Matches (items mask) name)

section Over

variable {mask u r : CStr} {c : Char} {k : ℕ}

theorem exists_ending (h : mask ≠ []) : ∃ u c k, Ending mask u c k := by
  induction mask using reverseRecOn with
  | nil => exact absurd rfl h
  | append_singleton m c ih =>
    by_cases hc : c = '?'
    · cases m with
      | nil => exact ⟨[], c, 0, rfl, .inl rfl⟩
      | cons d m =>
        obtain ⟨u, e, k, heq, hother⟩ := ih (cons_ne_nil d m)
        refine ⟨u, e, k + 1, ?_, hother⟩
        rw [heq, hc, replicate_succ']
        simp
    · exact ⟨m, c, 0, rfl, .inr hc⟩

theorem over_cases (c : Char) (k : ℕ) : ∀ r, Repeats c k r ∨ Cut c k r ∨ Strays c k r := by
  intro r
  induction hn : r.length using Nat.strong_induction_on generalizing r with
  | _ n ih =>
    cases r with
    | nil => exact .inl .nil
    | cons d r =>
      by_cases hd : d = c
      · subst hd
        by_cases hk : r.length < k
        · exact .inr (.inl (.here hk))
        · have hx : (r.take k).length = k := length_take_of_le (Nat.not_lt.1 hk)
          have hr : r.take k ++ r.drop k = r := take_append_drop k r
          have hlen : (r.drop k).length < n := by
            rw [← hn, length_drop, length_cons]
            omega
          rcases ih _ hlen (r.drop k) rfl with h | h | h
          · exact .inl (hr ▸ .cons hx h)
          · exact .inr (.inl (hr ▸ .cons hx h))
          · exact .inr (.inr (hr ▸ .cons hx h))
      · exact .inr (.inr (.here hd))

theorem Strays.ne_nil (h : Strays c k r) : r ≠ [] := by
  cases h <;> exact cons_ne_nil _ _

theorem Repeats.not_cut (h : Repeats c k r) : ¬ Cut c k r := by
  induction h with
  | nil => exact fun h => by cases h
  | @cons x r hx hr ih =>
    intro hcut
    generalize hs : c :: (x ++ r) = s at hcut
    cases hcut with
    | here hy =>
      obtain ⟨-, rfl⟩ := cons.inj hs
      rw [length_append] at hy
      omega
    | cons hy hcut =>
      obtain ⟨-, heq⟩ := cons.inj hs
      obtain ⟨-, rfl⟩ := append_inj heq (hx.trans hy.symm)
      exact ih hcut

theorem Strays.not_decides (h : Strays c k r) : ¬ Decides c k r := by
  rintro ⟨-, hover⟩
  induction h with
  | here hd =>
    rcases hover with hover | hover
    · cases hover
      exact hd rfl
    · cases hover <;> exact hd rfl
  | @cons x r hx hr ih =>
    apply ih
    generalize hs : c :: (x ++ r) = s at hover
    rcases hover with hover | hover
    · cases hover with
      | nil => cases hs
      | cons hy hover =>
        obtain ⟨-, heq⟩ := cons.inj hs
        obtain ⟨-, rfl⟩ := append_inj heq (hx.trans hy.symm)
        exact .inl hover
    · cases hover with
      | here hy =>
        obtain ⟨-, rfl⟩ := cons.inj hs
        rw [length_append] at hy
        omega
      | cons hy hover =>
        obtain ⟨-, heq⟩ := cons.inj hs
        obtain ⟨-, rfl⟩ := append_inj heq (hx.trans hy.symm)
        exact .inr hover

theorem stepBack_eq (u : CStr) (c : Char) (k i : ℕ) (hc : u = [] ∨ c ≠ '?') (hi : i ≤ k) :
    stepBack (u ++ c :: replicate k '?') (u.length + 1 + i) = .ok u.length := by
  induction i with
  | zero =>
    rw [Nat.add_zero, stepBack, if_neg]
    rintro ⟨hpos, hget⟩
    rcases hc with rfl | hc
    · simp at hpos
    · simp at hget
      exact hc hget
  | succ i ih =>
    have hget : (u ++ c :: replicate k '?')[u.length + 1 + i]? = some '?' := by
      rw [getElem?_append_right (by omega), show u.length + 1 + i - u.length = i + 1 by omega,
        getElem?_cons_succ, getElem?_replicate, if_pos (by omega)]
    rw [show u.length + 1 + (i + 1) = u.length + 1 + i + 1 from rfl, stepBack,
      if_pos ⟨by omega, hget⟩]
    exact ih (by omega)

theorem Ending.stepBack_eq (h : Ending mask u c k) : stepBack mask mask.length = .ok u.length := by
  have hlen : mask.length = u.length + 1 + k := by
    rw [h.eq]
    simp
    omega
  rw [hlen, h.eq]
  exact Transfer.stepBack_eq u c k k h.other le_rfl

theorem Ending.drop_eq (h : Ending mask u c k) : mask.drop u.length = c :: replicate k '?' := by
  rw [h.eq, drop_left]

theorem Ending.isStar_eq (h : Ending mask u c k) :
    isStar mask u.length = true ↔ c = '*' ∧ u.getLast? ≠ some '\\' := by
  have hget : mask[u.length]? = some c := by
    rw [h.eq, getElem?_append_right le_rfl]
    simp
  have hlast : u.length ≠ 0 → mask[u.length - 1]? = u.getLast? := by
    intro hpos
    rw [h.eq, getElem?_append_left (by omega), getLast?_eq_getElem?]
  rw [isStar, hget]
  by_cases hpos : u.length = 0
  · obtain rfl := length_eq_zero_iff.1 hpos
    simp
  · rw [hlast hpos]
    simp [hpos]

end Over

/-! ### Rounds -/

/-- From these places on the loop ends, without a fault, and with the answer yes exactly if `P`. -/
def Ends (mask m n : CStr) (ls : Option (CStr × CStr)) (P : Prop) : Prop :=
  ∀ matched sofar, 0 < matched → ∃ fuel v,
    Scan.rounds mask fuel ⟨m, n, ls, matched, sofar⟩ = some (.ok v) ∧ (v ≠ 0 ↔ P)

/-- The same from where the loop goes on after a comparison that failed. -/
def Retries (mask : CStr) (ls : Option (CStr × CStr)) (P : Prop) : Prop :=
  match ls with
  | none => ¬ P
  | some (m, n) => ∃ d n', n = d :: n' ∧ Ends mask m n' (some (m, n')) P

section Ends

variable {mask m n : CStr} {c d : Char} {ls : Option (CStr × CStr)} {P : Prop}

theorem Ends.of_iff {Q : Prop} (h : Ends mask m n ls P) (hiff : P ↔ Q) : Ends mask m n ls Q := by
  intro matched sofar hpos
  obtain ⟨fuel, v, hrun, hv⟩ := h matched sofar hpos
  exact ⟨fuel, v, hrun, hv.trans hiff⟩

theorem rounds_next {s s' : Scan} (hround : s.round mask = .next s')
    (h : ∃ fuel v, Scan.rounds mask fuel s' = some (.ok v) ∧ (v ≠ 0 ↔ P)) :
    ∃ fuel v, Scan.rounds mask fuel s = some (.ok v) ∧ (v ≠ 0 ↔ P) := by
  obtain ⟨fuel, v, hrun, hv⟩ := h
  refine ⟨fuel + 1, v, ?_, hv⟩
  rw [Scan.rounds, hround]
  exact hrun

theorem rounds_done {s : Scan} {v : ℕ} (hround : s.round mask = .done (.ok v)) (hv : v ≠ 0 ↔ P) :
    ∃ fuel v, Scan.rounds mask fuel s = some (.ok v) ∧ (v ≠ 0 ↔ P) := by
  refine ⟨1, v, ?_, hv⟩
  rw [Scan.rounds, hround]

theorem ends_nil (m : CStr) : Ends mask m [] ls (m.dropWhile (· == '*') = []) := by
  intro matched sofar hpos
  apply rounds_done rfl
  dsimp only [Scan.fileMatch]
  split
  next h => exact iff_of_true (by omega) h
  next h => exact iff_of_false (by simp) h

theorem Ends.star (h : Ends mask (m.dropWhile (· == '*')) (d :: n)
    (some (m.dropWhile (· == '*'), d :: n)) P) : Ends mask ('*' :: m) (d :: n) ls P := by
  intro matched sofar hpos
  exact rounds_next rfl (h _ _ (by dsimp only; omega))

theorem Ends.mark (h : Ends mask m n ls P) : Ends mask ('?' :: m) (d :: n) ls P := by
  intro matched sofar hpos
  exact rounds_next rfl (h _ _ hpos)

theorem retry_rounds {s : Scan} (hpos : 0 < s.matched) (hround : s.round mask = Scan.compare.retry s ls)
    (h : Retries mask ls P) : ∃ fuel v, Scan.rounds mask fuel s = some (.ok v) ∧ (v ≠ 0 ↔ P) := by
  cases ls with
  | none => exact rounds_done hround (iff_of_false (by simp) h)
  | some ls =>
    obtain ⟨d, n', hn, h⟩ := h
    obtain ⟨lsm, lsn⟩ := ls
    subst hn
    exact rounds_next hround (h _ _ hpos)

theorem compare_rounds {s : Scan} (hpos : 0 < s.matched)
    (hround : s.round mask = s.compare (c :: m) d n) (heq : c = d → Ends mask m n s.ls P)
    (hne : c ≠ d → Retries mask s.ls P) :
    ∃ fuel v, Scan.rounds mask fuel s = some (.ok v) ∧ (v ≠ 0 ↔ P) := by
  rw [Scan.compare] at hround
  by_cases hc : c = d
  · rw [if_pos hc] at hround
    exact rounds_next hround (heq hc _ _ hpos)
  · rw [if_neg hc] at hround
    exact retry_rounds hpos hround (hne hc)

theorem ends_quoted (heq : c = d → Ends mask m n ls P) (hne : c ≠ d → Retries mask ls P) :
    Ends mask ('\\' :: c :: m) (d :: n) ls P := by
  intro matched sofar hpos
  exact compare_rounds hpos rfl heq hne

theorem ends_open (h : Retries mask ls P) : Ends mask ['\\'] (d :: n) ls P := by
  intro matched sofar hpos
  exact retry_rounds hpos rfl h

theorem ends_char (hstar : c ≠ '*') (hmark : c ≠ '?') (hback : c ≠ '\\')
    (heq : c = d → Ends mask m n ls P) (hne : c ≠ d → Retries mask ls P) :
    Ends mask (c :: m) (d :: n) ls P := by
  intro matched sofar hpos
  refine compare_rounds hpos ?_ heq hne
  rw [Scan.round]
  dsimp only
  split
  next h => cases h
  next h => exact absurd ( List.cons.inj h).1 hstar
  next h => exact absurd ( List.cons.inj h).1 hmark
  next h => exact absurd ( List.cons.inj h).1 hback
  next => rfl

/-! ### One way through the mask -/

theorem items_char (hstar : c ≠ '*') (hmark : c ≠ '?') (hback : c ≠ '\\') (m : CStr) :
    items (c :: m) = one (· == c) :: items m := by
  rw [items]
  · intro h
    exact absurd h hstar
  · intro h
    exact absurd h hmark
  · intro h
    exact absurd h hback
  · intro d w h
    exact absurd h hback

variable (mask) in
/-- From a place in the mask to its next star or its end: the name is too short, or a character is
another, or the loop comes there. -/
def Scans (m n : CStr) : Prop :=
  (Short (items m) n ∧ ∀ ls P, ¬ P → Ends mask m n ls P) ∨
    (Differs (items m) n ∧ ∀ ls P, Retries mask ls P → Ends mask m n ls P) ∨
      ∃ g m' r, Ones g ∧ m' <:+ m ∧ items m = g ++ items m' ∧ (m' = [] ∨ ∃ m'', m' = '*' :: m'') ∧
        Stands g n r ∧ ∀ ls P, Ends mask m' r ls P → Ends mask m n ls P

theorem scans_here (hm : m = [] ∨ ∃ m'', m = '*' :: m'') (n : CStr) : Scans mask m n :=
  .inr (.inr ⟨[], m, n, by simp [Ones], suffix_rfl, rfl, hm, stands_nil.2 rfl, fun _ _ h => h⟩)

theorem scans_step {m₁ : CStr} {p : Char → Bool} (hsuf : m <:+ m₁) (hitems : items m₁ = one p :: items m)
    (hne : m₁.dropWhile (· == '*') ≠ [])
    (hstep : ∀ d n ls P, (p d = true → Ends mask m n ls P) → (p d = false → Retries mask ls P) →
      Ends mask m₁ (d :: n) ls P)
    (ih : ∀ n, Scans mask m n) (n : CStr) : Scans mask m₁ n := by
  rw [Scans, hitems]
  cases n with
  | nil =>
    refine .inl ⟨trivial, ?_⟩
    intro ls P hP
    exact (ends_nil m₁).of_iff (iff_of_false hne hP)
  | cons d n =>
    by_cases hp : p d = true
    · have hgo (ls : Option (CStr × CStr)) (P : Prop) (h : Ends mask m n ls P) :
          Ends mask m₁ (d :: n) ls P :=
        hstep d n ls P (fun _ => h) fun h => absurd (hp.symm.trans h) (by decide)
      rcases ih n with ⟨hshort, hends⟩ | ⟨hdiff, hends⟩ | ⟨g, m', r, hg, hm, hitems', hm', hr, hends⟩
      · exact .inl ⟨⟨hp, hshort⟩, fun ls P hP => hgo ls P (hends ls P hP)⟩
      · exact .inr (.inl ⟨.inr ⟨hp, hdiff⟩, fun ls P hP => hgo ls P (hends ls P hP)⟩)
      · refine .inr (.inr ⟨one p :: g, m', r, ones_cons.2 hg, hm.trans hsuf, ?_, hm', stands_one_cons.2 ⟨hp, hr⟩,
          fun ls P hP => hgo ls P (hends ls P hP)⟩)
        rw [hitems', cons_append]
    · refine .inr (.inl ⟨.inl (by simpa using hp), ?_⟩)
      intro ls P hP
      exact hstep d n ls P (fun h => absurd h hp) fun _ => hP

variable (mask) in
theorem scan_cases (m : CStr) : ∀ n, Scans mask m n := by
  induction m using items.induct with
  | case1 => exact scans_here (.inl rfl)
  | case2 m ih => exact scans_here (.inr ⟨m, rfl⟩)
  | case3 m ih =>
    apply scans_step (suffix_cons _ m) (items.eq_3 m) (by simp) _ ih
    intro d n ls P h _
    exact (h rfl).mark
  | case4 =>
    apply scans_step (nil_suffix) rfl (by simp) _ (scans_here (.inl rfl))
    intro d n ls P _ h
    exact ends_open (h rfl)
  | case5 c m ih =>
    apply scans_step ((suffix_cons c m).trans (suffix_cons _ _)) (items.eq_5 c m) (by simp) _ ih
    intro d n ls P htrue hfalse
    apply ends_quoted
    · rintro rfl
      exact htrue (beq_self_eq_true c)
    · intro hc
      exact hfalse (beq_eq_false_iff_ne.2 hc.symm)
  | case6 c m hstar hmark hopen hback ih =>
    have hstar : c ≠ '*' := fun h => hstar h
    have hmark : c ≠ '?' := fun h => hmark h
    have hback : c ≠ '\\' := by
      rintro rfl
      cases m with
      | nil => exact hopen rfl rfl
      | cons d m => exact hback d m rfl rfl
    apply scans_step (suffix_cons c m) (items_char hstar hmark hback m) (by simp [hstar]) _ ih
    intro d n ls P htrue hfalse
    apply ends_char hstar hmark hback
    · rintro rfl
      exact htrue (beq_self_eq_true c)
    · intro hc
      exact hfalse (beq_eq_false_iff_ne.2 hc.symm)

/-! ### Behind the end -/

section End

variable {u r : CStr} {k : ℕ}

theorem ends_recognized (hend : Ending mask u c k) (hstar : EndsInStar u c)
    (hr : r ≠ []) : Ends mask [] r ls True := by
  obtain ⟨d, n, rfl⟩ := exists_cons_of_ne_nil hr
  intro matched sofar hpos
  refine rounds_done (v := matched + sofar) ?_ (by simp; omega)
  rw [Scan.round]
  dsimp only
  rw [hend.stepBack_eq]
  dsimp only
  rw [if_pos (hend.isStar_eq.2 hstar)]
  rfl

theorem ends_end (hend : Ending mask u c k) (hstar : ¬ EndsInStar u c)
    (heq : c = d → Ends mask (replicate k '?') n ls P) (hne : c ≠ d → Retries mask ls P) :
    Ends mask [] (d :: n) ls P := by
  intro matched sofar hpos
  refine compare_rounds (c := c) (m := replicate k '?') hpos ?_ heq hne
  rw [Scan.round]
  dsimp only
  rw [hend.stepBack_eq]
  dsimp only
  rw [if_neg fun h => hstar (hend.isStar_eq.1 h), hend.drop_eq]

theorem ends_marks {x : CStr} (hx : x.length = k) (h : Ends mask [] r ls P) :
    Ends mask (replicate k '?') (x ++ r) ls P := by
  subst hx
  induction x with
  | nil => exact h
  | cons d x ih => exact ih.mark

theorem ends_marks_short {x : CStr} (hx : x.length < k) (hP : ¬ P) :
    Ends mask (replicate k '?') x ls P := by
  induction x generalizing k with
  | nil =>
    obtain ⟨k, rfl⟩ := Nat.exists_eq_succ_of_ne_zero (Nat.ne_of_gt hx)
    exact (ends_nil _).of_iff (iff_of_false (by simp [replicate_succ]) hP)
  | cons d x ih =>
    obtain ⟨k, rfl⟩ := Nat.exists_eq_succ_of_ne_zero (show k ≠ 0 by omega)
    exact (ih (Nat.lt_of_succ_lt_succ hx)).mark

theorem Repeats.ends (h : Repeats c k r) (hend : Ending mask u c k)
    (hstar : ¬ EndsInStar u c) (hP : P) : Ends mask [] r ls P := by
  induction h with
  | nil => exact (ends_nil []).of_iff (iff_of_true rfl hP)
  | cons hx hr ih => exact ends_end hend hstar (fun _ => ends_marks hx ih) fun h => absurd rfl h

theorem Cut.ends (h : Cut c k r) (hend : Ending mask u c k)
    (hstar : ¬ EndsInStar u c) (hP : ¬ P) : Ends mask [] r ls P := by
  induction h with
  | here hx => exact ends_end hend hstar (fun _ => ends_marks_short hx hP) fun h => absurd rfl h
  | cons hx hr ih => exact ends_end hend hstar (fun _ => ends_marks hx ih) fun h => absurd rfl h

theorem Strays.ends (h : Strays c k r) (hend : Ending mask u c k)
    (hstar : ¬ EndsInStar u c) (hP : Retries mask ls P) :
    Ends mask [] r ls P := by
  induction h with
  | here hd => exact ends_end hend hstar (fun h => absurd h.symm hd) fun _ => hP
  | cons hx hr ih => exact ends_end hend hstar (fun _ => ends_marks hx ih) fun h => absurd rfl h

end End

end Ends

/-! ### The part behind the last star -/

/-- At the first place with a rest of which `D` holds, `R` decides; without one, the whole of the text
has to be as the items say, wherever they begin. -/
def Final (D R : CStr → Prop) (g : List (Item Char)) (y : CStr) : Prop :=
  (∃ r, First g D y r ∧ R r) ∨ ((∀ r, ¬ First g D y r) ∧ Matches (many :: g) y)

section Final

variable {D R : CStr → Prop} {g : List (Item Char)} {y t : CStr} {d : Char}

theorem final_self (hg : Ones g) (hs : Stands g y t) (hD : D t) : Final D R g y ↔ R t := by
  simp only [Final, first_self hg hs hD]
  constructor
  · rintro (⟨r, rfl, hR⟩ | ⟨hno, -⟩)
    · exact hR
    · exact absurd rfl (hno t)
  · intro hR
    exact .inl ⟨t, rfl, hR⟩

theorem final_end (hg : Ones g) (hs : Stands g y []) (hD : ¬ D []) : Final D R g y := by
  right
  constructor
  · intro r hr
    obtain ⟨t, ht, ⟨x, rfl, hx⟩, hr⟩ := hr.exists_stands
    have hlen := ht.length_le
    rw [hg.length_eq (stands_nil_right.1 hs), length_append, hg.length_eq hx] at hlen
    obtain rfl := length_eq_zero_iff.1 (show r.length = 0 by omega)
    exact hD hr
  · exact ⟨y, suffix_rfl, stands_nil_right.1 hs⟩

theorem final_cons (h : ∀ r, Stands g (d :: y) r → r ≠ [] ∧ ¬ D r) :
    Final D R g (d :: y) ↔ Final D R g y := by
  have hmatch : Matches (many :: g) (d :: y) ↔ Matches (many :: g) y := by
    constructor
    · rintro ⟨t, ht, hm⟩
      rcases suffix_cons_iff.1 ht with rfl | ht
      · exact absurd rfl (h [] (stands_nil_right.2 hm)).1
      · exact ⟨t, ht, hm⟩
    · intro hm
      exact hm.many_of_suffix (suffix_cons d y)
  simp only [Final, first_cons fun r hr => (h r hr).2, hmatch]

theorem not_final_short (hs : Short g y) : ¬ Final D R g y := by
  have hno {t r : CStr} (ht : t <:+ y) : ¬ Stands g t r := by
    have := hs.not_stands (h := []) (r := r) ht
    rwa [append_nil] at this
  rintro (⟨r, hr, -⟩ | ⟨-, t, ht, hm⟩)
  · obtain ⟨t, ht, hstands, -⟩ := hr.exists_stands
    exact hno ht hstands
  · exact hno ht (stands_nil_right.2 hm)

end Final

/-! ### Stars -/

section Stars

variable {F : List (Item Char) → CStr → Prop} {m s : CStr}

theorem atLast_stars (m s : CStr) :
    AtLast F (items (m.dropWhile (· == '*'))) s ↔ AtLast F (items m) s := by
  induction m with
  | nil => rfl
  | cons c m ih =>
    by_cases hc : c = '*'
    · subst hc
      rw [dropWhile_cons_of_pos (by simp), ih, items, atLast_many]
    · rw [dropWhile_cons_of_neg (by simpa using hc)]

theorem exists_before_stars (m : CStr) :
    ∃ h, many :: items m = h ++ many :: items (m.dropWhile (· == '*')) := by
  induction m with
  | nil => exact ⟨[], rfl⟩
  | cons c m ih =>
    by_cases hc : c = '*'
    · subst hc
      obtain ⟨h, hh⟩ := ih
      rw [dropWhile_cons_of_pos (by simp), items, hh]
      exact ⟨many :: h, rfl⟩
    · rw [dropWhile_cons_of_neg (by simpa using hc)]
      exact ⟨[], rfl⟩

theorem short_items_nil (hm : m ≠ []) (hstar : ∀ m', m ≠ '*' :: m') : Short (items m) [] := by
  induction m using items.induct with
  | case1 => exact absurd rfl hm
  | case2 m ih => exact absurd rfl (hstar m)
  | case3 m ih => trivial
  | case4 => trivial
  | case5 c m ih => trivial
  | case6 c m hstar' hmark hopen hback ih =>
    rw [items]
    · trivial
    · exact hstar'
    · exact hmark
    · exact hopen
    · exact hback

theorem getLast?_of_cons {c x : Char} {m : CStr} (h : (c :: m).getLast? ≠ some x) :
    m.getLast? ≠ some x := by
  cases m with
  | nil => simp
  | cons d m => rwa [getLast?_cons_cons] at h

theorem items_append_of_last {u : CStr} (hu : u.getLast? ≠ some '\\') (w : CStr) :
    items (u ++ w) = items u ++ items w := by
  induction u using items.induct with
  | case1 => rfl
  | case2 m ih => rw [cons_append, items, items, ih (getLast?_of_cons hu), cons_append]
  | case3 m ih => rw [cons_append, items, items, ih (getLast?_of_cons hu), cons_append]
  | case4 => simp at hu
  | case5 c m ih =>
    rw [cons_append, cons_append, items, items, ih (getLast?_of_cons (getLast?_of_cons hu)),
      cons_append]
  | case6 c m hstar hmark hopen hback ih =>
    have hstar : c ≠ '*' := fun h => hstar h
    have hmark : c ≠ '?' := fun h => hmark h
    have hback : c ≠ '\\' := by
      rintro rfl
      cases m with
      | nil => exact hopen rfl rfl
      | cons d m => exact hback d m rfl rfl
    rw [cons_append, items_char hstar hmark hback, items_char hstar hmark hback,
      ih (getLast?_of_cons hu), cons_append]

theorem items_marks (k : ℕ) : items (replicate k '?') = replicate k (one fun _ => true) := by
  induction k with
  | zero => rfl
  | succ k ih => rw [replicate_succ, items, ih, replicate_succ]

theorem ones_marks (k : ℕ) : Ones (replicate k (one fun _ : Char => true)) := by
  intro i hi
  exact ⟨_, eq_of_mem_replicate hi⟩

theorem matches_marks (s : CStr) : Matches (replicate s.length (one fun _ => true)) s := by
  induction s with
  | nil => rfl
  | cons d s ih => exact ⟨rfl, ih⟩

end Stars

/-! ### The whole way -/

section Whole

variable {mask u : CStr} {c : Char} {k : ℕ}

theorem Ending.items_eq (h : Ending mask u c k) (hstar : EndsInStar u c) :
    items mask = items u ++ many :: replicate k (one fun _ => true) := by
  rw [h.eq, items_append_of_last hstar.2, hstar.1, items, items_marks]

theorem final_endsInStar {D R : CStr → Prop} {h g : List (Item Char)} {y r : CStr}
    (hend : Ending mask u c k) (hstar : EndsInStar u c) (hmask : items mask = h ++ many :: g)
    (hg : Ones g) (hr : Stands g y r) (hD : ∀ r, ¬ D r) : Final D R g y := by
  rw [hend.items_eq hstar] at hmask
  obtain ⟨-, rfl⟩ := last_unique (ones_marks k) hg hmask
  right
  constructor
  · intro r hr
    obtain ⟨t, -, -, hr⟩ := hr.exists_stands
    exact hD r hr
  · obtain ⟨x, rfl, hx⟩ := hr
    have hlen : k ≤ (x ++ r).length := by
      have := (ones_marks k).length_eq hx
      rw [length_replicate] at this
      rw [length_append]
      omega
    refine ⟨(x ++ r).drop ((x ++ r).length - k), drop_suffix _ _, ?_⟩
    have hk : ((x ++ r).drop ((x ++ r).length - k)).length = k := by
      rw [length_drop]
      omega
    have hmarks := matches_marks ((x ++ r).drop ((x ++ r).length - k))
    rwa [hk] at hmarks

/-- The rests that decide. -/
def Deciding (u : CStr) (c : Char) (k : ℕ) (r : CStr) : Prop := ¬ EndsInStar u c ∧ Decides c k r

theorem ends_final {h g : List (Item Char)} {y r : CStr} {ls : Option (CStr × CStr)}
    (hend : Ending mask u c k) (hmask : items mask = h ++ many :: g) (hg : Ones g)
    (hr : Stands g y r)
    (hretry : ¬ EndsInStar u c → Strays c k r →
      Retries mask ls (Final (Deciding u c k) (Repeats c k) g y)) :
    Ends mask [] r ls (Final (Deciding u c k) (Repeats c k) g y) := by
  by_cases hnil : r = []
  · subst hnil
    have hfinal : Final (Deciding u c k) (Repeats c k) g y := final_end hg hr fun h => h.2.1 rfl
    exact (ends_nil []).of_iff (iff_of_true rfl hfinal)
  by_cases hstar : EndsInStar u c
  · have hfinal : Final (Deciding u c k) (Repeats c k) g y :=
      final_endsInStar hend hstar hmask hg hr fun _ h => h.1 hstar
    exact (ends_recognized hend hstar hnil).of_iff (iff_of_true trivial hfinal)
  rcases over_cases c k r with hover | hover | hover
  · apply hover.ends hend hstar
    exact (final_self hg hr ⟨hstar, hnil, .inl hover⟩).2 hover
  · apply hover.ends hend hstar
    intro hfinal
    exact ((final_self hg hr ⟨hstar, hnil, .inr hover⟩).1 hfinal).not_cut hover
  · exact hover.ends hend hstar (hretry hstar hover)

theorem ends_next {m r : CStr} {ls : Option (CStr × CStr)} {D R : CStr → Prop} (hD : ¬ D [])
    (h : Ends mask (m.dropWhile (· == '*')) r (some (m.dropWhile (· == '*'), r))
      (AtLast (Final D R) (items (m.dropWhile (· == '*'))) r)) :
    Ends mask ('*' :: m) r ls (AtLast (Final D R) (items m) r) := by
  cases r with
  | cons d r => exact h.star.of_iff (atLast_stars m (d :: r))
  | nil =>
    apply (ends_nil ('*' :: m)).of_iff
    rw [dropWhile_cons_of_pos (by simp), ← atLast_stars]
    constructor
    · intro hm
      rw [hm]
      have hones : Ones ([] : List (Item Char)) := by simp [Ones]
      exact (AtLast.of_ones hones).2 (final_end hones (stands_nil.2 rfl) hD)
    · intro hlast
      by_contra hm
      have hstar (m' : CStr) : m.dropWhile (· == '*') ≠ '*' :: m' := by
        intro h
        have hhead := head?_dropWhile_not (· == '*') m
        rw [h] at hhead
        simp at hhead
      have hshort := short_items_nil hm hstar
      exact not_atLast_short hshort (fun _ => not_final_short hshort) hlast

theorem ends_behind (hend : Ending mask u c k) (m : CStr) (hm : ∃ h, items mask = h ++ many :: items m)
    (y : CStr) :
    Ends mask m y (some (m, y)) (AtLast (Final (Deciding u c k) (Repeats c k)) (items m) y) := by
  induction hn : m.length using Nat.strong_induction_on generalizing m y with
  | _ n ihm =>
  -- one way through, with the next place given
  have hway : ∀ y : CStr,
      (∀ d y', y = d :: y' → Ends mask m y' (some (m, y'))
        (AtLast (Final (Deciding u c k) (Repeats c k)) (items m) y')) →
      Ends mask m y (some (m, y))
        (AtLast (Final (Deciding u c k) (Repeats c k)) (items m) y) := by
    intro y ihy
    rcases scan_cases mask m y with ⟨hshort, hends⟩ | ⟨hdiff, hends⟩ |
      ⟨g, m', r, hg, hsuf, hitems, hm', hr, hends⟩
    · apply hends
      exact not_atLast_short hshort fun _ => not_final_short hshort
    · apply hends
      obtain ⟨d, y', rfl⟩ := exists_cons_of_ne_nil hdiff.ne_nil
      refine ⟨d, y', rfl, (ihy d y' rfl).of_iff (atLast_cons hdiff fun _ => ?_).symm⟩
      apply final_cons
      intro r hr
      have hno := hdiff.not_stands (h := []) (r := r)
      rw [append_nil] at hno
      exact absurd hr hno
    · apply hends
      rcases hm' with rfl | ⟨m'', rfl⟩
      · rw [show items [] = [] from rfl, append_nil] at hitems
        subst hitems
        obtain ⟨h, hmask⟩ := hm
        apply (ends_final hend hmask hg hr _).of_iff (AtLast.of_ones hg).symm
        intro hstar hover
        have hy : y ≠ [] := by
          rintro rfl
          exact hover.ne_nil (suffix_nil.1 hr.suffix)
        obtain ⟨d, y', rfl⟩ := exists_cons_of_ne_nil hy
        refine ⟨d, y', rfl, (ihy d y' rfl).of_iff ?_⟩
        rw [AtLast.of_ones hg, final_cons]
        intro r' hr'
        rw [hg.stands_unique hr' hr]
        exact ⟨hover.ne_nil, fun h => hover.not_decides h.2⟩
      · have hlast : AtLast (Final (Deciding u c k) (Repeats c k)) (items m) y ↔
            AtLast (Final (Deciding u c k) (Repeats c k)) (items m'') r := by
          rw [hitems]
          exact atLast_append hg hr
        apply Ends.of_iff _ hlast.symm
        apply ends_next fun h => h.2.1 rfl
        apply ihm _ _ (m''.dropWhile (· == '*')) _ r rfl
        · have hle := (dropWhile_suffix (p := (· == '*')) (l := m'')).length_le
          have hlt := hsuf.length_le
          rw [length_cons] at hlt
          omega
        · obtain ⟨h, hmask⟩ := hm
          obtain ⟨h', hh'⟩ := exists_before_stars m''
          rw [hitems, show items ('*' :: m'') = many :: items m'' from rfl, hh'] at hmask
          exact ⟨h ++ many :: (g ++ h'), by rw [hmask]; simp⟩
  induction y with
  | nil => exact hway [] fun d y' h => by cases h
  | cons d y ihy =>
    apply hway
    intro d' y' h
    obtain ⟨-, rfl⟩ := cons.inj h
    exact ihy

/-- What the name has to be for a mask without stars, in which the end may come too early. -/
def Plain (R : CStr → Prop) (g : List (Item Char)) (name : CStr) : Prop :=
  ∃ r, Stands g name r ∧ (r = [] ∨ R r)

theorem ends_start (hend : Ending mask u c k) (name : CStr) :
    Ends mask mask name none
      (AtStart (Plain (Repeats c k)) (Final (Deciding u c k) (Repeats c k)) (items mask) name) := by
  have hnone (h : Short (items mask) name ∨ Differs (items mask) name) :
      ¬ AtStart (Plain (Repeats c k)) (Final (Deciding u c k) (Repeats c k)) (items mask) name := by
    apply not_atStart h
    rintro - ⟨r, hr, -⟩
    have hno : ¬ Stands (items mask ++ []) name r := by
      rcases h with h | h
      · exact h.not_stands suffix_rfl
      · exact h.not_stands
    rw [append_nil] at hno
    exact hno hr
  rcases scan_cases mask mask name with ⟨hshort, hends⟩ | ⟨hdiff, hends⟩ |
    ⟨g, m', r, hg, -, hitems, hm', hr, hends⟩
  · exact hends none _ (hnone (.inl hshort))
  · exact hends none _ (hnone (.inr hdiff))
  apply hends
  rcases hm' with rfl | ⟨m'', rfl⟩
  · rw [show items [] = [] from rfl, append_nil] at hitems
    have hstar : ¬ EndsInStar u c := by
      intro hstar
      rw [← hitems, hend.items_eq hstar] at hg
      exact not_ones_append_many hg
    rw [hitems, AtStart.of_ones hg]
    by_cases hnil : r = []
    · subst hnil
      exact (ends_nil []).of_iff (iff_of_true rfl ⟨[], hr, .inl rfl⟩)
    have hplain (h : Plain (Repeats c k) g name) : Repeats c k r := by
      obtain ⟨r', hr', hR⟩ := h
      rw [hg.stands_unique hr' hr] at hR
      exact hR.resolve_left hnil
    rcases over_cases c k r with hover | hover | hover
    · exact hover.ends hend hstar ⟨r, hr, .inr hover⟩
    · exact hover.ends hend hstar fun h => (hplain h).not_cut hover
    · apply hover.ends hend hstar
      intro h
      exact hover.not_decides ⟨hnil, .inl (hplain h)⟩
  · have hstart : AtStart (Plain (Repeats c k)) (Final (Deciding u c k) (Repeats c k)) (items mask) name ↔
        AtLast (Final (Deciding u c k) (Repeats c k)) (items m'') r := by
      rw [hitems]
      exact atStart_append hg hr
    apply Ends.of_iff _ hstart.symm
    apply ends_next fun h => h.2.1 rfl
    apply ends_behind hend
    obtain ⟨h', hh'⟩ := exists_before_stars m''
    refine ⟨g ++ h', ?_⟩
    rw [hitems, show items ('*' :: m'') = many :: items m'' from rfl, hh', append_assoc]

end Whole

/-! ### Enough rounds -/

section Rounds

variable {mask name : CStr} {s s' : Scan}

/-- The places lie within the texts, and that in the name is not before that of the last star. -/
structure Scan.Fits (mask name : CStr) (s : Scan) : Prop where
  m : s.m.length ≤ mask.length
  n : s.n.length ≤ name.length
  ls : ∀ lm ln, s.ls = some (lm, ln) →
    lm.length ≤ mask.length ∧ ln.length ≤ name.length ∧ s.n.length ≤ ln.length

theorem compare_next {m n : CStr} {d : Char} (h : s.compare m d n = .next s') :
    (∃ c m', m = c :: m' ∧ s' = { s with m := m', n := n, sofar := s.sofar + 1 }) ∨
      ∃ lm e ln, s.ls = some (lm, e :: ln) ∧
        s' = { s with m := lm, n := ln, ls := some (lm, ln), sofar := 0 } := by
  have hretry (h : Scan.compare.retry s s.ls = .next s') : ∃ lm e ln, s.ls = some (lm, e :: ln) ∧
      s' = { s with m := lm, n := ln, ls := some (lm, ln), sofar := 0 } := by
    unfold Scan.compare.retry at h
    split at h
    next lm e ln hls => exact ⟨lm, e, ln, hls, (Round.next.inj h).symm⟩
    next => cases h
    next => cases h
  unfold Scan.compare at h
  split at h
  next c m' =>
    split at h
    · exact .inl ⟨c, m', rfl, (Round.next.inj h).symm⟩
    · exact .inr (hretry h)
  next => exact .inr (hretry h)

theorem round_next (hfits : s.Fits mask name) (h : s.round mask = .next s') :
    ∃ d n, s.n = d :: n ∧
      ((∃ m, s.m = '*' :: m ∧ s' = { s with
          m := m.dropWhile (· == '*'), ls := some (m.dropWhile (· == '*'), d :: n)
          matched := s.matched + s.sofar, sofar := 0 }) ∨
        (∃ m' count, m'.length ≤ mask.length ∧ count ≤ s.sofar + 1 ∧
          s' = { s with m := m', n := n, sofar := count }) ∨
        ∃ lm e ln, s.ls = some (lm, e :: ln) ∧
          s' = { s with m := lm, n := ln, ls := some (lm, ln), sofar := 0 }) := by
  have hm := hfits.m
  have hcompare {m n : CStr} {d : Char} (hm : m.length ≤ mask.length) (h : s.compare m d n = .next s') :
      (∃ m' count, m'.length ≤ mask.length ∧ count ≤ s.sofar + 1 ∧
          s' = { s with m := m', n := n, sofar := count }) ∨
        ∃ lm e ln, s.ls = some (lm, e :: ln) ∧
          s' = { s with m := lm, n := ln, ls := some (lm, ln), sofar := 0 } := by
    rcases compare_next h with ⟨c, m', rfl, hs'⟩ | hretry
    · exact .inl ⟨m', _, by rw [length_cons] at hm; omega, le_rfl, hs'⟩
    · exact .inr hretry
  unfold Scan.round at h
  split at h
  next => cases h
  next d n hn =>
    refine ⟨d, n, hn, ?_⟩
    split at h
    next =>
      split at h
      next => cases h
      next j =>
        split at h
        · cases h
        · exact .inr (hcompare (by rw [length_drop]; omega) h)
    next m hsm => exact .inl ⟨m, hsm, (Round.next.inj h).symm⟩
    next m hsm =>
      rw [hsm, length_cons] at hm
      exact .inr (.inl ⟨m, s.sofar, by omega, by omega, (Round.next.inj h).symm⟩)
    next m hsm =>
      rw [hsm, length_cons] at hm
      exact .inr (hcompare (by omega) h)
    next => exact .inr (hcompare hm h)

theorem Scan.Fits.round (hfits : s.Fits mask name) (h : s.round mask = .next s') :
    s'.Fits mask name := by
  obtain ⟨d, n, hn, ⟨m, hm, rfl⟩ | ⟨m', count, hm', -, rfl⟩ | ⟨lm, e, ln, hls, rfl⟩⟩ :=
    round_next hfits h
  · have hlen := (dropWhile_suffix (p := (· == '*')) (l := m)).length_le
    have hfm := hfits.m
    have hfn := hfits.n
    rw [hm, length_cons] at hfm
    rw [hn] at hfn
    refine ⟨by dsimp only; omega, hfits.n, ?_⟩
    intro lm ln hls
    cases hls
    exact ⟨by omega, hfn, by rw [hn]⟩
  · have hfn := hfits.n
    rw [hn, length_cons] at hfn
    refine ⟨hm', by dsimp only; omega, ?_⟩
    intro lm ln hls
    obtain ⟨hlm, hln, hle⟩ := hfits.ls lm ln hls
    rw [hn, length_cons] at hle
    exact ⟨hlm, hln, by dsimp only; omega⟩
  · obtain ⟨hlm, hln, -⟩ := hfits.ls lm (e :: ln) hls
    rw [length_cons] at hln
    refine ⟨hlm, by dsimp only; omega, ?_⟩
    intro lm' ln' hls'
    cases hls'
    exact ⟨hlm, by omega, le_rfl⟩

/-- How many rounds there can still be: first the places that the last star has left, then the
characters left of the name, then those of the mask. -/
def Scan.left (mask name : CStr) (s : Scan) : ℕ :=
  (match s.ls with
    | none => name.length + 1
    | some (_, ln) => ln.length) * ((name.length + 1) * (mask.length + 1)) +
  s.n.length * (mask.length + 1) + s.m.length

theorem left_round (hfits : s.Fits mask name) (h : s.round mask = .next s') :
    s'.left mask name < s.left mask name := by
  have hfm := hfits.m
  obtain ⟨d, n, hn, ⟨m, hm, rfl⟩ | ⟨m', count, hm', -, rfl⟩ | ⟨lm, e, ln, hls, rfl⟩⟩ :=
    round_next hfits h
  · -- the star itself is behind
    have hlen := (dropWhile_suffix (p := (· == '*')) (l := m)).length_le
    have hplaces : (d :: n).length ≤ (match s.ls with
        | none => name.length + 1
        | some (_, ln) => ln.length) := by
      have hfn := hfits.n
      rw [hn] at hfn
      cases hls : s.ls with
      | none => dsimp only; omega
      | some l =>
        obtain ⟨-, -, hle⟩ := hfits.ls l.1 l.2 hls
        rwa [hn] at hle
    have hmul := Nat.mul_le_mul_right ((name.length + 1) * (mask.length + 1)) hplaces
    rw [Scan.left, Scan.left, hm, length_cons]
    dsimp only
    omega
  · rw [Scan.left, Scan.left, hn, length_cons, Nat.succ_mul n.length]
    dsimp only
    omega
  · -- the name is as long again, but there is one place less
    obtain ⟨hlm, hln, -⟩ := hfits.ls lm (e :: ln) hls
    rw [length_cons] at hln
    have hmul := Nat.mul_le_mul_right (mask.length + 1) (show ln.length ≤ name.length by omega)
    rw [Scan.left, Scan.left, hls]
    dsimp only
    rw [length_cons, Nat.succ_mul ln.length, Nat.succ_mul name.length]
    omega

theorem rounds_isSome {fuel : ℕ} (hfits : s.Fits mask name) (hfuel : s.left mask name < fuel) :
    (Scan.rounds mask fuel s).isSome = true := by
  induction fuel generalizing s with
  | zero => omega
  | succ fuel ih =>
    rw [Scan.rounds]
    cases h : s.round mask with
    | done result => rfl
    | next s' =>
      have hleft := left_round hfits h
      exact ih (hfits.round h) (by omega)

theorem rounds_add {fuel : ℕ} {result : Except Fault ℕ} (h : Scan.rounds mask fuel s = some result)
    (i : ℕ) : Scan.rounds mask (fuel + i) s = some result := by
  induction fuel generalizing s with
  | zero => cases h
  | succ fuel ih =>
    rw [Scan.rounds] at h
    rw [Nat.add_right_comm, Scan.rounds]
    cases hround : s.round mask with
    | done result' =>
      rw [hround] at h
      exact h
    | next s' =>
      rw [hround] at h
      exact ih h

theorem fits_start (mask name : CStr) : Scan.Fits mask name ⟨mask, name, none, 1, 0⟩ :=
  ⟨le_rfl, le_rfl, fun _ _ h => by cases h⟩

theorem left_start (mask name : CStr) :
    Scan.left mask name ⟨mask, name, none, 1, 0⟩ < enoughRounds mask name := by
  have hplace : (name.length + 1) * (mask.length + 1) =
      name.length * (mask.length + 1) + (mask.length + 1) := Nat.succ_mul _ _
  have hplaces : (name.length + 2) * ((name.length + 1) * (mask.length + 1)) =
      (name.length + 1) * ((name.length + 1) * (mask.length + 1)) +
        (name.length + 1) * (mask.length + 1) := Nat.succ_mul _ _
  rw [Scan.left, enoughRounds]
  dsimp only
  omega

theorem wildMatchFile_of_rounds {fuel : ℕ} {result : Except Fault ℕ} (hname : name ≠ [])
    (h : Scan.rounds mask fuel ⟨mask, name, none, 1, 0⟩ = some result) :
    wildMatchFile mask name = some result := by
  have hsome := rounds_isSome (fits_start mask name) (left_start mask name)
  obtain ⟨result', hresult⟩ := Option.isSome_iff_exists.1 hsome
  rw [wildMatchFile, if_neg hname, hresult]
  have h₁ := rounds_add h (enoughRounds mask name)
  have h₂ := rounds_add hresult fuel
  rw [Nat.add_comm, h₂] at h₁
  exact h₁

end Rounds

/-! ### The function as a whole -/

section Answer

variable {mask name u : CStr} {c : Char} {k : ℕ}

theorem wildMatchFile_ok (hend : Ending mask u c k) (hname : name ≠ []) :
    ∃ v, wildMatchFile mask name = some (.ok v) ∧
      (v ≠ 0 ↔ AtStart (Plain (Repeats c k)) (Final (Deciding u c k) (Repeats c k)) (items mask) name) := by
  obtain ⟨fuel, v, hrun, hv⟩ := ends_start hend name 1 0 Nat.one_pos
  exact ⟨v, wildMatchFile_of_rounds hname hrun, hv⟩

theorem wildMatchFile_nil (hname : name ≠ []) : wildMatchFile [] name = some (.error .outside) := by
  obtain ⟨d, n, rfl⟩ := exists_cons_of_ne_nil hname
  exact wildMatchFile_of_rounds hname (show Scan.rounds [] 1 _ = _ from rfl)

theorem right_iff (hend : Ending mask u c k) (hname : name ≠ []) :
    Right mask name ↔
      (AtStart (Plain (Repeats c k)) (Final (Deciding u c k) (Repeats c k)) (items mask) name ↔
        Matches (items mask) name) := by
  obtain ⟨v, hrun, hv⟩ := wildMatchFile_ok hend hname
  rw [← hv]
  constructor
  · rintro ⟨v', hrun', hright⟩
    rw [hrun] at hrun'
    cases hrun'
    exact hright
  · intro hright
    exact ⟨v, hrun, hright⟩

theorem Ending.unique {u' : CStr} {c' : Char} {k' : ℕ} (h : Ending mask u c k)
    (h' : Ending mask u' c' k') : u = u' ∧ c = c' ∧ k = k' := by
  have hlen : u.length = u'.length := Except.ok.inj (h.stepBack_eq.symm.trans h'.stepBack_eq)
  obtain ⟨rfl, hrest⟩ := append_inj (h.eq.symm.trans h'.eq) hlen
  obtain ⟨rfl, hmarks⟩ := cons.inj hrest
  have hk := congrArg length hmarks
  rw [length_replicate, length_replicate] at hk
  exact ⟨rfl, rfl, hk⟩

theorem atStart_over {r : CStr} (hstar : ¬ EndsInStar u c) (h : FirstOver mask c k name r) :
    AtStart (Plain (Repeats c k)) (Final (Deciding u c k) (Repeats c k)) (items mask) name ↔
      Repeats c k r := by
  have hD : Deciding u c k = Decides c k := by
    ext r
    simp only [Deciding, hstar, not_false_eq_true, true_and]
  rw [hD]
  rcases h with ⟨hones, hr, hne, -⟩ | ⟨h, g, y, hmask, hg, hrest, hfirst⟩
  · rw [AtStart.of_ones hones]
    constructor
    · rintro ⟨r', hr', hover⟩
      rw [hones.stands_unique hr' hr] at hover
      exact hover.resolve_left hne
    · intro hover
      exact ⟨r, hr, .inr hover⟩
  · rw [hmask, AtStart.of_last hg]
    constructor
    · rintro ⟨y', hrest', hfinal⟩
      obtain rfl := hrest.unique hrest'
      rcases hfinal with ⟨r', hfirst', hover⟩ | ⟨hno, -⟩
      · rwa [hfirst.unique hg hfirst']
      · exact absurd hfirst (hno r)
    · intro hover
      exact ⟨y, hrest, .inl ⟨r, hfirst, hover⟩⟩

theorem atStart_matches (h : EndsInStar u c ∨ ∀ r, ¬ FirstOver mask c k name r)
    (hend : Ending mask u c k) :
    AtStart (Plain (Repeats c k)) (Final (Deciding u c k) (Repeats c k)) (items mask) name ↔
      Matches (items mask) name := by
  rcases ones_or_last (items mask) with hones | ⟨h', g, hmask, hg⟩
  · rw [AtStart.of_ones hones]
    have hover : ∀ r, ¬ FirstOver mask c k name r := by
      rcases h with hstar | hover
      · rw [hend.items_eq hstar] at hones
        exact absurd hones not_ones_append_many
      · exact hover
    constructor
    · rintro ⟨r, hr, hnil | hrep⟩
      · rw [hnil] at hr
        exact stands_nil_right.1 hr
      · by_contra hno
        refine hover r (.inl ⟨hones, hr, ?_, .inl hrep⟩)
        rintro rfl
        exact hno (stands_nil_right.1 hr)
    · intro hm
      exact ⟨[], stands_nil_right.2 hm, .inl rfl⟩
  · rw [hmask, AtStart.of_last hg, matches_append_many]
    have hfinal (y : CStr) (hrest : Rest h' name y) :
        Final (Deciding u c k) (Repeats c k) g y ↔ Matches (many :: g) y := by
      have hno (r : CStr) : ¬ First g (Deciding u c k) y r := by
        intro hfirst
        rcases h with hstar | hover
        · obtain ⟨t, -, -, hr⟩ := hfirst.exists_stands
          exact hr.1 hstar
        · by_cases hstar : EndsInStar u c
          · obtain ⟨t, -, -, hr⟩ := hfirst.exists_stands
            exact hr.1 hstar
          · have hD : Deciding u c k = Decides c k := by
              ext r
              simp only [Deciding, hstar, not_false_eq_true, true_and]
            rw [hD] at hfirst
            exact hover r (.inr ⟨h', g, y, hmask, hg, hrest, hfirst⟩)
      constructor
      · rintro (⟨r, hfirst, -⟩ | ⟨-, hm⟩)
        · exact absurd hfirst (hno r)
        · exact hm
      · intro hm
        exact .inr ⟨hno, hm⟩
    constructor
    · rintro ⟨y, hrest, hy⟩
      exact ⟨y, hrest, (hfinal y hrest).1 hy⟩
    · rintro ⟨y, hrest, hy⟩
      exact ⟨y, hrest, (hfinal y hrest).2 hy⟩

end Answer

/-- For any mask and any name that is not empty, the function returns, reads nothing outside the two
and gives the right answer exactly if the mask is not empty and what is left of the name, where the
mask has ended, does not mislead it. -/
theorem wildMatchFile_iff (mask name : CStr) (hname : name ≠ []) :
    Right mask name ↔ Fair mask name := by
  by_cases hmask : mask = []
  · subst hmask
    apply iff_of_false
    · rintro ⟨v, hrun, -⟩
      rw [wildMatchFile_nil hname] at hrun
      cases hrun
    · exact fun h => h.1 rfl
  obtain ⟨u, c, k, hend⟩ := exists_ending hmask
  rw [right_iff hend hname]
  constructor
  · intro hright
    refine ⟨hmask, ?_⟩
    intro u' c' k' hend' hstar r hover
    obtain ⟨rfl, rfl, rfl⟩ := hend.unique hend'
    rw [← atStart_over hstar hover]
    exact hright
  · rintro ⟨-, hfair⟩
    by_cases hstar : EndsInStar u c
    · exact atStart_matches (.inl hstar) hend
    by_cases hover : ∃ r, FirstOver mask c k name r
    · obtain ⟨r, hover⟩ := hover
      rw [atStart_over hstar hover]
      exact hfair u c k hend hstar r hover
    · exact atStart_matches (.inr fun r hr => hover ⟨r, hr⟩) hend

theorem wildMatchFile_iff_a : Right ['*', 'a'] ['b', 'a'] ↔ Fair ['*', 'a'] ['b', 'a'] :=
  wildMatchFile_iff ['*', 'a'] ['b', 'a'] (by decide)

/-- The mask `a` takes the name `aa`. -/
theorem not_wildMatchFile : ¬ ∀ mask name : CStr, name ≠ [] → Right mask name := by
  intro h
  obtain ⟨v, hrun, hright⟩ := h ['a'] ['a', 'a'] (by decide)
  have hthree : wildMatchFile ['a'] ['a', 'a'] = some (.ok 3) := by decide
  rw [hthree] at hrun
  cases hrun
  exact absurd (hright.1 (by decide)) (by decide)

end Eggdrop.Transfer
