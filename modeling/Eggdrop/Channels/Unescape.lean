import Eggdrop.Channels.MaskLine

/-!
# Unescape — `str_escape` and `strchr_unescape` in memory (src/misc.c)

`str_escape` writes into a buffer that it enlarges as it goes.  `strchr_unescape` decodes a string in
place: a read cursor and a write cursor go through the same memory, and an escape moves the read
cursor by three.  Memory here is the string with its NUL, and nothing is behind it.

* `strEscapeBuf_eq`: the buffer is never too small.
* `unescapeLoop_leaves`: decoding in place leaves what `strchrUnescape` gives.
* `unescape_iff`: what was escaped comes back if and only if divisor and escape character differ, and
  no character behind the NUL is touched if and only if no escape is cut off by the end.
-/

namespace Eggdrop.Channels

open List Users

/-! ### The source -/

section Code

variable (div mask : Char)

/-- The loop of `str_escape`, where `out` has been written and `buflen + 1` is the size of the
buffer; `none` where it writes behind the buffer. -/
def strEscapeLoop : CStr → ℕ → CStr → Option CStr
  | [], buflen, out => if out.length ≤ buflen then some out else none
  | c :: s, buflen, out =>
    -- Resize buffer.
    let buflen := if (buflen : ℤ) - out.length ≤ 3 then 2 * buflen else buflen
    if c = div ∨ c = mask then
      if out.length + 3 ≤ buflen + 1 then strEscapeLoop s buflen (out ++ mask :: showHex2 c.toNat)
      else none
    else if out.length + 1 ≤ buflen + 1 then strEscapeLoop s buflen (out ++ [c])
    else none

/-- `str_escape`. -/
def strEscapeBuf (str : CStr) : Option CStr := strEscapeLoop div mask str (2 * str.length) []

/-- The loop of `strchr_unescape`, with the cursors `s` and `p`: the memory it leaves, and the
position behind the divisor.  `none` where it reads behind the end of memory; it takes at most one
round for each cell. -/
def unescapeLoop : ℕ → ℕ → ℕ → CStr → Option (CStr × Option ℕ)
  | 0, _, _, _ => none
  | k + 1, s, p, buf =>
    match buf[s]? with
    | none => none
    | some c =>
      if c = '\x00' then some (buf.set p '\x00', none)
      else if c = mask then
        match buf[s + 1]?, buf[s + 2]? with
        | some a, some b => unescapeLoop k (s + 3) (p + 1) (buf.set p (Char.ofNat (strtol16 a b)))
        | _, _ => none
      else if c = div then some ((buf.set p '\x00').set s '\x00', some (s + 1))
      else unescapeLoop k (s + 1) (p + 1) (buf.set p c)

/-- `strchr_unescape` on memory that holds the string `str` and its NUL. -/
def unescapeMem (str : CStr) : Option (CStr × Option ℕ) :=
  unescapeLoop div mask (str.length + 1) 0 0 (str ++ ['\x00'])

end Code

/-! ### The buffer of `str_escape` -/

section Escape

variable {div mask : Char}

theorem strEscapeLoop_eq {s out : CStr} {buflen : ℕ} (hfits : out.length ≤ buflen)
    (hroom : s ≠ [] → 2 ≤ buflen ∧ (out = [] ∨ 4 ≤ buflen)) :
    strEscapeLoop div mask s buflen out = some (out ++ strEscape s div mask) := by
  induction s generalizing out buflen with
  | nil => rw [strEscapeLoop, if_pos hfits, strEscape, flatMap_nil, append_nil]
  | cons c s ih =>
    obtain ⟨htwo, hfour⟩ := hroom (cons_ne_nil c s)
    have hroom : out.length + 3 ≤ (if (buflen : ℤ) - out.length ≤ 3 then 2 * buflen else buflen) ∧
        4 ≤ if (buflen : ℤ) - out.length ≤ 3 then 2 * buflen else buflen := by
      obtain rfl | hfour := hfour
      · rw [length_nil] at hfits ⊢
        split <;> omega
      · split <;> omega
    rw [strEscapeLoop]
    generalize (if (buflen : ℤ) - out.length ≤ 3 then 2 * buflen else buflen) = n at hroom ⊢
    rw [strEscape, flatMap_cons, ← strEscape]
    have hnext : ∀ o : CStr, s ≠ [] → 2 ≤ n ∧ (o = [] ∨ 4 ≤ n) := fun o _ => ⟨by omega, .inr hroom.2⟩
    split
    · rw [if_pos (by omega), ih (by rw [length_append]; exact hroom.1) (hnext _), append_assoc]
    · rw [if_pos (by omega), ih (by rw [length_append, length_singleton]; omega) (hnext _),
        append_assoc]

theorem strEscapeBuf_eq (s : CStr) : strEscapeBuf div mask s = some (strEscape s div mask) := by
  unfold strEscapeBuf
  rw [strEscapeLoop_eq (Nat.zero_le _), nil_append]
  intro hs
  have := length_pos_iff.2 hs
  exact ⟨by omega, .inl rfl⟩

theorem strtol16_digits : ∀ h < 16, ∀ l < 16,
    strtol16 (Nat.digitChar h) (Nat.digitChar l) = 16 * h + l := by
  decide

theorem strtol16_showHex2 {c : Char} (hc : c.toNat < 256) :
    Char.ofNat (strtol16 (Nat.digitChar (c.toNat / 16)) (Nat.digitChar (c.toNat % 16))) = c := by
  rw [strtol16_digits _ (by omega) _ (by omega), Nat.div_add_mod, Char.ofNat_toNat]

theorem strchrUnescape_strEscape (hdiv : div.toNat < 256) (hmask : mask.toNat < 256) (s u : CStr) :
    strchrUnescape div mask (strEscape s div mask ++ u) =
      (strchrUnescape div mask u).map fun r => (s ++ r.1, r.2) := by
  induction s with
  | nil =>
    rw [strEscape, flatMap_nil, nil_append]
    cases strchrUnescape div mask u <;> rfl
  | cons c s ih =>
    rw [strEscape, flatMap_cons, append_assoc, ← strEscape]
    by_cases hesc : c = div ∨ c = mask
    · have hc : c.toNat < 256 := by
        obtain rfl | rfl := hesc
        · exact hdiv
        · exact hmask
      rw [if_pos hesc, showHex2, cons_append, cons_append, cons_append, nil_append, strchrUnescape,
        if_pos rfl, ih, strtol16_showHex2 hc]
      cases strchrUnescape div mask u <;> rfl
    · obtain ⟨hd, hm⟩ := not_or.1 hesc
      rw [if_neg hesc, singleton_append, strchrUnescape.eq_def]
      simp only [if_neg hd, if_neg hm, ih]
      cases strchrUnescape div mask u <;> rfl

end Escape

/-! ### Decoding in place -/

section InPlace

variable {div mask : Char}

/-- What memory of a size is left with, and where the decoding ends, behind a text `a` that has been
written already. -/
def Leaves (a : CStr) (size : ℕ) : Except Fault (CStr × Option CStr) → Option (CStr × Option ℕ) → Prop
  | .error _, r => r = none
  | .ok (w, none), r => ∃ g, r = some (a ++ w ++ '\x00' :: g, none)
  | .ok (w, some rest), r =>
    ∃ g q, r = some (a ++ w ++ '\x00' :: g, some q) ∧
      (a ++ w ++ '\x00' :: g).drop q = rest ++ ['\x00'] ∧ q + rest.length + 1 = size

theorem Leaves.cons {a : CStr} {size : ℕ} {c : Char} {x : Except Fault (CStr × Option CStr)}
    {r : Option (CStr × Option ℕ)} (h : Leaves (a ++ [c]) size x r) :
    Leaves a size (x.map fun y => (c :: y.1, y.2)) r := by
  cases x with
  | error f => exact h
  | ok y =>
    obtain ⟨w, rest⟩ := y
    cases rest with
    | none =>
      obtain ⟨g, hr⟩ := h
      exact ⟨g, by rw [hr]; simp⟩
    | some rest =>
      obtain ⟨g, q, hr, hdrop, hsize⟩ := h
      refine ⟨g, q, by rw [hr]; simp, ?_, hsize⟩
      rw [← hdrop]
      simp

/-- The write cursor is at or before the read cursor: what is written there replaces a character
that has been read. -/
theorem set_write {a g m u : CStr} (hm : m ≠ []) (x : Char) :
    ∃ g', g'.length + 1 = g.length + m.length ∧
      (a ++ (g ++ (m ++ u))).set a.length x = a ++ [x] ++ (g' ++ u) := by
  cases hgm : g ++ m with
  | nil => exact absurd (append_eq_nil_iff.1 hgm).2 hm
  | cons y ys =>
    refine ⟨ys, ?_, ?_⟩
    · rw [← length_append, hgm, length_cons]
    · rw [← append_assoc g, hgm, set_append_right _ _ (Nat.le_refl _), Nat.sub_self, append_assoc]
      rfl

theorem getElem?_cursor {a g : CStr} {s : ℕ} (hs : a.length + g.length = s) (t : CStr) (i : ℕ) :
    (a ++ (g ++ t))[s + i]? = t[i]? := by
  rw [← append_assoc, getElem?_append_right (by rw [length_append]; omega), length_append, hs,
    Nat.add_sub_cancel_left]

/-- A round that reads `m` and writes one character, and the rounds behind it. -/
theorem Leaves.round {k s : ℕ} {a g m t : CStr} {x : Char} (hm : m ≠ [])
    (hs : a.length + g.length = s)
    (ih : ∀ g', (a ++ [x]).length + g'.length = s + m.length →
      Leaves (a ++ [x]) (a ++ [x] ++ (g' ++ (t ++ ['\x00']))).length (strchrUnescape div mask t)
        (unescapeLoop div mask k (s + m.length) (a ++ [x]).length (a ++ [x] ++ (g' ++ (t ++ ['\x00']))))) :
    Leaves a (a ++ (g ++ (m ++ (t ++ ['\x00'])))).length
      ((strchrUnescape div mask t).map fun y => (x :: y.1, y.2))
      (unescapeLoop div mask k (s + m.length) (a.length + 1)
        ((a ++ (g ++ (m ++ (t ++ ['\x00'])))).set a.length x)) := by
  obtain ⟨g', hlen, hset⟩ := set_write (a := a) (g := g) (u := t ++ ['\x00']) hm x
  have hsize := congrArg length hset
  rw [length_set] at hsize
  rw [hset, hsize]
  have hone : (a ++ [x]).length = a.length + 1 := length_append
  have h := ih g' (by omega)
  rw [hone] at h
  exact h.cons

theorem set_nuls {a g u : CStr} {s : ℕ} (hs : a.length + g.length = s) (c : Char) :
    ∃ g', g'.length = g.length ∧
      ((a ++ (g ++ ([c] ++ u))).set a.length '\x00').set s '\x00' = a ++ '\x00' :: (g' ++ u) := by
  obtain ⟨g', hlen, hset⟩ := set_write (a := a) (g := g) (u := u) (cons_ne_nil c []) '\x00'
  rw [length_singleton] at hlen
  rw [hset, append_assoc, set_append_right _ _ (by omega), singleton_append, ← hs,
    Nat.add_sub_cancel_left]
  cases g with
  | nil => exact ⟨g', by omega, rfl⟩
  | cons d g =>
    refine ⟨g'.set g.length '\x00', by rw [length_set]; omega, ?_⟩
    rw [length_cons, set_cons_succ, set_append_left]
    rw [length_cons] at hlen
    omega

theorem unescapeLoop_end {k s p : ℕ} {buf : CStr} (h : buf.length ≤ s) :
    unescapeLoop div mask k s p buf = none := by
  cases k with
  | zero => rfl
  | succ k => rw [unescapeLoop, getElem?_eq_none h]

theorem unescapeLoop_leaves {k s : ℕ} {a g t : CStr} (hs : a.length + g.length = s)
    (ht : '\x00' ∉ t) (hk : t.length < k) :
    Leaves a (a ++ (g ++ (t ++ ['\x00']))).length (strchrUnescape div mask t)
      (unescapeLoop div mask k s a.length (a ++ (g ++ (t ++ ['\x00'])))) := by
  induction k generalizing s a g t with
  | zero => exact absurd hk (Nat.not_lt_zero _)
  | succ k ih =>
    have hread := getElem?_cursor hs (t ++ ['\x00'])
    rw [unescapeLoop]
    have h0 : (a ++ (g ++ (t ++ ['\x00'])))[s]? = (t ++ ['\x00'])[0]? := hread 0
    rw [h0]
    cases t with
    | nil =>
      rw [strchrUnescape.eq_def]
      obtain ⟨g', -, hset⟩ := set_write (a := a) (g := g) (u := []) (cons_ne_nil '\x00' []) '\x00'
      refine ⟨g', ?_⟩
      rw [nil_append, append_nil] at *
      show some ((a ++ (g ++ ['\x00'])).set a.length '\x00', none) = _
      rw [hset]
      simp
    | cons c t =>
      rw [mem_cons, not_or] at ht
      rw [length_cons] at hk
      have hc : (c :: t ++ ['\x00'])[0]? = some c := rfl
      rw [hc]
      dsimp only
      rw [if_neg (Ne.symm ht.1)]
      have h1 := hread 1
      have h2 := hread 2
      by_cases hmask : c = mask
      · rw [if_pos hmask, h1, h2]
        cases t with
        | nil =>
          rw [strchrUnescape.eq_def]
          simp only [if_pos hmask]
          exact rfl
        | cons x t =>
          cases t with
          | nil =>
            -- the NUL is taken for a digit, and the next round begins behind it
            rw [strchrUnescape.eq_def]
            simp only [if_pos hmask]
            refine unescapeLoop_end ?_
            simp only [length_set, length_append, length_cons, length_nil]
            omega
          | cons y t =>
            rw [strchrUnescape.eq_def]
            simp only [if_pos hmask]
            rw [mem_cons, mem_cons, not_or, not_or] at ht
            rw [length_cons, length_cons] at hk
            exact Leaves.round (m := [c, x, y]) (cons_ne_nil _ _) hs fun g' hg' =>
              ih hg' ht.2.2.2 (by omega)
      · rw [if_neg hmask]
        by_cases hdiv : c = div
        · rw [if_pos hdiv, strchrUnescape.eq_def]
          simp only [if_neg hmask, if_pos hdiv]
          obtain ⟨g', hlen, hset⟩ := set_nuls hs (u := t ++ ['\x00']) c
          have hbuf : ((a ++ (g ++ (c :: t ++ ['\x00']))).set a.length '\x00').set s '\x00' =
              a ++ [] ++ '\x00' :: (g' ++ (t ++ ['\x00'])) := by
            rw [append_nil]
            exact hset
          refine ⟨g' ++ (t ++ ['\x00']), s + 1, by rw [← hbuf], ?_, ?_⟩
          · have hcells : a ++ [] ++ '\x00' :: (g' ++ (t ++ ['\x00'])) =
                (a ++ '\x00' :: g') ++ (t ++ ['\x00']) := by simp
            rw [hcells, drop_left' (by rw [length_append, length_cons]; omega)]
          · simp only [length_append, length_cons, length_nil]
            omega
        · rw [if_neg hdiv, strchrUnescape.eq_def]
          simp only [if_neg hmask, if_neg hdiv]
          exact Leaves.round (m := [c]) (cons_ne_nil _ _) hs fun g' hg' => ih hg' ht.2 (by omega)

theorem unescapeMem_leaves {t : CStr} (ht : '\x00' ∉ t) :
    Leaves [] (t.length + 1) (strchrUnescape div mask t) (unescapeMem div mask t) := by
  have h := @unescapeLoop_leaves div mask (t.length + 1) 0 [] [] t rfl ht (Nat.lt_succ_self _)
  rw [nil_append, nil_append, length_append, length_singleton] at h
  exact h

end InPlace

/-! ### What comes back -/

section Main

variable (div mask : Char)

/-- No escape that is decoded is cut off by the end of the string. -/
def Whole : CStr → Prop
  | [] => True
  | c :: s =>
    if c = mask then
      match s with
      | _ :: _ :: s => Whole s
      | _ => False
    else if c = div then True
    else Whole s

/-- `s` comes back from its escaped form, and behind a divisor the position is that of `rest`. -/
def RoundTrip (s rest : CStr) : Prop :=
  ∃ e buf, strEscapeBuf div mask s = some e ∧
    unescapeMem div mask (e ++ div :: rest) = some (buf, some (e.length + 1)) ∧ cstring buf = s ∧
      buf.drop (e.length + 1) = rest ++ ['\x00']

/-- `s` comes back where no divisor is behind it. -/
def Restored (s : CStr) : Prop :=
  ∃ e buf, strEscapeBuf div mask s = some e ∧ unescapeMem div mask e = some (buf, none) ∧
    cstring buf = s

/-- A character of a string: a byte that is not NUL. -/
def IsByte (c : Char) : Prop := 0 < c.toNat ∧ c.toNat < 256

instance (c : Char) : Decidable (IsByte c) := by unfold IsByte; infer_instance

variable {div mask}

theorem whole_iff (t : CStr) : Whole div mask t ↔ ∃ r, strchrUnescape div mask t = .ok r := by
  induction t using strchrUnescape.induct div mask with
  | case1 => exact iff_of_true trivial ⟨_, by rw [strchrUnescape.eq_def]⟩
  | case2 a b s ih =>
    rw [strchrUnescape.eq_def, Whole.eq_def]
    simp only [if_pos, ih]
    cases strchrUnescape div mask s with
    | error f => exact iff_of_false (by rintro ⟨r, hr⟩; cases hr) (by rintro ⟨r, hr⟩; cases hr)
    | ok y => exact iff_of_true ⟨y, rfl⟩ ⟨_, rfl⟩
  | case3 s hshort =>
    refine iff_of_false ?_ ?_
    · rw [Whole.eq_def]
      simp only [if_pos]
      cases s with
      | nil => exact id
      | cons x s =>
        cases s with
        | nil => exact id
        | cons y s => exact absurd rfl (hshort x y s)
    · rintro ⟨r, hr⟩
      rw [strchrUnescape.eq_def] at hr
      simp only [if_pos] at hr
      cases s with
      | nil => cases hr
      | cons x s =>
        cases s with
        | nil => cases hr
        | cons y s => exact absurd rfl (hshort x y s)
  | case4 s hmask =>
    rw [strchrUnescape.eq_def, Whole.eq_def]
    simp only [if_neg hmask, if_pos]
    exact iff_of_true trivial ⟨_, rfl⟩
  | case5 c s hmask hdiv ih =>
    rw [strchrUnescape.eq_def, Whole.eq_def]
    simp only [if_neg hmask, if_neg hdiv, ih]
    cases strchrUnescape div mask s with
    | error f => exact iff_of_false (by rintro ⟨r, hr⟩; cases hr) (by rintro ⟨r, hr⟩; cases hr)
    | ok y => exact iff_of_true ⟨y, rfl⟩ ⟨_, rfl⟩

theorem unescapeMem_isSome_iff {t : CStr} (ht : '\x00' ∉ t) :
    (∃ r, unescapeMem div mask t = some r) ↔ Whole div mask t := by
  have h := @unescapeMem_leaves div mask _ ht
  rw [whole_iff]
  cases hx : strchrUnescape div mask t with
  | error f =>
    rw [hx] at h
    refine iff_of_false ?_ ?_
    · rintro ⟨r, hr⟩
      cases hr.symm.trans h
    · rintro ⟨r, hr⟩
      cases hr
  | ok y =>
    refine iff_of_true ?_ ⟨y, rfl⟩
    rw [hx] at h
    obtain ⟨w, rest⟩ := y
    cases rest with
    | none =>
      obtain ⟨g, hr⟩ := h
      exact ⟨_, hr⟩
    | some rest =>
      obtain ⟨g, q, hr, -⟩ := h
      exact ⟨_, hr⟩

theorem strchrUnescape_self {c : Char} {t w : CStr} {r : Option CStr}
    (h : strchrUnescape c c t = .ok (w, r)) : r = none := by
  induction t using strchrUnescape.induct c c generalizing w with
  | case1 =>
    rw [strchrUnescape.eq_def] at h
    cases h
    rfl
  | case2 a b s ih =>
    rw [strchrUnescape.eq_def] at h
    simp only [if_pos] at h
    cases hs : strchrUnescape c c s with
    | error f =>
      rw [hs] at h
      cases h
    | ok y =>
      rw [hs] at h
      cases h
      exact ih hs
  | case3 s hshort =>
    rw [strchrUnescape.eq_def] at h
    simp only [if_pos] at h
    cases s with
    | nil => cases h
    | cons x s =>
      cases s with
      | nil => cases h
      | cons y s => exact absurd rfl (hshort x y s)
  | case4 s hmask => exact absurd rfl hmask
  | case5 d s hmask hdiv ih =>
    rw [strchrUnescape.eq_def] at h
    simp only [if_neg hmask] at h
    cases hs : strchrUnescape c c s with
    | error f =>
      rw [hs] at h
      cases h
    | ok y =>
      rw [hs] at h
      cases h
      exact ih hs

theorem digitChar_ne_nul : ∀ h < 16, Nat.digitChar h ≠ '\x00' := by decide

theorem notMem_showHex2 {n : ℕ} (hn : n < 256) : '\x00' ∉ showHex2 n := by
  rw [showHex2, mem_cons, mem_singleton, not_or]
  exact ⟨Ne.symm (digitChar_ne_nul _ (by omega)), Ne.symm (digitChar_ne_nul _ (by omega))⟩

theorem nul_notMem_strEscape (hdiv : IsByte div) (hmask : IsByte mask) {s : CStr} (hs : '\x00' ∉ s) :
    '\x00' ∉ strEscape s div mask := by
  intro hm
  obtain ⟨c, hc, hm⟩ := mem_flatMap.1 hm
  split at hm
  · next hesc =>
    have hbyte : c.toNat < 256 := by
      obtain rfl | rfl := hesc
      · exact hdiv.2
      · exact hmask.2
    rcases mem_cons.1 hm with rfl | hm
    · exact absurd hmask.1 (by decide)
    · exact notMem_showHex2 hbyte hm
  · rw [mem_singleton] at hm
    exact hs (hm ▸ hc)

theorem cstring_append_nul {w : CStr} (hw : '\x00' ∉ w) (g : CStr) : cstring (w ++ '\x00' :: g) = w := by
  have hall : ∀ c ∈ w, decide (c ≠ '\x00') = true := by
    intro c hc
    exact decide_eq_true fun h => hw (h ▸ hc)
  rw [cstring, takeWhile_append_of_pos hall, takeWhile_cons_of_neg (by simp), append_nil]

theorem restored (hdiv : IsByte div) (hmask : IsByte mask) {s : CStr} (hs : '\x00' ∉ s) :
    Restored div mask s := by
  have h := @unescapeMem_leaves div mask _ (nul_notMem_strEscape hdiv hmask hs)
  have hx := strchrUnescape_strEscape hdiv.2 hmask.2 s []
  rw [append_nil, strchrUnescape.eq_def div mask []] at hx
  rw [hx] at h
  obtain ⟨g, hr⟩ := h
  refine ⟨_, _, strEscapeBuf_eq s, hr, ?_⟩
  rw [append_nil, nil_append, cstring_append_nul hs]

theorem roundTrip_iff (hdiv : IsByte div) (hmask : IsByte mask) {s rest : CStr} (hs : '\x00' ∉ s)
    (hrest : '\x00' ∉ rest) : RoundTrip div mask s rest ↔ div ≠ mask := by
  have hnul : '\x00' ∉ strEscape s div mask ++ div :: rest := by
    rw [mem_append, mem_cons, not_or, not_or]
    refine ⟨nul_notMem_strEscape hdiv hmask hs, ?_, hrest⟩
    rintro rfl
    exact absurd hdiv.1 (by decide)
  have h := @unescapeMem_leaves div mask _ hnul
  constructor
  · rintro ⟨e, buf, he, hr, -⟩ rfl
    rw [strEscapeBuf_eq] at he
    cases he
    rw [hr] at h
    cases hx : strchrUnescape div div (strEscape s div div ++ div :: rest) with
    | error f =>
      rw [hx] at h
      cases h
    | ok y =>
      rw [hx] at h
      obtain ⟨w, r⟩ := y
      obtain rfl := strchrUnescape_self hx
      obtain ⟨g, hr⟩ := h
      cases hr
  · intro hne
    have hx := strchrUnescape_strEscape hdiv.2 hmask.2 s (div :: rest)
    have hfound : strchrUnescape div mask (div :: rest) = .ok ([], some rest) := by
      rw [strchrUnescape.eq_def]
      simp only [if_neg hne, if_pos]
    rw [hfound] at hx
    rw [hx] at h
    obtain ⟨g, q, hr, hdrop, hq⟩ := h
    rw [length_append, length_cons] at hq
    obtain rfl : q = (strEscape s div mask).length + 1 := by omega
    refine ⟨_, _, strEscapeBuf_eq s, hr, ?_, hdrop⟩
    rw [append_nil, nil_append, cstring_append_nul hs]

/-- For all bytes as divisor and escape character and all strings: `s` always comes back, the
position behind the divisor is found if the two differ, and memory behind the NUL of `t` is left
alone if no escape is cut off. -/
theorem unescape_iff (hdiv : IsByte div) (hmask : IsByte mask) {s rest t : CStr} (hs : '\x00' ∉ s)
    (hrest : '\x00' ∉ rest) (ht : '\x00' ∉ t) :
    Restored div mask s ∧ (RoundTrip div mask s rest ↔ div ≠ mask) ∧
      ((∃ r, unescapeMem div mask t = some r) ↔ Whole div mask t) :=
  ⟨restored hdiv hmask hs, roundTrip_iff hdiv hmask hs hrest, unescapeMem_isSome_iff ht⟩

theorem unescape_mask :
    Restored ':' '\\' "*!*@a:b\\c".toList ∧
      (RoundTrip ':' '\\' "*!*@a:b\\c".toList "+0:x".toList ↔ ':' ≠ '\\') ∧
      ((∃ r, unescapeMem ':' '\\' "a\\3ab".toList = some r) ↔ Whole ':' '\\' "a\\3ab".toList) :=
  unescape_iff (by decide) (by decide) (by decide) (by decide) (by decide)

/-- A mask in the userfile that ends in a backslash. -/
theorem not_unescape_cut_off : ¬ ∃ r, unescapeMem ':' '\\' "*!*@a\\".toList = some r := by
  rintro ⟨r, hr⟩
  have : unescapeMem ':' '\\' "*!*@a\\".toList = none := by decide
  rw [this] at hr
  cases hr

end Main

end Eggdrop.Channels
