import Eggdrop.Base.Cidr
import Eggdrop.Base.WildMatch

/-!
# AddrMatch — masks and addresses (src/match.c)

`addr_match` parts a mask and an address at the last `@` of each.  What is before it is matched by
wildcards, and so is the host, unless the host of the mask ends in a count of bits.

* `toLast_append`, `behindLast_append`: a text, parted at the last character of a kind.
* `addrMatch_iff`: when an address matches, by the parts of both texts.
* `covers_self`, `Covers.append`: a text is a mask of itself, and masks are put together.
-/

open List

namespace Eggdrop.AddrMatch

/-! ### The last character of a kind -/

/-- The text up to what `strrchr` points to, and that. -/
def toLast (c : Char) (s : CStr) : CStr := (s.reverse.dropWhile (· != c)).reverse

/-- The text behind what `strrchr` points to, or all of it. -/
def behindLast (c : Char) (s : CStr) : CStr := (s.reverse.takeWhile (· != c)).reverse

variable {c d : Char} {a b s m n : CStr}

theorem toLast_append_behindLast (c : Char) (s : CStr) : toLast c s ++ behindLast c s = s := by
  rw [toLast, behindLast, ← reverse_append, takeWhile_append_dropWhile, reverse_reverse]

theorem notMem_behindLast (c : Char) (s : CStr) : c ∉ behindLast c s := by
  intro h
  simpa using mem_takeWhile_imp (mem_reverse.1 h)

theorem forall_bne (h : c ∉ s) : ∀ x ∈ s, (x != c) = true := by
  intro x hx
  rw [bne_iff_ne]
  rintro rfl
  exact h hx

theorem behindLast_append (a : CStr) (h : c ∉ b) : behindLast c (a ++ c :: b) = b := by
  have hb : ∀ x ∈ b.reverse, (x != c) = true := fun x hx => forall_bne h x (mem_reverse.1 hx)
  rw [behindLast, reverse_append, reverse_cons, append_assoc, singleton_append,
    takeWhile_append_of_pos hb, takeWhile_cons_of_neg (by simp), append_nil, reverse_reverse]

theorem toLast_append (a : CStr) (h : c ∉ b) : toLast c (a ++ c :: b) = a ++ [c] := by
  have hsplit := toLast_append_behindLast c (a ++ c :: b)
  rw [behindLast_append a h] at hsplit
  refine append_cancel_right (hsplit.trans ?_)
  rw [append_assoc, singleton_append]

theorem behindLast_of_notMem (h : c ∉ s) : behindLast c s = s := by
  rw [behindLast, takeWhile_eq_self_iff.2 fun x hx => forall_bne h x (mem_reverse.1 hx),
    reverse_reverse]

theorem exists_last (h : c ∈ s) : ∃ a b, s = a ++ c :: b ∧ c ∉ b := by
  have hsplit := toLast_append_behindLast c s
  cases hlast : s.reverse.dropWhile (· != c) with
  | nil =>
    rw [toLast, hlast, reverse_nil, nil_append] at hsplit
    rw [← hsplit] at h
    exact absurd h (notMem_behindLast c s)
  | cons x t =>
    have hx : x = c := by
      have hhead := head?_dropWhile_not (· != c) s.reverse
      rw [hlast] at hhead
      simpa using hhead
    refine ⟨t.reverse, behindLast c s, ?_, notMem_behindLast c s⟩
    rw [toLast, hlast, reverse_cons, hx, append_assoc, singleton_append] at hsplit
    exact hsplit.symm

/-! ### The source -/

/-- `str_isdigit`. -/
def strIsdigit (str : CStr) : Bool := !str.isEmpty && str.all isDigit

/-- `UHOSTLEN`. -/
def uhostLen : ℕ := 324

/-- What a buffer of `UHOSTLEN` characters takes, in upper case. -/
def upper (m : CStr) : CStr := (m.take (uhostLen - 1)).map rfcToupper

/-- CIDR notation: there is a count of bits behind the last slash. -/
def Counted (r : CStr) : Prop := '/' ∈ r ∧ strIsdigit (behindLast '/' r) = true

instance decidableCounted (r : CStr) : Decidable (Counted r) := inferInstanceAs (Decidable (_ ∧ _))

/-- The comparison of the hosts `r` and `s`. -/
def hostMatch (r s : CStr) (cmp : Bool) : ℤ :=
  if Counted r then
    if cmp = true ∧ Counted s then
      if eggAtoi (behindLast '/' s) < eggAtoi (behindLast '/' r) then 0
      else Cidr.cidrMatch (toLast '/' r).dropLast (toLast '/' s).dropLast (eggAtoi (behindLast '/' r))
    else Cidr.cidrMatch (toLast '/' r).dropLast s (eggAtoi (behindLast '/' r))
  else WildMatch.wildMatch r s

/-- `addr_match`. -/
def addrMatch (cidrSupport : Bool) (m n : CStr) (user cmp : Bool) : ℤ :=
  let mu := upper m
  let nu := upper n
  if (user = false ∧ cidrSupport = false) ∨ '@' ∉ mu ∨ '@' ∉ nu then WildMatch.wildMatch mu nu
  else
    let r := behindLast '@' mu
    let s := behindLast '@' nu
    let tmpscore := WildMatch.wildMatch (toLast '@' mu).dropLast (toLast '@' nu).dropLast
    -- nick!ident parts don't match
    if tmpscore = 0 then 0
    -- end of nonempty strings
    else if r = [] ∧ s = [] then tmpscore
    else if hostMatch r s cmp = 0 then 0
    else tmpscore + hostMatch r s cmp

/-! ### The parts of both texts -/

theorem upper_of_lt (h : m.length < uhostLen) : upper m = m.map rfcToupper := by
  rw [upper, take_of_length_le (by omega)]

/-- A character that is neither a letter nor one of those that RFC 1459 folds. -/
theorem rfcToupper_eq_iff (hc : c.toNat < 65) (x : Char) : rfcToupper x = c ↔ x = c := by
  have ha : 'a'.toNat = 97 := rfl
  have ht : '~'.toNat = 126 := rfl
  rw [rfcToupper]
  split
  · next h =>
    rw [char_le_iff, char_le_iff] at h
    refine iff_of_false ?_ ?_
    · intro heq
      have hcode := congrArg Char.toNat heq
      rw [toNat_ofNat_of_lt (by omega)] at hcode
      omega
    · rintro rfl
      omega
  · exact Iff.rfl

theorem cidrMatch_nonneg (m n : CStr) (count : ℤ) : 0 ≤ Cidr.cidrMatch m n count := by
  rw [Cidr.cidrMatch]
  generalize (if ':' ∈ m ∨ ':' ∈ n then Cidr.Family.inet6 else Cidr.Family.inet) = af
  split
  · exact Int.le_refl 0
  · split
    · split
      · decide
      · split <;> omega
    · exact Int.le_refl 0

theorem hostMatch_nonneg (r s : CStr) (cmp : Bool) : 0 ≤ hostMatch r s cmp := by
  rw [hostMatch]
  split
  · split
    · split
      · exact Int.le_refl 0
      · exact cidrMatch_nonneg _ _ _
    · exact cidrMatch_nonneg _ _ _
  · exact Int.natCast_nonneg _

/-- Of a mask and an address with an `@`, the parts before the last one match, and the hosts do. -/
theorem addrMatch_iff {cidrSupport cmp : Bool} (hm : (a ++ '@' :: b).length < uhostLen)
    (hn : (m ++ '@' :: n).length < uhostLen) (hb : '@' ∉ b) (hn' : '@' ∉ n) :
    addrMatch cidrSupport (a ++ '@' :: b) (m ++ '@' :: n) true cmp ≠ 0 ↔
      WildMatch.wildMatch (a.map rfcToupper) (m.map rfcToupper) ≠ 0 ∧
        (b = [] ∧ n = [] ∨ hostMatch (b.map rfcToupper) (n.map rfcToupper) cmp ≠ 0) := by
  have hat : rfcToupper '@' = '@' := rfl
  have hnot {x : CStr} (hx : '@' ∉ x) : '@' ∉ x.map rfcToupper := by
    intro hmem
    obtain ⟨y, hy, heq⟩ := mem_map.1 hmem
    exact hx ((rfcToupper_eq_iff (by decide) y).1 heq ▸ hy)
  have hno : ¬((true = false ∧ cidrSupport = false) ∨
      '@' ∉ (a ++ '@' :: b).map rfcToupper ∨ '@' ∉ (m ++ '@' :: n).map rfcToupper) := by
    rw [map_append, map_append, map_cons, map_cons, hat]
    simp
  have hhost := hostMatch_nonneg (b.map rfcToupper) (n.map rfcToupper) cmp
  rw [addrMatch, upper_of_lt hm, upper_of_lt hn]
  dsimp only
  rw [if_neg hno, map_append, map_append, map_cons, map_cons, hat, behindLast_append _ (hnot hb),
    behindLast_append _ (hnot hn'), toLast_append _ (hnot hb), toLast_append _ (hnot hn'),
    dropLast_concat, dropLast_concat]
  have hends : b = [] ∧ n = [] ↔ b.map rfcToupper = [] ∧ n.map rfcToupper = [] := by
    rw [map_eq_nil_iff, map_eq_nil_iff]
  rw [hends]
  split
  · next hzero => exact iff_of_false (fun h => h rfl) fun h => h.1 hzero
  · next hne =>
    rw [← ne_eq] at hne
    rw [and_iff_right hne]
    split
    · next hnil => exact iff_of_true (Int.natCast_ne_zero.2 hne) (.inl hnil)
    · next hnil =>
      rw [or_iff_right hnil]
      split
      · next hzero => exact iff_of_false (fun h => h rfl) fun h => h hzero
      · next hpos => exact iff_of_true (by omega) hpos

/-! ### A text as a mask -/

/-- The text, in upper case, takes the other one as a mask. -/
def Covers (k x : CStr) : Prop :=
  Glob.Matches (WildMatch.mask (k.map rfcToupper)) (x.map rfcToupper)

theorem mask_append (k k' : CStr) :
    WildMatch.mask (k ++ k') = WildMatch.mask k ++ WildMatch.mask k' := map_append

theorem Covers.append {k k' x x' : CStr} (h : Covers k x) (h' : Covers k' x') :
    Covers (k ++ k') (x ++ x') := by
  rw [Covers, map_append, map_append, mask_append]
  exact Glob.matches_append.2 ⟨_, _, rfl, h, h'⟩

theorem covers_nil : Covers [] [] := rfl

theorem covers_char (c : Char) : Covers [c] [c] := by
  show Glob.Matches [_] [rfcToupper c]
  generalize rfcToupper c = d
  dsimp only
  split
  · exact ⟨[], nil_suffix, rfl⟩
  · split
    · exact ⟨rfl, rfl⟩
    · exact ⟨beq_self_eq_true _, rfl⟩

theorem covers_self (x : CStr) : Covers x x := by
  induction x with
  | nil => exact covers_nil
  | cons c x ih => exact (covers_char c).append ih

theorem covers_star (x : CStr) : Covers ['*'] x :=
  ⟨[], nil_suffix, rfl⟩

/-- A `?` takes any character. -/
theorem covers_question (c : Char) : Covers ['?'] [c] := ⟨rfl, rfl⟩

theorem fits_upper {k : CStr} (hk : k.length < uhostLen) : WildMatch.Fits false (k.map rfcToupper) := by
  refine WildMatch.fits_of_length ?_
  rw [length_map]
  exact (Nat.le_of_lt hk).trans (by decide)

theorem Covers.wildMatch {k x : CStr} (h : Covers k x) (hk : k.length < uhostLen) (hne : k ≠ [])
    (hx : x ≠ []) : WildMatch.wildMatch (k.map rfcToupper) (x.map rfcToupper) ≠ 0 := by
  rw [WildMatch.wildMatch_iff (fits_upper hk)]
  refine ⟨mt map_eq_nil_iff.1 hne, mt map_eq_nil_iff.1 hx, _, [], (append_nil _).symm, ?_, .inl rfl⟩
  rw [WildMatch.pieces_eq_mask]
  exact Pieces.matches_glob.2 h

theorem mem_of_wildMatch {k x : CStr} (hk : k.length < uhostLen) (hc : c.toNat < 65) (hstar : c ≠ '*')
    (hone : c ≠ '?') (hmem : c ∈ k)
    (h : WildMatch.wildMatch (k.map rfcToupper) (x.map rfcToupper) ≠ 0) : c ∈ x := by
  obtain ⟨-, -, y, z, hsplit, hy, -⟩ := (WildMatch.wildMatch_iff (fits_upper hk)).1 h
  rw [WildMatch.pieces_eq_mask, Pieces.matches_glob] at hy
  have hitem : Glob.Item.one (WildMatch.same c) ∈ WildMatch.mask (k.map rfcToupper) := by
    refine mem_map.2 ⟨c, mem_map.2 ⟨c, hmem, (rfcToupper_eq_iff hc c).2 rfl⟩, ?_⟩
    rw [if_neg hstar, if_neg hone]
  obtain ⟨a, ha, hsame⟩ := hy.exists_mem hitem
  have hlow : toLower a = c := by
    rw [WildMatch.same, beq_iff_eq] at hsame
    rw [← hsame]
    exact (WildMatch.toLower_eq_iff hc c).2 rfl
  have hax : a ∈ x.map rfcToupper := by
    rw [hsplit]
    exact mem_append_left z ha
  rw [(WildMatch.toLower_eq_iff hc a).1 hlow] at hax
  obtain ⟨b, hb, heq⟩ := mem_map.1 hax
  rwa [(rfcToupper_eq_iff hc b).1 heq] at hb

end Eggdrop.AddrMatch
