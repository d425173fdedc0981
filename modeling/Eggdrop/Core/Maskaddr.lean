import Eggdrop.Base.AddrMatch

/-!
# Maskaddr — masks made of addresses (`maskaddr`, src/misc.c)

The type says which of nick, user and host go into a mask, and what of the host is kept.  The host of
the mask is the host itself, the host with wildcards for its digits, the host up to its last part, the
host from one of its dots on, or a wildcard.

* `maskaddr_eq`: nick, user and host of the mask of a `nick!user@host`.
* `covers_left`, `covers_maskDigits`: what is written takes what it is written for.
* `maskaddr_iff`: when the mask takes the address that it was made of: there is a host, it is not taken
  for an address with a count of bits, and no `@` is dropped with a part of it.
-/

open List

namespace Eggdrop.AddrMatch

/-! ### The source -/

/-- The dots that the loop counts, which begins behind the first character. -/
def dots (h : CStr) : ℕ := h.tail.count '.'

/-- What `u` points to in the end: the first dot of the host, or the second. -/
def domain (h : CStr) : CStr :=
  let u := h.dropWhile (· != '.')
  -- ccTLD or not?
  if 3 < dots h ∨ (dots h = 3 ∧ 3 < (behindLast '.' h).length + 1) then u.tail.dropWhile (· != '.')
  else u

/-- The digits replaced, where `num` says that a `*` has just been placed. -/
def maskDigits (type : ℕ) : Bool → CStr → CStr
  | _, [] => []
  | num, c :: p =>
    if isDigit c = false then c :: maskDigits type false p
    else if type < 20 then '?' :: maskDigits type num p
    else if num = false then '*' :: maskDigits type true p
    else maskDigits type num p

/-- `num`: the host is made of digits and dots. -/
def isNum (h : CStr) : Bool := h.all fun c => isDigit c || c == '.'

/-- The host up to what `p` points to in the end: the last colon, or the last dot behind it. -/
def throughLast (h : CStr) : CStr := if '.' ∈ behindLast ':' h then toLast '.' h else toLast ':' h

/-- What becomes of the host. -/
def maskHost (type : ℕ) (h : CStr) : CStr :=
  let d := type % 5
  if 30 ≤ type then ['*']
  -- Mask out after the last colon/dot
  else if ':' ∈ h ∧ 2 < d then throughLast h ++ ['*']
  else if ':' ∉ h ∧ isNum h = false ∧ 10 ≤ type then maskDigits type false h
  else if 2 < d ∧ '.' ∈ h then
    if isNum h then toLast '.' h ++ ['*']
    else if dots h < 2 then h.take (uhostLen - 1)
    else ('*' :: domain h).take (uhostLen - 1)
  else if h = [] then ['*']
  else h.take (uhostLen - 1)

/-- What of the user goes into the mask; `d` is not 2 or 4. -/
def maskUser (d : ℕ) (u : CStr) : CStr :=
  if d = 0 then u.takeWhile (· != '@')
  -- trim leading crap
  else if u.headD '\x00' ∈ ['~', '+', '-', '^', '='] then '*' :: u.tail.takeWhile (· != '@')
  else '*' :: u.takeWhile (· != '@')

/-- `maskaddr`. -/
def maskaddr (s : CStr) (type : ℕ) : CStr :=
  let d := type % 5
  let bang := s.dropWhile (· != '!')
  let u := if '@' ∈ bang then some bang.tail else none
  let h := if '@' ∈ bang then bang.dropWhile (· != '@') else s.dropWhile (· != '@')
  let nick := if u = none ∨ type % 10 < 5 then ['*'] else s.takeWhile (· != '!')
  let user := if h = [] ∨ d = 2 ∨ d = 4 then ['*'] else maskUser d (u.getD s)
  nick ++ '!' :: user ++ '@' :: maskHost type (if h = [] then s else h.tail)

/-! ### Nick, user and host -/

variable {nick user host : CStr} {type : ℕ}

theorem takeWhile_append_at {c : Char} {a : CStr} (h : c ∉ a) (b : CStr) :
    (a ++ c :: b).takeWhile (· != c) = a := by
  rw [takeWhile_append_of_pos (forall_bne h), takeWhile_cons_of_neg (by simp), append_nil]

theorem dropWhile_append_at {c : Char} {a : CStr} (h : c ∉ a) (b : CStr) :
    (a ++ c :: b).dropWhile (· != c) = c :: b := by
  rw [dropWhile_append_of_pos (forall_bne h), dropWhile_cons_of_neg (by simp)]

/-- The nick of the mask. -/
def nickPart (type : ℕ) (nick : CStr) : CStr := if type % 10 < 5 then ['*'] else nick

/-- The user of the mask. -/
def userPart (type : ℕ) (user : CStr) : CStr :=
  let d := type % 5
  if d = 2 ∨ d = 4 then ['*']
  else if d = 0 then user
  else if user.headD '\x00' ∈ ['~', '+', '-', '^', '='] then '*' :: user.tail
  else '*' :: user

theorem maskUser_append (huser : '@' ∉ user) {d : ℕ} (host : CStr) :
    maskUser d (user ++ '@' :: host) = if d = 0 then user
      else if user.headD '\x00' ∈ ['~', '+', '-', '^', '='] then '*' :: user.tail else '*' :: user := by
  have hall := takeWhile_append_at huser host
  rw [maskUser, hall]
  split
  · rfl
  · cases user with
    | nil => rfl
    | cons c user =>
      have htail := takeWhile_append_at (fun h => huser (mem_cons_of_mem c h)) host
      rw [cons_append, headD_cons, headD_cons, tail_cons, tail_cons, htail]

theorem maskaddr_eq (hnick : '!' ∉ nick) (huser : '@' ∉ user) :
    maskaddr (nick ++ '!' :: (user ++ '@' :: host)) type =
      nickPart type nick ++ '!' :: userPart type user ++ '@' :: maskHost type host := by
  have hbang := dropWhile_append_at hnick (user ++ '@' :: host)
  have hat : '@' ∈ '!' :: (user ++ '@' :: host) := by simp
  have huser' : '@' ∉ '!' :: user := by
    rw [mem_cons, not_or]
    exact ⟨by decide, huser⟩
  have hhost : ('!' :: (user ++ '@' :: host)).dropWhile (· != '@') = '@' :: host :=
    dropWhile_append_at huser' host
  have hnickPart : (if some ('!' :: (user ++ '@' :: host)).tail = none ∨ type % 10 < 5 then ['*']
      else nick) = nickPart type nick := if_congr (by simp) rfl rfl
  have huserPart : (if '@' :: host = [] ∨ type % 5 = 2 ∨ type % 5 = 4 then ['*']
      else maskUser (type % 5) (user ++ '@' :: host)) = userPart type user := by
    rw [maskUser_append huser]
    exact if_congr (by simp) rfl rfl
  rw [maskaddr, hbang, if_pos hat, if_pos hat, hhost, takeWhile_append_at hnick, ← hnickPart,
    ← huserPart, if_neg (cons_ne_nil '@' host)]
  rfl

theorem covers_nickPart (type : ℕ) (nick : CStr) : Covers (nickPart type nick) nick := by
  rw [nickPart]
  split
  · exact covers_star nick
  · exact covers_self nick

theorem covers_userPart (type : ℕ) (user : CStr) : Covers (userPart type user) user := by
  rw [userPart]
  split
  · exact covers_star user
  · split
    · exact covers_self user
    · split
      · next htrim =>
        cases user with
        | nil => exact absurd htrim (by decide)
        | cons c user => exact (covers_star [c]).append (covers_self user)
      · exact (covers_star []).append (covers_self user)

theorem covers_left (type : ℕ) (nick user : CStr) :
    Covers (nickPart type nick ++ '!' :: userPart type user) (nick ++ '!' :: user) :=
  (covers_nickPart type nick).append ((covers_char '!').append (covers_userPart type user))

/-! ### Digits -/

theorem Covers.extend {k x : CStr} (h : Covers ('*' :: k) x) (y : CStr) : Covers ('*' :: k) (y ++ x) := by
  refine Glob.Matches.many_of_suffix (h : Glob.Matches (_ :: _) _) ?_
  rw [map_append]
  exact suffix_append _ _

theorem covers_maskDigits_question (htype : type < 20) (num : Bool) (p : CStr) :
    Covers (maskDigits type num p) p := by
  induction p generalizing num with
  | nil => exact covers_nil
  | cons c p ih =>
    rw [maskDigits]
    split
    · exact (covers_char c).append (ih false)
    · exact (covers_question c).append (ih num)

/-- A `*` that stands for the digits of a number takes those that are still to come. -/
theorem covers_maskDigits_star (htype : ¬type < 20) (p : CStr) :
    Covers (maskDigits type false p) p ∧ Covers ('*' :: maskDigits type true p) p := by
  induction p with
  | nil => exact ⟨covers_nil, covers_star []⟩
  | cons c p ih =>
    rw [maskDigits, maskDigits]
    split
    · have hkept : Covers (c :: maskDigits type false p) (c :: p) := (covers_char c).append ih.1
      exact ⟨hkept, (covers_star []).append hkept⟩
    · rw [if_pos rfl, if_neg (Ne.symm Bool.false_ne_true)]
      exact ⟨ih.2.extend [c], ih.2.extend [c]⟩

theorem covers_maskDigits (type : ℕ) (p : CStr) : Covers (maskDigits type false p) p := by
  by_cases htype : type < 20
  · exact covers_maskDigits_question htype false p
  · exact (covers_maskDigits_star htype p).1

theorem maskDigits_append (type : ℕ) (num : Bool) (a b : CStr) :
    maskDigits type num (a ++ '@' :: b) = maskDigits type num a ++ '@' :: maskDigits type false b := by
  induction a generalizing num with
  | nil => rfl
  | cons c a ih =>
    rw [cons_append, maskDigits, maskDigits]
    split
    · rw [ih, cons_append]
    · split
      · rw [ih, cons_append]
      · split
        · rw [ih, cons_append]
        · rw [ih]

theorem length_maskDigits_le (type : ℕ) (num : Bool) (p : CStr) :
    (maskDigits type num p).length ≤ p.length := by
  induction p generalizing num with
  | nil => exact Nat.le_refl 0
  | cons c p ih =>
    have hcons (d : Char) (num : Bool) : (d :: maskDigits type num p).length ≤ (c :: p).length :=
      Nat.succ_le_succ (ih num)
    rw [maskDigits]
    split
    · exact hcons c false
    · split
      · exact hcons '?' num
      · split
        · exact hcons '*' true
        · exact (ih num).trans (Nat.le_succ _)

theorem mem_maskDigits {num : Bool} {p : CStr} {c : Char} (h : c ∈ maskDigits type num p) :
    isDigit c = false ∧ (c ∈ p ∨ c = '?' ∨ c = '*') := by
  induction p generalizing num with
  | nil => exact absurd h not_mem_nil
  | cons d p ih =>
    have hrest {num : Bool} (h : c ∈ maskDigits type num p) :
        isDigit c = false ∧ (c ∈ d :: p ∨ c = '?' ∨ c = '*') :=
      (ih h).imp_right (Or.imp_left (mem_cons_of_mem d))
    rw [maskDigits] at h
    split at h
    · next hd =>
      rcases mem_cons.1 h with rfl | h
      · exact ⟨hd, .inl mem_cons_self⟩
      · exact hrest h
    · split at h
      · rcases mem_cons.1 h with rfl | h
        · exact ⟨rfl, .inr (.inl rfl)⟩
        · exact hrest h
      · split at h
        · rcases mem_cons.1 h with rfl | h
          · exact ⟨rfl, .inr (.inr rfl)⟩
          · exact hrest h
        · exact hrest h

/-! ### The host of a mask -/

theorem hostMatch_eq {r s : CStr} (h : ¬Counted r) (cmp : Bool) :
    hostMatch r s cmp = WildMatch.wildMatch r s := if_neg h

theorem Counted.isDigit_last {r : CStr} (h : Counted r) : ∃ c, r.getLast? = some c ∧ isDigit c = true := by
  obtain ⟨hslash, hdigits⟩ := h
  obtain ⟨a, b, rfl, hb⟩ := exists_last hslash
  rw [behindLast_append a hb, strIsdigit, Bool.and_eq_true, all_eq_true] at hdigits
  cases hlast : b.getLast? with
  | none =>
    rw [getLast?_eq_none_iff.1 hlast] at hdigits
    exact absurd hdigits.1 (by decide)
  | some c =>
    have hmem := mem_of_getLast? hlast
    refine ⟨c, ?_, hdigits.2 c hmem⟩
    rw [getLast?_append, getLast?_cons, hlast]
    rfl

theorem not_counted_star (k : CStr) : ¬Counted (k ++ ['*']) := by
  intro h
  obtain ⟨c, hc, hdigit⟩ := h.isDigit_last
  rw [getLast?_concat] at hc
  cases hc
  exact absurd hdigit (by decide)

theorem not_counted_of_digits {r : CStr} (h : ∀ c ∈ r, isDigit c = false) : ¬Counted r := by
  intro hr
  obtain ⟨c, hc, hdigit⟩ := hr.isDigit_last
  rw [h c (mem_of_getLast? hc)] at hdigit
  cases hdigit

theorem isDigit_rfcToupper (c : Char) : isDigit (rfcToupper c) = isDigit c := by
  rw [rfcToupper]
  split
  · next h =>
    rw [char_le_iff, char_le_iff] at h
    have ha : 'a'.toNat = 97 := rfl
    have ht : '~'.toNat = 126 := rfl
    have h9 : '9'.toNat = 57 := rfl
    have hcode : (Char.ofNat (c.toNat - 32)).toNat = c.toNat - 32 := toNat_ofNat_of_lt (by omega)
    rw [isDigit, isDigit, Bool.eq_iff_iff, Bool.and_eq_true, Bool.and_eq_true, decide_eq_true_iff,
      decide_eq_true_iff, decide_eq_true_iff, decide_eq_true_iff]
    simp only [char_le_iff, hcode]
    omega
  · rfl

/-- Where the parts before the last `@` match, the hosts decide. -/
theorem addrMatch_hosts {cidrSupport : Bool} {k x r s : CStr} (hk : (k ++ '@' :: r).length < uhostLen)
    (hx : (x ++ '@' :: s).length < uhostLen) (hr : '@' ∉ r) (hs : '@' ∉ s) (hcovers : Covers k x)
    (hkne : k ≠ []) (hxne : x ≠ []) :
    addrMatch cidrSupport (k ++ '@' :: r) (x ++ '@' :: s) true false ≠ 0 ↔
      (r = [] ∧ s = []) ∨ hostMatch (r.map rfcToupper) (s.map rfcToupper) false ≠ 0 := by
  rw [addrMatch_iff hk hx hr hs, and_iff_right]
  rw [length_append, length_cons] at hk
  exact hcovers.wildMatch (by omega) hkne hxne

theorem addrMatch_parts {cidrSupport : Bool} {k x host : CStr} {f : CStr → CStr}
    (hk : (k ++ '@' :: f host).length < uhostLen) (hx : (x ++ '@' :: host).length < uhostLen)
    (hcovers : Covers k x) (hkne : k ≠ []) (hxne : x ≠ [])
    (happend : ∀ a b, f (a ++ '@' :: b) = f a ++ '@' :: f b) (hno : ∀ b, '@' ∉ b → '@' ∉ f b)
    (hf : ∀ a, Covers (f a) a) :
    addrMatch cidrSupport (k ++ '@' :: f host) (x ++ '@' :: host) true false ≠ 0 ↔
      (f (behindLast '@' host) = [] ∧ behindLast '@' host = []) ∨
        hostMatch ((f (behindLast '@' host)).map rfcToupper) ((behindLast '@' host).map rfcToupper)
          false ≠ 0 := by
  by_cases hat : '@' ∈ host
  · obtain ⟨a, b, rfl, hb⟩ := exists_last hat
    have hmask : k ++ '@' :: f (a ++ '@' :: b) = (k ++ '@' :: f a) ++ '@' :: f b := by
      rw [happend, append_assoc, cons_append]
    have haddr : x ++ '@' :: (a ++ '@' :: b) = (x ++ '@' :: a) ++ '@' :: b := by
      rw [append_assoc, cons_append]
    rw [hmask] at hk ⊢
    rw [haddr] at hx ⊢
    rw [behindLast_append a hb]
    exact addrMatch_hosts hk hx (hno b hb) hb (hcovers.append ((covers_char '@').append (hf a)))
      (by simp) (by simp)
  · rw [behindLast_of_notMem hat]
    exact addrMatch_hosts hk hx (hno host hat) hat hcovers hkne hxne

/-- Two texts that go on in the same way, parted at the last `@` in what they share. -/
theorem exists_part {k x : CStr} (hcovers : Covers k x) (hkne : k ≠ []) (hxne : x ≠ []) {c : CStr}
    {p : Char} (hlast : c.getLast? = some p) (hp : p ≠ '@') :
    ∃ k' x' v, Covers k' x' ∧ k' ≠ [] ∧ x' ≠ [] ∧ '@' ∉ v ∧ p ∈ v ∧
      (∀ t, k ++ '@' :: (c ++ t) = k' ++ '@' :: (v ++ t)) ∧
      ∀ t, x ++ '@' :: (c ++ t) = x' ++ '@' :: (v ++ t) := by
  by_cases hat : '@' ∈ c
  · obtain ⟨u, v, rfl, hv⟩ := exists_last hat
    refine ⟨k ++ '@' :: u, x ++ '@' :: u, v, hcovers.append ((covers_char '@').append (covers_self u)),
      by simp, by simp, hv, ?_, fun t => by simp, fun t => by simp⟩
    cases hlv : v.getLast? with
    | none =>
      rw [getLast?_append, getLast?_cons, hlv] at hlast
      exact absurd (Option.some.inj hlast).symm hp
    | some q =>
      rw [getLast?_append, getLast?_cons, hlv] at hlast
      obtain rfl : q = p := Option.some.inj hlast
      exact mem_of_getLast? hlv
  · exact ⟨k, x, c, hcovers, hkne, hxne, hat, mem_of_getLast? hlast, fun t => rfl, fun t => rfl⟩

/-- The end of the host is dropped, where `p` stands before it. -/
theorem addrMatch_cut {cidrSupport : Bool} {k x c rest : CStr} {p : Char}
    (hk : (k ++ '@' :: (c ++ ['*'])).length < uhostLen) (hx : (x ++ '@' :: (c ++ rest)).length < uhostLen)
    (hcovers : Covers k x) (hkne : k ≠ []) (hxne : x ≠ []) (hlast : c.getLast? = some p)
    (hp : p = ':' ∨ p = '.') (hrest : p ∉ rest) :
    addrMatch cidrSupport (k ++ '@' :: (c ++ ['*'])) (x ++ '@' :: (c ++ rest)) true false ≠ 0 ↔
      '@' ∉ rest := by
  have hcode : p.toNat < 65 ∧ p ≠ '@' ∧ p ≠ '*' ∧ p ≠ '?' := by
    rcases hp with rfl | rfl <;> decide
  obtain ⟨k', x', v, hcov, hk', hx', hv, hpv, hmask, haddr⟩ :=
    exists_part hcovers hkne hxne hlast hcode.2.1
  rw [hmask] at hk ⊢
  rw [haddr] at hx ⊢
  have hv' : '@' ∉ v ++ ['*'] := by
    rw [mem_append, not_or]
    exact ⟨hv, by decide⟩
  have hstar : ¬Counted ((v ++ ['*']).map rfcToupper) := by
    rw [map_append]
    exact not_counted_star _
  have hlen : (v ++ ['*']).length < uhostLen := by
    rw [length_append, length_cons] at hk
    omega
  by_cases hat : '@' ∈ rest
  · refine iff_of_false ?_ fun h => h hat
    obtain ⟨a, b, rfl, hb⟩ := exists_last hat
    have hsplit : x' ++ '@' :: (v ++ (a ++ '@' :: b)) = (x' ++ '@' :: (v ++ a)) ++ '@' :: b := by simp
    rw [hsplit] at hx ⊢
    intro h
    obtain ⟨-, ⟨hnil, -⟩ | hhost⟩ := (addrMatch_iff hk hx hv' hb).1 h
    · exact absurd hnil (by simp)
    · rw [hostMatch_eq hstar, Int.natCast_ne_zero] at hhost
      have hmem := mem_of_wildMatch hlen hcode.1 hcode.2.2.1 hcode.2.2.2 (mem_append_left _ hpv) hhost
      exact hrest (mem_append_right a (mem_cons_of_mem _ hmem))
  · refine iff_of_true ?_ hat
    have hs : '@' ∉ v ++ rest := by
      rw [mem_append, not_or]
      exact ⟨hv, hat⟩
    rw [addrMatch_hosts hk hx hv' hs hcov hk' hx', hostMatch_eq hstar, Int.natCast_ne_zero]
    refine .inr (((covers_self v).append (covers_star rest)).wildMatch hlen (by simp) ?_)
    exact append_ne_nil_of_left_ne_nil (ne_nil_of_mem hpv) rest

theorem count_dropWhile (c : Char) (h : CStr) : (h.dropWhile (· != c)).count c = h.count c := by
  have hnone : (h.takeWhile (· != c)).count c = 0 := count_eq_zero.2 fun hmem => by
    simpa using mem_takeWhile_imp hmem
  conv_rhs => rw [← takeWhile_append_dropWhile (p := (· != c)) (l := h), count_append, hnone, Nat.zero_add]

/-- The host from one of its dots on. -/
theorem domain_spec {h : CStr} (hdots : 2 ≤ dots h) : ∃ a, h = a ++ domain h ∧ domain h ≠ [] := by
  have hcount : dots h ≤ h.count '.' := h.tail_sublist.count_le '.'
  have hfirst := count_dropWhile '.' h
  have hsplit := takeWhile_append_dropWhile (p := (· != '.')) (l := h)
  have hne {u : CStr} (hu : 0 < u.count '.') : u ≠ [] := fun hnil => by
    rw [hnil] at hu
    cases hu
  rw [domain]
  split
  · next hmany =>
    cases hu : h.dropWhile (· != '.') with
    | nil =>
      rw [hu, count_nil] at hfirst
      omega
    | cons c u =>
      have hle : (c :: u).count '.' ≤ u.count '.' + 1 := by
        rw [count_cons]
        split <;> omega
      have hrest := count_dropWhile '.' u
      rw [hu] at hfirst
      refine ⟨h.takeWhile (· != '.') ++ c :: u.takeWhile (· != '.'), ?_, hne (by rw [tail_cons]; omega)⟩
      rw [append_assoc, cons_append, tail_cons, takeWhile_append_dropWhile, ← hu, hsplit]
  · exact ⟨_, hsplit.symm, hne (by omega)⟩

theorem getLast?_toLast {c : Char} {h : CStr} (hc : c ∈ h) : (toLast c h).getLast? = some c := by
  obtain ⟨a, b, rfl, hb⟩ := exists_last hc
  rw [toLast_append a hb, getLast?_concat]

/-- What of the host stands behind its last colon, or the last dot behind that. -/
def dropped (h : CStr) : CStr := if '.' ∈ behindLast ':' h then behindLast '.' h else behindLast ':' h

/-- The nick and the user of the mask take those of the address, and what stands before the last `@` of
the host. -/
def LeftTaken (k x host : CStr) : Prop :=
  WildMatch.wildMatch (k.map rfcToupper) ((x ++ '@' :: (toLast '@' host).dropLast).map rfcToupper) ≠ 0

/-- The text `r` is not taken for an address with a count of bits, or the bits are those of `s`. -/
def BitsTaken (r s : CStr) : Prop :=
  let r := r.map rfcToupper
  Counted r → Cidr.cidrMatch (toLast '/' r).dropLast (s.map rfcToupper) (eggAtoi (behindLast '/' r)) ≠ 0

instance decidableLeftTaken (k x host : CStr) : Decidable (LeftTaken k x host) :=
  inferInstanceAs (Decidable (_ ≠ _))

instance decidableBitsTaken (r s : CStr) : Decidable (BitsTaken r s) :=
  inferInstanceAs (Decidable (_ → _))

/-- When the host of the mask takes the host. -/
def HostTaken (type : ℕ) (nick user host : CStr) : Prop :=
  let left := nickPart type nick ++ '!' :: userPart type user
  if 30 ≤ type then
    behindLast '@' host ≠ [] ∧ ('@' ∈ host → LeftTaken left (nick ++ '!' :: user) host)
  else if ':' ∈ host ∧ 2 < type % 5 then '@' ∉ dropped host
  else if (':' ∉ host ∧ isNum host = false ∧ 10 ≤ type) ∨
    (2 < type % 5 ∧ '.' ∈ host ∧ isNum host = true) then True
  else if 2 < type % 5 ∧ 2 ≤ dots host then
    ('@' ∈ host → '@' ∉ domain host → LeftTaken left (nick ++ '!' :: user) host) ∧
      BitsTaken (behindLast '@' ('*' :: domain host)) (behindLast '@' host)
  else BitsTaken (behindLast '@' host) (behindLast '@' host)

instance decidableHostTaken (type : ℕ) (nick user host : CStr) :
    Decidable (HostTaken type nick user host) := by
  unfold HostTaken
  infer_instance

theorem throughLast_append_dropped (h : CStr) : throughLast h ++ dropped h = h := by
  rw [throughLast, dropped]
  split
  · exact toLast_append_behindLast '.' h
  · exact toLast_append_behindLast ':' h

theorem addrMatch_copied {cidrSupport : Bool} {k x host : CStr} (hk : (k ++ '@' :: host).length < uhostLen)
    (hx : (x ++ '@' :: host).length < uhostLen) (hcovers : Covers k x) (hkne : k ≠ []) (hxne : x ≠ []) :
    addrMatch cidrSupport (k ++ '@' :: host) (x ++ '@' :: host) true false ≠ 0 ↔
      BitsTaken (behindLast '@' host) (behindLast '@' host) := by
  have hparts := @addrMatch_parts cidrSupport k x host id hk hx hcovers hkne hxne (fun _ _ => rfl)
    (fun _ h => h) covers_self
  refine hparts.trans ?_
  rw [id_eq, and_self, BitsTaken]
  by_cases hcounted : Counted ((behindLast '@' host).map rfcToupper)
  · have hne : behindLast '@' host ≠ [] := by
      intro hnil
      rw [hnil] at hcounted
      exact absurd hcounted.1 not_mem_nil
    rw [or_iff_right hne, hostMatch, if_pos hcounted, if_neg fun h => Bool.false_ne_true h.1]
    exact ⟨fun h _ => h, fun h => h hcounted⟩
  · rw [hostMatch_eq hcounted, Int.natCast_ne_zero]
    refine iff_of_true ?_ fun h => absurd h hcounted
    by_cases hnil : behindLast '@' host = []
    · exact .inl hnil
    · refine .inr ((covers_self _).wildMatch ?_ hnil hnil)
      have hle := congrArg length (toLast_append_behindLast '@' host)
      rw [length_append] at hle hk
      rw [length_cons] at hk
      omega

theorem wildMatch_star (s : CStr) :
    WildMatch.wildMatch (['*'].map rfcToupper) (s.map rfcToupper) ≠ 0 ↔ s ≠ [] := by
  constructor
  · rintro h rfl
    exact h rfl
  · exact fun h => (covers_star s).wildMatch (by decide) (cons_ne_nil _ _) h

theorem addrMatch_star {cidrSupport : Bool} {k x host : CStr} (hk : (k ++ '@' :: ['*']).length < uhostLen)
    (hx : (x ++ '@' :: host).length < uhostLen) (hcovers : Covers k x) (hkne : k ≠ []) (hxne : x ≠ []) :
    addrMatch cidrSupport (k ++ '@' :: ['*']) (x ++ '@' :: host) true false ≠ 0 ↔
      behindLast '@' host ≠ [] ∧ ('@' ∈ host → LeftTaken k x host) := by
  have hstar : ¬Counted (['*'].map rfcToupper) := not_counted_star []
  have hhost (s : CStr) : (['*'] = [] ∧ s = []) ∨
      hostMatch (['*'].map rfcToupper) (s.map rfcToupper) false ≠ 0 ↔ s ≠ [] := by
    rw [or_iff_right fun h => absurd h.1 (cons_ne_nil _ _), hostMatch_eq hstar,
      Int.natCast_ne_zero, wildMatch_star]
  by_cases hat : '@' ∈ host
  · obtain ⟨a, b, rfl, hb⟩ := exists_last hat
    have hsplit : x ++ '@' :: (a ++ '@' :: b) = (x ++ '@' :: a) ++ '@' :: b := by simp
    rw [hsplit] at hx ⊢
    rw [addrMatch_iff hk hx (by decide) hb, hhost, LeftTaken, behindLast_append a hb, toLast_append a hb,
      dropLast_concat, and_comm]
    exact and_congr_right fun _ => ⟨fun h _ => h, fun h => h hat⟩
  · rw [addrMatch_hosts hk hx (by decide) hat hcovers hkne hxne, hhost, behindLast_of_notMem hat]
    exact ⟨fun h => ⟨h, fun hmem => absurd hmem hat⟩, fun h => h.1⟩

theorem hostMatch_suffix {u : CStr} (a : CStr) (hlen : ('*' :: u).length < uhostLen) (hu : u ≠ []) :
    hostMatch (('*' :: u).map rfcToupper) ((a ++ u).map rfcToupper) false ≠ 0 ↔
      BitsTaken ('*' :: u) (a ++ u) := by
  rw [BitsTaken]
  by_cases hcounted : Counted (('*' :: u).map rfcToupper)
  · rw [hostMatch, if_pos hcounted, if_neg fun h => Bool.false_ne_true h.1]
    exact ⟨fun h _ => h, fun h => h hcounted⟩
  · rw [hostMatch_eq hcounted, Int.natCast_ne_zero]
    refine iff_of_true ?_ fun h => absurd h hcounted
    have hcovers : Covers (['*'] ++ u) (a ++ u) := (covers_star a).append (covers_self u)
    exact hcovers.wildMatch hlen (cons_ne_nil _ _) (append_ne_nil_of_right_ne_nil a hu)

theorem addrMatch_suffix {cidrSupport : Bool} {k x a u : CStr}
    (hk : (k ++ '@' :: '*' :: u).length < uhostLen) (hx : (x ++ '@' :: (a ++ u)).length < uhostLen)
    (hcovers : Covers k x) (hkne : k ≠ []) (hxne : x ≠ []) (hune : u ≠ []) :
    addrMatch cidrSupport (k ++ '@' :: '*' :: u) (x ++ '@' :: (a ++ u)) true false ≠ 0 ↔
      ('@' ∈ a ++ u → '@' ∉ u → LeftTaken k x (a ++ u)) ∧
        BitsTaken (behindLast '@' ('*' :: u)) (behindLast '@' (a ++ u)) := by
  by_cases hu : '@' ∈ u
  · obtain ⟨v, w, rfl, hw⟩ := exists_last hu
    have hmask : k ++ '@' :: '*' :: (v ++ '@' :: w) = (k ++ '@' :: '*' :: v) ++ '@' :: w := by simp
    have haddr : x ++ '@' :: (a ++ (v ++ '@' :: w)) = (x ++ '@' :: (a ++ v)) ++ '@' :: w := by simp
    have hleft : Covers (k ++ '@' :: '*' :: v) (x ++ '@' :: (a ++ v)) :=
      hcovers.append ((covers_char '@').append ((covers_star a).append (covers_self v)))
    have hlast := behindLast_append ('*' :: v) hw
    have hlast' := behindLast_append (a ++ v) hw
    rw [cons_append] at hlast
    rw [append_assoc] at hlast'
    rw [hmask] at hk ⊢
    rw [haddr] at hx ⊢
    rw [addrMatch_copied hk hx hleft (by simp) (by simp), behindLast_of_notMem hw, hlast, hlast',
      and_iff_right fun _ hno => absurd hu hno]
  · have hstar : '@' ∉ '*' :: u := by
      rw [mem_cons, not_or]
      exact ⟨by decide, hu⟩
    have hlen : ('*' :: u).length < uhostLen := by
      rw [length_append, length_cons] at hk
      omega
    rw [behindLast_of_notMem hstar]
    by_cases ha : '@' ∈ a
    · obtain ⟨b, c, rfl, hc⟩ := exists_last ha
      have hcu : '@' ∉ c ++ u := by
        rw [mem_append, not_or]
        exact ⟨hc, hu⟩
      have haddr : x ++ '@' :: (b ++ '@' :: c ++ u) = (x ++ '@' :: b) ++ '@' :: (c ++ u) := by simp
      have hparts : b ++ '@' :: c ++ u = b ++ '@' :: (c ++ u) := by simp
      rw [haddr] at hx ⊢
      rw [addrMatch_iff hk hx hstar hcu, or_iff_right fun h => absurd h.1 (cons_ne_nil _ _),
        hostMatch_suffix c hlen hune, hparts, behindLast_append b hcu, LeftTaken, toLast_append b hcu,
        dropLast_concat]
      exact and_congr_left fun _ => ⟨fun h _ _ => h, fun h => h (by simp) hu⟩
    · have hau : '@' ∉ a ++ u := by
        rw [mem_append, not_or]
        exact ⟨ha, hu⟩
      rw [addrMatch_hosts hk hx hstar hau hcovers hkne hxne, behindLast_of_notMem hau,
        or_iff_right fun h => absurd h.1 (cons_ne_nil _ _), hostMatch_suffix a hlen hune,
        and_iff_right fun h => absurd h hau]

theorem maskHost_nil (type : ℕ) : maskHost type [] = ['*'] := by
  rw [maskHost]
  split
  · rfl
  · rw [if_neg fun h => absurd h.1 not_mem_nil, if_neg fun h => absurd h.2.1 (by decide),
      if_neg fun h => absurd h.2 not_mem_nil, if_pos rfl]

theorem exists_dropped {h : CStr} (hcolon : ':' ∈ h) : ∃ p, (throughLast h).getLast? = some p ∧
    (p = ':' ∨ p = '.') ∧ p ∉ dropped h := by
  rw [throughLast, dropped]
  split
  · next hdot =>
    have hdot' : '.' ∈ h := by
      rw [← toLast_append_behindLast ':' h]
      exact mem_append_right _ hdot
    exact ⟨'.', getLast?_toLast hdot', .inr rfl, notMem_behindLast '.' h⟩
  · exact ⟨':', getLast?_toLast hcolon, .inl rfl, notMem_behindLast ':' h⟩

theorem at_notMem_of_isNum {h : CStr} (hnum : isNum h = true) : '@' ∉ h := fun hat =>
  absurd (all_eq_true.1 hnum '@' hat) (by decide)

/-- Where the digits are masked, the mask always matches. -/
theorem addrMatch_digits {cidrSupport : Bool} {k x host : CStr} (type : ℕ)
    (hk : (k ++ '@' :: maskDigits type false host).length < uhostLen)
    (hx : (x ++ '@' :: host).length < uhostLen) (hcovers : Covers k x) (hkne : k ≠ []) (hxne : x ≠ []) :
    addrMatch cidrSupport (k ++ '@' :: maskDigits type false host) (x ++ '@' :: host) true false ≠ 0 := by
  have hno (b : CStr) (hb : '@' ∉ b) : '@' ∉ maskDigits type false b := by
    intro hat
    rcases (mem_maskDigits hat).2 with hat | hat | hat
    · exact hb hat
    · cases hat
    · cases hat
  have hplain : ¬Counted ((maskDigits type false (behindLast '@' host)).map rfcToupper) := by
    refine not_counted_of_digits fun c hc => ?_
    obtain ⟨d, hd, rfl⟩ := mem_map.1 hc
    rw [isDigit_rfcToupper]
    exact (mem_maskDigits hd).1
  rw [addrMatch_parts hk hx hcovers hkne hxne (maskDigits_append type false) hno
    (covers_maskDigits type), hostMatch_eq hplain, Int.natCast_ne_zero]
  by_cases hlast : behindLast '@' host = []
  · rw [hlast]
    exact .inl ⟨rfl, rfl⟩
  · have hcov := covers_maskDigits type (behindLast '@' host)
    have hle := length_maskDigits_le type false (behindLast '@' host)
    have hsum := congrArg length (toLast_append_behindLast '@' host)
    rw [length_append] at hsum
    rw [length_append, length_cons] at hx
    refine .inr (hcov.wildMatch ?_ ?_ hlast)
    · have : 0 < uhostLen := by decide
      omega
    · intro hempty
      rw [hempty] at hcov
      exact hlast (map_eq_nil_iff.1 hcov)

/-- A mask made of a `nick!user@host` takes that if and only if there is a host, and the mask takes
the host. -/
theorem maskaddr_iff (cidrSupport : Bool) (hnick : '!' ∉ nick) (huser : '@' ∉ user)
    (hlen : (nick ++ '!' :: (user ++ '@' :: host)).length < uhostLen)
    (hfits : (maskaddr (nick ++ '!' :: (user ++ '@' :: host)) type).length < uhostLen) :
    addrMatch cidrSupport (maskaddr (nick ++ '!' :: (user ++ '@' :: host)) type)
        (nick ++ '!' :: (user ++ '@' :: host)) true false ≠ 0 ↔
      host ≠ [] ∧ HostTaken type nick user host := by
  have hmask := @maskaddr_eq nick user host type hnick huser
  have haddr : nick ++ '!' :: (user ++ '@' :: host) = nick ++ '!' :: user ++ '@' :: host := by simp
  rw [hmask] at hfits ⊢
  rw [haddr] at hlen ⊢
  have hcovers := covers_left type nick user
  have hk : nickPart type nick ++ '!' :: userPart type user ≠ [] := by simp
  have hx : nick ++ '!' :: user ≠ [] := by simp
  by_cases hnil : host = []
  · subst hnil
    rw [maskHost_nil] at hfits ⊢
    rw [addrMatch_star hfits hlen hcovers hk hx]
    exact iff_of_false (fun h => h.1 rfl) fun h => h.1 rfl
  rw [and_iff_right hnil, HostTaken]
  rw [maskHost] at hfits ⊢
  have hshort : host.length ≤ uhostLen - 1 := by
    rw [length_append, length_cons] at hlen
    omega
  split at hfits
  · next htype =>
    rw [if_pos htype, if_pos htype]
    exact addrMatch_star hfits hlen hcovers hk hx
  next htype =>
  rw [if_neg htype, if_neg htype]
  split at hfits
  · next hcolon =>
    rw [if_pos hcolon, if_pos hcolon]
    obtain ⟨p, hlast, hp, hno⟩ := exists_dropped hcolon.1
    have hcut := @addrMatch_cut cidrSupport _ (nick ++ '!' :: user) _ (dropped host) p hfits
    rw [throughLast_append_dropped] at hcut
    exact hcut hlen hcovers hk hx hlast hp hno
  next hcolon =>
  rw [if_neg hcolon, if_neg hcolon]
  split at hfits
  · next hdigits =>
    rw [if_pos hdigits, if_pos (.inl hdigits)]
    exact iff_of_true (addrMatch_digits type hfits hlen hcovers hk hx) trivial
  next hdigits =>
  have hwhole : host.take (uhostLen - 1) = host := take_of_length_le hshort
  rw [if_neg hdigits, hwhole]
  rw [hwhole] at hfits
  split at hfits
  · next hdot =>
    rw [if_pos hdot]
    split at hfits
    · next hnum =>
      rw [if_pos hnum, if_pos (.inr ⟨hdot.1, hdot.2, hnum⟩)]
      have hcut := @addrMatch_cut cidrSupport _ (nick ++ '!' :: user) _ (behindLast '.' host) '.' hfits
      rw [toLast_append_behindLast] at hcut
      refine iff_of_true ?_ trivial
      refine (hcut hlen hcovers hk hx (getLast?_toLast hdot.2) (.inr rfl) (notMem_behindLast '.' host)).2 ?_
      intro hat
      refine at_notMem_of_isNum hnum ?_
      rw [← toLast_append_behindLast '.' host]
      exact mem_append_right _ hat
    next hnum =>
    have hplain : ¬((':' ∉ host ∧ isNum host = false ∧ 10 ≤ type) ∨
        (2 < type % 5 ∧ '.' ∈ host ∧ isNum host = true)) := by
      rintro (hcase | hcase)
      · exact hdigits hcase
      · exact hnum hcase.2.2
    rw [if_neg hnum, if_neg hplain]
    split at hfits
    · next hfew =>
      rw [if_pos hfew, if_neg fun h => absurd h.2 (Nat.not_le.2 hfew)]
      exact addrMatch_copied hfits hlen hcovers hk hx
    · next hmany =>
      obtain ⟨a, ha, hne⟩ := domain_spec (Nat.not_lt.1 hmany)
      have htake : ('*' :: domain host).take (uhostLen - 1) = '*' :: domain host := by
        refine take_of_length_le ?_
        have hle := congrArg length ha
        simp only [length_append, length_cons, uhostLen] at hle hlen ⊢
        omega
      rw [htake] at hfits
      rw [if_neg hmany, if_pos ⟨hdot.1, Nat.not_lt.1 hmany⟩, htake]
      generalize domain host = u at ha hne hfits ⊢
      subst ha
      exact addrMatch_suffix hfits hlen hcovers hk hx hne
  · next hdot =>
    have hfew : ¬(2 < type % 5 ∧ 2 ≤ dots host) := by
      rintro ⟨htype', hmany⟩
      refine hdot ⟨htype', mem_of_mem_tail (count_pos_iff.1 ?_)⟩
      exact Nat.lt_of_lt_of_le Nat.two_pos hmany
    rw [if_neg hdot, if_neg hnil, if_neg, if_neg hfew]
    · exact addrMatch_copied hfits hlen hcovers hk hx
    · rintro (hcase | hcase)
      · exact hdigits hcase
      · exact hdot ⟨hcase.1, hcase.2.1⟩

/-- The mask is `*!*u@*.example.com`. -/
theorem maskaddr_iff_domain :
    addrMatch true (maskaddr "n!~u@a.b.example.com".toList 3) "n!~u@a.b.example.com".toList true false ≠
      0 :=
  (@maskaddr_iff ['n'] ['~', 'u'] "a.b.example.com".toList 3 true (by decide) (by decide) (by decide)
    (by decide)).2 ⟨by decide, by decide⟩

/-- The end of a cloaked host is taken for a count of bits. -/
theorem not_maskaddr_cloak : ¬∀ (nick user host : CStr) (type : ℕ), '!' ∉ nick → '@' ∉ user →
    (nick ++ '!' :: (user ++ '@' :: host)).length < uhostLen →
      addrMatch false (maskaddr (nick ++ '!' :: (user ++ '@' :: host)) type)
        (nick ++ '!' :: (user ++ '@' :: host)) true false ≠ 0 := by
  intro h
  have hno : addrMatch false (maskaddr "n!u@a/b/12".toList 0) "n!u@a/b/12".toList true false = 0 := rfl
  exact h ['n'] ['u'] "a/b/12".toList 0 (by decide) (by decide) (by decide) hno

end Eggdrop.AddrMatch
