import Eggdrop.Share.Ignores

/-!
# IgnoreExpiry — ignores that have expired (src/users.c)

`check_expired_ignores` walks over the ignores with a pointer to the place where the next one hangs,
and gives the mask of one that has expired to `delignore`, which takes a number for a place in the
list.  So an ignore may go that is not the one looked at.

* `expireLoop_sublist`: the loop only takes ignores away.
* `expireLoop_ahead`: an ignore whose number lies ahead is looked at for ever.
* `expires_iff`: when what has expired goes, and nothing else.
-/

open List

namespace Eggdrop.Share

/-! ### The source -/

/-- `delignore`, as far as it looks: the place of the ignore that goes, and `mask_str`. -/
def findIgnore (ign : CStr) (ignores : List Igrec) : Option (ℕ × CStr) :=
  if '!' ∉ ign ∧ eggAtoi ign ≠ 0 then
    let j := eggAtoi ign - 1
    -- a number below zero is counted down until the list ends
    if j < 0 then none else ignores[j.toNat]?.map fun u => (j.toNat, u.igmask)
  else (ignores.findIdx? fun u => rfcCaseEq ign u.igmask).map fun i => (i, ign)

/-- `delignore`: the ignores and what is shared; `none` where it returns 0. -/
def delignore (noshare : Bool) (ign : CStr) (ignores : List Igrec) :
    Option (List Igrec × Option CStr) :=
  (findIgnore ign ignores).map fun (i, maskStr) =>
    (ignores.eraseIdx i,
      if noshare then none else some ("-i ".toList ++ strEscape maskStr ':' '\\' ++ ['\n']))

/-- The ignore is temporary, and its time has come. -/
def Igrec.expired (now : ℤ) (u : Igrec) : Bool := !u.perm && decide (u.expire ≤ now)

/-- The loop of `check_expired_ignores` for `n` rounds, where `u` hangs behind `i` ignores; `none`
where it goes on, and where it looks into an ignore that is freed. -/
@[grind =] def expireLoop (now : ℤ) : ℕ → List Igrec → ℕ → Option (List Igrec)
  | 0, _, _ => none
  | n + 1, ignores, i =>
    match ignores[i]? with
    | none => some ignores
    | some u =>
      if u.expired now then
        match findIgnore u.igmask ignores with
        | none => expireLoop now n ignores i
        | some (j, _) =>
          -- `u` is the field `next` of the ignore before
          if j + 1 = i then none
          else expireLoop now n (ignores.eraseIdx j) (if j < i then i - 1 else i)
      else expireLoop now n ignores (i + 1)

/-- `check_expired_ignores`, for `n` rounds. -/
def checkExpiredIgnores (now : ℤ) (n : ℕ) (ignores : List Igrec) : Option (List Igrec) :=
  expireLoop now n ignores 0

/-! ### What is meant -/

/-- The ignores that are left: all but those that have expired. -/
def staying (now : ℤ) (ignores : List Igrec) : List Igrec := ignores.filter fun u => !u.expired now

/-- The loop ends, and what has expired is gone. -/
def Expires (now : ℤ) (ignores : List Igrec) : Prop :=
  ∃ n, checkExpiredIgnores now n ignores = some (staying now ignores)

/-- The mask names its ignore behind the ignores `stay`: where it reads as a number it is the number
of that place, and otherwise no ignore before has it for its mask. -/
def Names (stay : List Igrec) (ign : CStr) : Prop :=
  if '!' ∉ ign ∧ eggAtoi ign ≠ 0 then eggAtoi ign = stay.length + 1
  else ∀ u ∈ stay, rfcCaseEq ign u.igmask = false

/-- Every ignore that has expired is named by its mask, behind what stays of the ignores before. -/
def Named (now : ℤ) (ignores : List Igrec) : Prop :=
  ∀ before u after, ignores = before ++ u :: after → u.expired now = true →
    Names (staying now before) u.igmask

/-! ### What `delignore` finds -/

section Find

variable {ign maskStr : CStr} {ignores stay rest after : List Igrec} {u : Igrec} {j : ℕ}

theorem findIgnore_number (h : '!' ∉ ign ∧ eggAtoi ign ≠ 0)
    (hfind : findIgnore ign ignores = some (j, maskStr)) :
    eggAtoi ign = j + 1 ∧ j < ignores.length := by
  simp only [findIgnore, if_pos h] at hfind
  split at hfind
  · cases hfind
  · obtain ⟨u, hu, hj⟩ := Option.map_eq_some_iff.1 hfind
    obtain ⟨hlt, -⟩ := List.getElem?_eq_some_iff.1 hu
    cases hj
    omega

theorem findIgnore_mask (h : ¬('!' ∉ ign ∧ eggAtoi ign ≠ 0)) :
    findIgnore ign ignores =
      (ignores.findIdx? fun u => rfcCaseEq ign u.igmask).map fun i => (i, ign) :=
  if_neg h

theorem findIgnore_of_names (after : List Igrec) (h : Names stay u.igmask) :
    ∃ maskStr, findIgnore u.igmask (stay ++ u :: after) = some (stay.length, maskStr) := by
  unfold Names at h
  split at h
  · next hnum =>
    refine ⟨u.igmask, ?_⟩
    have hj : (eggAtoi u.igmask - 1).toNat = stay.length := by omega
    simp only [findIgnore, if_pos hnum, hj]
    rw [if_neg (by omega), List.getElem?_append_right le_rfl, Nat.sub_self]
    rfl
  · next hnum =>
    refine ⟨u.igmask, ?_⟩
    have hfind : (stay ++ u :: after).findIdx? (fun v => rfcCaseEq u.igmask v.igmask) =
        some stay.length := by
      rw [List.findIdx?_append, List.findIdx?_eq_none_iff.2 h, List.findIdx?_cons, rfcCaseEq_refl]
      simp
    rw [findIgnore_mask hnum, hfind]
    rfl

theorem findIgnore_mask_le (stay after : List Igrec)
    (h : ¬('!' ∉ u.igmask ∧ eggAtoi u.igmask ≠ 0)) :
    ∃ j ≤ stay.length, findIgnore u.igmask (stay ++ u :: after) = some (j, u.igmask) ∧
      (j = stay.length → Names stay u.igmask) := by
  cases hfind : stay.findIdx? fun v => rfcCaseEq u.igmask v.igmask with
  | none =>
    have hnames : Names stay u.igmask := by
      rw [Names, if_neg h]
      exact List.findIdx?_eq_none_iff.1 hfind
    have hown : (stay ++ u :: after).findIdx? (fun v => rfcCaseEq u.igmask v.igmask) =
        some stay.length := by
      rw [List.findIdx?_append, hfind, List.findIdx?_cons, rfcCaseEq_refl]
      simp
    refine ⟨stay.length, le_rfl, ?_, fun _ => hnames⟩
    rw [findIgnore_mask h, hown]
    rfl
  | some j =>
    have hlt : j < stay.length := (List.findIdx?_eq_some_iff_findIdx_eq.1 hfind).1
    refine ⟨j, hlt.le, ?_, fun hj => absurd hj hlt.ne⟩
    rw [findIgnore_mask h, List.findIdx?_append, hfind]
    rfl

end Find

/-! ### The loop -/

section Loop

variable {now : ℤ} {n i j : ℕ} {ignores stay rest after r : List Igrec} {u : Igrec} {maskStr : CStr}

theorem expireLoop_keep (h : u.expired now = false) :
    expireLoop now (n + 1) (stay ++ u :: after) stay.length =
      expireLoop now n (stay ++ u :: after) (stay.length + 1) := by
  simp [expireLoop, h]

theorem expireLoop_found (h : u.expired now = true)
    (hfind : findIgnore u.igmask (stay ++ u :: after) = some (j, maskStr)) :
    expireLoop now (n + 1) (stay ++ u :: after) stay.length =
      if j + 1 = stay.length then none
      else expireLoop now n ((stay ++ u :: after).eraseIdx j)
        (if j < stay.length then stay.length - 1 else stay.length) := by
  simp [expireLoop, h, hfind]

theorem expireLoop_sublist (h : expireLoop now n ignores i = some r) : r <+ ignores := by
  induction n generalizing ignores i with
  | zero => cases h
  | succ n ih =>
    rw [expireLoop] at h
    split at h
    · obtain rfl := Option.some.inj h
      exact List.Sublist.refl _
    · split at h
      · split at h
        · exact ih h
        · split at h
          · cases h
          · exact (ih h).trans (List.eraseIdx_sublist _ _)
      · exact ih h

/-- While the mask of the ignore at `u` is the number of a place further on, or of none, `u` stays. -/
theorem expireLoop_ahead (hu : ignores[i]? = some u) (hexp : u.expired now = true)
    (hnum : '!' ∉ u.igmask ∧ eggAtoi u.igmask ≠ 0)
    (hahead : eggAtoi u.igmask < 0 ∨ (i : ℤ) + 1 < eggAtoi u.igmask) :
    expireLoop now n ignores i = none := by
  induction n generalizing ignores with
  | zero => rfl
  | succ n ih =>
    rw [expireLoop, hu]
    simp only [hexp, if_true]
    split
    · exact ih hu
    · next j maskStr hfind =>
      obtain ⟨hj, -⟩ := findIgnore_number hnum hfind
      have hlt : i < j := by omega
      rw [if_neg (by omega), if_neg (by omega)]
      apply ih
      rw [List.getElem?_eraseIdx_of_lt hlt]
      exact hu

theorem staying_cons_of_expired (h : u.expired now = true) :
    staying now (u :: after) = staying now after :=
  List.filter_cons_of_neg (by simp [h])

theorem staying_cons_of_not_expired (h : u.expired now = false) :
    staying now (u :: after) = u :: staying now after :=
  List.filter_cons_of_pos (by simp [h])

theorem staying_append (a b : List Igrec) : staying now (a ++ b) = staying now a ++ staying now b :=
  List.filter_append a b

theorem expireLoop_ne_of_lt (hstay : staying now stay = stay) (hlt : j < stay.length) :
    expireLoop now n ((stay ++ rest).eraseIdx j) i ≠ some (stay ++ staying now rest) := by
  intro h
  have hsub := (expireLoop_sublist h).filter fun u => !u.expired now
  rw [List.eraseIdx_append_of_lt_length hlt] at hsub
  have hlen := hsub.length_le
  have hleft : ((stay.eraseIdx j).filter fun u => !u.expired now).length ≤ stay.length - 1 := by
    rw [← List.length_eraseIdx_of_lt hlt]
    exact List.length_filter_le _ _
  have hidem : staying now (staying now rest) = staying now rest := by
    simp [staying]
  have hall : (stay ++ staying now rest).filter (fun u => !u.expired now) =
      stay ++ staying now rest := by
    rw [← staying, staying_append, hstay, hidem]
  rw [hall, List.filter_append, List.length_append, List.length_append] at hlen
  have hrest : (rest.filter fun u => !u.expired now).length = (staying now rest).length := rfl
  omega

theorem expireLoop_ne_of_not_names (hexp : u.expired now = true) (hstay : staying now stay = stay)
    (h : ¬Names stay u.igmask) :
    expireLoop now n (stay ++ u :: after) stay.length ≠
      some (stay ++ staying now (u :: after)) := by
  have hbefore {maskStr : CStr} {j : ℕ} (hlt : j < stay.length)
      (hfind : findIgnore u.igmask (stay ++ u :: after) = some (j, maskStr)) :
      expireLoop now n (stay ++ u :: after) stay.length ≠
        some (stay ++ staying now (u :: after)) := by
    cases n with
    | zero => exact (Option.some_ne_none _).symm
    | succ n =>
      rw [expireLoop_found hexp hfind]
      split
      · exact (Option.some_ne_none _).symm
      · exact expireLoop_ne_of_lt hstay hlt
  by_cases hnum : '!' ∉ u.igmask ∧ eggAtoi u.igmask ≠ 0
  · rw [Names, if_pos hnum] at h
    by_cases hahead : eggAtoi u.igmask < 0 ∨ (stay.length : ℤ) + 1 < eggAtoi u.igmask
    · rw [expireLoop_ahead (by simp) hexp hnum hahead]
      exact (Option.some_ne_none _).symm
    · have hlt : (eggAtoi u.igmask - 1).toNat < stay.length := by omega
      refine @hbefore (stay[(eggAtoi u.igmask - 1).toNat]).igmask _ hlt ?_
      simp only [findIgnore, if_pos hnum]
      rw [if_neg (by omega), List.getElem?_append_left hlt, List.getElem?_eq_getElem hlt]
      rfl
  · obtain ⟨j, hj, hfind, hnames⟩ := findIgnore_mask_le stay after hnum
    exact hbefore (lt_of_le_of_ne hj fun heq => h (hnames heq)) hfind

/-- The rest of the walk, behind ignores that stay. -/
theorem expireLoop_iff (hstay : staying now stay = stay) :
    (∃ n, expireLoop now n (stay ++ rest) stay.length = some (stay ++ staying now rest)) ↔
      ∀ before u after, rest = before ++ u :: after → u.expired now = true →
        Names (stay ++ staying now before) u.igmask := by
  induction rest generalizing stay with
  | nil =>
    refine iff_of_true ⟨1, ?_⟩ ?_
    · simp [expireLoop, staying]
    · intro before u after h
      simp at h
  | cons u rest ih =>
    by_cases hexp : u.expired now = true
    · by_cases hnames : Names stay u.igmask
      · obtain ⟨maskStr, hfind⟩ := findIgnore_of_names rest hnames
        have hstep (n : ℕ) : expireLoop now (n + 1) (stay ++ u :: rest) stay.length =
            expireLoop now n (stay ++ rest) stay.length := by
          rw [expireLoop_found hexp hfind, if_neg (by omega), if_neg (lt_irrefl _),
            List.eraseIdx_append_of_length_le le_rfl, Nat.sub_self]
          rfl
        rw [staying_cons_of_expired hexp]
        constructor
        · intro h before v after heq hv
          obtain ⟨n, hn⟩ := h
          cases n with
          | zero => cases hn
          | succ n =>
            rw [hstep] at hn
            cases before with
            | nil =>
              cases heq
              simpa [staying] using hnames
            | cons w before =>
              cases heq
              rw [staying_cons_of_expired hexp]
              exact (ih hstay).1 ⟨n, hn⟩ before v after rfl hv
        · intro h
          obtain ⟨n, hn⟩ := (ih hstay).2 fun before v after heq hv => by
            have hv' := h (u :: before) v after (congrArg (u :: ·) heq) hv
            rw [staying_cons_of_expired hexp] at hv'
            exact hv'
          exact ⟨n + 1, (hstep n).trans hn⟩
      · refine iff_of_false ?_ ?_
        · intro h
          obtain ⟨n, hn⟩ := h
          exact expireLoop_ne_of_not_names hexp hstay hnames hn
        · intro h
          refine hnames ?_
          simpa [staying] using h [] u rest rfl hexp
    · have hkeep : u.expired now = false := by simpa using hexp
      have hstay' : staying now (stay ++ [u]) = stay ++ [u] := by
        rw [staying_append, hstay, staying_cons_of_not_expired hkeep]
        rfl
      have ih' := ih hstay'
      have hlen : (stay ++ [u]).length = stay.length + 1 := by simp
      rw [List.append_assoc, List.append_assoc, hlen] at ih'
      rw [staying_cons_of_not_expired hkeep]
      have hfirst : (∃ n, expireLoop now n (stay ++ u :: rest) stay.length =
            some (stay ++ u :: staying now rest)) ↔
          ∃ n, expireLoop now n (stay ++ u :: rest) (stay.length + 1) =
            some (stay ++ u :: staying now rest) := by
        constructor
        · intro h
          obtain ⟨n, hn⟩ := h
          cases n with
          | zero => cases hn
          | succ n => exact ⟨n, (expireLoop_keep hkeep).symm.trans hn⟩
        · intro h
          obtain ⟨n, hn⟩ := h
          exact ⟨n + 1, (expireLoop_keep hkeep).trans hn⟩
      refine hfirst.trans (ih'.trans ?_)
      constructor
      · intro h before v after heq hv
        cases before with
        | nil =>
          cases heq
          exact absurd hv hexp
        | cons w before =>
          cases heq
          rw [staying_cons_of_not_expired hkeep]
          simpa using h before v after rfl hv
      · intro h before v after heq hv
        have hv' := h (u :: before) v after (congrArg (u :: ·) heq) hv
        rw [staying_cons_of_not_expired hkeep] at hv'
        simpa using hv'

end Loop

/-! ### All ignores -/

/-- The loop ends with what has not expired exactly when every mask that has expired names its own
place. -/
theorem expires_iff (now : ℤ) (ignores : List Igrec) : Expires now ignores ↔ Named now ignores :=
  @expireLoop_iff now [] ignores rfl

/-- An ignore whose mask is a number, and not that of its place, is never done with. -/
theorem not_expires_number :
    ¬Expires 10 [⟨"5".toList, "someone".toList, "".toList, 5, 0, false⟩] := by
  intro h
  obtain ⟨n, hn⟩ := h
  have hnone : checkExpiredIgnores 10 n [⟨"5".toList, "someone".toList, "".toList, 5, 0, false⟩] =
      none := expireLoop_ahead rfl (by decide) (by decide +kernel) (.inr (by decide +kernel))
  rw [hnone] at hn
  cases hn

end Eggdrop.Share
