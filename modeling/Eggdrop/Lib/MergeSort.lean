import Mathlib.Data.List.Basic

/-!
# MergeSort — merge sort with a comparison that may fail

`cmp a b` says whether `a` has to go behind `b`, or ends in an error, and with it the whole sort.
Nothing is asked of `cmp` but what is named where it is used.

* `sort_perm`: what is returned has the same elements.
* `sort_pairwise`: it is in order, where the order is transitive.
* `filter_sort`: elements that compare equal keep their order.
* `sort_isOk`: when there is no error.
-/

namespace MergeSort

variable {α ε : Type*}

section Defs

variable (cmp : α → α → Except ε Bool)

/-- Of two heads the second goes first only if the first one has to go behind it. -/
def merge : List α → List α → Except ε (List α)
  | [], ys => .ok ys
  | x :: xs, [] => .ok (x :: xs)
  | x :: xs, y :: ys =>
    (cmp x y).bind fun
      | true => (merge (x :: xs) ys).map (y :: ·)
      | false => (merge xs (y :: ys)).map (x :: ·)
termination_by xs ys => xs.length + ys.length

/-- The first half, rounded down, the rest, and a merge of the two. -/
def sort (l : List α) : Except ε (List α) :=
  if l.length < 2 then .ok l
  else
    (sort (l.take (l.length / 2))).bind fun xs =>
      (sort (l.drop (l.length / 2))).bind fun ys => merge cmp xs ys
termination_by l.length
decreasing_by
  · rw [List.length_take]; omega
  · rw [List.length_drop]; omega

/-- `a` may stand before `b`. -/
def Before (a b : α) : Prop := cmp a b = .ok false

/-- The order asked of a comparison. -/
structure Orders : Prop where
  trans {a b c : α} : Before cmp a b → Before cmp b c → Before cmp a c
  asymm {a b : α} : cmp a b = .ok true → Before cmp b a

end Defs

variable {cmp : α → α → Except ε Bool}

@[simp] theorem merge_nil_left (ys : List α) : merge cmp [] ys = .ok ys := by rw [merge]

@[simp] theorem merge_nil_right (xs : List α) : merge cmp xs [] = .ok xs := by
  cases xs <;> rw [merge]

theorem merge_cons_cons {x y : α} {xs ys zs : List α} (h : merge cmp (x :: xs) (y :: ys) = .ok zs) :
    (∃ zs', cmp x y = .ok true ∧ merge cmp (x :: xs) ys = .ok zs' ∧ zs = y :: zs') ∨
      (∃ zs', cmp x y = .ok false ∧ merge cmp xs (y :: ys) = .ok zs' ∧ zs = x :: zs') := by
  rw [merge] at h
  cases hc : cmp x y with
  | error e =>
    rw [hc] at h
    cases h
  | ok r =>
    rw [hc] at h
    cases r with
    | true =>
      left
      change (merge cmp (x :: xs) ys).map (y :: ·) = .ok zs at h
      cases hm : merge cmp (x :: xs) ys with
      | error e =>
        rw [hm] at h
        cases h
      | ok zs' =>
        rw [hm] at h
        cases h
        exact ⟨zs', rfl, rfl, rfl⟩
    | false =>
      right
      change (merge cmp xs (y :: ys)).map (x :: ·) = .ok zs at h
      cases hm : merge cmp xs (y :: ys) with
      | error e =>
        rw [hm] at h
        cases h
      | ok zs' =>
        rw [hm] at h
        cases h
        exact ⟨zs', rfl, rfl, rfl⟩

/-- The merges that end without an error, round by round. -/
inductive Merges (cmp : α → α → Except ε Bool) : List α → List α → List α → Prop
  | left (ys : List α) : Merges cmp [] ys ys
  | right (xs : List α) : Merges cmp xs [] xs
  | second {x y : α} {xs ys zs : List α} : cmp x y = .ok true → Merges cmp (x :: xs) ys zs →
      Merges cmp (x :: xs) (y :: ys) (y :: zs)
  | first {x y : α} {xs ys zs : List α} : cmp x y = .ok false → Merges cmp xs (y :: ys) zs →
      Merges cmp (x :: xs) (y :: ys) (x :: zs)

theorem merges_of_merge {xs ys zs : List α} (h : merge cmp xs ys = .ok zs) : Merges cmp xs ys zs := by
  induction zs generalizing xs ys with
  | nil =>
    cases xs with
    | nil =>
      rw [merge_nil_left] at h
      cases h
      exact .left _
    | cons x xs =>
      cases ys with
      | nil =>
        rw [merge_nil_right] at h
        cases h
      | cons y ys =>
        obtain ⟨zs', -, -, hz⟩ | ⟨zs', -, -, hz⟩ := merge_cons_cons h
        · cases hz
        · cases hz
  | cons z zs ih =>
    cases xs with
    | nil =>
      rw [merge_nil_left] at h
      cases h
      exact .left _
    | cons x xs =>
      cases ys with
      | nil =>
        rw [merge_nil_right] at h
        cases h
        exact .right _
      | cons y ys =>
        obtain ⟨zs', hc, hm, hz⟩ | ⟨zs', hc, hm, hz⟩ := merge_cons_cons h
        · cases hz
          exact .second hc (ih hm)
        · cases hz
          exact .first hc (ih hm)

theorem Merges.perm {xs ys zs : List α} (h : Merges cmp xs ys zs) : zs.Perm (xs ++ ys) := by
  induction h with
  | left ys => exact List.Perm.refl _
  | right xs => rw [List.append_nil]
  | second _ _ ih => exact (ih.cons _).trans List.perm_middle.symm
  | first _ _ ih => exact ih.cons _

theorem Merges.pairwise (ho : Orders cmp) {xs ys zs : List α} (h : Merges cmp xs ys zs)
    (hxs : xs.Pairwise (Before cmp)) (hys : ys.Pairwise (Before cmp)) :
    zs.Pairwise (Before cmp) := by
  induction h with
  | left ys => exact hys
  | right xs => exact hxs
  | second hc hm ih =>
    have hyx := ho.asymm hc
    rw [List.pairwise_cons] at hys
    refine List.pairwise_cons.2 ⟨fun z hz => ?_, ih hxs hys.2⟩
    rcases List.mem_append.1 (hm.perm.subset hz) with hz | hz
    · rcases List.mem_cons.1 hz with rfl | hz
      · exact hyx
      · exact ho.trans hyx ((List.pairwise_cons.1 hxs).1 z hz)
    · exact hys.1 z hz
  | first hc hm ih =>
    rw [List.pairwise_cons] at hxs
    refine List.pairwise_cons.2 ⟨fun z hz => ?_, ih hxs.2 hys⟩
    rcases List.mem_append.1 (hm.perm.subset hz) with hz | hz
    · exact hxs.1 z hz
    · rcases List.mem_cons.1 hz with rfl | hz
      · exact hc
      · exact ho.trans hc ((List.pairwise_cons.1 hys).1 z hz)

/-- Any two of the elements that `p` picks may stand in either order. -/
def Ties (cmp : α → α → Except ε Bool) (p : α → Bool) : Prop :=
  ∀ a b, p a = true → p b = true → Before cmp a b

theorem Merges.filter (ho : Orders cmp) {p : α → Bool} (hp : Ties cmp p) {xs ys zs : List α}
    (h : Merges cmp xs ys zs) (hxs : xs.Pairwise (Before cmp)) (hys : ys.Pairwise (Before cmp)) :
    zs.filter p = xs.filter p ++ ys.filter p := by
  induction h with
  | left ys => rfl
  | right xs => rw [List.filter_nil, List.append_nil]
  | @second x y xs ys zs hc hm ih =>
    have hzs := ih hxs (List.pairwise_cons.1 hys).2
    by_cases hy : p y = true
    · -- nothing of the first list is picked: it would have gone first
      have hnone : ∀ z ∈ x :: xs, ¬ p z = true := by
        intro z hz hpz
        have hxy : Before cmp x y := by
          rcases List.mem_cons.1 hz with rfl | hz
          · exact hp _ _ hpz hy
          · exact ho.trans ((List.pairwise_cons.1 hxs).1 z hz) (hp z y hpz hy)
        rw [Before, hc] at hxy
        cases hxy
      rw [List.filter_eq_nil_iff.2 hnone, List.nil_append] at hzs ⊢
      rw [List.filter_cons_of_pos hy, List.filter_cons_of_pos hy, hzs]
    · rw [List.filter_cons_of_neg hy, hzs, List.filter_cons_of_neg hy]
  | @first x y xs ys zs hc hm ih =>
    have hzs := ih (List.pairwise_cons.1 hxs).2 hys
    by_cases hx : p x = true
    · rw [List.filter_cons_of_pos hx, hzs, List.filter_cons_of_pos hx, List.cons_append]
    · rw [List.filter_cons_of_neg hx, hzs, List.filter_cons_of_neg hx]

theorem sort_ok {l zs : List α} (h : sort cmp l = .ok zs) :
    (l.length < 2 ∧ zs = l) ∨
      ∃ xs ys, 2 ≤ l.length ∧ sort cmp (l.take (l.length / 2)) = .ok xs ∧
        sort cmp (l.drop (l.length / 2)) = .ok ys ∧ merge cmp xs ys = .ok zs := by
  rw [sort] at h
  split at h
  · rename_i hl
    cases h
    exact .inl ⟨hl, rfl⟩
  · rename_i hl
    right
    cases hx : sort cmp (l.take (l.length / 2)) with
    | error e =>
      rw [hx] at h
      cases h
    | ok xs =>
      rw [hx] at h
      change (sort cmp (l.drop (l.length / 2))).bind (merge cmp xs) = .ok zs at h
      cases hy : sort cmp (l.drop (l.length / 2)) with
      | error e =>
        rw [hy] at h
        cases h
      | ok ys =>
        rw [hy] at h
        exact ⟨xs, ys, by omega, rfl, rfl, h⟩

/-- The sorts that end without an error. -/
inductive Sorts (cmp : α → α → Except ε Bool) : List α → List α → Prop
  | short {l : List α} : l.length < 2 → Sorts cmp l l
  | halves {l₁ l₂ xs ys zs : List α} : Sorts cmp l₁ xs → Sorts cmp l₂ ys → Merges cmp xs ys zs →
      Sorts cmp (l₁ ++ l₂) zs

theorem sorts_of_sort {l zs : List α} (h : sort cmp l = .ok zs) : Sorts cmp l zs := by
  induction hn : l.length using Nat.strongRecOn generalizing l zs with
  | ind n ih =>
    obtain ⟨hl, rfl⟩ | ⟨xs, ys, hl, hx, hy, hm⟩ := sort_ok h
    · exact .short hl
    · have h1 := ih _ (by rw [List.length_take]; omega) hx rfl
      have h2 := ih _ (by rw [List.length_drop]; omega) hy rfl
      rw [← List.take_append_drop (l.length / 2) l]
      exact .halves h1 h2 (merges_of_merge hm)

theorem Sorts.perm {l zs : List α} (h : Sorts cmp l zs) : zs.Perm l := by
  induction h with
  | short _ => exact List.Perm.refl _
  | halves _ _ hm ih1 ih2 => exact hm.perm.trans (ih1.append ih2)

theorem sort_perm {l zs : List α} (h : sort cmp l = .ok zs) : zs.Perm l := (sorts_of_sort h).perm

theorem pairwise_of_length_lt_two {R : α → α → Prop} {l : List α} (h : l.length < 2) :
    l.Pairwise R := by
  cases l with
  | nil => exact List.Pairwise.nil
  | cons a l =>
    cases l with
    | nil => exact List.pairwise_singleton R a
    | cons b l => exact absurd h (by simp)

theorem Sorts.pairwise (ho : Orders cmp) {l zs : List α} (h : Sorts cmp l zs) :
    zs.Pairwise (Before cmp) := by
  induction h with
  | short hl => exact pairwise_of_length_lt_two hl
  | halves _ _ hm ih1 ih2 => exact hm.pairwise ho ih1 ih2

theorem sort_pairwise (ho : Orders cmp) {l zs : List α} (h : sort cmp l = .ok zs) :
    zs.Pairwise (Before cmp) :=
  (sorts_of_sort h).pairwise ho

theorem Sorts.filter (ho : Orders cmp) {p : α → Bool} (hp : Ties cmp p) {l zs : List α}
    (h : Sorts cmp l zs) : zs.filter p = l.filter p := by
  induction h with
  | short hl => rfl
  | halves h1 h2 hm ih1 ih2 =>
    rw [hm.filter ho hp (h1.pairwise ho) (h2.pairwise ho), ih1, ih2, List.filter_append]

theorem filter_sort (ho : Orders cmp) {p : α → Bool} (hp : Ties cmp p) {l zs : List α}
    (h : sort cmp l = .ok zs) : zs.filter p = l.filter p :=
  (sorts_of_sort h).filter ho hp

/-- The two can be compared, whichever comes first. -/
def Comparable (cmp : α → α → Except ε Bool) (a b : α) : Prop :=
  (∃ r, cmp a b = .ok r) ∧ ∃ r, cmp b a = .ok r

theorem merge_isOk {xs ys : List α} (h : ∀ x ∈ xs, ∀ y ∈ ys, Comparable cmp x y) :
    ∃ zs, merge cmp xs ys = .ok zs := by
  induction xs, ys using merge.induct with
  | case1 ys => exact ⟨ys, merge_nil_left ys⟩
  | case2 x xs => exact ⟨x :: xs, merge_nil_right _⟩
  | case3 x xs y ys ih1 ih2 =>
    obtain ⟨zs, hz⟩ := ih1 fun a ha b hb => h a ha b (List.mem_cons_of_mem y hb)
    obtain ⟨zs', hz'⟩ := ih2 fun a ha b hb => h a (List.mem_cons_of_mem x ha) b hb
    obtain ⟨r, hr⟩ := (h x List.mem_cons_self y List.mem_cons_self).1
    rw [merge, hr]
    cases r with
    | true => exact ⟨y :: zs, by rw [Except.bind, hz]; rfl⟩
    | false => exact ⟨x :: zs', by rw [Except.bind, hz']; rfl⟩

theorem sort_isOk {l : List α} (h : l.Pairwise (Comparable cmp)) : ∃ zs, sort cmp l = .ok zs := by
  induction l using sort.induct with
  | case1 l hl => exact ⟨l, by rw [sort, if_pos hl]⟩
  | case2 l hl ih1 ih2 =>
    rw [← List.take_append_drop (l.length / 2) l, List.pairwise_append] at h
    obtain ⟨xs, hx⟩ := ih1 h.1
    obtain ⟨ys, hy⟩ := ih2 h.2.1
    obtain ⟨zs, hz⟩ := @merge_isOk _ _ cmp _ _ fun a ha b hb =>
      h.2.2 a ((sort_perm hx).subset ha) b ((sort_perm hy).subset hb)
    exact ⟨zs, by rw [sort, if_neg hl, hx, Except.bind, hy, Except.bind, hz]⟩

end MergeSort
