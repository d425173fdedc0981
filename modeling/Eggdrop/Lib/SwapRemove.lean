import Mathlib.Data.List.Perm.Basic
import Mathlib.Data.List.Basic

/-!
# SwapRemove — removing elements of a vector by the last one

An element is removed by putting the last one of the vector in its place.  A sweep goes through the
vector from its end and removes the elements that are dead.

* `removeFast`: one element is removed; `removeFast_perm`, `getElem?_removeFast`: the others are all
  left, each where it was or nearer to the front.
* `sweep_perm`: what is left are the others, in some order.
* `filter_sweep`: where at most one of the others behind a dead element is looked for, they are found
  in the order they had.
* `compact_perm`, `getElem?_compact`: the loop from the front leaves the same elements, and those that
  are within their number where they were.
-/

namespace SwapRemove

variable {α : Type*} {dead p : α → Bool}

/-- Remove the element at an index: the last one takes its place. -/
def removeFast (l : List α) (i : ℕ) : List α :=
  match l.getLast? with
  | none => []
  | some x => (l.set i x).dropLast

theorem removeFast_concat (l : List α) (x : α) (i : ℕ) :
    removeFast (l ++ [x]) i = if i < l.length then l.set i x else l := by
  rw [removeFast, List.getLast?_concat]
  show ((l ++ [x]).set i x).dropLast = _
  split
  · next hi => rw [List.set_append_left _ _ hi, List.dropLast_concat]
  · next hi =>
    rw [List.set_append_right _ _ (by omega)]
    have hone : ([x].set (i - l.length) x) = [x] := by
      rcases i - l.length with _ | n <;> rfl
    rw [hone, List.dropLast_concat]

theorem removeFast_perm {l : List α} {i : ℕ} {x : α} (h : l[i]? = some x) :
    (x :: removeFast l i).Perm l := by
  rcases List.eq_nil_or_concat l with rfl | ⟨l', y, rfl⟩
  · simp at h
  rw [List.concat_eq_append] at h ⊢
  rw [removeFast_concat]
  split
  · next hi =>
    rw [List.getElem?_append_left hi] at h
    obtain ⟨_, rfl⟩ := List.getElem?_eq_some_iff.1 h
    calc (l'[i] :: l'.set i y)
      List.Perm _ (l'[i] :: y :: l'.eraseIdx i) := (List.set_perm_cons_eraseIdx hi y).cons _
      List.Perm _ (y :: l'[i] :: l'.eraseIdx i) := .swap _ _ _
      List.Perm _ (y :: l') := (List.getElem_cons_eraseIdx_perm hi).cons y
      List.Perm _ (l' ++ [y]) := (List.perm_append_singleton y l').symm
  · next hi =>
    have hlt := (List.getElem?_eq_some_iff.1 h).1
    rw [List.length_append, List.length_singleton] at hlt
    obtain rfl : i = l'.length := by omega
    obtain rfl : y = x := by simpa using h
    exact (List.perm_append_singleton y l').symm

theorem getElem?_removeFast {l : List α} {i k : ℕ} {x : α} (hi : i < l.length) (hk : k ≠ i)
    (h : l[k]? = some x) : ∃ k' ≤ k, (removeFast l i)[k']? = some x := by
  rcases List.eq_nil_or_concat l with rfl | ⟨l', y, rfl⟩
  · simp at h
  rw [List.concat_eq_append] at h hi ⊢
  rw [List.length_append, List.length_singleton] at hi
  rw [removeFast_concat]
  have hlt := (List.getElem?_eq_some_iff.1 h).1
  rw [List.length_append, List.length_singleton] at hlt
  by_cases hlast : k = l'.length
  · obtain rfl : y = x := by simpa [hlast] using h
    rw [if_pos (by omega)]
    exact ⟨i, by omega, List.getElem?_set_self (by omega)⟩
  · rw [List.getElem?_append_left (by omega)] at h
    refine ⟨k, Nat.le_refl k, ?_⟩
    split
    · rw [List.getElem?_set_ne (by omega), h]
    · exact h

/-- The elements behind the one that is removed, once the last of them is in its place. -/
def pull (l : List α) : List α :=
  match l.getLast? with
  | none => []
  | some x => x :: l.dropLast

/-- The loop from the end; at each element those behind it are done. -/
def sweep (dead : α → Bool) : List α → List α
  | [] => []
  | x :: l => if dead x then pull (sweep dead l) else x :: sweep dead l

theorem pull_perm (l : List α) : (pull l).Perm l := by
  rcases List.eq_nil_or_concat l with rfl | ⟨l', x, rfl⟩
  · exact .refl _
  · rw [pull, List.concat_eq_append, List.getLast?_concat, List.dropLast_concat]
    exact (List.perm_append_singleton x l').symm

theorem sweep_perm (dead : α → Bool) (l : List α) :
    (sweep dead l).Perm (l.filter fun x => !dead x) := by
  induction l with
  | nil => exact .refl _
  | cons x l ih =>
    rw [sweep]
    by_cases hx : dead x
    · rw [if_pos hx, List.filter_cons_of_neg (by simp [hx])]
      exact (pull_perm _).trans ih
    · rw [if_neg hx, List.filter_cons_of_pos (by simp [hx])]
      exact ih.cons x

theorem mem_sweep {l : List α} {x : α} : x ∈ sweep dead l ↔ x ∈ l ∧ dead x = false := by
  rw [(sweep_perm dead l).mem_iff, List.mem_filter, Bool.not_eq_true']

theorem eq_of_perm_of_length_le_one {l l' : List α} (h : l.Perm l') (hl : l'.length ≤ 1) :
    l = l' := by
  rcases l' with _ | ⟨x, _ | ⟨y, t⟩⟩
  · exact h.eq_nil
  · exact List.perm_singleton.1 h
  · simp at hl

/-- Behind each dead element `p` holds of at most one that is not. -/
def Calm (dead p : α → Bool) : List α → Prop
  | [] => True
  | x :: l => (dead x = true → (l.filter fun y => !dead y && p y).length ≤ 1) ∧ Calm dead p l

instance decidableCalm : ∀ l : List α, Decidable (Calm dead p l)
  | [] => isTrue trivial
  | x :: l =>
    have := decidableCalm l
    inferInstanceAs (Decidable
      ((dead x = true → (l.filter fun y => !dead y && p y).length ≤ 1) ∧ Calm dead p l))

theorem Calm.of_all {l : List α} (h : (l.filter fun y => !dead y && p y).length ≤ 1) :
    Calm dead p l := by
  induction l with
  | nil => trivial
  | cons x l ih =>
    have hl : (l.filter fun y => !dead y && p y).length ≤ 1 :=
      Nat.le_trans ((List.sublist_cons_self x l).filter _).length_le h
    exact ⟨fun _ => hl, ih hl⟩

theorem calm_map {β : Type*} {f : β → α} {l : List β} :
    Calm dead p (l.map f) ↔ Calm (dead ∘ f) (p ∘ f) l := by
  induction l with
  | nil => exact Iff.rfl
  | cons x l ih =>
    rw [List.map_cons, Calm, Calm, ih, List.filter_map, List.length_map]
    rfl

theorem filter_sweep {l : List α} (h : Calm dead p l) :
    (sweep dead l).filter p = l.filter fun x => !dead x && p x := by
  induction l with
  | nil => rfl
  | cons x l ih =>
    have ihl := ih h.2
    rw [sweep]
    by_cases hx : dead x
    · rw [if_pos hx, List.filter_cons_of_neg (by simp [hx]), ← ihl]
      refine eq_of_perm_of_length_le_one ((pull_perm _).filter p) ?_
      rw [ihl]
      exact h.1 hx
    · rw [if_neg hx]
      by_cases hp : p x
      · rw [List.filter_cons_of_pos hp, List.filter_cons_of_pos (by simp [hx, hp]), ihl]
      · rw [List.filter_cons_of_neg hp, List.filter_cons_of_neg (by simp [hp]), ihl]

/-- The loop from the front: the last element takes the place of a dead one, and is looked at next. -/
def compactFrom (dead : α → Bool) : ℕ → List α → List α
  | 0, _ => []
  | _ + 1, [] => []
  | n + 1, x :: l => if dead x then compactFrom dead n (pull l) else x :: compactFrom dead n l

/-- One turn for each element there is. -/
def compact (dead : α → Bool) (l : List α) : List α := compactFrom dead l.length l

theorem compactFrom_perm (dead : α → Bool) {n : ℕ} {l : List α} (hn : l.length = n) :
    (compactFrom dead n l).Perm (l.filter fun x => !dead x) := by
  induction n generalizing l with
  | zero =>
    obtain rfl := List.length_eq_zero_iff.1 hn
    exact .refl _
  | succ n ih =>
    obtain ⟨x, l, rfl⟩ := List.exists_cons_of_length_eq_add_one hn
    have hlen : l.length = n := Nat.succ.inj hn
    rw [compactFrom]
    by_cases hx : dead x
    · rw [if_pos hx, List.filter_cons_of_neg (by simp [hx])]
      exact (ih ((pull_perm l).length_eq.trans hlen)).trans ((pull_perm l).filter _)
    · rw [if_neg hx, List.filter_cons_of_pos (by simp [hx])]
      exact (ih hlen).cons x

theorem compact_perm (dead : α → Bool) (l : List α) :
    (compact dead l).Perm (l.filter fun x => !dead x) :=
  compactFrom_perm dead rfl

theorem getElem?_compactFrom {n k : ℕ} {l : List α} {x : α} (hn : l.length = n)
    (hk : k < (l.filter fun x => !dead x).length) (hx : l[k]? = some x) (hlive : dead x = false) :
    (compactFrom dead n l)[k]? = some x := by
  induction n generalizing l k with
  | zero =>
    obtain rfl := List.length_eq_zero_iff.1 hn
    simp at hx
  | succ n ih =>
    obtain ⟨y, l, rfl⟩ := List.exists_cons_of_length_eq_add_one hn
    have hlen : l.length = n := Nat.succ.inj hn
    rw [compactFrom]
    by_cases hy : dead y
    · rw [if_pos hy]
      rw [List.filter_cons_of_neg (by simp [hy])] at hk
      have hle := List.length_filter_le (fun x => !dead x) l
      -- the last element is not the one looked for, which is within the number of those that are left
      rcases List.eq_nil_or_concat l with rfl | ⟨t, z, rfl⟩
      · simp at hk
      rw [List.concat_eq_append] at hk hx hlen hle ⊢
      rw [List.length_append, List.length_singleton] at hle hlen
      have hpull : pull (t ++ [z]) = z :: t := by
        rw [pull, List.getLast?_concat, List.dropLast_concat]
      cases k with
      | zero =>
        rw [List.getElem?_cons_zero] at hx
        obtain rfl := Option.some.inj hx
        rw [hlive] at hy
        cases hy
      | succ k =>
        rw [List.getElem?_cons_succ, List.getElem?_append_left (by omega)] at hx
        rw [hpull]
        have hperm : (z :: t).Perm (t ++ [z]) := (List.perm_append_singleton z t).symm
        refine ih (by rw [List.length_cons, hlen]) ?_ (by rw [List.getElem?_cons_succ, hx])
        rw [(hperm.filter _).length_eq]
        exact hk
    · rw [if_neg hy]
      cases k with
      | zero => exact hx
      | succ k =>
        rw [List.filter_cons_of_pos (by simp [hy]), List.length_cons] at hk
        exact ih hlen (by omega) hx

theorem getElem?_compact {k : ℕ} {l : List α} {x : α}
    (hk : k < (l.filter fun x => !dead x).length) (hx : l[k]? = some x) (hlive : dead x = false) :
    (compact dead l)[k]? = some x :=
  getElem?_compactFrom rfl hk hx hlive

theorem pairwise_compact {R : α → α → Prop} (hsymm : ∀ {x y}, R x y → R y x) {l : List α}
    (h : l.Pairwise R) : (compact dead l).Pairwise R :=
  ((compact_perm dead l).pairwise_iff hsymm).2 (h.sublist List.filter_sublist)

end SwapRemove
