import Mathlib.Data.List.Basic
import Mathlib.Data.List.Nodup

/-!
# ListEdit — changing one element of a list

Tables that are searched from one end and changed in place: the first element that matches is
changed, the last one is removed, or the one at an index is changed.

* `forall_mem_modifyFirst_iff`, `forall_mem_modify`: when all elements keep a property.
* `modifyFirst_eq_map`: where at most one element matches.
* `eraseLast_sublist`, `not_of_mem_eraseLast`: where at most one element matches, none is left.
* `editFirst`: the first element that matches is replaced by others, or by none.
* `eq_of_pairwise`: where no two elements are related, related ones are the same.
* `find?_key`, `findIdx?_key`: where no two elements share a key, a search for one finds it.
-/

namespace ListEdit

variable {α : Type*} {p : α → Bool} {f : α → α} {Q : α → Prop}

/-- Change the first element that `p` holds of. -/
@[grind =] def modifyFirst (p : α → Bool) (f : α → α) : List α → List α
  | [] => []
  | x :: xs => if p x then f x :: xs else x :: modifyFirst p f xs

/-- Remove the last element that `p` holds of. -/
def eraseLast (p : α → Bool) (l : List α) : List α := (l.reverse.eraseP p).reverse

theorem forall_mem_modifyFirst_iff :
    ∀ {l : List α}, (∀ x ∈ l, Q x) →
      ((∀ x ∈ modifyFirst p f l, Q x) ↔ ∀ x, l.find? p = some x → Q (f x))
  | [], _ => by simp [modifyFirst]
  | x :: xs, h => by
    rw [modifyFirst]
    by_cases hp : p x
    · rw [if_pos hp, List.find?_cons_of_pos hp]
      simp only [List.forall_mem_cons] at h ⊢
      simp only [Option.some.injEq, forall_eq']
      exact ⟨fun hx => hx.1, fun hx => ⟨hx, h.2⟩⟩
    · rw [if_neg hp, List.find?_cons_of_neg hp]
      simp only [List.forall_mem_cons] at h ⊢
      rw [forall_mem_modifyFirst_iff h.2]
      exact ⟨fun hx => hx.2, fun hx => ⟨h.1, hx⟩⟩

theorem mem_modifyFirst_of_find {l : List α} {x : α} (h : l.find? p = some x) :
    f x ∈ modifyFirst p f l := by
  induction l with
  | nil => simp at h
  | cons y l ih =>
    rw [modifyFirst]
    by_cases hp : p y = true
    · rw [List.find?_cons_of_pos hp] at h
      rw [if_pos hp, Option.some.inj h]
      exact List.mem_cons_self
    · rw [List.find?_cons_of_neg hp] at h
      rw [if_neg hp]
      exact List.mem_cons_of_mem _ (ih h)

theorem exists_mem_modifyFirst (hf : ∀ x, Q x → Q (f x)) {l : List α} (h : ∃ x ∈ l, Q x) :
    ∃ x ∈ modifyFirst p f l, Q x := by
  obtain ⟨x, hx, hq⟩ := h
  induction l with
  | nil => exact absurd hx List.not_mem_nil
  | cons y l ih =>
    rw [modifyFirst]
    rcases List.mem_cons.1 hx with rfl | hx
    · by_cases hp : p x = true
      · rw [if_pos hp]
        exact ⟨f x, List.mem_cons_self, hf x hq⟩
      · rw [if_neg hp]
        exact ⟨x, List.mem_cons_self, hq⟩
    · by_cases hp : p y = true
      · rw [if_pos hp]
        exact ⟨x, List.mem_cons_of_mem _ hx, hq⟩
      · rw [if_neg hp]
        obtain ⟨z, hz, hqz⟩ := ih hx
        exact ⟨z, List.mem_cons_of_mem _ hz, hqz⟩

theorem forall_mem_modify (hf : ∀ x, Q x → Q (f x)) {l : List α} (h : ∀ x ∈ l, Q x) (i : Nat) :
    ∀ x ∈ l.modify i f, Q x := by
  intro x hx
  obtain ⟨j, hj, rfl⟩ := List.mem_iff_getElem.1 hx
  rw [List.getElem_modify]
  rw [List.length_modify] at hj
  split
  · exact hf _ (h _ (List.getElem_mem hj))
  · exact h _ (List.getElem_mem hj)

theorem modifyFirst_eq_map {l : List α} (h : l.Pairwise fun a b => ¬ (p a ∧ p b)) :
    modifyFirst p f l = l.map fun x => if p x then f x else x := by
  induction l with
  | nil => rfl
  | cons a l ih =>
    rw [List.pairwise_cons] at h
    rw [modifyFirst, List.map_cons]
    by_cases ha : p a
    · rw [if_pos ha, if_pos ha]
      congr 1
      refine (List.map_id l).symm.trans (List.map_congr_left fun x hx => ?_)
      rw [if_neg fun hp => h.1 x hx ⟨ha, hp⟩, id_eq]
    · rw [if_neg ha, if_neg ha, ih h.2]

theorem map_modifyFirst {β : Type*} {k : α → β} (hk : ∀ x, k (f x) = k x) (l : List α) :
    (modifyFirst p f l).map k = l.map k := by
  induction l with
  | nil => rfl
  | cons x xs ih =>
    rw [modifyFirst]
    split
    · rw [List.map_cons, List.map_cons, hk]
    · rw [List.map_cons, List.map_cons, ih]

theorem eraseLast_sublist (p : α → Bool) (l : List α) : (eraseLast p l).Sublist l := by
  have h := (List.eraseP_sublist (p := p) (l := l.reverse)).reverse
  rwa [List.reverse_reverse] at h

theorem not_of_mem_eraseP {l : List α} (h : l.Pairwise fun a b => ¬ (p a ∧ p b)) :
    ∀ x ∈ l.eraseP p, ¬ p x := by
  induction l with
  | nil => simp
  | cons a l ih =>
    intro x hx
    rw [List.pairwise_cons] at h
    by_cases ha : p a
    · rw [List.eraseP_cons_of_pos ha] at hx
      exact fun hp => h.1 x hx ⟨ha, hp⟩
    · rw [List.eraseP_cons_of_neg ha] at hx
      rcases List.mem_cons.1 hx with rfl | hx
      · exact ha
      · exact ih h.2 x hx

theorem not_of_mem_eraseLast {l : List α} (h : l.Pairwise fun a b => ¬ (p a ∧ p b)) :
    ∀ x ∈ eraseLast p l, ¬ p x := by
  intro x hx
  refine not_of_mem_eraseP (l := l.reverse) ?_ x (List.mem_reverse.1 hx)
  rw [List.pairwise_reverse]
  exact h.imp fun hab hba => hab hba.symm

/-! ### Replacing an element -/

/-- The first element that `p` holds of is replaced by the elements of `g`. -/
@[grind =] def editFirst (p : α → Bool) (g : α → List α) : List α → List α
  | [] => []
  | x :: xs => if p x then g x ++ xs else x :: editFirst p g xs

section EditFirst

variable {g : α → List α} {q : α → Bool} {l l' : List α}

theorem editFirst_eq_self (h : ∀ x ∈ l, p x = false) : editFirst p g l = l := by
  induction l with
  | nil => rfl
  | cons x l ih =>
    obtain ⟨hx, hl⟩ := List.forall_mem_cons.1 h
    rw [editFirst, if_neg (by simp [hx]), ih hl]

theorem editFirst_append_of_neg (h : ∀ x ∈ l, p x = false) :
    editFirst p g (l ++ l') = l ++ editFirst p g l' := by
  induction l with
  | nil => rfl
  | cons x l ih =>
    obtain ⟨hx, hl⟩ := List.forall_mem_cons.1 h
    rw [List.cons_append, editFirst, if_neg (by simp [hx]), ih hl, List.cons_append]

theorem editFirst_append_right (h : ∀ x ∈ l', p x = false) :
    editFirst p g (l ++ l') = editFirst p g l ++ l' := by
  induction l with
  | nil => exact editFirst_eq_self h
  | cons x l ih =>
    rw [List.cons_append, editFirst, editFirst]
    by_cases hx : p x
    · rw [if_pos hx, if_pos hx, List.append_assoc]
    · rw [if_neg hx, if_neg hx, ih, List.cons_append]

theorem filter_editFirst_of_pos (h : ∀ x ∈ l, p x = true → q x = true ∧ ∀ y ∈ g x, q y = true) :
    (editFirst p g l).filter q = editFirst p g (l.filter q) := by
  induction l with
  | nil => rfl
  | cons x l ih =>
    obtain ⟨hx, hl⟩ := List.forall_mem_cons.1 h
    rw [editFirst]
    by_cases hp : p x
    · obtain ⟨hq, hg⟩ := hx hp
      rw [if_pos hp, List.filter_cons_of_pos hq, editFirst, if_pos hp, List.filter_append,
        List.filter_eq_self.2 hg]
    · rw [if_neg hp]
      by_cases hq : q x
      · rw [List.filter_cons_of_pos hq, List.filter_cons_of_pos hq, editFirst, if_neg hp, ih hl]
      · rw [List.filter_cons_of_neg hq, List.filter_cons_of_neg hq, ih hl]

theorem filter_editFirst_of_neg
    (h : ∀ x ∈ l, p x = true → q x = false ∧ ∀ y ∈ g x, q y = false) :
    (editFirst p g l).filter q = l.filter q := by
  induction l with
  | nil => rfl
  | cons x l ih =>
    obtain ⟨hx, hl⟩ := List.forall_mem_cons.1 h
    rw [editFirst]
    by_cases hp : p x
    · obtain ⟨hq, hg⟩ := hx hp
      have hnone : (g x).filter q = [] := List.filter_eq_nil_iff.2 fun y hy => by simp [hg y hy]
      rw [if_pos hp, List.filter_append, hnone, List.filter_cons_of_neg (by simp [hq]),
        List.nil_append]
    · rw [if_neg hp]
      by_cases hq : q x
      · rw [List.filter_cons_of_pos hq, List.filter_cons_of_pos hq, ih hl]
      · rw [List.filter_cons_of_neg hq, List.filter_cons_of_neg hq, ih hl]

theorem map_editFirst {β : Type*} {k : α → β} {p' : β → Bool} {g' : β → List β}
    (hp : ∀ x, p x = p' (k x)) (hg : ∀ x, (g x).map k = g' (k x)) (l : List α) :
    (editFirst p g l).map k = editFirst p' g' (l.map k) := by
  induction l with
  | nil => rfl
  | cons x l ih =>
    rw [List.map_cons, editFirst, editFirst, hp x]
    by_cases hx : p' (k x)
    · rw [if_pos hx, if_pos hx, List.map_append, hg]
    · rw [if_neg hx, if_neg hx, List.map_cons, ih]

theorem editFirst_congr (h : ∀ x ∈ l, p x = q x) : editFirst p g l = editFirst q g l := by
  induction l with
  | nil => rfl
  | cons x l ih =>
    obtain ⟨hx, hl⟩ := List.forall_mem_cons.1 h
    rw [editFirst, editFirst, hx, ih hl]

theorem editFirst_nil : editFirst p (fun _ => []) l = l.eraseP p := by
  induction l with
  | nil => rfl
  | cons x l ih =>
    rw [editFirst, List.eraseP_cons]
    by_cases hx : p x
    · rw [if_pos hx, hx, cond_true, List.nil_append]
    · rw [if_neg hx, Bool.eq_false_iff.2 hx, cond_false, ih]

theorem map_editFirst_sublist {β : Type*} {k : α → β} (h : ∀ x, ((g x).map k).Sublist [k x])
    (l : List α) : ((editFirst p g l).map k).Sublist (l.map k) := by
  induction l with
  | nil => exact List.Sublist.refl _
  | cons x l ih =>
    rw [editFirst]
    by_cases hx : p x
    · rw [if_pos hx, List.map_append]
      exact (h x).append (List.Sublist.refl _)
    · rw [if_neg hx, List.map_cons, List.map_cons]
      exact ih.cons_cons _

theorem mem_editFirst {y : α} (h : y ∈ editFirst p g l) :
    y ∈ l ∨ ∃ x ∈ l, p x = true ∧ y ∈ g x := by
  induction l with
  | nil => cases h
  | cons x l ih =>
    rw [editFirst] at h
    by_cases hx : p x
    · rw [if_pos hx] at h
      rcases List.mem_append.1 h with h | h
      · exact .inr ⟨x, List.mem_cons_self, hx, h⟩
      · exact .inl (List.mem_cons_of_mem x h)
    · rw [if_neg hx] at h
      rcases List.mem_cons.1 h with rfl | h
      · exact .inl List.mem_cons_self
      · rcases ih h with h | ⟨z, hz, hp, hy⟩
        · exact .inl (List.mem_cons_of_mem x h)
        · exact .inr ⟨z, List.mem_cons_of_mem x hz, hp, hy⟩

end EditFirst

theorem eq_of_pairwise {r : α → α → Bool} (hsymm : ∀ a b, r a b = r b a) {l : List α}
    (h : l.Pairwise fun a b => r a b = false) {a b : α} (ha : a ∈ l) (hb : b ∈ l)
    (hab : r a b = true) : a = b := by
  induction l with
  | nil => cases ha
  | cons x l ih =>
    rw [List.pairwise_cons] at h
    rcases List.mem_cons.1 ha with hax | hal <;> rcases List.mem_cons.1 hb with hbx | hbl
    · exact hax.trans hbx.symm
    · rw [hax, h.1 b hbl] at hab
      cases hab
    · rw [hbx, hsymm, h.1 a hal] at hab
      cases hab
    · exact ih h.2 hal hbl

theorem length_filter_key_le_one {β : Type*} [DecidableEq β] {k : α → β} {l : List α}
    (h : (l.map k).Nodup) (y : β) : (l.filter fun x => decide (k x = y)).length ≤ 1 := by
  have hnd := h.sublist ((List.filter_sublist (p := fun x => decide (k x = y))).map k)
  have hall : ∀ z ∈ (l.filter fun x => decide (k x = y)).map k, z = y := by
    intro z hz
    obtain ⟨x, hx, rfl⟩ := List.mem_map.1 hz
    exact of_decide_eq_true (List.mem_filter.1 hx).2
  rw [List.eq_replicate_of_mem hall, List.length_map] at hnd
  exact List.nodup_replicate.1 hnd

theorem map_set_of_eq {β : Type*} {f : α → β} {l : List α} {i : ℕ} {x y : α} (h : l[i]? = some x)
    (hf : f y = f x) : (l.set i y).map f = l.map f := by
  obtain ⟨hi, rfl⟩ := List.getElem?_eq_some_iff.1 h
  rw [List.map_set, hf, ← List.getElem_map f (h := by rwa [List.length_map]), List.set_getElem_self]

section Keys

variable {β : Type*} [BEq β] [LawfulBEq β] {key : α → β} {l : List α} {x : α}

theorem find?_key (h : (l.map key).Nodup) (hx : x ∈ l) :
    l.find? (fun y => key y == key x) = some x := by
  induction l with
  | nil => exact absurd hx List.not_mem_nil
  | cons y l ih =>
    rw [List.map_cons, List.nodup_cons] at h
    rcases List.mem_cons.1 hx with rfl | hx
    · exact List.find?_cons_of_pos (beq_self_eq_true _)
    · rw [List.find?_cons_of_neg, ih h.2 hx]
      intro hkey
      exact h.1 (eq_of_beq hkey ▸ List.mem_map_of_mem hx)

theorem findIdx?_key (h : (l.map key).Nodup) (hx : x ∈ l) :
    ∃ i, l.findIdx? (fun y => key y == key x) = some i ∧ l[i]? = some x := by
  induction l with
  | nil => exact absurd hx List.not_mem_nil
  | cons y l ih =>
    rw [List.map_cons, List.nodup_cons] at h
    rw [List.findIdx?_cons]
    rcases List.mem_cons.1 hx with rfl | hx
    · exact ⟨0, if_pos (beq_self_eq_true _), rfl⟩
    · obtain ⟨i, hi, hget⟩ := ih h.2 hx
      have hkey : ¬ (key y == key x) = true := fun hkey =>
        h.1 (eq_of_beq hkey ▸ List.mem_map_of_mem hx)
      rw [if_neg hkey, hi]
      exact ⟨i + 1, rfl, hget⟩

end Keys

end ListEdit
