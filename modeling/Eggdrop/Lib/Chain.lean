import Mathlib.Data.List.Basic
import Mathlib.Logic.Function.Basic

/-!
# Chain — linked lists in memory

Memory is the function `next` that gives the pointer in each cell, `none` being the null pointer.
`Chain next p l` says that the list at `p` has the cells `l` and comes to an end.

* `Chain.congr`, `Chain.write`: a chain does not see what is written outside of it.
* `Chain.cut`: a chain that is cut behind one of its cells falls into two.
* `Chain.after`: the cells behind one of them are a chain too.
-/

variable {α : Type*}

/-- The list at `p` has the cells `l`. -/
def Chain (next : α → Option α) : Option α → List α → Prop
  | p, [] => p = none
  | p, a :: l => p = some a ∧ Chain next (next a) l

namespace Chain

variable {next next' : α → Option α} {p : Option α} {a : α} {l l₁ l₂ : List α}

theorem eq_none_iff (h : Chain next p l) : p = none ↔ l = [] := by
  cases l with
  | nil => exact iff_of_true h rfl
  | cons a l =>
    rw [h.1]
    exact iff_of_false (Option.some_ne_none a) (List.cons_ne_nil a l)

theorem congr (h : Chain next p l) (hnext : ∀ a ∈ l, next' a = next a) : Chain next' p l := by
  induction l generalizing p with
  | nil => exact h
  | cons a l ih =>
    refine ⟨h.1, ?_⟩
    rw [hnext a List.mem_cons_self]
    exact ih h.2 fun b hb => hnext b (List.mem_cons_of_mem a hb)

theorem after (h : Chain next p (l₁ ++ a :: l₂)) : Chain next (next a) l₂ := by
  induction l₁ generalizing p with
  | nil => exact h.2
  | cons b l₁ ih => exact ih h.2

variable [DecidableEq α]

theorem write (h : Chain next p l) (ha : a ∉ l) (q : Option α) :
    Chain (Function.update next a q) p l := by
  refine h.congr fun b hb => Function.update_of_ne ?_ _ _
  rintro rfl
  exact ha hb

/-- `a->next = nullptr` in the middle of a list. -/
theorem cut (h : Chain next p (l₁ ++ a :: l₂)) (hn : (l₁ ++ a :: l₂).Nodup) :
    Chain (Function.update next a none) p (l₁ ++ [a]) ∧
      Chain (Function.update next a none) (next a) l₂ := by
  have hn' := List.nodup_append.1 hn
  constructor
  · have hleft : a ∉ l₁ := fun hm => hn'.2.2 a hm a List.mem_cons_self rfl
    clear hn hn'
    induction l₁ generalizing p with
    | nil =>
      refine ⟨h.1, ?_⟩
      rw [Function.update_self]
      rfl
    | cons b l₁ ih =>
      rw [List.mem_cons, not_or] at hleft
      refine ⟨h.1, ?_⟩
      rw [Function.update_of_ne (Ne.symm hleft.1)]
      exact ih h.2 hleft.2
  · exact h.after.write (List.nodup_cons.1 hn'.2.1).1 none

end Chain
