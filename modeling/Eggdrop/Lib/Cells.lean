import Mathlib.Data.List.Basic
import Eggdrop.Lib.Ensures

/-!
# Cells — loops over an array by index

`for (i = 0; i < n; i++)` over an array, with a visit for each cell that may change the cell and a
value beside it, and may stop the loop.  The bound need not be the length of the array: a loop that
comes to an index behind the last cell ends in a fault.

* `loop_eq`: what a loop does, as a pass over the first `n` cells.
* `loop_eq_ok`, `loop_length`: a loop in bounds does not fault, and the array keeps its length.
-/

open List

namespace Cells

variable {γ α φ : Type*}

section Defs

variable (fault : φ) (visit : γ → α → γ × α × Bool)

/-- `k` cells from index `i` on.  The flag of a visit says whether to go on. -/
def loopFrom : ℕ → ℕ → List γ → α → Except φ (List γ × α)
  | 0, _, cells, a => .ok (cells, a)
  | k + 1, i, cells, a =>
    match cells[i]? with
    | none => .error fault
    | some c =>
      let v := visit c a
      if v.2.2 then loopFrom k (i + 1) (cells.set i v.1) v.2.1 else .ok (cells.set i v.1, v.2.1)

/-- `for (i = 0; i < n; i++)`. -/
def loop (n : ℕ) (cells : List γ) (a : α) : Except φ (List γ × α) :=
  loopFrom fault visit n 0 cells a

/-- The same for all the cells of a list, with whether the end was reached. -/
def pass : List γ → α → List γ × α × Bool
  | [], a => ([], a, true)
  | c :: cells, a =>
    let v := visit c a
    if v.2.2 then (v.1 :: (pass cells v.2.1).1, (pass cells v.2.1).2)
    else (v.1 :: cells, v.2.1, false)

end Defs

variable {fault : φ} {visit : γ → α → γ × α × Bool}

theorem length_pass (cells : List γ) (a : α) : (pass visit cells a).1.length = cells.length := by
  induction cells generalizing a with
  | nil => rfl
  | cons c cells ih =>
    rw [pass]
    split
    · rw [length_cons, ih, length_cons]
    · rfl

theorem loopFrom_append (k : ℕ) (x y : List γ) (a : α) :
    loopFrom fault visit k x.length (x ++ y) a =
      if (pass visit (y.take k) a).2.2 = true ∧ y.length < k then .error fault
      else .ok (x ++ (pass visit (y.take k) a).1 ++ y.drop k, (pass visit (y.take k) a).2.1) := by
  induction k generalizing x y a with
  | zero => simp [loopFrom, pass]
  | succ k ih =>
    rw [loopFrom]
    rcases y with _ | ⟨c, y⟩
    · simp [pass]
    · have hget : (x ++ c :: y)[x.length]? = some c := by simp
      have hset (d : γ) : (x ++ c :: y).set x.length d = x ++ [d] ++ y := by simp
      have hlen (d : γ) : (x ++ [d]).length = x.length + 1 := by simp
      rw [hget, take_succ_cons, drop_succ_cons, pass, length_cons]
      dsimp only
      rw [hset]
      by_cases hon : (visit c a).2.2 = true
      · rw [if_pos hon, if_pos hon, ← hlen (visit c a).1, ih]
        simp only [Nat.add_lt_add_iff_right, append_assoc, cons_append, nil_append]
      · rw [if_neg hon, if_neg hon, if_neg (by simp)]
        simp

theorem loop_eq (n : ℕ) (cells : List γ) (a : α) :
    loop fault visit n cells a =
      if (pass visit (cells.take n) a).2.2 = true ∧ cells.length < n then .error fault
      else .ok ((pass visit (cells.take n) a).1 ++ cells.drop n, (pass visit (cells.take n) a).2.1) :=
  loopFrom_append n [] cells a

theorem loop_eq_ok {n : ℕ} {cells : List γ} (hn : n ≤ cells.length) (a : α) :
    loop fault visit n cells a =
      .ok ((pass visit (cells.take n) a).1 ++ cells.drop n, (pass visit (cells.take n) a).2.1) := by
  rw [loop_eq, if_neg]
  exact fun h => absurd h.2 (Nat.not_lt.2 hn)

theorem loop_length (n : ℕ) (cells : List γ) (a : α) :
    Ensures (loop fault visit n cells a) fun r => r.1.length = cells.length := by
  rw [loop_eq]
  refine Ensures.ite (fun _ => Ensures.error) fun _ => Ensures.ok ?_
  rw [length_append, length_pass, length_take, length_drop]
  omega

end Cells
