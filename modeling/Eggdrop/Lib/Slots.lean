import Mathlib.Data.List.Perm.Basic
import Mathlib.Data.List.Range
import Mathlib.Logic.Function.Basic

/-!
# Slots — what lies in an array of slots that may be empty

* `perm_update`, `perm_erase`, `perm_insert`: a slot is written.
* `exists_none`: where fewer things lie than there are slots, one is empty.
* `between_append`, `between_shift`: the things in a part of the array, in the order of the slots.
-/

namespace Slots

open Function List

variable {α : Type*}

/-- What lies in the slots from `i` on and before `j`, in order. -/
def between (slots : ℕ → Option α) (i j : ℕ) : List α := (range' i (j - i)).filterMap slots

/-- What lies in the first `n` slots. -/
def entries (n : ℕ) (slots : ℕ → Option α) : List α := between slots 0 n

variable {slots : ℕ → Option α} {i j k n : ℕ} {x : α}

theorem between_self (slots : ℕ → Option α) (i : ℕ) : between slots i i = [] := by
  rw [between, Nat.sub_self, range'_zero, filterMap_nil]

theorem between_append (hij : i ≤ j) (hjk : j ≤ k) :
    between slots i k = between slots i j ++ between slots j k := by
  have hlen : k - i = (j - i) + (k - j) := by omega
  have hstart : i + 1 * (j - i) = j := by omega
  rw [between, between, between, hlen, ← range'_append, hstart, filterMap_append]

theorem between_one (slots : ℕ → Option α) (i : ℕ) : between slots i (i + 1) = (slots i).toList := by
  rw [between, Nat.add_sub_cancel_left, range'_one]
  cases h : slots i with
  | none => rw [filterMap_cons_none h]; rfl
  | some x => rw [filterMap_cons_some h]; rfl

theorem between_cons (h : i < j) : between slots i j = (slots i).toList ++ between slots (i + 1) j := by
  rw [between_append (Nat.le_succ i) h, between_one]

theorem mem_between : x ∈ between slots i j ↔ ∃ q, i ≤ q ∧ q < j ∧ slots q = some x := by
  rw [between, mem_filterMap]
  constructor
  · rintro ⟨q, hq, hx⟩
    rw [mem_range'_1] at hq
    exact ⟨q, hq.1, by omega, hx⟩
  · rintro ⟨q, hi, hj, hx⟩
    exact ⟨q, mem_range'_1.2 ⟨hi, by omega⟩, hx⟩

theorem mem_entries : x ∈ entries n slots ↔ ∃ q < n, slots q = some x := by
  rw [entries, mem_between]
  constructor
  · rintro ⟨q, -, hq, hx⟩
    exact ⟨q, hq, hx⟩
  · rintro ⟨q, hq, hx⟩
    exact ⟨q, Nat.zero_le q, hq, hx⟩

theorem between_congr {slots' : ℕ → Option α} (h : ∀ q, i ≤ q → q < j → slots' q = slots q) :
    between slots' i j = between slots i j := by
  refine filterMap_congr fun q hq => ?_
  rw [mem_range'_1] at hq
  exact h q hq.1 (by omega)

theorem between_shift {slots' : ℕ → Option α} (h : ∀ q, i ≤ q → q < j → slots' q = slots (q + 1)) :
    between slots' i j = between slots (i + 1) (j + 1) := by
  have hrange : range' (i + 1) (j - i) = (range' i (j - i)).map (· + 1) := by
    rw [range'_eq_map_range, range'_eq_map_range, map_map]
    refine map_congr_left fun q _ => ?_
    show i + 1 + q = i + q + 1
    omega
  have hlen : j + 1 - (i + 1) = j - i := by omega
  rw [between, between, hlen, hrange, filterMap_map]
  refine filterMap_congr fun q hq => ?_
  rw [mem_range'_1] at hq
  exact h q hq.1 (by omega)

theorem perm_update (hi : i < n) (slots : ℕ → Option α) (o : Option α) :
    ((slots i).toList ++ entries n (update slots i o)).Perm (o.toList ++ entries n slots) := by
  have hsplit (f : ℕ → Option α) :
      entries n f = between f 0 i ++ ((f i).toList ++ between f (i + 1) n) := by
    rw [entries, between_append (Nat.zero_le i) hi.le, between_cons hi]
  have hbefore : between (update slots i o) 0 i = between slots 0 i :=
    between_congr fun q _ hq => update_of_ne (Nat.ne_of_lt hq) _ _
  have hbehind : between (update slots i o) (i + 1) n = between slots (i + 1) n :=
    between_congr fun q hq _ => update_of_ne (Nat.ne_of_gt hq) _ _
  rw [hsplit slots, hsplit (update slots i o), hbefore, hbehind, update_self]
  generalize between slots 0 i = a
  generalize between slots (i + 1) n = b
  generalize (slots i).toList = s
  calc s ++ (a ++ (o.toList ++ b))
      _ ~ s ++ (o.toList ++ (a ++ b)) := (perm_append_comm_assoc a o.toList b).append_left s
      _ ~ o.toList ++ (s ++ (a ++ b)) := perm_append_comm_assoc s o.toList (a ++ b)
      _ ~ o.toList ++ (a ++ (s ++ b)) := (perm_append_comm_assoc s a b).append_left o.toList

theorem perm_erase (hi : i < n) (hslot : slots i = some x) :
    (x :: entries n (update slots i none)).Perm (entries n slots) := by
  have hperm := perm_update hi slots none
  rw [hslot] at hperm
  exact hperm

theorem perm_insert (hi : i < n) (slots : ℕ → Option α) (x : α) :
    (x :: entries n (update slots i none)).Perm (entries n (update slots i (some x))) := by
  have hperm := perm_erase hi (update_self i (some x) slots)
  rwa [update_idem] at hperm

theorem length_entries (h : ∀ q < n, slots q ≠ none) : (entries n slots).length = n := by
  induction n with
  | zero => rw [entries, between_self, length_nil]
  | succ n ih =>
    rw [entries, between_append (Nat.zero_le n) (Nat.le_succ n), between_one, length_append, ← entries,
      ih fun q hq => h q (Nat.lt_succ_of_lt hq)]
    obtain ⟨x, hx⟩ := Option.ne_none_iff_exists'.1 (h n (Nat.lt_succ_self n))
    rw [hx]
    rfl

theorem exists_none (h : (entries n slots).length < n) : ∃ q < n, slots q = none := by
  by_contra hno
  refine absurd (length_entries fun q hq hnone => hno ⟨q, hq, hnone⟩) ?_
  omega

theorem entries_empty (n : ℕ) : entries n (fun _ => (none : Option α)) = [] := by
  rw [entries, between]
  exact filterMap_eq_nil_iff.2 fun _ _ => rfl

end Slots
