import Mathlib.Data.List.Infix
import Mathlib.Tactic.Common

/-!
# Substr — the first place at which a pattern stands in a list

`strstr s pat` is the part of `s` from the first `pat` on.

* `strstr_append`: a part at whose places the pattern does not stand is passed over.
* `strstr_append_of_notMem`, `strstr_append_of_last`: which is so for a part without the pattern's
  first element, and for one without the pattern whose last element is none of the pattern's.
-/

namespace Eggdrop

variable {α : Type*} [DecidableEq α]

@[grind =] def strstr : List α → List α → Option (List α)
  | [], pat => if pat = [] then some [] else none
  | c :: s, pat => if pat.isPrefixOf (c :: s) then some (c :: s) else strstr s pat

/-- What stands behind the first `pat`. -/
def behind (s pat : List α) : Option (List α) := (strstr s pat).map (·.drop pat.length)

theorem strstr_of_prefix {s pat : List α} (hs : s ≠ []) (h : pat <+: s) : strstr s pat = some s := by
  cases s with
  | nil => exact absurd rfl hs
  | cons c s => rw [strstr, if_pos ( List.isPrefixOf_iff_prefix.2 h)]

theorem strstr_append {a b pat : List α} (h : ∀ t, t ≠ [] → t <:+ a → ¬ pat <+: t ++ b) :
    strstr (a ++ b) pat = strstr b pat := by
  induction a with
  | nil => rfl
  | cons c a ih =>
    have hhead : ¬ pat.isPrefixOf (c :: (a ++ b)) := by
      rw [ List.isPrefixOf_iff_prefix]
      exact h (c :: a) (List.cons_ne_nil _ _) List.suffix_rfl
    rw [List.cons_append, strstr, if_neg hhead]
    exact ih fun t ht hsuf => h t ht (hsuf.trans (List.suffix_cons c a))

theorem strstr_append_of_notMem {a b pat : List α} {c : α} (h : c ∉ a) :
    strstr (a ++ b) (c :: pat) = strstr b (c :: pat) := by
  refine strstr_append fun t ht hsuf hpre => ?_
  obtain ⟨d, t, rfl⟩ := List.exists_cons_of_ne_nil ht
  rw [List.cons_append, List.cons_prefix_cons] at hpre
  exact h (hpre.1 ▸ hsuf.subset List.mem_cons_self)

/-- Where `a` ends in an element that the pattern has not, the pattern cannot reach beyond it. -/
theorem strstr_append_of_last {a b pat : List α} (hpat : ¬ pat <:+: a)
    (hlast : ∀ c ∈ a.getLast?, c ∉ pat) : strstr (a ++ b) pat = strstr b pat := by
  refine strstr_append fun t ht hsuf hpre => ?_
  by_cases hlen : pat.length < t.length
  · have : pat <+: t := List.prefix_of_prefix_length_le hpre (List.prefix_append t b) (by omega)
    exact hpat (this.isInfix.trans hsuf.isInfix)
  · -- the whole of `t` lies within the pattern, its last element too
    have hin : t <+: pat := List.prefix_of_prefix_length_le (List.prefix_append t b) hpre (by omega)
    obtain ⟨u, rfl⟩ := hsuf
    refine hlast (t.getLast ht) ?_ (hin.subset (List.getLast_mem ht))
    rw [List.getLast?_append_of_ne_nil _ ht, List.getLast?_eq_getLast_of_ne_nil ht]
    rfl

theorem strstr_eq_some {a x pat : List α} (h : strstr a pat = some x) : x <:+ a ∧ pat <+: x := by
  induction a with
  | nil =>
    rw [strstr] at h
    split at h
    next hpat =>
      obtain rfl := Option.some.inj h
      rw [hpat]
      exact ⟨List.suffix_rfl, List.nil_prefix⟩
    next => simp at h
  | cons c a ih =>
    rw [strstr] at h
    split at h
    next hpre =>
      obtain rfl := Option.some.inj h
      exact ⟨List.suffix_rfl, List.isPrefixOf_iff_prefix.1 hpre⟩
    next =>
      obtain ⟨hsuf, hpre⟩ := ih h
      exact ⟨hsuf.trans (List.suffix_cons c a), hpre⟩

theorem strstr_append_right {a x pat : List α} (h : strstr a pat = some x) (b : List α) :
    strstr (a ++ b) pat = some (x ++ b) := by
  induction a with
  | nil =>
    obtain ⟨hsuf, hpre⟩ := strstr_eq_some h
    obtain rfl := List.suffix_nil.1 hsuf
    obtain rfl := List.prefix_nil.1 hpre
    cases b with
    | nil => rfl
    | cons c b => exact strstr_of_prefix (List.cons_ne_nil c b) List.nil_prefix
  | cons c a ih =>
    rw [strstr] at h
    split at h
    next hpre =>
      obtain rfl := Option.some.inj h
      apply strstr_of_prefix (List.cons_ne_nil _ _)
      exact ( List.isPrefixOf_iff_prefix.1 hpre).trans (List.prefix_append _ _)
    next hpre =>
      obtain ⟨hsuf, hx⟩ := strstr_eq_some h
      -- the pattern is no longer than what stands behind, and cannot reach into the new text
      have hlen : pat.length ≤ (c :: a).length := by
        have := hsuf.length_le
        have := hx.length_le
        rw [List.length_cons]
        omega
      have hpre' : ¬ pat.isPrefixOf (c :: (a ++ b)) = true := by
        intro hb
        apply hpre
        exact List.isPrefixOf_iff_prefix.2 (List.prefix_of_prefix_length_le
          ( List.isPrefixOf_iff_prefix.1 hb) (List.prefix_append (c :: a) b) hlen)
      rw [List.cons_append, strstr, if_neg hpre']
      exact ih h

theorem behind_append_right {a y pat : List α} (h : behind a pat = some y) (b : List α) :
    behind (a ++ b) pat = some (y ++ b) := by
  obtain ⟨x, hx, rfl⟩ := Option.map_eq_some_iff.1 h
  have hlen := (strstr_eq_some hx).2.length_le
  rw [behind, strstr_append_right hx, Option.map_some, List.drop_append_of_le_length hlen]

end Eggdrop
