import Eggdrop.Lib.Glob

/-!
# Pieces — patterns of elements and runs of a kind

A piece of a pattern takes one element of some kind, a run of them, or a run that is not empty.

* `matches_glob`: with runs of any elements only, these are the patterns of `Glob`.
-/

namespace Pieces

open Eggdrop

variable {α : Type*}

inductive Piece (α : Type*)
  | one (p : α → Bool)
  | star (p : α → Bool)
  | plus (p : α → Bool)

/-- The whole of the text is as the pattern says. -/
def Matches : List (Piece α) → List α → Prop
  | [], s => s = []
  | .one p :: g, s => ∃ a t, s = a :: t ∧ p a = true ∧ Matches g t
  | .star p :: g, s => ∃ x y, s = x ++ y ∧ (∀ a ∈ x, p a = true) ∧ Matches g y
  | .plus p :: g, s => ∃ x y, s = x ++ y ∧ x ≠ [] ∧ (∀ a ∈ x, p a = true) ∧ Matches g y

variable {g : List (Piece α)} {p : α → Bool} {s : List α}

theorem matches_one : Matches (.one p :: g) s ↔ ∃ a t, s = a :: t ∧ p a = true ∧ Matches g t := Iff.rfl

/-! ### Runs of any elements -/

/-- An item as a piece. -/
def ofItem : Glob.Item α → Piece α
  | .one p => .one p
  | .many => .star fun _ => true

theorem matches_glob {g : List (Glob.Item α)} : Matches (g.map ofItem) s ↔ Glob.Matches g s := by
  induction g generalizing s with
  | nil => rfl
  | cons i g ih =>
    cases i with
    | one p =>
      cases s with
      | nil =>
        constructor
        · rintro ⟨a, t, heq, -⟩
          cases heq
        · intro h
          exact h.elim
      | cons a s =>
        rw [List.map_cons, ofItem, matches_one, Glob.matches_one_cons, ← ih]
        constructor
        · rintro ⟨b, t, heq, hp, ht⟩
          obtain ⟨rfl, rfl⟩ := List.cons.inj heq
          exact ⟨hp, ht⟩
        · rintro ⟨hp, hs⟩
          exact ⟨a, s, rfl, hp, hs⟩
    | many =>
      rw [Glob.matches_many]
      constructor
      · rintro ⟨x, y, rfl, -, hy⟩
        exact ⟨y, List.suffix_append x y, ih.1 hy⟩
      · rintro ⟨t, ⟨x, rfl⟩, ht⟩
        exact ⟨x, t, rfl, fun _ _ => rfl, ih.2 ht⟩

end Pieces
