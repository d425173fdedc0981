import Mathlib.Data.List.Infix
import Mathlib.Data.Nat.Find
import Mathlib.Tactic.Common

/-!
# Glob — patterns of single elements and runs

An item of a pattern takes one element of some kind, or any run of elements.  A matcher that goes
from left to right lets every run be as short as it can be: `Rest g s r` says what is left of `s`
when the pattern `g` took as little as possible of its start.

* `matches_append_many`: behind a run, nothing is lost by that.
* `rest_many_append`, `rest_many_cons`: how the shortest part is found, place by place.
-/

namespace Eggdrop.Glob

variable {α : Type*}

inductive Item (α : Type*)
  /-- one element of a kind -/
  | one (p : α → Bool)
  /-- any run of elements -/
  | many

open Item

/-- The whole of the text is as the pattern says. -/
def Matches : List (Item α) → List α → Prop
  | [], s => s = []
  | one _ :: _, [] => False
  | one p :: g, a :: s => p a = true ∧ Matches g s
  | many :: g, s => ∃ t, t <:+ s ∧ Matches g t

instance decidableMatches : ∀ (g : List (Item α)) (s : List α), Decidable (Matches g s)
  | [], [] => isTrue rfl
  | [], _ :: _ => isFalse (List.cons_ne_nil _ _)
  | one _ :: _, [] => isFalse id
  | one p :: g, a :: s =>
    have := decidableMatches g s
    inferInstanceAs (Decidable (p a = true ∧ Matches g s))
  | many :: g, s =>
    have := decidableMatches g
    decidable_of_iff (∃ t ∈ s.tails, Matches g t) (by simp [Matches])

/-- The items take one element each. -/
def Ones (g : List (Item α)) : Prop := ∀ i ∈ g, ∃ p, i = one p

/-- The pattern takes the start of the text, and `r` is left. -/
def Stands (g : List (Item α)) (s r : List α) : Prop := ∃ x, s = x ++ r ∧ Matches g x

/-- The pattern takes as little as possible of the start of the text, and `r` is left. -/
def Rest (g : List (Item α)) (s r : List α) : Prop := Stands g s r ∧ ∀ r', Stands g s r' → r' <:+ r

variable {g h : List (Item α)} {p : α → Bool} {a : α} {s t r r' x : List α}

/-! ### Matching -/

@[simp] theorem matches_nil : Matches ([] : List (Item α)) s ↔ s = [] := Iff.rfl

@[simp] theorem matches_one_cons : Matches (one p :: g) (a :: s) ↔ p a = true ∧ Matches g s := Iff.rfl

theorem matches_many : Matches (many :: g) s ↔ ∃ t, t <:+ s ∧ Matches g t := Iff.rfl

theorem Matches.many_of_suffix (h : Matches (many :: g) t) (hsuf : t <:+ s) : Matches (many :: g) s := by
  obtain ⟨u, hu, hg⟩ := h
  exact ⟨u, hu.trans hsuf, hg⟩

theorem matches_append : Matches (g ++ h) s ↔ ∃ x y, s = x ++ y ∧ Matches g x ∧ Matches h y := by
  induction g generalizing s with
  | nil =>
    constructor
    · intro hs
      exact ⟨[], s, rfl, rfl, hs⟩
    · rintro ⟨x, y, rfl, rfl, hy⟩
      exact hy
  | cons i g ih =>
    cases i with
    | one p =>
      cases s with
      | nil =>
        constructor
        · intro hs
          exact hs.elim
        · rintro ⟨x, y, hxy, hx, -⟩
          obtain ⟨rfl, -⟩ := List.append_eq_nil_iff.1 hxy.symm
          exact hx.elim
      | cons a s =>
        rw [List.cons_append, matches_one_cons, ih]
        constructor
        · rintro ⟨hp, x, y, rfl, hx, hy⟩
          exact ⟨a :: x, y, rfl, ⟨hp, hx⟩, hy⟩
        · rintro ⟨x, y, hxy, hx, hy⟩
          cases x with
          | nil => exact hx.elim
          | cons b x =>
            obtain ⟨rfl, rfl⟩ := List.cons.inj hxy
            exact ⟨hx.1, x, y, rfl, hx.2, hy⟩
    | many =>
      rw [List.cons_append, matches_many]
      constructor
      · rintro ⟨t, ⟨u, rfl⟩, ht⟩
        obtain ⟨x, y, rfl, hx, hy⟩ := ih.1 ht
        exact ⟨u ++ x, y, by rw [List.append_assoc], ⟨x, List.suffix_append u x, hx⟩, hy⟩
      · rintro ⟨x, y, rfl, ⟨t, ⟨u, rfl⟩, ht⟩, hy⟩
        exact ⟨t ++ y, ⟨u, by rw [List.append_assoc]⟩, ih.2 ⟨t, y, rfl, ht, hy⟩⟩

theorem Matches.exists_mem (h : Matches g s) (hp : one p ∈ g) : ∃ a ∈ s, p a = true := by
  induction g generalizing s with
  | nil => exact absurd hp List.not_mem_nil
  | cons i g ih =>
    cases i with
    | one q =>
      cases s with
      | nil => exact h.elim
      | cons a s =>
        rcases List.mem_cons.1 hp with heq | hp
        · cases heq
          exact ⟨a, List.mem_cons_self, h.1⟩
        · obtain ⟨b, hb, hpb⟩ := ih h.2 hp
          exact ⟨b, List.mem_cons_of_mem a hb, hpb⟩
    | many =>
      obtain ⟨t, hsuf, ht⟩ := h
      have hp : one p ∈ g := (List.mem_cons.1 hp).resolve_left fun heq => by cases heq
      obtain ⟨b, hb, hpb⟩ := ih ht hp
      exact ⟨b, hsuf.subset hb, hpb⟩

theorem ones_cons : Ones (one p :: g) ↔ Ones g := by
  simp [Ones]

theorem Ones.tail (h : Ones (one p :: g)) : Ones g := ones_cons.1 h

theorem Ones.length_eq (hg : Ones g) (h : Matches g s) : s.length = g.length := by
  induction g generalizing s with
  | nil =>
    rw [matches_nil.1 h]
    rfl
  | cons i g ih =>
    obtain ⟨p, rfl⟩ := hg i List.mem_cons_self
    cases s with
    | nil => exact h.elim
    | cons a s => rw [List.length_cons, List.length_cons, ih hg.tail h.2]

theorem Ones.length_le (hg : Ones g) (hm : Matches (g ++ h) s) : g.length ≤ s.length := by
  obtain ⟨x, y, rfl, hx, -⟩ := matches_append.1 hm
  rw [List.length_append, hg.length_eq hx]
  omega

/-! ### The start of a text -/

theorem stands_nil : Stands ([] : List (Item α)) s r ↔ r = s := by
  constructor
  · rintro ⟨x, rfl, rfl⟩
    rfl
  · rintro rfl
    exact ⟨[], rfl, rfl⟩

theorem stands_one_cons : Stands (one p :: g) (a :: s) r ↔ p a = true ∧ Stands g s r := by
  constructor
  · rintro ⟨x, hx, hm⟩
    cases x with
    | nil => exact hm.elim
    | cons b x =>
      obtain ⟨rfl, rfl⟩ := List.cons.inj hx
      exact ⟨hm.1, x, rfl, hm.2⟩
  · rintro ⟨hp, x, rfl, hm⟩
    exact ⟨a :: x, rfl, hp, hm⟩

theorem stands_append : Stands (g ++ h) s r ↔ ∃ t, Stands g s t ∧ Stands h t r := by
  constructor
  · rintro ⟨x, rfl, hm⟩
    obtain ⟨y, z, rfl, hy, hz⟩ := matches_append.1 hm
    exact ⟨z ++ r, ⟨y, by rw [List.append_assoc], hy⟩, z, rfl, hz⟩
  · rintro ⟨t, ⟨y, rfl, hy⟩, z, rfl, hz⟩
    exact ⟨y ++ z, by rw [List.append_assoc], matches_append.2 ⟨y, z, rfl, hy, hz⟩⟩

theorem stands_many : Stands (many :: g) s r ↔ ∃ t, t <:+ s ∧ Stands g t r := by
  constructor
  · rintro ⟨x, rfl, y, ⟨u, rfl⟩, hy⟩
    exact ⟨y ++ r, ⟨u, by rw [List.append_assoc]⟩, y, rfl, hy⟩
  · rintro ⟨t, ⟨u, rfl⟩, y, rfl, hy⟩
    exact ⟨u ++ y, by rw [List.append_assoc], y, List.suffix_append u y, hy⟩

theorem Stands.suffix (h : Stands g s r) : r <:+ s := by
  obtain ⟨x, rfl, -⟩ := h
  exact List.suffix_append x r

theorem stands_nil_right : Stands g s [] ↔ Matches g s := by
  constructor
  · rintro ⟨x, rfl, hm⟩
    rwa [List.append_nil]
  · intro hm
    exact ⟨s, (List.append_nil s).symm, hm⟩

theorem Ones.stands_unique (hg : Ones g) (h : Stands g s r) (h' : Stands g s r') : r = r' := by
  obtain ⟨x, rfl, hx⟩ := h
  obtain ⟨y, hy, hm⟩ := h'
  exact (List.append_inj hy ((hg.length_eq hx).trans (hg.length_eq hm).symm)).2

/-! ### Where a start is not as it should be -/

/-- The text ends, after elements of the right kinds. -/
def Short : List (Item α) → List α → Prop
  | one _ :: _, [] => True
  | one p :: g, a :: s => p a = true ∧ Short g s
  | _, _ => False

/-- An element is not of its kind. -/
def Differs : List (Item α) → List α → Prop
  | one p :: g, a :: s => p a = false ∨ p a = true ∧ Differs g s
  | _, _ => False

theorem Short.exists_ones (hs : Short g s) :
    ∃ g₀ g₁, g = g₀ ++ g₁ ∧ Ones g₀ ∧ s.length < g₀.length := by
  induction g generalizing s with
  | nil => cases s <;> exact hs.elim
  | cons i g ih =>
    cases i with
    | one p =>
      cases s with
      | nil => exact ⟨[one p], g, rfl, by simp [Ones], by simp⟩
      | cons a s =>
        obtain ⟨g₀, g₁, rfl, hg₀, hlen⟩ := ih hs.2
        refine ⟨one p :: g₀, g₁, rfl, ones_cons.2 hg₀, ?_⟩
        simp only [List.length_cons]
        omega
    | many => cases s <;> exact hs.elim

theorem Short.not_stands (hs : Short g s) (hsuf : t <:+ s) : ¬ Stands (g ++ h) t r := by
  rintro ⟨x, rfl, hm⟩
  obtain ⟨g₀, g₁, rfl, hg₀, hlen⟩ := hs.exists_ones
  rw [List.append_assoc] at hm
  have hx := hg₀.length_le hm
  have ht := hsuf.length_le
  rw [List.length_append] at ht
  omega

theorem Differs.not_stands (hd : Differs g s) : ¬ Stands (g ++ h) s r := by
  induction g generalizing s with
  | nil => cases s <;> exact hd.elim
  | cons i g ih =>
    cases i with
    | one p =>
      cases s with
      | nil => exact hd.elim
      | cons a s =>
        rw [List.cons_append, stands_one_cons]
        rintro ⟨hp, hstands⟩
        rcases hd with hd | hd
        · simp [hp] at hd
        · exact ih hd.2 hstands
    | many => cases s <;> exact hd.elim

theorem Differs.of_append_many (hd : Differs (g ++ many :: h) s) : Differs g s := by
  induction g generalizing s with
  | nil => cases s <;> exact hd.elim
  | cons i g ih =>
    cases i with
    | one p =>
      cases s with
      | nil => exact hd.elim
      | cons a s => exact hd.imp_right fun hd => ⟨hd.1, ih hd.2⟩
    | many => cases s <;> exact hd.elim

theorem Short.of_append_many (hs : Short (g ++ many :: h) s) : Short g s := by
  induction g generalizing s with
  | nil => cases s <;> exact hs.elim
  | cons i g ih =>
    cases i with
    | one p =>
      cases s with
      | nil => trivial
      | cons a s => exact ⟨hs.1, ih hs.2⟩
    | many => cases s <;> exact hs.elim

theorem Differs.ne_nil (hd : Differs g s) : s ≠ [] := by
  rintro rfl
  cases g with
  | nil => exact hd.elim
  | cons i g => cases i <;> exact hd.elim

/-! ### The shortest start -/

theorem rest_iff_of_stands_iff {g' : List (Item α)} {s' : List α}
    (h : ∀ r, Stands g s r ↔ Stands g' s' r) : Rest g s r ↔ Rest g' s' r := by
  simp only [Rest, h]

theorem Rest.unique (h : Rest g s r) (h' : Rest g s r') : r = r' :=
  (h'.2 r h.1).eq_of_length_le (h.2 r' h'.1).length_le

theorem exists_rest (h : Stands g s t) : ∃ r, Rest g s r := by
  classical
  have hex : ∃ n, ∃ r, Stands g s r ∧ r.length + n = s.length :=
    ⟨s.length - t.length, t, h, by have := h.suffix.length_le; omega⟩
  obtain ⟨r, hr, hlen⟩ := Nat.find_spec hex
  refine ⟨r, hr, ?_⟩
  intro r' hr'
  have hmin := Nat.find_min' hex ⟨r', hr', (Nat.add_sub_of_le hr'.suffix.length_le)⟩
  have hle := hr'.suffix.length_le
  exact List.suffix_of_suffix_length_le hr'.suffix hr.suffix (by omega)

theorem Ones.rest_iff (hg : Ones g) : Rest g s r ↔ Stands g s r := by
  constructor
  · exact fun h => h.1
  · intro h
    refine ⟨h, ?_⟩
    intro r' hr'
    rw [hg.stands_unique h hr']

theorem matches_append_many :
    Matches (g ++ many :: h) s ↔ ∃ r, Rest g s r ∧ Matches (many :: h) r := by
  rw [matches_append]
  constructor
  · rintro ⟨x, y, rfl, hx, hy⟩
    have hstands : Stands g (x ++ y) y := ⟨x, rfl, hx⟩
    obtain ⟨r, hr⟩ := exists_rest hstands
    exact ⟨r, hr, hy.many_of_suffix (hr.2 y hstands)⟩
  · rintro ⟨r, ⟨⟨x, rfl, hx⟩, -⟩, hr⟩
    exact ⟨x, r, rfl, hx, hr⟩

theorem rest_many_cons (h : ∀ r', ¬ Stands g (a :: s) r') :
    Rest (many :: g) (a :: s) r ↔ Rest (many :: g) s r := by
  apply rest_iff_of_stands_iff
  intro r'
  rw [stands_many, stands_many]
  constructor
  · rintro ⟨t, ht, hstands⟩
    rcases List.suffix_cons_iff.1 ht with rfl | ht
    · exact absurd hstands (h r')
    · exact ⟨t, ht, hstands⟩
  · rintro ⟨t, ht, hstands⟩
    exact ⟨t, ht.trans (List.suffix_cons a s), hstands⟩

theorem rest_many_self (hg : Ones g) (h : Stands g s t) : Rest (many :: g) s r ↔ r = t := by
  have hrest : Rest (many :: g) s t := by
    refine ⟨stands_many.2 ⟨s, List.suffix_rfl, h⟩, ?_⟩
    intro r' hr'
    obtain ⟨u, hu, x, rfl, hx⟩ := stands_many.1 hr'
    obtain ⟨y, rfl, hy⟩ := h
    -- both parts are of the length of the pattern, and the other one begins no earlier
    have hlen := hu.length_le
    rw [List.length_append, List.length_append, hg.length_eq hx, hg.length_eq hy] at hlen
    exact List.suffix_of_suffix_length_le ((List.suffix_append x r').trans hu)
      (List.suffix_append y t) (by omega)
  constructor
  · intro hr
    exact hr.unique hrest
  · rintro rfl
    exact hrest

theorem rest_many_append (hg : Ones g) (h' : Stands g s t) :
    Rest (many :: (g ++ many :: h)) s r ↔ Rest (many :: h) t r := by
  apply rest_iff_of_stands_iff
  intro r'
  have hfirst := (rest_many_self (r := t) hg h').2 rfl
  rw [← List.cons_append, stands_append]
  constructor
  · rintro ⟨u, hu, hstands⟩
    obtain ⟨v, hv, hstands⟩ := stands_many.1 hstands
    exact stands_many.2 ⟨v, hv.trans (hfirst.2 u hu), hstands⟩
  · intro hstands
    exact ⟨t, hfirst.1, hstands⟩

/-! ### The last run -/

/-- `F` holds of the items behind the last run and of what is left of `s` when those before have taken
as little as possible; a run stands before the whole pattern. -/
def AtLast (F : List (Item α) → List α → Prop) (g : List (Item α)) (s : List α) : Prop :=
  (Ones g ∧ F g s) ∨ ∃ h g' t, g = h ++ many :: g' ∧ Ones g' ∧ Rest (many :: h) s t ∧ F g' t

theorem not_ones_append_many : ¬ Ones (g ++ many :: h) := by
  intro hones
  obtain ⟨p, hp⟩ := hones many (by simp)
  cases hp

theorem append_many_cases {g₁ h₁ : List (Item α)} (hg : Ones g) (heq : h ++ many :: g = h₁ ++ many :: g₁) :
    (h = h₁ ∧ g = g₁) ∨ ∃ h₂, h = h₁ ++ many :: h₂ ∧ g₁ = h₂ ++ many :: g := by
  rcases List.append_eq_append_iff.1 heq with ⟨l, rfl, hl⟩ | ⟨l, rfl, hl⟩
  · cases l with
    | nil => exact .inl ⟨(List.append_nil h).symm, ( List.cons.inj hl).2⟩
    | cons i l =>
      rw [( List.cons.inj hl).2] at hg
      exact absurd hg not_ones_append_many
  · cases l with
    | nil => exact .inl ⟨List.append_nil h₁, ( List.cons.inj hl).2.symm⟩
    | cons i l =>
      obtain ⟨rfl, hg₁⟩ := List.cons.inj hl
      exact .inr ⟨l, rfl, hg₁⟩

theorem last_unique {g₁ h₁ : List (Item α)} (hg : Ones g) (hg₁ : Ones g₁)
    (heq : h ++ many :: g = h₁ ++ many :: g₁) : h = h₁ ∧ g = g₁ := by
  rcases append_many_cases hg heq with heq | ⟨h₂, -, rfl⟩
  · exact heq
  · exact absurd hg₁ not_ones_append_many

section AtLast

variable {F : List (Item α) → List α → Prop}

theorem AtLast.of_ones (hg : Ones g) : AtLast F g s ↔ F g s := by
  constructor
  · rintro (⟨-, hF⟩ | ⟨h, g', t, rfl, -⟩)
    · exact hF
    · exact absurd hg not_ones_append_many
  · intro hF
    exact .inl ⟨hg, hF⟩

theorem atLast_append (hg : Ones g) (hs : Stands g s t) :
    AtLast F (g ++ many :: h) s ↔ AtLast F h t := by
  constructor
  · rintro (⟨hones, -⟩ | ⟨h₁, g₁, r, heq, hg₁, hr, hF⟩)
    · exact absurd hones not_ones_append_many
    · rcases append_many_cases hg₁ heq.symm with ⟨rfl, rfl⟩ | ⟨h₂, rfl, rfl⟩
      · rw [rest_many_self hg hs] at hr
        subst hr
        exact .inl ⟨hg₁, hF⟩
      · exact .inr ⟨h₂, g₁, r, rfl, hg₁, (rest_many_append hg hs).1 hr, hF⟩
  · rintro (⟨hones, hF⟩ | ⟨h₁, g₁, r, rfl, hg₁, hr, hF⟩)
    · exact .inr ⟨g, h, t, rfl, hones, (rest_many_self hg hs).2 rfl, hF⟩
    · refine .inr ⟨g ++ many :: h₁, g₁, r, ?_, hg₁, (rest_many_append hg hs).2 hr, hF⟩
      rw [List.append_assoc, List.cons_append]

theorem atLast_many : AtLast F (many :: g) s ↔ AtLast F g s :=
  atLast_append (g := []) (by simp [Ones]) (stands_nil.2 rfl)

theorem atLast_cons (hd : Differs g (a :: s)) (hF : Ones g → (F g (a :: s) ↔ F g s)) :
    AtLast F g (a :: s) ↔ AtLast F g s := by
  have hrest {h' g' : List (Item α)} {t : List α} (heq : g = h' ++ many :: g') :
      Rest (many :: h') (a :: s) t ↔ Rest (many :: h') s t := by
    apply rest_many_cons
    intro r'
    rw [heq] at hd
    have hno := hd.of_append_many.not_stands (h := []) (r := r')
    rwa [List.append_nil] at hno
  constructor
  · rintro (⟨hones, hend⟩ | ⟨h', g', t, heq, hg', hr, hend⟩)
    · exact .inl ⟨hones, (hF hones).1 hend⟩
    · exact .inr ⟨h', g', t, heq, hg', (hrest heq).1 hr, hend⟩
  · rintro (⟨hones, hend⟩ | ⟨h', g', t, heq, hg', hr, hend⟩)
    · exact .inl ⟨hones, (hF hones).2 hend⟩
    · exact .inr ⟨h', g', t, heq, hg', (hrest heq).2 hr, hend⟩

theorem not_atLast_short (hs : Short g s) (hF : Ones g → ¬ F g s) : ¬ AtLast F g s := by
  rintro (⟨hones, hend⟩ | ⟨h', g', t, heq, -, hr, -⟩)
  · exact hF hones hend
  · obtain ⟨t', ht', hstands⟩ := stands_many.1 hr.1
    rw [heq] at hs
    have hno := hs.of_append_many.not_stands (h := []) (r := t) ht'
    rw [List.append_nil] at hno
    exact hno hstands

end AtLast

/-! ### From the start of a text -/

theorem ones_or_last (g : List (Item α)) : Ones g ∨ ∃ h g', g = h ++ many :: g' ∧ Ones g' := by
  induction g with
  | nil => exact .inl (by simp [Ones])
  | cons i g ih =>
    rcases ih with hg | ⟨h, g', rfl, hg'⟩
    · cases i with
      | one p => exact .inl (ones_cons.2 hg)
      | many => exact .inr ⟨[], g, rfl, hg⟩
    · exact .inr ⟨i :: h, g', rfl, hg'⟩

theorem Ones.rest_append (hg : Ones g) (hs : Stands g s t) : Rest (g ++ h) s r ↔ Rest h t r := by
  apply rest_iff_of_stands_iff
  intro r'
  rw [stands_append]
  constructor
  · rintro ⟨u, hu, hstands⟩
    rwa [hg.stands_unique hu hs] at hstands
  · intro hstands
    exact ⟨t, hs, hstands⟩

/-- As `AtLast`, for a pattern that begins where the text begins; `F₀` is for one without runs. -/
def AtStart (F₀ F : List (Item α) → List α → Prop) (g : List (Item α)) (s : List α) : Prop :=
  (Ones g ∧ F₀ g s) ∨ ∃ h g' t, g = h ++ many :: g' ∧ Ones g' ∧ Rest h s t ∧ F g' t

section AtStart

variable {F₀ F : List (Item α) → List α → Prop}

theorem AtStart.of_ones (hg : Ones g) : AtStart F₀ F g s ↔ F₀ g s := by
  constructor
  · rintro (⟨-, hF⟩ | ⟨h, g', t, rfl, -⟩)
    · exact hF
    · exact absurd hg not_ones_append_many
  · intro hF
    exact .inl ⟨hg, hF⟩

theorem AtStart.of_last (hg : Ones g) :
    AtStart F₀ F (h ++ many :: g) s ↔ ∃ t, Rest h s t ∧ F g t := by
  constructor
  · rintro (⟨hones, -⟩ | ⟨h', g', t, heq, hg', hr, hF⟩)
    · exact absurd hones not_ones_append_many
    · obtain ⟨rfl, rfl⟩ := last_unique hg hg' heq
      exact ⟨t, hr, hF⟩
  · rintro ⟨t, hr, hF⟩
    exact .inr ⟨h, g, t, rfl, hg, hr, hF⟩

theorem atStart_append (hg : Ones g) (hs : Stands g s t) :
    AtStart F₀ F (g ++ many :: h) s ↔ AtLast F h t := by
  constructor
  · rintro (⟨hones, -⟩ | ⟨h₁, g₁, r, heq, hg₁, hr, hF⟩)
    · exact absurd hones not_ones_append_many
    · rcases append_many_cases hg₁ heq.symm with ⟨rfl, rfl⟩ | ⟨h₂, rfl, rfl⟩
      · rw [hg.stands_unique hr.1 hs] at hF
        exact .inl ⟨hg₁, hF⟩
      · exact .inr ⟨h₂, g₁, r, rfl, hg₁, (hg.rest_append hs).1 hr, hF⟩
  · rintro (⟨hones, hF⟩ | ⟨h₁, g₁, r, rfl, hg₁, hr, hF⟩)
    · exact .inr ⟨g, h, t, rfl, hones, hg.rest_iff.2 hs, hF⟩
    · refine .inr ⟨g ++ many :: h₁, g₁, r, ?_, hg₁, (hg.rest_append hs).2 hr, hF⟩
      rw [List.append_assoc, List.cons_append]

theorem not_atStart (hs : Short g s ∨ Differs g s) (hF : Ones g → ¬ F₀ g s) : ¬ AtStart F₀ F g s := by
  rintro (⟨hones, hend⟩ | ⟨h', g', t, heq, -, hr, -⟩)
  · exact hF hones hend
  · rw [heq] at hs
    have hno : ¬ Stands (h' ++ []) s t := by
      rcases hs with hs | hs
      · exact hs.of_append_many.not_stands List.suffix_rfl
      · exact hs.of_append_many.not_stands
    rw [List.append_nil] at hno
    exact hno hr.1

end AtStart

/-! ### The first place with a certain rest -/

/-- `r` is what is left at the first place at which `g` stands with a rest of which `D` holds. -/
def First (g : List (Item α)) (D : List α → Prop) (s r : List α) : Prop :=
  ∃ t, t <:+ s ∧ Stands g t r ∧ D r ∧
    ∀ t', t' <:+ s → t.length < t'.length → ∀ r', Stands g t' r' → ¬ D r'

section First

variable {D : List α → Prop}

theorem first_self (hg : Ones g) (hs : Stands g s t) (hD : D t) : First g D s r ↔ r = t := by
  constructor
  · rintro ⟨u, hu, hstands, hr, hfirst⟩
    rcases hu.length_le.lt_or_eq with hlt | hlen
    · exact absurd hD (hfirst s List.suffix_rfl hlt t hs)
    · rw [hu.eq_of_length hlen] at hstands
      exact hg.stands_unique hstands hs
  · rintro rfl
    refine ⟨s, List.suffix_rfl, hs, hD, ?_⟩
    intro t' ht' hlt
    have := ht'.length_le
    omega

theorem first_cons (h : ∀ r, Stands g (a :: s) r → ¬ D r) : First g D (a :: s) r ↔ First g D s r := by
  constructor
  · rintro ⟨t, ht, hstands, hr, hfirst⟩
    rcases List.suffix_cons_iff.1 ht with rfl | ht
    · exact absurd hr (h r hstands)
    · exact ⟨t, ht, hstands, hr, fun t' ht' => hfirst t' (ht'.trans (List.suffix_cons a s))⟩
  · rintro ⟨t, ht, hstands, hr, hfirst⟩
    refine ⟨t, ht.trans (List.suffix_cons a s), hstands, hr, ?_⟩
    intro t' ht' hlt r' hr'
    rcases List.suffix_cons_iff.1 ht' with rfl | ht'
    · exact h r' hr'
    · exact hfirst t' ht' hlt r' hr'

theorem First.unique (hg : Ones g) (h : First g D s r) (h' : First g D s r') : r = r' := by
  obtain ⟨t, ht, hstands, hr, hfirst⟩ := h
  obtain ⟨t', ht', hstands', hr', hfirst'⟩ := h'
  have hlen : t.length = t'.length := by
    rcases Nat.lt_trichotomy t.length t'.length with hlt | heq | hlt
    · exact absurd hr' (hfirst t' ht' hlt r' hstands')
    · exact heq
    · exact absurd hr (hfirst' t ht hlt r hstands)
  have heq : t = t' := (List.suffix_of_suffix_length_le ht ht' hlen.le).eq_of_length hlen
  rw [heq] at hstands
  exact hg.stands_unique hstands hstands'

theorem First.exists_stands (h : First g D s r) : ∃ t, t <:+ s ∧ Stands g t r ∧ D r := by
  obtain ⟨t, ht, hstands, hr, -⟩ := h
  exact ⟨t, ht, hstands, hr⟩

end First

end Eggdrop.Glob
