import Mathlib.Logic.Function.Basic
import Eggdrop.Lib.Run

/-!
# TwoRuns — two runs of one machine side by side

Two runs that differ in some of their events are one run of a machine on pairs of states: an event
is taken by both, or by one of them only.

* `throughout_of_along`: the rule for a relation between the two states.
-/

namespace TwoRuns

variable {σ ε φ : Type*}

/-- An event of two runs. -/
inductive Event (ε : Type*) where
  | both (e : ε)
  | left (e : ε)
  | right (e : ε)

/-- A step of the two runs; a fault of one ends both. -/
def step (f : σ → ε → Except φ σ) (s : σ × σ) : Event ε → Except φ (σ × σ)
  | .both e => do return (← f s.1 e, ← f s.2 e)
  | .left e => do return (← f s.1 e, s.2)
  | .right e => do return (s.1, ← f s.2 e)

variable {f : σ → ε → Except φ σ}

theorem throughout_of_along {Inv : σ × σ → Prop} {P : σ × σ → Event ε → Prop}
    (hboth : ∀ s e, Inv s → P s (.both e) → ∃ a b, f s.1 e = .ok a ∧ f s.2 e = .ok b ∧ Inv (a, b))
    (hleft : ∀ s e, Inv s → P s (.left e) → ∃ a, f s.1 e = .ok a ∧ Inv (a, s.2))
    (hright : ∀ s e, Inv s → P s (.right e) → ∃ b, f s.2 e = .ok b ∧ Inv (s.1, b)) {s : σ × σ}
    {es : List (Event ε)} (hs : Inv s) (h : Machine.Along (step f) P s es) :
    (∃ s', Machine.run (step f) s es = .ok s') ∧ Machine.Throughout (step f) Inv s es := by
  refine Machine.run_throughout_of_along (fun s e hinv hp => ?_) hs h
  cases e with
  | both e =>
    obtain ⟨a, b, ha, hb, hinv'⟩ := hboth s e hinv hp
    exact ⟨(a, b), by rw [step, ha, hb]; rfl, hinv'⟩
  | left e =>
    obtain ⟨a, ha, hinv'⟩ := hleft s e hinv hp
    exact ⟨(a, s.2), by rw [step, ha]; rfl, hinv'⟩
  | right e =>
    obtain ⟨b, hb, hinv'⟩ := hright s e hinv hp
    exact ⟨(s.1, b), by rw [step, hb]; rfl, hinv'⟩

end TwoRuns
