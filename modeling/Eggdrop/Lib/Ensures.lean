import Mathlib.Data.List.Forall2
import Eggdrop.Lib.Run

/-!
# Ensures — what a computation that may fail leaves behind

`Ensures x Q`: if `x` gives a result, `Q` holds of it.  The rules follow the way computations are
put together: `bind`, `map`, `mapM` and `foldlM`, and runs of a step function.  `Gives x Q` says
that there is a result as well.
-/

universe u

/-- Whatever result `x` gives meets `Q`. -/
def Ensures {ε α : Type*} (x : Except ε α) (Q : α → Prop) : Prop := ∀ a, x = .ok a → Q a

namespace Ensures

variable {ε : Type*} {α β : Type u} {x : Except ε α} {P Q : α → Prop} {R : β → Prop}

theorem ok {a : α} (h : Q a) : Ensures (.ok a : Except ε α) Q := by
  rintro _ ⟨⟩
  exact h

theorem pure {a : α} (h : Q a) : Ensures (Pure.pure a : Except ε α) Q := ok h

theorem error {e : ε} : Ensures (.error e : Except ε α) Q := by
  intro a h
  cases h

theorem mono (h : Ensures x P) (hPQ : ∀ a, P a → Q a) : Ensures x Q := fun a ha => hPQ a (h a ha)

theorem bind {f : α → Except ε β} (h : Ensures x P) (hf : ∀ a, P a → Ensures (f a) R) :
    Ensures (x >>= f) R := by
  intro b hb
  cases x with
  | error e => cases hb
  | ok a => exact hf a (h a rfl) b hb

theorem bind' {f : α → Except ε β} (hf : ∀ a, x = .ok a → Ensures (f a) R) :
    Ensures (x >>= f) R :=
  bind (P := fun a => x = .ok a) (fun _ ha => ha) hf

theorem map {f : α → β} (h : Ensures x fun a => R (f a)) : Ensures (x.map f) R := by
  intro b hb
  cases x with
  | error e => cases hb
  | ok a =>
    obtain rfl : f a = b := by simpa [Except.map] using hb
    exact h a rfl

theorem ite {c : Prop} [Decidable c] {y : Except ε α} (ht : c → Ensures x Q)
    (he : ¬ c → Ensures y Q) : Ensures (if c then x else y) Q := by
  split
  · next h => exact ht h
  · next h => exact he h

theorem mapM {f : α → Except ε β} {S : α → β → Prop} :
    ∀ {l : List α}, (∀ a ∈ l, Ensures (f a) (S a)) → Ensures (l.mapM f) (List.Forall₂ S l)
  | [], _ => pure .nil
  | a :: l, h => by
    rw [List.mapM_cons]
    have hl : Ensures (l.mapM f) (List.Forall₂ S l) :=
      mapM fun b hb => h b (List.mem_cons_of_mem a hb)
    exact bind (h a List.mem_cons_self) fun b hb => bind hl fun bs hbs => pure (.cons hb hbs)

/-- The elements of the result, where each one meets `R`. -/
theorem mapM_forall {f : α → Except ε β} {l : List α} (h : ∀ a ∈ l, Ensures (f a) R) :
    Ensures (l.mapM f) fun bs => ∀ b ∈ bs, R b := by
  refine mono (mapM (S := fun _ b => R b) h) fun bs hbs b hb => ?_
  obtain ⟨i, hi, rfl⟩ := List.mem_iff_getElem.1 hb
  exact hbs.get (hbs.length_eq ▸ hi) hi

theorem run_forall {σ : Type*} {step : σ → α → Except ε σ} {Inv : σ → Prop} {es : List α}
    (hstep : ∀ s, ∀ e ∈ es, Inv s → Ensures (step s e) Inv) {s : σ} (hs : Inv s) :
    Ensures (Machine.run step s es) Inv := by
  induction es generalizing s with
  | nil => exact ok hs
  | cons e es ih =>
    intro t ht
    rw [Machine.run] at ht
    cases he : step s e with
    | error f => rw [he] at ht; cases ht
    | ok s' =>
      rw [he] at ht
      exact ih (fun s e h => hstep s e (List.mem_cons_of_mem _ h))
        (hstep s e List.mem_cons_self hs s' he) t ht

end Ensures

/-! ### Computations that give a result -/

/-- `x` gives a result, and the result meets `Q`. -/
def Gives {ε α : Type*} (x : Except ε α) (Q : α → Prop) : Prop := ∃ a, x = .ok a ∧ Q a

namespace Gives

variable {ε : Type*} {α β : Type u} {x : Except ε α} {P Q : α → Prop} {R : β → Prop}

theorem ok {a : α} (h : Q a) : Gives (.ok a : Except ε α) Q := ⟨a, rfl, h⟩

theorem mono (h : Gives x P) (hPQ : ∀ a, P a → Q a) : Gives x Q := by
  obtain ⟨a, ha, hP⟩ := h
  exact ⟨a, ha, hPQ a hP⟩

theorem bind {f : α → Except ε β} (h : Gives x P) (hf : ∀ a, P a → Gives (f a) R) :
    Gives (x >>= f) R := by
  obtain ⟨a, rfl, hP⟩ := h
  exact hf a hP

theorem ite {c : Prop} [Decidable c] {y : Except ε α} (ht : c → Gives x Q)
    (he : ¬ c → Gives y Q) : Gives (if c then x else y) Q := by
  split
  · next h => exact ht h
  · next h => exact he h

theorem of_any {q : α → Bool} (h : x.toOption.any q = true) : Gives x fun a => q a = true := by
  cases x with
  | error e => cases h
  | ok a => exact ok h

theorem run_along {σ : Type u} {step : σ → α → Except ε σ} {Inv : σ → Prop} {C : σ → α → Prop}
    (hstep : ∀ s e, Inv s → C s e → Gives (step s e) Inv) {s : σ} {es : List α} (hs : Inv s)
    (h : Machine.Along step C s es) : Gives (Machine.run step s es) Inv :=
  Machine.run_ok_of_along hstep hs h

theorem run {σ : Type u} {step : σ → α → Except ε σ} {Inv : σ → Prop}
    (hstep : ∀ s e, Inv s → Gives (step s e) Inv) {s : σ} (hs : Inv s) (es : List α) :
    Gives (Machine.run step s es) Inv := by
  induction es generalizing s with
  | nil => exact ok hs
  | cons e es ih =>
    obtain ⟨t, ht, hinv⟩ := hstep s e hs
    rw [Machine.run_cons_ok ht]
    exact ih hinv

end Gives

/-! ### Computations without a certain fault -/

section Never

universe v

variable {ε : Type*} {α β : Type v} {x : Except ε α} {e : ε}

theorem bind_ne_error {f : α → Except ε β} (hx : x ≠ .error e)
    (hf : ∀ a, x = .ok a → f a ≠ .error e) : (x >>= f) ≠ .error e := by
  cases x with
  | error e' =>
    intro h
    exact hx (congrArg Except.error (Except.error.inj h))
  | ok a => exact hf a rfl

theorem map_ne_error {f : α → β} (hx : x ≠ .error e) : x.map f ≠ .error e := by
  cases x with
  | error e' =>
    intro h
    exact hx (congrArg Except.error (Except.error.inj h))
  | ok a => exact fun h => nomatch h

theorem ite_ne_error {c : Prop} [Decidable c] {y : Except ε α} (hx : c → x ≠ .error e)
    (hy : ¬ c → y ≠ .error e) : (if c then x else y) ≠ .error e := by
  split
  · next h => exact hx h
  · next h => exact hy h

theorem mapM_ne_error {f : α → Except ε β} {l : List α} (hf : ∀ a ∈ l, f a ≠ .error e) :
    l.mapM f ≠ .error e := by
  induction l with
  | nil => exact fun h => nomatch h
  | cons a l ih =>
    rw [List.mapM_cons]
    refine bind_ne_error (hf a List.mem_cons_self) fun b _ => ?_
    refine bind_ne_error (ih fun c hc => hf c (List.mem_cons_of_mem a hc)) fun bs _ => ?_
    exact fun h => nomatch h

end Never
