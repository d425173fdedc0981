import Mathlib.Tactic.Common

/-!
# Run — finite runs of a partial step function

A machine is a function `step : σ → ε → Except φ σ`: an event either takes a state to the next or
ends in a fault.  A run takes a list of events in order and stops at the first fault.

* `Throughout`: a property of states holds in every state a run reaches.
* `Along`: a condition on a state and the next event holds at every step of a run.
* `throughout_of_along`: the invariant rule, with a condition that every step may use.
* `throughout_iff_along`: when a step keeps the invariant exactly under the condition, a run keeps
  it exactly when all its steps meet the condition.
* `throughout_iff_along_of_inv`: the same beside an invariant that holds anyway.
* `run_ok_of_along`, `run_ok_iff_along`: a run whose steps all meet a condition that rules out
  faults has none.
* `run_throughout_of_along`: the invariant rule for a condition that rules out faults as well.
* `run_error_of_along`: the faults that a run may end in.
* `run_ne_error_iff_along`: the same for one of the faults.
* `run_throughout_iff_along`: the same for a step that both goes through and keeps the invariant.
-/

namespace Machine

variable {σ ε φ : Type*}

section Defs

variable (step : σ → ε → Except φ σ)

/-- Take the events in order, up to the first fault. -/
@[grind =] def run : σ → List ε → Except φ σ
  | s, [] => .ok s
  | s, e :: es =>
    match step s e with
    | .ok s' => run s' es
    | .error f => .error f

/-- `Inv` holds in every state the run reaches, the first and the last included. -/
def Throughout (Inv : σ → Prop) : σ → List ε → Prop
  | s, [] => Inv s
  | s, e :: es => Inv s ∧ ∀ s', step s e = .ok s' → Throughout Inv s' es

/-- `P` holds of every event and the state it is taken in. -/
def Along (P : σ → ε → Prop) : σ → List ε → Prop
  | _, [] => True
  | s, e :: es => P s e ∧ ∀ s', step s e = .ok s' → Along P s' es

end Defs

variable {step : σ → ε → Except φ σ} {Inv : σ → Prop} {P Q : σ → ε → Prop}

/-- A condition on the result of a step. -/
instance decidableOk {ε α : Type*} (x : Except ε α) (p : α → Prop) [DecidablePred p] :
    Decidable (∀ a, x = .ok a → p a) :=
  match x with
  | .error _ => isTrue fun _ h => nomatch h
  | .ok a => decidable_of_iff (p a) ⟨fun hp _ h => Except.ok.inj h ▸ hp, fun h => h a rfl⟩

instance decidableSome {α : Type*} (x : Option α) (p : α → Prop) [DecidablePred p] :
    Decidable (∀ a, x = some a → p a) :=
  match x with
  | none => isTrue fun _ h => nomatch h
  | some a => decidable_of_iff (p a) ⟨fun hp _ h => Option.some.inj h ▸ hp, fun h => h a rfl⟩

/-- Whether a condition holds along a run can be tried out. -/
instance decidableAlong [∀ s e, Decidable (P s e)] :
    ∀ (s : σ) (es : List ε), Decidable (Along step P s es)
  | _, [] => isTrue trivial
  | s, e :: es =>
    match hs : step s e with
    | .ok s' =>
      have := decidableAlong s' es
      decidable_of_iff (P s e ∧ Along step P s' es)
        ⟨fun h => ⟨h.1, fun t ht => by cases hs.symm.trans ht; exact h.2⟩,
          fun h => ⟨h.1, h.2 s' hs⟩⟩
    | .error _ =>
      decidable_of_iff (P s e)
        ⟨fun h => ⟨h, fun t ht => by cases hs.symm.trans ht⟩, fun h => h.1⟩

theorem run_cons_ok {s s' : σ} {e : ε} {es : List ε} (h : step s e = .ok s') :
    run step s (e :: es) = run step s' es := by
  rw [run, h]

theorem run_append (s : σ) (es fs : List ε) :
    run step s (es ++ fs) = (run step s es).bind (run step · fs) := by
  induction es generalizing s with
  | nil => rfl
  | cons e es ih =>
    rw [List.cons_append, run, run]
    cases step s e with
    | ok s' => exact ih s'
    | error f => rfl

theorem run_total (next : σ → ε → σ) (s : σ) (es : List ε) :
    run (φ := φ) (fun s e => .ok (next s e)) s es = .ok (es.foldl next s) := by
  induction es generalizing s with
  | nil => rfl
  | cons e es ih => exact ih (next s e)

theorem Throughout.head {s : σ} : ∀ {es : List ε}, Throughout step Inv s es → Inv s
  | [], h => h
  | _ :: _, h => h.1

theorem Throughout.last {s s' : σ} {es : List ε} (h : Throughout step Inv s es)
    (hrun : run step s es = .ok s') : Inv s' := by
  induction es generalizing s with
  | nil =>
    obtain rfl : s = s' := by simpa [run] using hrun
    exact h
  | cons e es ih =>
    rw [run] at hrun
    cases hs : step s e with
    | ok t =>
      rw [hs] at hrun
      exact ih (h.2 t hs) hrun
    | error f => rw [hs] at hrun; cases hrun

theorem Throughout.imp {Inv' : σ → Prop} (himp : ∀ s, Inv s → Inv' s) {s : σ} {es : List ε}
    (h : Throughout step Inv s es) : Throughout step Inv' s es := by
  induction es generalizing s with
  | nil => exact himp s h
  | cons e es ih => exact ⟨himp s h.1, fun s' hs => ih (h.2 s' hs)⟩

theorem Throughout.and {Inv' : σ → Prop} {s : σ} {es : List ε} (h : Throughout step Inv s es)
    (h' : Throughout step Inv' s es) : Throughout step (fun s => Inv s ∧ Inv' s) s es := by
  induction es generalizing s with
  | nil => exact ⟨h, h'⟩
  | cons e es ih => exact ⟨⟨h.1, h'.1⟩, fun s' hs => ih (h.2 s' hs) (h'.2 s' hs)⟩

theorem Along.imp (hPQ : ∀ s e, P s e → Q s e) {s : σ} {es : List ε} (h : Along step P s es) :
    Along step Q s es := by
  induction es generalizing s with
  | nil => trivial
  | cons e es ih => exact ⟨hPQ s e h.1, fun s' hs => ih (h.2 s' hs)⟩

theorem Along.of_inv (hstep : ∀ s e s', Inv s → P s e → step s e = .ok s' → Inv s')
    (hPQ : ∀ s e, Inv s → P s e → Q s e) {s : σ} {es : List ε} (hs : Inv s)
    (h : Along step P s es) : Along step Q s es := by
  induction es generalizing s with
  | nil => trivial
  | cons e es ih =>
    refine ⟨hPQ s e hs h.1, fun s' hs' => ?_⟩
    exact ih (hstep s e s' hs h.1 hs') (h.2 s' hs')

theorem throughout_of_along
    (hstep : ∀ s e s', Inv s → P s e → step s e = .ok s' → Inv s') {s : σ} {es : List ε}
    (hs : Inv s) (h : Along step P s es) : Throughout step Inv s es := by
  induction es generalizing s with
  | nil => exact hs
  | cons e es ih =>
    refine ⟨hs, fun s' hs' => ?_⟩
    exact ih (hstep s e s' hs h.1 hs') (h.2 s' hs')

theorem throughout_of_step (hstep : ∀ s e s', Inv s → step s e = .ok s' → Inv s') {s : σ}
    (hs : Inv s) (es : List ε) : Throughout step Inv s es := by
  induction es generalizing s with
  | nil => exact hs
  | cons e es ih => exact ⟨hs, fun s' hs' => ih (hstep s e s' hs hs')⟩

theorem throughout_iff_along
    (hok : ∀ s e, Inv s → ∃ s', step s e = .ok s')
    (hstep : ∀ s e s', Inv s → step s e = .ok s' → (Inv s' ↔ P s e)) {s : σ} (hs : Inv s)
    (es : List ε) : Throughout step Inv s es ↔ Along step P s es := by
  refine ⟨fun h => ?_, throughout_of_along (fun s e s' hi hp h => (hstep s e s' hi h).2 hp) hs⟩
  induction es generalizing s with
  | nil => trivial
  | cons e es ih =>
    obtain ⟨s', hs'⟩ := hok s e hs
    have hinv := (h.2 s' hs').head
    refine ⟨(hstep s e s' hs hs').1 hinv, fun t ht => ?_⟩
    exact ih (h.2 t ht).head (h.2 t ht)

/-- Where an invariant holds anyway, and every step keeps a property exactly under a condition, so does
every run. -/
theorem throughout_iff_along_of_inv {Good : σ → Prop}
    (hok : ∀ s e, Inv s → ∃ s', step s e = .ok s')
    (hinv : ∀ s e s', Inv s → Good s → step s e = .ok s' → Inv s')
    (hstep : ∀ s e s', Inv s → Good s → step s e = .ok s' → (Good s' ↔ P s e)) {s : σ} (hs : Inv s)
    (hg : Good s) (es : List ε) : Throughout step Good s es ↔ Along step P s es := by
  induction es generalizing s with
  | nil => exact iff_of_true hg trivial
  | cons e es ih =>
    obtain ⟨s', hs'⟩ := hok s e hs
    constructor
    · rintro ⟨-, h⟩
      refine ⟨(hstep s e s' hs hg hs').1 (h s' hs').head, fun t ht => ?_⟩
      exact (ih (hinv s e t hs hg ht) (h t ht).head).1 (h t ht)
    · rintro ⟨hp, h⟩
      refine ⟨hg, fun t ht => ?_⟩
      exact (ih (hinv s e t hs hg ht) ((hstep s e t hs hg ht).2 hp)).2 (h t ht)

theorem run_ok_of_along
    (hstep : ∀ s e, Inv s → P s e → ∃ s', step s e = .ok s' ∧ Inv s') {s : σ} {es : List ε}
    (hs : Inv s) (h : Along step P s es) : ∃ s', run step s es = .ok s' ∧ Inv s' := by
  induction es generalizing s with
  | nil => exact ⟨s, rfl, hs⟩
  | cons e es ih =>
    obtain ⟨s', hs', hinv⟩ := hstep s e hs h.1
    obtain ⟨t, ht, htinv⟩ := ih hinv (h.2 s' hs')
    exact ⟨t, (run_cons_ok hs').trans ht, htinv⟩

theorem run_throughout_of_along
    (hstep : ∀ s e, Inv s → P s e → ∃ s', step s e = .ok s' ∧ Inv s') {s : σ} {es : List ε}
    (hs : Inv s) (h : Along step P s es) :
    (∃ s', run step s es = .ok s') ∧ Throughout step Inv s es := by
  obtain ⟨t, hrun, -⟩ := run_ok_of_along hstep hs h
  refine ⟨⟨t, hrun⟩, throughout_of_along (fun s e s' hinv hp hs' => ?_) hs h⟩
  obtain ⟨u, hu, hinv'⟩ := hstep s e hinv hp
  obtain rfl := Except.ok.inj (hu.symm.trans hs')
  exact hinv'

theorem run_error_of_along {F : φ → Prop}
    (hstep : ∀ s e, Inv s → P s e →
      (∃ s', step s e = .ok s' ∧ Inv s') ∨ ∃ f, step s e = .error f ∧ F f)
    {s : σ} {es : List ε} (hs : Inv s) (h : Along step P s es) {f : φ}
    (hrun : run step s es = .error f) : F f := by
  induction es generalizing s with
  | nil => cases hrun
  | cons e es ih =>
    rcases hstep s e hs h.1 with ⟨s', hs', hinv⟩ | ⟨g, hg, hF⟩
    · rw [run_cons_ok hs'] at hrun
      exact ih hinv (h.2 s' hs') hrun
    · rw [run, hg] at hrun
      cases hrun
      exact hF

theorem run_ok_iff_along (hok : ∀ s e, Inv s → ((∃ s', step s e = .ok s') ↔ P s e))
    (hstep : ∀ s e s', Inv s → step s e = .ok s' → Inv s') {s : σ} (hs : Inv s) (es : List ε) :
    (∃ s', run step s es = .ok s') ↔ Along step P s es := by
  induction es generalizing s with
  | nil => exact iff_of_true ⟨s, rfl⟩ trivial
  | cons e es ih =>
    constructor
    · rintro ⟨t, ht⟩
      rw [run] at ht
      rcases hs' : step s e with f | s'
      · rw [hs'] at ht
        cases ht
      · rw [hs'] at ht
        refine ⟨(hok s e hs).1 ⟨s', hs'⟩, fun u hu => ?_⟩
        obtain rfl : s' = u := Except.ok.inj (hs'.symm.trans hu)
        exact (ih (hstep s e s' hs hs')).1 ⟨t, ht⟩
    · rintro ⟨hp, hrest⟩
      obtain ⟨s', hs'⟩ := (hok s e hs).2 hp
      rw [run_cons_ok hs']
      exact (ih (hstep s e s' hs hs')).2 (hrest s' hs')

theorem run_ne_error_iff_along {f : φ} (hne : ∀ s e, Inv s → (step s e ≠ .error f ↔ P s e))
    (hstep : ∀ s e s', Inv s → step s e = .ok s' → Inv s') {s : σ} (hs : Inv s) (es : List ε) :
    run step s es ≠ .error f ↔ Along step P s es := by
  induction es generalizing s with
  | nil => exact iff_of_true (fun h => nomatch h) trivial
  | cons e es ih =>
    have hhead := hne s e hs
    rw [run, Along]
    rcases hs' : step s e with g | s'
    · rw [hs'] at hhead
      refine ⟨fun h => ⟨hhead.1 fun hg => h ?_, fun t ht => (nomatch ht)⟩, fun h hg => hhead.2 h.1 ?_⟩
      · exact congrArg Except.error (Except.error.inj hg)
      · exact congrArg Except.error (Except.error.inj hg)
    · rw [hs'] at hhead
      have hrest := ih (hstep s e s' hs hs')
      refine ⟨fun h => ⟨hhead.1 (fun hg => nomatch hg), fun t ht => ?_⟩, fun h => ?_⟩
      · obtain rfl := Except.ok.inj ht
        exact hrest.1 h
      · exact hrest.2 (h.2 s' rfl)

theorem run_throughout_iff_along
    (hstep : ∀ s e, Inv s → ((∃ s', step s e = .ok s' ∧ Inv s') ↔ P s e)) {s : σ} (hs : Inv s)
    (es : List ε) :
    (∃ s', run step s es = .ok s') ∧ Throughout step Inv s es ↔ Along step P s es := by
  induction es generalizing s with
  | nil => exact iff_of_true ⟨⟨s, rfl⟩, hs⟩ trivial
  | cons e es ih =>
    constructor
    · rintro ⟨⟨t, ht⟩, -, hall⟩
      rw [run] at ht
      rcases hs' : step s e with f | s'
      · rw [hs'] at ht
        cases ht
      · rw [hs'] at ht
        have hinv := (hall s' hs').head
        refine ⟨(hstep s e hs).1 ⟨s', hs', hinv⟩, fun u hu => ?_⟩
        obtain rfl : s' = u := Except.ok.inj (hs'.symm.trans hu)
        exact (ih hinv).1 ⟨⟨t, ht⟩, hall s' hs'⟩
    · rintro ⟨hp, hrest⟩
      obtain ⟨s', hs', hinv⟩ := (hstep s e hs).2 hp
      obtain ⟨hrun, hall⟩ := (ih hinv).2 (hrest s' hs')
      rw [run_cons_ok hs']
      refine ⟨hrun, hs, fun u hu => ?_⟩
      obtain rfl : s' = u := Except.ok.inj (hs'.symm.trans hu)
      exact hall

end Machine
