import Mathlib.Data.List.TakeWhile
import Mathlib.Data.List.Forall2
import Eggdrop.Base.CString

/-!
# Entries — the entry list of a user record

An entry is typed, with a value that its type's functions understand, or it has a name only: it
was read from a userfile before its type was known, or its type was unloaded.  The entry types are
a table of functions here as they are in the source.

* `findUserEntry_meets_iff`: looking an entry up follows the missing type of every entry that has
  none, so it works exactly when a typed entry of that name comes before all of those.
* `setUser_safe_iff`: the same for `set_user`, which for some types looks up a second entry.
* `restores_iff`: unloading a type leaves its entry at the head of the list without a type, which
  is where loading the type again looks first.
-/

namespace Eggdrop.Users

/-- What can go wrong in memory. -/
inductive Fault where
  /-- the type of an entry that has none is followed -/
  | missingType
  /-- a value is read as something it is not -/
  | badRepr
  /-- a null pointer, or one that never was a record, is followed -/
  | badPointer
  /-- memory is read after it was freed -/
  | useAfterFree
  /-- `op_free` is given what lies in a slab -/
  | badFree
deriving DecidableEq, Repr

/-- `struct user_entry_type`: the functions of the entry types `τ`, on values `ν` of the union `u`
and new data `δ` for `set`. -/
structure EntryOps (τ ν δ : Type) where
  name : τ → CStr
  /-- `u.list` read as a pointer is null -/
  isNull : ν → Bool
  null : ν
  unpack : τ → ν → Option ν
  pack : τ → ν → Option ν
  /-- the new value, and whether `set` returns nonzero -/
  set : τ → δ → ν → Option (ν × Bool)
  /-- the `set_user` call on a second type that `set` makes -/
  also : τ → δ → ν → Option (τ × δ)
  also_also {t t' : τ} {d d' : δ} {u : ν} : also t d u = some (t', d') → ∀ v, also t' d' v = none
  also_name {t t' : τ} {d d' : δ} {u : ν} :
    also t d u = some (t', d') → strcaseEq (name t) (name t') = false

/-- `struct user_entry`. -/
inductive Entry (τ ν : Type) where
  | typed (type : τ) (u : ν)
  | named (name : CStr) (u : ν)
deriving DecidableEq

section Code

variable {τ ν δ : Type} (ops : EntryOps τ ν δ)

def Entry.u : Entry τ ν → ν
  | .typed _ u => u
  | .named _ u => u

def Entry.withU : Entry τ ν → ν → Entry τ ν
  | .typed t _, u => .typed t u
  | .named n _, u => .named n u

def Entry.isTyped : Entry τ ν → Bool
  | .typed _ _ => true
  | .named _ _ => false

/-- `find_user_entry`: the entry and the other ones.  In the source the entry found becomes the
first of the list. -/
def findUserEntry (et : τ) :
    List (Entry τ ν) → Except Fault (Option (Entry τ ν × List (Entry τ ν)))
  | [] => .ok none
  -- `type == et` and then `type->name`, also where `type` is null
  | .named _ _ :: _ => .error .missingType
  | e@(.typed t _) :: es =>
    if strcaseEq (ops.name t) (ops.name et) then .ok (some (e, es))
    else (findUserEntry et es).map (Option.map fun r => (r.1, e :: r.2))

/-- `get_user` on a record: the value found, and the entries as the search leaves them. -/
def getUser (et : τ) (es : List (Entry τ ν)) : Except Fault (Option ν × List (Entry τ ν)) :=
  (findUserEntry ops et es).map fun
    | none => (none, es)
    | some (e, rest) => (some e.u, e :: rest)

/-- A value that does not fit is read all the same. -/
def orBad {α : Type} : Option α → Except Fault α
  | some a => .ok a
  | none => .error .badRepr

/-- The entry `set_user` works on, new if there is none, and the other entries. -/
def entryFor (et : τ) (es : List (Entry τ ν)) :
    Except Fault (Entry τ ν × List (Entry τ ν)) :=
  (findUserEntry ops et es).map fun r => r.getD (.typed et ops.null, es)

/-- `et->set` on an entry: the entry, if it stays, and what `set` returned. -/
def setOne (et : τ) (d : δ) (e : Entry τ ν) : Except Fault (Option (Entry τ ν) × Bool) :=
  (orBad (ops.set et d e.u)).map fun (u, r) =>
    (if ops.isNull u then none else some (e.withU u), r)

/-- `set_user` for a type whose `set` makes no second call. -/
def setEntry (et : τ) (d : δ) (es : List (Entry τ ν)) :
    Except Fault (Option (Entry τ ν) × List (Entry τ ν) × Bool) := do
  let (e, rest) ← entryFor ops et es
  let (first, r) ← setOne ops et d e
  pure (first, rest, r)

/-- `set_user`: the new entries, and whether the record becomes dirty. -/
def setUser (et : τ) (d : δ) (es : List (Entry τ ν)) :
    Except Fault (List (Entry τ ν) × Bool) := do
  let (e, rest) ← entryFor ops et es
  match ops.also et d e.u with
  | none => do
    let (first, r) ← setOne ops et d e
    pure (first.toList ++ rest, r)
  | some (t', d') => do
    -- the second search passes over `e` at the head, and puts its own entry before it
    let (second, rest, r') ← setEntry ops t' d' rest
    let (first, r) ← setOne ops et d e
    pure (second.toList ++ first.toList ++ rest, r || r')

/-- The loaded types and the entries of every user on the list. -/
structure EntryState (τ ν : Type) where
  types : List τ
  users : List (List (Entry τ ν))

/-- `add_entry_type` on one user. -/
def adopt (et : τ) (es : List (Entry τ ν)) : Except Fault (List (Entry τ ν)) := do
  match ← findUserEntry ops et es with
  | none => pure es
  | some (.named _ u, rest) => do
    let u ← orBad (ops.unpack et u)
    pure (.typed et u :: rest)
  | some (e, rest) => pure (e :: rest)

/-- `del_entry_type` on one user. -/
def demote (et : τ) (es : List (Entry τ ν)) : Except Fault (List (Entry τ ν)) := do
  match ← findUserEntry ops et es with
  | none => pure es
  | some (.typed t u, rest) => do
    let u ← orBad (ops.pack t u)
    pure (.named (ops.name t) u :: rest)
  | some (e, rest) => pure (e :: rest)

/-- `add_entry_type`. -/
def addEntryType (et : τ) (st : EntryState τ ν) : Except Fault (EntryState τ ν) := do
  let users ← st.users.mapM (adopt ops et)
  pure ⟨st.types ++ [et], users⟩

/-- `del_entry_type`. -/
def delEntryType [DecidableEq τ] (et : τ) (st : EntryState τ ν) :
    Except Fault (EntryState τ ν) := do
  let users ← st.users.mapM (demote ops et)
  pure ⟨st.types.erase et, users⟩

end Code

/-! ### What a lookup is for -/

section Spec

variable {τ ν δ : Type} (ops : EntryOps τ ν δ)

/-- The name an entry goes by. -/
def Entry.name : Entry τ ν → CStr
  | .typed t _ => ops.name t
  | .named n _ => n

/-- An entry of type `et`, by its name, with or without a type. -/
def Entry.isFor (et : τ) (e : Entry τ ν) : Bool := strcaseEq (e.name ops) (ops.name et)

/-- The lookup reads no missing type and finds the first entry of that name, whatever its form. -/
def FindMeets (et : τ) (es : List (Entry τ ν)) : Prop :=
  ∃ r, findUserEntry ops et es = .ok r ∧
    r.map Prod.fst = es.find? (Entry.isFor ops et) ∧
    ∀ p, r = some p → p.2 = es.eraseP (Entry.isFor ops et)

/-- `get_user` reads no missing type and returns the value of the entry of that name. -/
def GetMeets (et : τ) (es : List (Entry τ ν)) : Prop :=
  ∃ es', getUser ops et es = .ok ((es.find? (Entry.isFor ops et)).map Entry.u, es')

/-- `set_user` reads no missing type. -/
def SetSafe (et : τ) (d : δ) (es : List (Entry τ ν)) : Prop :=
  setUser ops et d es ≠ .error .missingType

/-- Two entries with the same type and the same packed content. -/
def SameContent (a b : Entry τ ν) : Prop :=
  ∃ t u v, a = .typed t u ∧ b = .typed t v ∧ ops.pack t u = ops.pack t v

/-- Unloading and loading a type gives every user's entry of it back. -/
def Restores [DecidableEq τ] (et : τ) (st : EntryState τ ν) : Prop :=
  ∃ st₁ st₂, delEntryType ops et st = .ok st₁ ∧ addEntryType ops et st₁ = .ok st₂ ∧
    List.Forall₂ (fun es es' =>
      Option.Rel (SameContent ops) (es.find? (Entry.isFor ops et))
        (es'.find? (Entry.isFor ops et))) st.users st₂.users

/-- A typed entry of type `et`. -/
def Entry.isTypedFor (et : τ) (e : Entry τ ν) : Bool := e.isTyped && e.isFor ops et

/-- Every entry before the first typed one of type `et` has a type. -/
def Clear (et : τ) (es : List (Entry τ ν)) : Prop :=
  ∀ e ∈ es.takeWhile fun e => !e.isTypedFor ops et, e.isTyped = true

/-- The list is clear for `et`, and for the second type that `set` looks up, given the value of
the entry of `et`. -/
def ClearToSet (et : τ) (d : δ) (es : List (Entry τ ν)) : Prop :=
  Clear ops et es ∧
    ∀ t' d', ops.also et d (((es.find? (Entry.isFor ops et)).map Entry.u).getD ops.null) =
      some (t', d') → Clear ops t' es

end Spec

/-! ### When the lookup works -/

section Lookup

variable {τ ν δ : Type} (ops : EntryOps τ ν δ) (et : τ)

@[simp] theorem clear_nil : Clear ops et [] := by
  intro e he
  cases he

@[simp] theorem clear_typed_cons (t : τ) (u : ν) (es : List (Entry τ ν)) :
    Clear ops et (.typed t u :: es) ↔
      strcaseEq (ops.name t) (ops.name et) = true ∨ Clear ops et es := by
  unfold Clear
  cases h : strcaseEq (ops.name t) (ops.name et) <;>
    simp [Entry.isTypedFor, Entry.isTyped, Entry.isFor, Entry.name, h]

@[simp] theorem not_clear_named_cons (n : CStr) (u : ν) (es : List (Entry τ ν)) :
    ¬ Clear ops et (.named n u :: es) := by
  intro h
  have := h (.named n u) (by simp [Entry.isTypedFor, Entry.isTyped])
  cases this

theorem findUserEntry_of_clear {es : List (Entry τ ν)} (h : Clear ops et es) :
    findUserEntry ops et es =
      .ok ((es.find? (Entry.isFor ops et)).map fun e => (e, es.eraseP (Entry.isFor ops et))) := by
  induction es with
  | nil => rfl
  | cons e es ih =>
    cases e with
    | named n u => exact absurd h (not_clear_named_cons ops et n u es)
    | typed t u =>
      have hfor : Entry.isFor ops et (.typed t u) = strcaseEq (ops.name t) (ops.name et) := rfl
      rw [findUserEntry, List.find?_cons, List.eraseP_cons, hfor]
      by_cases ht : strcaseEq (ops.name t) (ops.name et) = true
      · simp only [ht, if_true, cond_true, Option.map_some]
      · rw [if_neg ht, ih (((clear_typed_cons ops et t u es).1 h).resolve_left ht)]
        simp only [ht, cond_false]
        cases es.find? (Entry.isFor ops et) <;> rfl

theorem findUserEntry_of_not_clear {es : List (Entry τ ν)} (h : ¬ Clear ops et es) :
    findUserEntry ops et es = .error .missingType := by
  induction es with
  | nil => exact absurd (clear_nil ops et) h
  | cons e es ih =>
    cases e with
    | named n u => rfl
    | typed t u =>
      rw [clear_typed_cons, not_or] at h
      rw [findUserEntry, if_neg h.1, ih h.2]
      rfl

theorem findUserEntry_meets_iff (es : List (Entry τ ν)) :
    FindMeets ops et es ↔ Clear ops et es := by
  constructor
  · rintro ⟨r, hr, -⟩
    by_contra h
    rw [findUserEntry_of_not_clear ops et h] at hr
    cases hr
  · intro h
    refine ⟨_, findUserEntry_of_clear ops et h, ?_, ?_⟩
    · cases es.find? (Entry.isFor ops et) <;> rfl
    · intro p hp
      obtain ⟨e, -, rfl⟩ := Option.map_eq_some_iff.1 hp
      rfl

theorem getUser_meets_iff (es : List (Entry τ ν)) :
    GetMeets ops et es ↔ Clear ops et es := by
  unfold GetMeets getUser
  constructor
  · rintro ⟨es', h⟩
    by_contra hc
    rw [findUserEntry_of_not_clear ops et hc] at h
    cases h
  · intro h
    rw [findUserEntry_of_clear ops et h]
    cases es.find? (Entry.isFor ops et) <;> exact ⟨_, rfl⟩

end Lookup

/-! ### Setting an entry -/

section SetUser

variable {τ ν δ : Type} (ops : EntryOps τ ν δ) (et : τ)

theorem clear_eraseP {t' : τ} (hname : strcaseEq (ops.name et) (ops.name t') = false)
    {es : List (Entry τ ν)} (h : Clear ops et es) :
    Clear ops t' (es.eraseP (Entry.isFor ops et)) ↔ Clear ops t' es := by
  induction es with
  | nil => rfl
  | cons e es ih =>
    cases e with
    | named n u => exact absurd h (not_clear_named_cons ops et n u es)
    | typed t u =>
      have hfor : Entry.isFor ops et (.typed t u) = strcaseEq (ops.name t) (ops.name et) := rfl
      rw [List.eraseP_cons, hfor]
      cases ht : strcaseEq (ops.name t) (ops.name et) with
      | true =>
        have hne : ¬ strcaseEq (ops.name t) (ops.name t') = true := by
          rw [strcaseEq_congr_left ht, hname]
          exact Bool.false_ne_true
        rw [cond_true, clear_typed_cons, or_iff_right hne]
      | false =>
        rw [cond_false, clear_typed_cons, clear_typed_cons]
        rw [clear_typed_cons, ht] at h
        rw [ih (h.resolve_left Bool.false_ne_true)]

theorem setOne_ne_missingType (d : δ) (e : Entry τ ν) :
    setOne ops et d e ≠ .error .missingType := by
  unfold setOne
  cases ops.set et d e.u <;> exact fun h => nomatch h

theorem entryFor_of_clear {es : List (Entry τ ν)} (h : Clear ops et es) :
    ∃ e, entryFor ops et es = .ok (e, es.eraseP (Entry.isFor ops et)) ∧
      e.u = ((es.find? (Entry.isFor ops et)).map Entry.u).getD ops.null := by
  unfold entryFor
  rw [findUserEntry_of_clear ops et h]
  cases hf : es.find? (Entry.isFor ops et) with
  | none =>
    refine ⟨.typed et ops.null, ?_, rfl⟩
    rw [List.eraseP_of_forall_not fun e he => by simpa using List.find?_eq_none.1 hf e he]
    rfl
  | some e => exact ⟨e, rfl, rfl⟩

theorem map_eq_error_iff {α β ε : Type} {x : Except ε α} {f : α → β} {e : ε} :
    x.map f = .error e ↔ x = .error e := by
  cases x <;> simp [Except.map]

theorem setEntry_of_entryFor {es rest : List (Entry τ ν)} {e : Entry τ ν}
    (h : entryFor ops et es = .ok (e, rest)) (d : δ) :
    setEntry ops et d es = (setOne ops et d e).map fun r => (r.1, rest, r.2) := by
  simp only [setEntry, h, Bind.bind, Except.bind]
  cases setOne ops et d e <;> rfl

theorem setUser_of_entryFor {es rest : List (Entry τ ν)} {e : Entry τ ν}
    (h : entryFor ops et es = .ok (e, rest)) (d : δ) :
    setUser ops et d es = match ops.also et d e.u with
      | none => (setOne ops et d e).map fun r => (r.1.toList ++ rest, r.2)
      | some (t', d') => (setEntry ops t' d' rest).bind fun r' =>
        (setOne ops et d e).map fun r => (r'.1.toList ++ r.1.toList ++ r'.2.1, r.2 || r'.2.2) := by
  simp only [setUser, h, Bind.bind, Except.bind]
  cases ops.also et d e.u with
  | none => cases setOne ops et d e <;> rfl
  | some p =>
    dsimp only
    cases setEntry ops p.1 p.2 rest with
    | error f => rfl
    | ok r' => cases setOne ops et d e <;> rfl

theorem setEntry_eq_missingType_iff (d : δ) (es : List (Entry τ ν)) :
    setEntry ops et d es = .error .missingType ↔ ¬ Clear ops et es := by
  by_cases h : Clear ops et es
  · obtain ⟨e, he, -⟩ := entryFor_of_clear ops et h
    rw [setEntry_of_entryFor ops et he, map_eq_error_iff]
    exact iff_of_false (setOne_ne_missingType ops et d e) (not_not.2 h)
  · simp only [h, not_false_iff, iff_true, setEntry, entryFor, findUserEntry_of_not_clear ops et h]
    rfl

theorem setUser_safe_iff (d : δ) (es : List (Entry τ ν)) :
    SetSafe ops et d es ↔ ClearToSet ops et d es := by
  unfold SetSafe ClearToSet
  by_cases h : Clear ops et es
  · obtain ⟨e, he, hu⟩ := entryFor_of_clear ops et h
    have hset := setOne_ne_missingType ops et d e
    rw [← hu, setUser_of_entryFor ops et he]
    cases hd : ops.also et d e.u with
    | none =>
      simp only [h, reduceCtorEq, false_implies, implies_true, and_true, iff_true]
      rwa [Ne, map_eq_error_iff]
    | some p =>
      obtain ⟨t', d'⟩ := p
      have hsecond := setEntry_eq_missingType_iff ops t' d' (es.eraseP (Entry.isFor ops et))
      rw [clear_eraseP ops et (ops.also_name hd) h] at hsecond
      have hgoal : (∀ t d, some (t', d') = some (t, d) → Clear ops t es) ↔ Clear ops t' es := by
        simp
      rw [hgoal, and_iff_right h, ← not_iff_not, ← hsecond, not_not]
      dsimp only
      cases setEntry ops t' d' (es.eraseP (Entry.isFor ops et)) with
      | error f => simp only [Except.bind, Except.error.injEq]
      | ok r =>
        simp only [Except.bind, map_eq_error_iff, reduceCtorEq, iff_false]
        exact hset
  · simp only [h, false_and, iff_false, not_not, setUser, entryFor,
      findUserEntry_of_not_clear ops et h]
    rfl

end SetUser

/-! ### Unloading and loading a type -/

section Restore

theorem forall₂_of_mapM {α β ε : Type} {f : α → Except ε β} {l : List α} {l' : List β}
    (h : l.mapM f = .ok l') : List.Forall₂ (fun a b => f a = .ok b) l l' := by
  induction l generalizing l' with
  | nil =>
    obtain rfl : [] = l' := by simpa [pure, Except.pure] using h
    exact .nil
  | cons a l ih =>
    rw [List.mapM_cons] at h
    cases ha : f a with
    | error e => rw [ha] at h; exact nomatch h
    | ok b =>
      cases hl : l.mapM f with
      | error e => rw [ha, hl] at h; exact nomatch h
      | ok bs =>
        rw [ha, hl] at h
        obtain rfl : b :: bs = l' := by simpa [Bind.bind, Except.bind, pure, Except.pure] using h
        exact .cons ha (ih hl)

theorem mapM_eq_self {α ε : Type} {f : α → Except ε α} {l : List α}
    (h : ∀ a ∈ l, f a = .ok a) : l.mapM f = .ok l := by
  induction l with
  | nil => rfl
  | cons a l ih =>
    rw [List.mapM_cons, h a List.mem_cons_self, ih fun b hb => h b (List.mem_cons_of_mem a hb)]
    rfl

variable {τ ν δ : Type} (ops : EntryOps τ ν δ) (et : τ)

/-- Every entry has a type, and none the type `et`. -/
def Untouched (es : List (Entry τ ν)) : Prop :=
  ∀ e ∈ es, e.isTyped = true ∧ e.isFor ops et = false

theorem Untouched.clear {es : List (Entry τ ν)} (h : Untouched ops et es) : Clear ops et es :=
  fun e he => (h e ((List.takeWhile_sublist _).subset he)).1

theorem Untouched.find? {es : List (Entry τ ν)} (h : Untouched ops et es) :
    es.find? (Entry.isFor ops et) = none :=
  List.find?_eq_none.2 fun e he => by simp [(h e he).2]

theorem demote_of_untouched {es : List (Entry τ ν)} (h : Untouched ops et es) :
    demote ops et es = .ok es := by
  unfold demote
  rw [findUserEntry_of_clear ops et h.clear, h.find?]
  rfl

theorem adopt_of_untouched {es : List (Entry τ ν)} (h : Untouched ops et es) :
    adopt ops et es = .ok es := by
  unfold adopt
  rw [findUserEntry_of_clear ops et h.clear, h.find?]
  rfl

theorem mem_takeWhile_of_find? {es : List (Entry τ ν)} {n : CStr} {u : ν}
    (h : es.find? (Entry.isFor ops et) = some (.named n u)) :
    Entry.named n u ∈ es.takeWhile fun e => !e.isTypedFor ops et := by
  induction es with
  | nil => cases h
  | cons e es ih =>
    cases hf : e.isFor ops et with
    | true =>
      rw [List.find?_cons_of_pos hf] at h
      obtain rfl : e = .named n u := Option.some.inj h
      exact List.mem_cons_self
    | false =>
      rw [List.find?_cons_of_neg (by simp [hf])] at h
      rw [List.takeWhile_cons_of_pos (by simp [Entry.isTypedFor, hf])]
      exact List.mem_cons_of_mem e (ih h)

theorem untouched_of_demote_adopt {es es₁ es₂ : List (Entry τ ν)}
    (hdel : demote ops et es = .ok es₁) (hadd : adopt ops et es₁ = .ok es₂) :
    Untouched ops et es := by
  have hclear : Clear ops et es := by
    by_contra h
    rw [demote, findUserEntry_of_not_clear ops et h] at hdel
    exact nomatch hdel
  have hfind : es.find? (Entry.isFor ops et) = none := by
    cases hf : es.find? (Entry.isFor ops et) with
    | none => rfl
    | some e =>
      exfalso
      rw [demote, findUserEntry_of_clear ops et hclear, hf] at hdel
      cases e with
      | named n u =>
        have hname := hclear (.named n u) (mem_takeWhile_of_find? ops et hf)
        cases hname
      | typed t u =>
        simp only [Bind.bind, Except.bind, Option.map_some] at hdel
        cases hp : ops.pack t u with
        | none => rw [hp] at hdel; exact nomatch hdel
        | some v =>
          rw [hp] at hdel
          obtain rfl : _ = es₁ := Except.ok.inj hdel
          rw [adopt, findUserEntry_of_not_clear ops et (not_clear_named_cons ops et _ v _)] at hadd
          exact nomatch hadd
  intro e he
  have hno : e.isFor ops et = false := by simpa using List.find?_eq_none.1 hfind e he
  refine ⟨?_, hno⟩
  have hwhole : es.takeWhile (fun x => !x.isTypedFor ops et) = es := by
    rw [List.takeWhile_eq_self_iff]
    intro x hx
    have : x.isFor ops et = false := by simpa using List.find?_eq_none.1 hfind x hx
    simp [Entry.isTypedFor, this]
  exact hclear e (hwhole.symm ▸ he)

theorem restores_iff [DecidableEq τ] (st : EntryState τ ν) :
    Restores ops et st ↔ ∀ es ∈ st.users, Untouched ops et es := by
  constructor
  · rintro ⟨st₁, st₂, hdel, hadd, -⟩ es hes
    cases hd : st.users.mapM (demote ops et) with
    | error f => rw [delEntryType, hd] at hdel; exact nomatch hdel
    | ok us₁ =>
      rw [delEntryType, hd] at hdel
      obtain rfl : _ = st₁ := Except.ok.inj hdel
      cases ha : us₁.mapM (adopt ops et) with
      | error f => rw [addEntryType] at hadd; dsimp only at hadd; rw [ha] at hadd; exact nomatch hadd
      | ok us₂ =>
        obtain ⟨i, hi, rfl⟩ := List.mem_iff_getElem.1 hes
        have h1 := forall₂_of_mapM hd
        have h2 := forall₂_of_mapM ha
        have hi1 : i < us₁.length := h1.length_eq ▸ hi
        have hi2 : i < us₂.length := h2.length_eq ▸ hi1
        exact untouched_of_demote_adopt ops et (h1.get hi hi1) (h2.get hi1 hi2)
  · intro h
    have hdel : st.users.mapM (demote ops et) = .ok st.users :=
      mapM_eq_self fun es hes => demote_of_untouched ops et (h es hes)
    have hadd : st.users.mapM (adopt ops et) = .ok st.users :=
      mapM_eq_self fun es hes => adopt_of_untouched ops et (h es hes)
    refine ⟨⟨st.types.erase et, st.users⟩, ⟨st.types.erase et ++ [et], st.users⟩, ?_, ?_, ?_⟩
    · rw [delEntryType, hdel]
      rfl
    · rw [addEntryType, hadd]
      rfl
    · rw [List.forall₂_same]
      intro es hes
      rw [(h es hes).find?]
      exact .none

end Restore

/-- On any record and any user list: when the three lookups do what they are for, and when
unloading and loading a type gives every entry back. -/
theorem entry_walkers_meet_iff {τ ν δ : Type} [DecidableEq τ] (ops : EntryOps τ ν δ) (et : τ)
    (d : δ) (es : List (Entry τ ν)) (st : EntryState τ ν) :
    (FindMeets ops et es ↔ Clear ops et es) ∧ (GetMeets ops et es ↔ Clear ops et es) ∧
      (SetSafe ops et d es ↔ ClearToSet ops et d es) ∧
      (Restores ops et st ↔ ∀ es ∈ st.users, Untouched ops et es) :=
  ⟨findUserEntry_meets_iff ops et es, getUser_meets_iff ops et es, setUser_safe_iff ops et d es,
    restores_iff ops et st⟩

end Eggdrop.Users
