import Mathlib.Data.List.Perm.Basic
import Mathlib.Logic.Function.Basic
import Eggdrop.Users.RecordEntries

/-!
# Password — the two stored passwords and the check of a login (src/userrec.c, src/userent.c)

A user has a password for each of the two kinds of encryption modules, `PASS` and `PASS2`.  Which of
the two a change sets, a login reads and a login moves to the other depends on the modules there are
at that time and on `remove-pass`.

* `Stores`: the entries of a record as a function, whatever their order.
* `Hashes.set_in`, `Hashes.login_in`, `Hashes.load_in`: what a change, a login and a reading of the
  userfile do to the two hashes.  A login that is to take the old one away aborts.
-/

namespace Eggdrop.Users

open List Function

/-! ### The code -/

/-- `verify_pass2`: nothing for a wrong password, the old hash, or a new one for the same password. -/
abbrev VerifyPass2 := CStr → CStr → Option (Option CStr)

/-- A value that is read as a `char *`. -/
def Value.asString : Value → Except Fault (Option CStr)
  | .null => .ok none
  | .string s => .ok (some s)
  | .freed => .error .useAfterFree
  | _ => .error .badRepr

namespace Userrec

variable (env : Env)

/-- What `u_pass_match` does with the old `PASS` once there is a new `PASS2`: the entry, which lies in
a slab, is given to `op_free`. -/
def removePass (u : Userrec) : Except Fault Userrec := do
  match ← findUserEntry (entryOps env.hooks u.flags) .pass u.entries with
  | some _ => .error .badFree
  | none => .error .badPointer

/-- The hash that `u_pass_match` compares with, and whether it is `PASS2`. -/
def passHash (u : Userrec) : Except Fault ((Option CStr × Bool) × Userrec) := do
  let (pass2, u) ←
    (if env.hooks.encryptPass2.isSome then u.getUser env .pass2 else pure (.null, u))
  if pass2.isNull then do
    let (pass, u) ← u.getUser env .pass
    let cmp ← pass.asString
    pure ((cmp, false), u)
  else do
    let cmp ← pass2.asString
    pure ((cmp, true), u)

/-- What `readuserfile` does to the passwords of a record once the lines are read. -/
def loadPass (u : Userrec) : Except Fault Userrec := do
  let u ← migratePassword env u
  if env.hooks.removePass && env.hooks.encryptPass.isSome && env.hooks.encryptPass2.isSome then
    cleanupPass u
  else pure u

/-- The comparison in `u_pass_match`, and what a right password changes. -/
def passCompare (verifyPass2 : VerifyPass2) (u : Userrec) (pass cmp : CStr) (second : Bool) :
    Except Fault (Bool × Userrec) :=
  if u.flags.has userBot then pure (cmp = pass, u)
  else if second then
    match verifyPass2 (pass.take passwordmax) cmp with
    | none => pure (false, u)
    | some none => pure (true, u)
    | some (some new) => do
      let u ← u.setUser env .pass2 (.string (some new))
      pure (true, u)
  else
    match env.hooks.encryptPass with
    | none => pure (false, u)
    | some encryptPass =>
      if encryptPass (pass.take passwordmax) ≠ cmp then pure (false, u)
      else
        match env.hooks.encryptPass2 with
        | none => pure (true, u)
        | some encryptPass2 =>
          match encryptPass2 (pass.take passwordmax) with
          | none => pure (true, u)
          | some new => do
            let u ← u.setUser env .pass2 (.string (some new))
            let u ← (if env.hooks.removePass then u.removePass env else pure u)
            pure (true, u)

/-- `u_pass_match`. -/
def passMatch (verifyPass2 : VerifyPass2) (u : Userrec) (pass : CStr) :
    Except Fault (Bool × Userrec) := do
  let ((cmp, second), u) ← u.passHash env
  if pass.head? = some '-' then pure (cmp.isNone, u)
  else
    match cmp with
    | none => pure (false, u)
    | some cmp => if pass = [] then pure (false, u) else u.passCompare env verifyPass2 pass cmp second

end Userrec

/-! ### The entries as a function -/

/-- Every entry has a type, no two have the same, and `f` gives what they hold. -/
structure Stores (es : List (Entry EntryType Value)) (f : EntryType → Value) : Prop where
  nodup : es.Nodup
  mem : ∀ e, e ∈ es ↔ ∃ t, (f t).isNull = false ∧ e = .typed t (f t)

namespace Stores

variable {env : Env} {flags : FlagWord} {et : EntryType} {es : List (Entry EntryType Value)}
  {f : EntryType → Value}

theorem perm (h : Stores es f) {es' : List (Entry EntryType Value)} (hp : es'.Perm es) :
    Stores es' f :=
  ⟨hp.nodup_iff.2 h.nodup, fun e => hp.mem_iff.trans (h.mem e)⟩

theorem isTyped (h : Stores es f) {e : Entry EntryType Value} (he : e ∈ es) : e.isTyped = true := by
  obtain ⟨t, -, rfl⟩ := (h.mem e).1 he
  rfl

theorem clear (h : Stores es f) (hooks : Hooks) (flags : FlagWord) (et : EntryType) :
    Clear (entryOps hooks flags) et es :=
  fun _ he => h.isTyped ((takeWhile_sublist _).subset he)

theorem isFor_typed (t : EntryType) (v : Value) :
    (Entry.typed t v).isFor (entryOps env.hooks flags) et = true ↔ t = et := by
  refine ⟨fun h => eq_of_name h, ?_⟩
  rintro rfl
  exact strcaseEq_refl _

theorem cons {v : Value} (h : Stores es f) (et : EntryType) (hn : (f et).isNull = true) (hv : v.isNull = false) :
    Stores (.typed et v :: es) (update f et v) where
  nodup := by
    refine nodup_cons.2 ⟨fun hmem => ?_, h.nodup⟩
    obtain ⟨t, ht, he⟩ := (h.mem _).1 hmem
    cases he
    simp [hn] at ht
  mem := by
    intro e
    rw [mem_cons, h.mem]
    constructor
    · rintro (rfl | ⟨t, ht, rfl⟩)
      · exact ⟨et, by simpa using hv, by simp⟩
      · have hne : t ≠ et := by
          rintro rfl
          simp [hn] at ht
        exact ⟨t, by simpa [hne] using ht, by simp [hne]⟩
    · rintro ⟨t, ht, rfl⟩
      by_cases hte : t = et
      · subst hte
        simp
      · rw [update_of_ne hte] at ht ⊢
        exact .inr ⟨t, ht, rfl⟩

theorem eq_of_cons {v : Value} (h : Stores (.typed et v :: es) f) : v = f et ∧ (f et).isNull = false := by
  obtain ⟨t, ht, he⟩ := (h.mem _).1 mem_cons_self
  cases he
  exact ⟨rfl, ht⟩

theorem tail {v : Value} (h : Stores (.typed et v :: es) f) : Stores es (update f et .null) where
  nodup := h.nodup.of_cons
  mem := by
    intro e
    have hnot : Entry.typed et v ∉ es := (nodup_cons.1 h.nodup).1
    have hmem := h.mem e
    rw [mem_cons, h.eq_of_cons.1] at hmem
    rw [h.eq_of_cons.1] at hnot
    constructor
    · intro he
      obtain ⟨t, ht, rfl⟩ := hmem.1 (.inr he)
      have hne : t ≠ et := by
        rintro rfl
        exact hnot he
      exact ⟨t, by simpa [hne] using ht, by simp [hne]⟩
    · rintro ⟨t, ht, rfl⟩
      have hne : t ≠ et := by
        rintro rfl
        simp [Value.isNull] at ht
      rw [update_of_ne hne] at ht ⊢
      exact ((h.mem _).2 ⟨t, ht, rfl⟩ |> mem_cons.1).resolve_left (by simp [hne])

theorem findUserEntry (h : Stores es f) (env : Env) (flags : FlagWord) (et : EntryType) :
    ((f et).isNull = true ∧ Users.findUserEntry (entryOps env.hooks flags) et es = .ok none) ∨
      ((f et).isNull = false ∧ ∃ rest, Users.findUserEntry (entryOps env.hooks flags) et es =
          .ok (some (.typed et (f et), rest)) ∧ (Entry.typed et (f et) :: rest).Perm es) := by
  have hok := findUserEntry_of_clear _ _ (h.clear env.hooks flags et)
  rcases findUserEntry_spec env _ hok with ⟨hn, hno⟩ | ⟨v, rest, hs, hperm⟩
  · refine .inl ⟨?_, hn ▸ hok⟩
    by_contra hf
    have hmem : Entry.typed et (f et) ∈ es := (h.mem _).2 ⟨et, eq_false_of_ne_true hf, rfl⟩
    have := (hno _ hmem).2
    rw [(isFor_typed et (f et)).2 rfl] at this
    cases this
  · obtain ⟨rfl, hf⟩ := (h.perm hperm).eq_of_cons
    exact .inr ⟨hf, rest, hs ▸ hok, hperm⟩

theorem toList (h : Stores es f) (et : EntryType) (hn : (f et).isNull = true) (v : Value) :
    Stores ((if v.isNull then none else some (Entry.typed et v)).toList ++ es) (update f et v) := by
  by_cases hv : v.isNull = true
  · have hf : Stores es (update f et v) := by
      refine ⟨h.nodup, fun e => (h.mem e).trans (exists_congr fun t => ?_)⟩
      by_cases ht : t = et
      · subst ht
        simp [hn, hv]
      · rw [update_of_ne ht]
    simpa [hv] using hf
  · have hv' : v.isNull = false := eq_false_of_ne_true hv
    simpa [hv'] using h.cons et hn hv'

end Stores

section Spec

variable (env : Env) {u : Userrec} {f : EntryType → Value}

/-- `get_user`. -/
theorem getUser_stores (h : Stores u.entries f) (et : EntryType) :
    ∃ es, u.getUser env et = .ok (if (f et).isNull then .null else f et, { u with entries := es }) ∧
      Stores es f := by
  unfold Userrec.getUser Users.getUser
  rcases h.findUserEntry env u.flags et with
    ⟨hn, he⟩ | ⟨hn, rest, he, hperm⟩
  · exact ⟨u.entries, by rw [he, hn]; rfl, h⟩
  · exact ⟨_, by rw [he, hn]; rfl, h.perm hperm⟩

theorem entryFor_stores {es : List (Entry EntryType Value)} (flags : FlagWord) (h : Stores es f)
    (et : EntryType) :
    ∃ rest, entryFor (entryOps env.hooks flags) et es =
        .ok (.typed et (if (f et).isNull then .null else f et), rest) ∧
      Stores rest (update f et .null) := by
  unfold entryFor
  rcases h.findUserEntry env flags et with
    ⟨hn, he⟩ | ⟨hn, rest, he, hperm⟩
  · refine ⟨es, by rw [he, hn]; rfl, ?_⟩
    simpa [Value.isNull] using h.toList et hn .null
  · exact ⟨rest, by rw [he, hn]; rfl, (h.perm hperm).tail⟩

theorem setEntry_stores {es : List (Entry EntryType Value)} (flags : FlagWord) (h : Stores es f)
    (d : Option CStr) :
    ∃ rest r, setEntry (entryOps env.hooks flags) .pass2 (.string d) es =
        .ok ((if (pass2Set d).isNull then none else some (.typed .pass2 (pass2Set d))), rest, r) ∧
      Stores rest (update f .pass2 .null) := by
  obtain ⟨rest, he, hrest⟩ := entryFor_stores env flags h .pass2
  exact ⟨rest, _, by rw [setEntry_of_entryFor _ _ he]; rfl, hrest⟩

theorem Userrec.setUser_eq {et : EntryType} {d : SetData} {es : List (Entry EntryType Value)} {r : Bool}
    (h : Users.setUser (entryOps env.hooks u.flags) et d u.entries = .ok (es, r)) :
    u.setUser env et d = .ok { u with entries := es, dirty := u.dirty || r } := by
  unfold Userrec.setUser
  rw [h]
  rfl

/-- `set_user` on `PASS2`. -/
theorem setPass2_stores (h : Stores u.entries f) (d : Option CStr) :
    ∃ es, u.setUser env .pass2 (.string d) = .ok { u with entries := es } ∧
      Stores es (update f .pass2 (pass2Set d)) := by
  obtain ⟨rest, he, hrest⟩ := entryFor_stores env u.flags h .pass2
  have hset := hrest.toList .pass2 (by simp [Value.isNull]) (pass2Set d)
  rw [update_idem] at hset
  refine ⟨_, ?_, hset⟩
  rw [Userrec.setUser_eq (r := false), Bool.or_false]
  rw [setUser_of_entryFor _ _ he]
  rfl

/-- What `pass_set` leaves in `PASS2`. -/
def pass2After (hooks : Hooks) (flags : FlagWord) (d : Option CStr) (v : Value) : Value :=
  match passAlso hooks flags d with
  | some (_, .string x) => pass2Set x
  | _ => v

/-- `set_user` on `PASS`. -/
theorem setPass_stores (h : Stores u.entries f) (d : Option CStr) :
    ∃ es, u.setUser env .pass (.string d) = .ok { u with entries := es, dirty := true } ∧
      Stores es (update (update f .pass2 (pass2After env.hooks u.flags d (f .pass2)))
        .pass (passSet env.hooks u.flags d (if (f .pass).isNull then .null else f .pass))) := by
  obtain ⟨rest, he, hrest⟩ := entryFor_stores env u.flags h .pass
  have hne : EntryType.pass2 ≠ .pass := by decide
  generalize hv : passSet env.hooks u.flags d (if (f .pass).isNull then .null else f .pass) = v
  have hone : setOne (entryOps env.hooks u.flags) .pass (.string d)
      (.typed .pass (if (f .pass).isNull then .null else f .pass)) =
      .ok (if v.isNull then none else some (.typed .pass v), true) := hv ▸ rfl
  have halso : (entryOps env.hooks u.flags).also .pass (.string d)
      (Entry.typed EntryType.pass (if (f .pass).isNull then .null else f .pass)).u =
      passAlso env.hooks u.flags d := rfl
  unfold pass2After
  cases ha : passAlso env.hooks u.flags d with
  | none =>
    have hset := hrest.toList .pass (by simp [Value.isNull]) v
    rw [update_idem] at hset
    refine ⟨_, ?_, by rwa [update_eq_self]⟩
    rw [Userrec.setUser_eq (r := true), Bool.or_true]
    rw [setUser_of_entryFor _ _ he, hone, halso, ha]
    rfl
  | some p =>
    obtain ⟨x, rfl⟩ : ∃ x, p = (.pass2, .string x) := by
      unfold passAlso at ha
      split_ifs at ha
      · exact ⟨none, (Option.some.inj ha).symm⟩
      · obtain ⟨q, -, rfl⟩ := Option.map_eq_some_iff.1 ha
        exact ⟨some q, rfl⟩
    obtain ⟨rest', r, he', hrest'⟩ := setEntry_stores env u.flags hrest x
    have hset := (hrest'.toList .pass (by simp [hne.symm, Value.isNull]) v).toList
      .pass2 (by simp [hne, Value.isNull]) (pass2Set x)
    rw [update_comm hne, update_idem, update_idem, update_comm hne.symm, ← append_assoc] at hset
    refine ⟨_, ?_, hset⟩
    rw [Userrec.setUser_eq (r := true), Bool.or_true]
    rw [setUser_of_entryFor _ _ he, hone, halso, ha]
    dsimp only
    rw [he']
    rfl

end Spec

/-! ### The two hashes -/

/-- What is stored of a user's password, for the one kind of module and the other. -/
structure Hashes where
  pass : Option CStr
  pass2 : Option CStr
deriving DecidableEq

namespace Hashes

section Defs

variable (hooks : Hooks) (bot : Bool)

/-- A module of the second kind makes a hash of the password that is set. -/
def Made (d : Option CStr) : Prop :=
  isRemoval d = false → bot = false →
    ∀ e ∈ hooks.encryptPass2, (e (sanitizePass (d.getD []))).isSome = true

/-- `pass_set`, for a password that is not a hash already and of which a hash is made. -/
def set (d : Option CStr) (h : Hashes) : Hashes :=
  if isRemoval d then
    ⟨if hooks.encryptPass.isSome then none else h.pass,
      if hooks.encryptPass2.isSome then none else h.pass2⟩
  else
    let p := sanitizePass (d.getD [])
    ⟨match hooks.encryptPass with
      | none => h.pass
      | some e =>
        if hooks.encryptPass2.isNone || !hooks.removePass then some (if bot then p else e p) else none,
      match hooks.encryptPass2 with
      | none => h.pass2
      | some e => (if bot then some p else e p).or h.pass2⟩

/-- The hash that a login is compared with. -/
def used (h : Hashes) : Option CStr × Bool :=
  match if hooks.encryptPass2.isSome then h.pass2 else none with
  | some cmp => (some cmp, true)
  | none => (h.pass, false)

/-- The comparison in `u_pass_match`. -/
def compare (verifyPass2 : VerifyPass2) (h : Hashes) (q cmp : CStr) (second : Bool) :
    Except Fault (Bool × Hashes) :=
  if bot then .ok (cmp = q, h)
  else if second then
    match verifyPass2 (q.take passwordmax) cmp with
    | none => .ok (false, h)
    | some none => .ok (true, h)
    | some (some new) => .ok (true, { h with pass2 := some new })
  else
    match hooks.encryptPass with
    | none => .ok (false, h)
    | some e =>
      if e (q.take passwordmax) ≠ cmp then .ok (false, h)
      else
        match hooks.encryptPass2.bind fun e2 => e2 (q.take passwordmax) with
        | none => .ok (true, h)
        | some new =>
          if hooks.removePass then .error .badFree else .ok (true, { h with pass2 := some new })

/-- `u_pass_match`. -/
def login (verifyPass2 : VerifyPass2) (h : Hashes) (q : CStr) : Except Fault (Bool × Hashes) :=
  if q.head? = some '-' then .ok ((h.used hooks).1.isNone, h)
  else
    match h.used hooks with
    | (none, _) => .ok (false, h)
    | (some cmp, second) =>
      if q = [] then .ok (false, h) else h.compare hooks bot verifyPass2 q cmp second

end Defs

theorem mem_set_pass {hooks : Hooks} {bot : Bool} {d : Option CStr} {h : Hashes} {s : CStr}
    (hs : s ∈ (h.set hooks bot d).pass) :
    (hooks.encryptPass = none ∧ s ∈ h.pass) ∨
      (isRemoval d = false ∧ ∃ e ∈ hooks.encryptPass,
        s = if bot then sanitizePass (d.getD []) else e (sanitizePass (d.getD []))) := by
  unfold set at hs
  cases he : hooks.encryptPass with
  | none => cases hr : isRemoval d <;> simp_all
  | some e => cases hr : isRemoval d <;> simp_all

/-- The new `PASS2` of a user who is no bot. -/
theorem set_pass2_of_made {hooks : Hooks} {d : Option CStr} (h : Hashes) (hm : Made hooks false d)
    (hr : isRemoval d = false) {e : CStr → Option CStr} (he : hooks.encryptPass2 = some e) :
    ∃ s, (h.set hooks false d).pass2 = some s ∧ e (sanitizePass (d.getD [])) = some s := by
  obtain ⟨s, hs⟩ := Option.isSome_iff_exists.1 (hm hr rfl e he)
  refine ⟨s, ?_, hs⟩
  unfold set
  rw [hr, he]
  simp [hs]

theorem mem_set_pass2 {hooks : Hooks} {d : Option CStr} {h : Hashes} {s : CStr}
    (hm : Made hooks false d) (hs : s ∈ (h.set hooks false d).pass2) :
    (hooks.encryptPass2 = none ∧ s ∈ h.pass2) ∨
      (isRemoval d = false ∧ ∃ e ∈ hooks.encryptPass2, e (sanitizePass (d.getD [])) = some s) := by
  cases he : hooks.encryptPass2 with
  | none =>
    refine .inl ⟨rfl, ?_⟩
    unfold set at hs
    cases hr : isRemoval d <;> simpa [hr, he] using hs
  | some e =>
    cases hr : isRemoval d with
    | true =>
      unfold set at hs
      simp [hr, he] at hs
    | false =>
      obtain ⟨s', hs', hnew⟩ := set_pass2_of_made h hm hr he
      obtain rfl : s' = s := Option.some.inj (hs'.symm.trans hs)
      exact .inr ⟨rfl, e, rfl, hnew⟩

/-! ### The entries hold the hashes -/

/-- The entries hold these hashes. -/
def In (h : Hashes) (es : List (Entry EntryType Value)) : Prop :=
  ∃ f, Stores es f ∧ f .pass = pass2Set h.pass ∧ f .pass2 = pass2Set h.pass2

theorem head?_sanitizePass (s : CStr) : (sanitizePass s).head? = some '+' ↔ s.head? = some '+' := by
  cases s with
  | nil => rfl
  | cons c s =>
    simp only [sanitizePass, passwordmax, take_succ_cons, map_cons, head?_cons, Option.some.injEq]
    split_ifs with h
    · refine iff_of_false (by decide) ?_
      rintro rfl
      revert h
      decide
    · rfl

@[simp] theorem null_pass2Set (p : Option CStr) :
    (if (pass2Set p).isNull then .null else pass2Set p) = pass2Set p := by
  cases p <;> rfl

section Refine

variable (env : Env) {u : Userrec} {h : Hashes}

theorem newPass2_eq (hooks : Hooks) {flags : FlagWord} {p : CStr}
    (hp : flags.has userBot = false → p.head? ≠ some '+') :
    newPass2 hooks flags p =
      hooks.encryptPass2.bind fun e => if flags.has userBot then some p else e p := by
  unfold newPass2
  cases hooks.encryptPass2 with
  | none => rfl
  | some e =>
    cases hb : flags.has userBot with
    | true => rfl
    | false => simp [hp hb]

theorem set_in (hin : h.In u.entries) {d : Option CStr}
    (hd : u.flags.has userBot = false → (d.getD []).head? ≠ some '+')
    (hm : Made env.hooks (u.flags.has userBot) d) :
    ∃ es, u.setUser env .pass (.string d) = .ok { u with entries := es, dirty := true } ∧
      (h.set env.hooks (u.flags.has userBot) d).In es := by
  obtain ⟨f, hf, hp, hp2⟩ := hin
  obtain ⟨es, he, hes⟩ := setPass_stores env hf d
  have hnew := newPass2_eq env.hooks fun hb => (head?_sanitizePass _).not.2 (hd hb)
  refine ⟨es, he, _, hes, ?_, ?_⟩
  · rw [update_self, hp, null_pass2Set]
    unfold passSet set
    dsimp only
    rw [hnew]
    cases env.hooks.encryptPass with
    | none => cases isRemoval d <;> rfl
    | some e =>
      by_cases hr : isRemoval d = true
      · simp [hr, pass2Set]
      · by_cases hb : u.flags.has userBot = true
        · cases env.hooks.encryptPass2 <;> cases env.hooks.removePass <;> simp [hr, hb, pass2Set]
        · have hplus := (head?_sanitizePass _).not.2 (hd (eq_false_of_ne_true hb))
          cases he2 : env.hooks.encryptPass2 with
          | none => cases env.hooks.removePass <;> simp [hr, hb, pass2Set, hplus]
          | some e2 =>
            obtain ⟨s, hs⟩ := Option.isSome_iff_exists.1
              (hm (eq_false_of_ne_true hr) (eq_false_of_ne_true hb) e2 he2)
            cases env.hooks.removePass <;> simp [hr, hb, pass2Set, hplus, hs]
  · rw [update_of_ne (by decide), update_self, hp2]
    unfold pass2After passAlso set
    rw [hnew]
    cases env.hooks.encryptPass2 with
    | none => cases isRemoval d <;> rfl
    | some e =>
      cases isRemoval d with
      | true => rfl
      | false =>
        dsimp only [Option.bind_some]
        cases (if u.flags.has userBot then some (sanitizePass (d.getD [])) else
          e (sanitizePass (d.getD []))) <;> rfl

theorem getUser_in {f : EntryType → Value} (hf : Stores u.entries f) {et : EntryType} {p : Option CStr}
    (hp : f et = pass2Set p) :
    ∃ es, u.getUser env et = .ok (pass2Set p, { u with entries := es }) ∧ Stores es f := by
  obtain ⟨es, he, hes⟩ := getUser_stores env hf et
  rw [hp, null_pass2Set] at he
  exact ⟨es, he, hes⟩

/-- The entry that is taken away is found, and given to `op_free`. -/
theorem removePass_stores {f : EntryType → Value} (hf : Stores u.entries f)
    (hp : (f .pass).isNull = false) : u.removePass env = .error .badFree := by
  unfold Userrec.removePass
  rcases hf.findUserEntry env u.flags .pass with ⟨hn, -⟩ | ⟨-, rest, he, -⟩
  · rw [hp] at hn
    cases hn
  · rw [he]
    rfl

theorem passHash_in {f : EntryType → Value} (hf : Stores u.entries f)
    (hp : f .pass = pass2Set h.pass) (hp2 : f .pass2 = pass2Set h.pass2) :
    ∃ es, u.passHash env = .ok (h.used env.hooks, { u with entries := es }) ∧ Stores es f := by
  unfold Userrec.passHash used
  have hsecond : ∃ es, (if env.hooks.encryptPass2.isSome then u.getUser env .pass2
      else pure (.null, u)) = .ok (pass2Set (if env.hooks.encryptPass2.isSome then h.pass2 else none),
        { u with entries := es }) ∧ Stores es f := by
    split_ifs
    · exact getUser_in env hf hp2
    · exact ⟨u.entries, rfl, hf⟩
  obtain ⟨es, he, hes⟩ := hsecond
  rw [he]
  cases (if env.hooks.encryptPass2.isSome then h.pass2 else none) with
  | some cmp => exact ⟨es, rfl, hes⟩
  | none =>
    obtain ⟨es', he', hes'⟩ := getUser_in env (u := { u with entries := es }) hes hp
    refine ⟨es', ?_, hes'⟩
    show (do
      let (pass, u) ← Userrec.getUser env .pass { u with entries := es }
      let cmp ← pass.asString
      pure ((cmp, false), u)) = _
    rw [he']
    cases h.pass <;> rfl

theorem used_fst_of_not_snd (h : Hashes) (hooks : Hooks) {cmp : Option CStr}
    (hu : h.used hooks = (cmp, false)) : h.pass = cmp := by
  unfold used at hu
  split at hu
  · cases hu
  · exact congrArg Prod.fst hu

theorem used_fst_of_snd (h : Hashes) (hooks : Hooks) {cmp : CStr}
    (hu : h.used hooks = (some cmp, true)) : h.pass2 = some cmp := by
  unfold used at hu
  split at hu
  · next hs =>
    split_ifs at hs
    exact hs.trans (congrArg Prod.fst hu)
  · have := congrArg Prod.snd hu
    simp at this

/-- A login of a user with these entries does what it does to the hashes: it aborts, or ends with the
new ones. -/
def Does (r : Except Fault (Bool × Userrec)) (u : Userrec) (h : Except Fault (Bool × Hashes)) : Prop :=
  (h = .error .badFree ∧ r = .error .badFree) ∨
    ∃ b h' es, h = .ok (b, h') ∧ r = .ok (b, { u with entries := es }) ∧ In h' es

theorem compare_in {f : EntryType → Value} (hf : Stores u.entries f)
    (hp : f .pass = pass2Set h.pass) (hp2 : f .pass2 = pass2Set h.pass2) (verifyPass2 : VerifyPass2)
    (q : CStr) {cmp : CStr} {second : Bool} (hu : h.used env.hooks = (some cmp, second)) :
    Does (u.passCompare env verifyPass2 q cmp second) u
      (h.compare env.hooks (u.flags.has userBot) verifyPass2 q cmp second) := by
  have hin : h.In u.entries := ⟨f, hf, hp, hp2⟩
  unfold Userrec.passCompare compare
  by_cases hb : u.flags.has userBot = true
  · rw [if_pos hb, if_pos hb]
    exact .inr ⟨_, h, u.entries, rfl, rfl, hin⟩
  rw [if_neg hb, if_neg hb]
  cases second with
  | true =>
    cases verifyPass2 (q.take passwordmax) cmp with
    | none => exact .inr ⟨_, h, u.entries, rfl, rfl, hin⟩
    | some new =>
      cases new with
      | none => exact .inr ⟨_, h, u.entries, rfl, rfl, hin⟩
      | some new =>
        obtain ⟨es, he, hes⟩ := setPass2_stores env hf (some new)
        refine .inr ⟨true, { h with pass2 := some new }, es, rfl, ?_, _, hes, ?_, ?_⟩
        · simp [he, bind, Except.bind, pure, Except.pure]
        · rwa [update_of_ne (by decide)]
        · exact update_self ..
  | false =>
    cases env.hooks.encryptPass with
    | none => exact .inr ⟨_, h, u.entries, rfl, rfl, hin⟩
    | some e =>
      by_cases hc : e (q.take passwordmax) ≠ cmp
      · simp only [if_pos hc]
        exact .inr ⟨_, h, u.entries, rfl, rfl, hin⟩
      simp only [if_neg hc]
      cases env.hooks.encryptPass2 with
      | none => exact .inr ⟨_, h, u.entries, rfl, rfl, hin⟩
      | some e2 =>
        dsimp only [Option.bind_some]
        cases e2 (q.take passwordmax) with
        | none => exact .inr ⟨_, h, u.entries, rfl, rfl, hin⟩
        | some new =>
          obtain ⟨es, he, hes⟩ := setPass2_stores env hf (some new)
          have hpass : update f .pass2 (pass2Set (some new)) .pass = pass2Set (some cmp) := by
            rw [update_of_ne (by decide), hp, used_fst_of_not_snd h _ hu]
          cases env.hooks.removePass with
          | false =>
            refine .inr ⟨true, { h with pass2 := some new }, es, rfl, ?_, _, hes, ?_, ?_⟩
            · simp [he, bind, Except.bind, pure, Except.pure]
            · rwa [update_of_ne (by decide)]
            · exact update_self ..
          | true =>
            have hremove := removePass_stores env (u := { u with entries := es }) hes
              (by rw [hpass]; rfl)
            exact .inl ⟨rfl, by simp [he, hremove, bind, Except.bind]⟩

theorem login_in (verifyPass2 : VerifyPass2) (hin : h.In u.entries) (q : CStr) :
    Does (u.passMatch env verifyPass2 q) u
      (h.login env.hooks (u.flags.has userBot) verifyPass2 q) := by
  obtain ⟨f, hf, hp, hp2⟩ := hin
  obtain ⟨es, he, hes⟩ := passHash_in env hf hp hp2
  have hin : h.In es := ⟨f, hes, hp, hp2⟩
  unfold Userrec.passMatch login
  rw [he]
  by_cases hq : q.head? = some '-'
  · simp only [hq, if_true]
    exact .inr ⟨_, h, es, rfl, rfl, hin⟩
  simp only [hq, if_false]
  rcases hu : h.used env.hooks with ⟨_ | cmp, second⟩
  · exact .inr ⟨_, h, es, rfl, rfl, hin⟩
  by_cases hnil : q = []
  · simp only [hnil, if_true]
    exact .inr ⟨_, h, es, rfl, rfl, hin⟩
  simp only [hnil, if_false]
  exact compare_in env (u := { u with entries := es }) hes hp hp2 verifyPass2 q hu

/-- The records of a userfile that was read with these modules. -/
def load (hooks : Hooks) (h : Hashes) : Hashes :=
  if hooks.removePass && hooks.encryptPass.isSome && hooks.encryptPass2.isSome && h.pass2.isSome then
    { h with pass := none }
  else h

theorem migrate_in (hin : h.In u.entries) (hplus : ∀ s ∈ h.pass, s.head? = some '+') :
    ∃ es, migratePassword env u = .ok { u with entries := es } ∧ h.In es := by
  obtain ⟨f, hf, hp, hp2⟩ := hin
  unfold migratePassword
  cases env.hooks.encryptPass2 with
  | none => exact ⟨u.entries, rfl, f, hf, hp, hp2⟩
  | some e2 =>
    by_cases hb : u.flags.has userBot = true
    · exact ⟨u.entries, if_pos hb, f, hf, hp, hp2⟩
    · obtain ⟨es, he, hes⟩ := getUser_in env hf hp
      refine ⟨es, ?_, f, hes, hp, hp2⟩
      simp only [if_neg hb, he, bind, Except.bind]
      cases hpass : h.pass with
      | none => rfl
      | some s =>
        obtain ⟨t, rfl⟩ : ∃ t, s = '+' :: t := by simpa [head?_eq_some_iff] using hplus s hpass
        rfl

/-- An entry that `cleanup_pass` takes for one of this type. -/
def called (t : EntryType) (e : Entry EntryType Value) : Bool :=
  match e with
  | .typed t' _ => strcaseEq t'.name t.name
  | .named _ _ => false

theorem called_typed {t t' : EntryType} {v : Value} : called t (.typed t' v) = true ↔ t' = t := by
  refine ⟨fun h => eq_of_name h, ?_⟩
  rintro rfl
  exact strcaseEq_refl _

theorem find?_called {f : EntryType → Value} {es : List (Entry EntryType Value)} (hf : Stores es f)
    (t : EntryType) :
    es.find? (called t) = (if (f t).isNull then none else some (.typed t (f t))) := by
  split_ifs with hn
  · rw [find?_eq_none]
    intro e he hc
    obtain ⟨t', ht', rfl⟩ := (hf.mem e).1 he
    obtain rfl := called_typed.1 hc
    rw [hn] at ht'
    cases ht'
  · have hmem : Entry.typed t (f t) ∈ es := (hf.mem _).2 ⟨t, eq_false_of_ne_true hn, rfl⟩
    cases hfind : es.find? (called t) with
    | none => exact absurd (called_typed.2 rfl) (find?_eq_none.1 hfind _ hmem)
    | some e =>
      obtain ⟨t', -, rfl⟩ := (hf.mem e).1 (mem_of_find?_eq_some hfind)
      obtain rfl := called_typed.1 (find?_some hfind)
      rfl

theorem cleanup_in (hin : h.In u.entries) :
    ∃ es, cleanupPass u = .ok { u with entries := es } ∧
      Hashes.In (if h.pass2.isSome then { h with pass := none } else h) es := by
  obtain ⟨f, hf, hp, hp2⟩ := hin
  have htyped : (u.entries.any fun e => !e.isTyped) = false := by
    simpa using fun e he => hf.isTyped he
  have hany : u.entries.any (called .pass2) = h.pass2.isSome := by
    have hs : (u.entries.find? (called .pass2)).isSome = u.entries.any (called .pass2) := by
      rw [Bool.eq_iff_iff, find?_isSome, any_eq_true]
    rw [← hs, find?_called hf, hp2]
    cases h.pass2 <;> rfl
  have hfind : u.entries.reverse.find? (called .pass) = h.pass.map fun s => .typed .pass (.string s) := by
    rw [find?_called (hf.perm (reverse_perm _)), hp]
    cases h.pass <;> rfl
  unfold cleanupPass
  simp only [htyped, Bool.false_eq_true, if_false]
  -- the test that `cleanup_pass` makes is `called`
  erw [hfind, hany]
  cases hs2 : h.pass2 with
  | none =>
    refine ⟨u.entries, ?_, f, hf, hp, hp2⟩
    cases h.pass <;> rfl
  | some s2 =>
    cases hs : h.pass with
    | none => exact ⟨u.entries, rfl, f, hf, by rw [hp, hs]; rfl, by rw [hp2, hs2]; rfl⟩
    | some s =>
      refine ⟨_, rfl, update f .pass .null, ?_, update_self .., ?_⟩
      · have hmem : Entry.typed .pass (f .pass) ∈ u.entries.reverse :=
          mem_reverse.2 ((hf.mem _).2 ⟨.pass, by rw [hp, hs]; rfl, rfl⟩)
        obtain ⟨e, l₁, l₂, -, hcall, hl, herase⟩ := exists_of_eraseP hmem (called_typed.2 rfl)
        obtain ⟨t, -, rfl⟩ := (hf.mem e).1 (mem_reverse.1 (hl ▸ mem_append_right _ mem_cons_self))
        obtain rfl := called_typed.1 hcall
        have hperm : (Entry.typed .pass (f .pass) :: (l₁ ++ l₂)).Perm u.entries :=
          perm_middle.symm.trans (hl ▸ reverse_perm _)
        show Stores (u.entries.reverse.eraseP (called .pass)).reverse _
        rw [herase]
        exact (hf.perm hperm).tail.perm (reverse_perm _)
      · rw [update_of_ne (by decide), hp2, hs2]
        rfl

theorem load_in (hin : h.In u.entries) (hplus : ∀ s ∈ h.pass, s.head? = some '+') :
    ∃ es, u.loadPass env = .ok { u with entries := es } ∧ (h.load env.hooks).In es := by
  obtain ⟨es, he, hes⟩ := migrate_in env hin hplus
  unfold Userrec.loadPass load
  rw [he]
  by_cases hc : (env.hooks.removePass && env.hooks.encryptPass.isSome &&
      env.hooks.encryptPass2.isSome) = true
  · obtain ⟨es', he', hes'⟩ := cleanup_in (u := { u with entries := es }) hes
    simp only [hc, Bool.true_and]
    exact ⟨es', he', hes'⟩
  · simp only [hc, Bool.false_and]
    exact ⟨es, rfl, hes⟩

end Refine

end Hashes

end Eggdrop.Users
