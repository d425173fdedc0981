import Mathlib.Logic.Relation
import Eggdrop.Users.Password

/-!
# PasswordRuns — which passwords a user can log in with

Passwords are set, logins are tried, encryption modules come and go, and the userfile is read again.

* `logins_sound`: no login succeeds but with the password that was set last, or one with the same
  hash, as long as each change finds the modules of all the hashes that are stored.
* `logins_complete`: the password that was set last is always accepted, as long as no module goes, or
  the bot aborts: where `remove-pass` has the login take the old hash away.
-/

namespace Eggdrop.Users.Password

open List Function Machine

/-! ### Modules -/

/-- The hash of the modules of the one kind, and what counts as a hash of a password for those of the
other, whatever the salt. -/
structure Schemes where
  hash : CStr → CStr
  hash_plus : ∀ p, (hash p).head? = some '+'
  Hash2 : CStr → CStr → Prop

/-- Two passwords that have a hash in common. -/
def Schemes.Same (S : Schemes) (p q : CStr) : Prop :=
  S.hash p = S.hash q ∨ ∃ h, S.Hash2 p h ∧ S.Hash2 q h

/-- The encryption modules there are at a time. -/
structure Modules (S : Schemes) where
  env : Env
  verifyPass2 : VerifyPass2
  encryptPass_eq : ∀ e ∈ env.hooks.encryptPass, e = S.hash
  encryptPass2_hash : ∀ e ∈ env.hooks.encryptPass2, ∀ p h, e p = some h → S.Hash2 p h
  verify_iff : ∀ q h, (verifyPass2 q h).isSome ↔ S.Hash2 q h
  verify_hash : ∀ q h new, verifyPass2 q h = some (some new) → S.Hash2 q new

variable {S : Schemes}

namespace Modules

def hooks (m : Modules S) : Hooks := m.env.hooks

def loaded (m : Modules S) : Bool := m.hooks.encryptPass.isSome

def loaded2 (m : Modules S) : Bool := m.hooks.encryptPass2.isSome

end Modules

/-! ### Runs -/

/-- A user; `last` is the password that was set last, as it was stripped. -/
structure State (S : Schemes) where
  modules : Modules S
  user : Userrec
  last : Option CStr

inductive Event (S : Schemes)
  | set (d : Option CStr)
  | login (q : CStr)
  | modules (m : Modules S)
  /-- the userfile is read with these modules -/
  | load (m : Modules S)

/-- The password that a change sets. -/
def setTo (d : Option CStr) : Option CStr :=
  if isRemoval d then none else some (sanitizePass (d.getD []))

def step (st : State S) : Event S → Except Fault (State S)
  | .set d => do
    let u ← st.user.setUser st.modules.env .pass (.string d)
    pure { st with user := u, last := setTo d }
  | .login q => do
    let (_, u) ← st.user.passMatch st.modules.env st.modules.verifyPass2 q
    pure { st with user := u }
  | .modules m => pure { st with modules := m }
  | .load m => do
    let u ← st.user.loadPass m.env
    pure { st with modules := m, user := u }

/-- A login with this password succeeds. -/
def State.Accepts (st : State S) (q : CStr) : Prop :=
  ∃ u, st.user.passMatch st.modules.env st.modules.verifyPass2 q = .ok (true, u)

/-- The user has no entry of that type. -/
def State.Lacks (st : State S) (t : EntryType) : Prop := ∀ v, Entry.typed t v ∉ st.user.entries

/-- A password that is set is not a hash, and a hash is made of it. -/
def Event.Plain (m : Modules S) : Event S → Prop
  | .set d => (d.getD []).head? ≠ some '+' ∧ Hashes.Made m.hooks false d
  | _ => True

/-- A change gives a password, of which a hash is made, and the modules of the stored hashes are
there. -/
def Covered (st : State S) : Event S → Prop
  | .set d => Event.Plain st.modules (.set d) ∧ (st.modules.loaded = false → st.Lacks .pass) ∧
      (st.modules.loaded2 = false → st.Lacks .pass2)
  | _ => True

/-- A login succeeds only with a password that `R` links to the last one. -/
def Within (R : CStr → CStr → Prop) (st : State S) : Event S → Prop
  | .login q => q.head? ≠ some '-' → st.Accepts q →
      ∃ p, st.last = some p ∧ R p (q.take passwordmax)
  | _ => True

/-- A password that has a hash in common with one that has a hash in common with the last one, and so
on: the last one itself, where no hashes meet. -/
def Sound : State S → Event S → Prop := Within (Relation.EqvGen S.Same)

/-! ### Hashes of the last password -/

/-- The stored hashes are those of passwords that `R` links to the last one. -/
structure Good (S : Schemes) (R : CStr → CStr → Prop) (last : Option CStr) (h : Hashes) : Prop where
  pass : ∀ s ∈ h.pass, ∃ p q, last = some p ∧ R p q ∧ s = S.hash q
  pass2 : ∀ s ∈ h.pass2, ∃ p q, last = some p ∧ R p q ∧ S.Hash2 q s

namespace Good

variable {R : CStr → CStr → Prop} {last : Option CStr} {h : Hashes} {m : Modules S}

theorem nothing : Good S R last ⟨.none, .none⟩ := ⟨nofun, nofun⟩

theorem set (hR : ∀ p, R p p) {d : Option CStr} (hm : Hashes.Made m.hooks false d)
    (hpass : m.loaded = false → h.pass = .none) (hpass2 : m.loaded2 = false → h.pass2 = .none) :
    Good S R (setTo d) (h.set m.hooks false d) := by
  constructor
  · intro s hs
    rcases Hashes.mem_set_pass hs with ⟨he, hs⟩ | ⟨hr, e, he, rfl⟩
    · have hloaded : m.loaded = false := by simp [Modules.loaded, he]
      simp [hpass hloaded] at hs
    · obtain rfl := m.encryptPass_eq e he
      exact ⟨_, _, by simp [setTo, hr], hR _, rfl⟩
  · intro s hs
    rcases Hashes.mem_set_pass2 hm hs with ⟨he, hs⟩ | ⟨hr, e, he, hnew⟩
    · have hloaded : m.loaded2 = false := by simp [Modules.loaded2, he]
      simp [hpass2 hloaded] at hs
    · exact ⟨_, _, by simp [setTo, hr], hR _, m.encryptPass2_hash e he _ _ hnew⟩

theorem load (hgood : Good S R last h) (hooks : Hooks) : Good S R last (h.load hooks) := by
  unfold Hashes.load
  split_ifs
  · exact ⟨nofun, hgood.pass2⟩
  · exact hgood

/-- Where a login does not fail, its password has a hash in common with one of those that are linked
to the last password, and it leaves hashes of such passwords, if it leaves any. -/
theorem login {q : CStr} (hq : q.head? ≠ some '-') (hgood : Good S R last h) :
    (∃ p q', last = some p ∧ R p q' ∧ S.Same q' (q.take passwordmax) ∧
        ∀ b h', h.login m.hooks false m.verifyPass2 q = .ok (b, h') →
          b = true ∧ (R p (q.take passwordmax) → Good S R last h')) ∨
      h.login m.hooks false m.verifyPass2 q = .ok (false, h) := by
  unfold Hashes.login
  rw [if_neg hq]
  rcases hu : h.used m.hooks with ⟨_ | cmp, second⟩
  · exact .inr rfl
  dsimp only
  split_ifs with hnil
  · exact .inr rfl
  unfold Hashes.compare
  cases second with
  | true =>
    obtain ⟨p, q', hlast, hR, hhash⟩ := hgood.pass2 cmp (Hashes.used_fst_of_snd h _ hu)
    cases hv : m.verifyPass2 (q.take passwordmax) cmp with
    | none => exact .inr rfl
    | some new =>
      have hv' : S.Hash2 (q.take passwordmax) cmp := (m.verify_iff _ _).1 (by rw [hv]; rfl)
      refine .inl ⟨p, q', hlast, hR, .inr ⟨cmp, hhash, hv'⟩, fun b h' hlogin => ?_⟩
      cases new with
      | none =>
        cases hlogin
        exact ⟨rfl, fun _ => hgood⟩
      | some new =>
        cases hlogin
        refine ⟨rfl, fun hRq => ⟨hgood.pass, fun s hs => ?_⟩⟩
        obtain rfl : new = s := Option.some.inj hs
        exact ⟨p, _, hlast, hRq, m.verify_hash _ _ _ hv⟩
  | false =>
    obtain ⟨p, q', hlast, hR, rfl⟩ := hgood.pass cmp (Hashes.used_fst_of_not_snd h _ hu)
    cases he : m.hooks.encryptPass with
    | none => exact .inr rfl
    | some e =>
      obtain rfl := m.encryptPass_eq e he
      by_cases hc : S.hash (q.take passwordmax) ≠ S.hash q'
      · exact .inr (if_pos hc)
      have hsame : S.Same q' (q.take passwordmax) := .inl (not_not.1 hc).symm
      simp only [Bool.false_eq_true, if_false, if_neg hc]
      refine .inl ⟨p, q', hlast, hR, hsame, fun b h' hlogin => ?_⟩
      cases hnew : m.hooks.encryptPass2.bind fun e2 => e2 (q.take passwordmax) with
      | none =>
        rw [hnew] at hlogin
        cases hlogin
        exact ⟨rfl, fun _ => hgood⟩
      | some new =>
        rw [hnew] at hlogin
        dsimp only at hlogin
        split_ifs at hlogin
        cases hlogin
        refine ⟨rfl, fun hRq => ⟨hgood.pass, fun s hs => ?_⟩⟩
        obtain rfl : new = s := Option.some.inj hs
        obtain ⟨e2, he2, hmade⟩ := Option.bind_eq_some_iff.1 hnew
        exact ⟨p, _, hlast, hRq, m.encryptPass2_hash e2 he2 _ _ hmade⟩

theorem plus (hgood : Good S R last h) : ∀ s ∈ h.pass, s.head? = some '+' := by
  intro s hs
  obtain ⟨p, q, -, -, rfl⟩ := hgood.pass s hs
  exact S.hash_plus q

end Good

/-! ### Steps -/

def Modules.after (m : Modules S) : Event S → Modules S
  | .modules m' | .load m' => m'
  | _ => m

def lastAfter (last : Option CStr) : Event S → Option CStr
  | .set d => setTo d
  | _ => last

def hashesAfter (m : Modules S) (h : Hashes) : Event S → Except Fault Hashes
  | .set d => .ok (h.set m.hooks false d)
  | .login q => (h.login m.hooks false m.verifyPass2 q).map Prod.snd
  | .modules _ => .ok h
  | .load m' => .ok (h.load m'.hooks)

/-- The user is no bot and has such hashes and no other entries of their types. -/
def Inv (R : CStr → CStr → Prop) (st : State S) : Prop :=
  st.user.flags.has userBot = false ∧ ∃ h : Hashes, h.In st.user.entries ∧ Good S R st.last h

section Step

variable {R : CStr → CStr → Prop} {st : State S} {h : Hashes}

theorem pass_none (hin : h.In st.user.entries) (hl : st.Lacks .pass) : h.pass = none := by
  obtain ⟨f, hf, hp, -⟩ := hin
  by_contra hne
  refine hl (f .pass) ((hf.mem _).2 ⟨.pass, ?_, rfl⟩)
  rw [hp]
  cases hs : h.pass with
  | none => exact absurd hs hne
  | some s => rfl

theorem pass2_none (hin : h.In st.user.entries) (hl : st.Lacks .pass2) : h.pass2 = none := by
  obtain ⟨f, hf, -, hp⟩ := hin
  by_contra hne
  refine hl (f .pass2) ((hf.mem _).2 ⟨.pass2, ?_, rfl⟩)
  rw [hp]
  cases hs : h.pass2 with
  | none => exact absurd hs hne
  | some s => rfl

/-- A login as `u_pass_match` sees it and as the hashes do. -/
theorem accepts_iff (hin : h.In st.user.entries) (hbot : st.user.flags.has userBot = false) (q : CStr) :
    st.Accepts q ↔ ∃ h', h.login st.modules.hooks false st.modules.verifyPass2 q = .ok (true, h') := by
  have hdoes := Hashes.login_in st.modules.env st.modules.verifyPass2 hin q
  rw [hbot] at hdoes
  unfold State.Accepts
  rcases hdoes with ⟨hlogin, hmatch⟩ | ⟨b, h', es, hlogin, hmatch, -⟩
  · rw [show h.login st.modules.hooks false st.modules.verifyPass2 q = _ from hlogin, hmatch]
    exact iff_of_false (fun ⟨_, hu⟩ => nomatch hu) (fun ⟨_, hh⟩ => nomatch hh)
  · rw [show h.login st.modules.hooks false st.modules.verifyPass2 q = _ from hlogin, hmatch]
    constructor
    · rintro ⟨u, hu⟩
      cases hu
      exact ⟨h', rfl⟩
    · rintro ⟨h'', hh⟩
      cases hh
      exact ⟨_, rfl⟩

theorem step_in (hin : h.In st.user.entries) (hbot : st.user.flags.has userBot = false)
    (hplus : ∀ s ∈ h.pass, s.head? = some '+') {e : Event S} (he : e.Plain st.modules) :
    (hashesAfter st.modules h e = .error .badFree ∧ step st e = .error .badFree) ∨
      ∃ h' u, hashesAfter st.modules h e = .ok h' ∧
        step st e = .ok ⟨st.modules.after e, u, lastAfter st.last e⟩ ∧
        u.flags.has userBot = false ∧ h'.In u.entries := by
  cases e with
  | set d =>
    have hm : Hashes.Made st.modules.env.hooks (st.user.flags.has userBot) d := hbot ▸ he.2
    obtain ⟨es, hset, hes⟩ := Hashes.set_in st.modules.env hin (fun _ => he.1) hm
    rw [hbot] at hes
    refine .inr ⟨_, { st.user with entries := es, dirty := true }, rfl, ?_, hbot, hes⟩
    simp only [step, hset]
    rfl
  | login q =>
    have hdoes := Hashes.login_in st.modules.env st.modules.verifyPass2 hin q
    rw [hbot] at hdoes
    rcases hdoes with ⟨hlogin, hmatch⟩ | ⟨b, h', es, hlogin, hmatch, hes⟩
    · refine .inl ⟨congrArg (Except.map Prod.snd) hlogin, ?_⟩
      simp only [step, hmatch]
      rfl
    · refine .inr ⟨h', { st.user with entries := es }, congrArg (Except.map Prod.snd) hlogin, ?_, hbot,
        hes⟩
      simp only [step, hmatch]
      rfl
  | modules m => exact .inr ⟨h, st.user, rfl, rfl, hbot, hin⟩
  | load m =>
    obtain ⟨es, hload, hes⟩ := Hashes.load_in m.env hin hplus
    refine .inr ⟨_, { st.user with entries := es }, rfl, ?_, hbot, hes⟩
    simp only [step, hload]
    rfl

theorem within_of_inv (hR : ∀ p q q', R p q → S.Same q q' → R p q') (hinv : Inv R st) (e : Event S) :
    Within R st e := by
  obtain ⟨hbot, h, hin, hgood⟩ := hinv
  cases e with
  | login q =>
    intro hq hacc
    obtain ⟨h', hlogin⟩ := (accepts_iff hin hbot q).1 hacc
    rcases hgood.login (m := st.modules) hq with ⟨p, q', hlast, hpq, hsame, -⟩ | hno
    · exact ⟨p, hlast, hR p q' _ hpq hsame⟩
    · rw [hlogin] at hno
      cases hno
  | _ => trivial

theorem login_dash (h : Hashes) (hooks : Hooks) (v : VerifyPass2) {q : CStr}
    (hq : q.head? = some '-') : (h.login hooks false v q).map Prod.snd = .ok h := by
  unfold Hashes.login
  rw [if_pos hq]
  rfl

theorem Good.after (hrefl : ∀ p, R p p) (hin : h.In st.user.entries)
    (hbot : st.user.flags.has userBot = false) (hgood : Good S R st.last h) {e : Event S}
    (hplain : e.Plain st.modules)
    (hset : ∀ d, e = .set d → (st.modules.loaded = false → h.pass = none) ∧
      (st.modules.loaded2 = false → h.pass2 = none))
    (hw : Within R st e) {h' : Hashes} (hafter : hashesAfter st.modules h e = .ok h') :
    Good S R (lastAfter st.last e) h' := by
  cases e with
  | set d =>
    cases hafter
    exact .set hrefl hplain.2 (hset d rfl).1 (hset d rfl).2
  | login q =>
    by_cases hq : q.head? = some '-'
    · rw [hashesAfter, login_dash h _ _ hq] at hafter
      cases hafter
      exact hgood
    replace hafter : (h.login st.modules.hooks false st.modules.verifyPass2 q).map Prod.snd =
      .ok h' := hafter
    cases hlogin : h.login st.modules.hooks false st.modules.verifyPass2 q with
    | error f =>
      rw [hlogin] at hafter
      cases hafter
    | ok r =>
      rw [hlogin] at hafter
      cases hafter
      rcases hgood.login (m := st.modules) hq with ⟨p, q', hp, -, -, hnew⟩ | hno
      · obtain ⟨hok, hnew⟩ := hnew _ _ hlogin
        have hacc : st.Accepts q := (accepts_iff hin hbot q).2 ⟨r.2, by rw [← hok]; exact hlogin⟩
        obtain ⟨p', hp', hR⟩ := hw hq hacc
        obtain rfl : p = p' := Option.some.inj (hp.symm.trans hp')
        exact hnew hR
      · rw [hlogin] at hno
        cases hno
        exact hgood
  | modules m =>
    cases hafter
    exact hgood
  | load m =>
    cases hafter
    exact hgood.load _

theorem Covered.plain {e : Event S} (hc : Covered st e) : e.Plain st.modules := by
  cases e with
  | set d => exact hc.1
  | _ => trivial

theorem step_inv (hrefl : ∀ p, R p p) (hinv : Inv R st) {e : Event S} (hc : Covered st e)
    (hw : Within R st e) :
    (∃ st', step st e = .ok st' ∧ Inv R st') ∨ ∃ f, step st e = .error f ∧ f = .badFree := by
  obtain ⟨hbot, h, hin, hgood⟩ := hinv
  rcases step_in hin hbot hgood.plus hc.plain with ⟨-, herror⟩ | ⟨h', u, hafter, hu, hbot', hin'⟩
  · exact .inr ⟨_, herror, rfl⟩
  · refine .inl ⟨_, hu, hbot', h', hin', hgood.after hrefl hin hbot hc.plain ?_ hw hafter⟩
    rintro d rfl
    exact ⟨fun hl => pass_none hin (hc.2.1 hl), fun hl => pass2_none hin (hc.2.2 hl)⟩

end Step

/-- A user without a password, and without entries whose types are not loaded. -/
def Fresh (u : Userrec) : Prop :=
  u.flags.has userBot = false ∧ (Hashes.mk none none).In u.entries

/-- Once a password is changed, no login gets in with an older one, whatever modules are there at the
time of the login, as long as each change finds the modules of all the hashes that are stored.  A run
ends early only where a login aborts. -/
theorem logins_sound (m : Modules S) (u : Userrec) (hu : Fresh u) (es : List (Event S))
    (h : Along step Covered ⟨m, u, none⟩ es) :
    (∀ f, run step ⟨m, u, none⟩ es = .error f → f = .badFree) ∧
      Along step Sound ⟨m, u, none⟩ es := by
  have hR : ∀ p q q', Relation.EqvGen S.Same p q → S.Same q q' → Relation.EqvGen S.Same p q' :=
    fun p q q' hpq hq => hpq.trans _ _ _ (.rel _ _ hq)
  have hinv : Inv (Relation.EqvGen S.Same) (⟨m, u, none⟩ : State S) := ⟨hu.1, _, hu.2, .nothing⟩
  have hstep : ∀ (st : State S) e, Inv (Relation.EqvGen S.Same) st → Covered st e →
      (∃ st', step st e = .ok st' ∧ Inv (Relation.EqvGen S.Same) st') ∨
        ∃ f, step st e = .error f ∧ f = .badFree :=
    fun st e hi hc => step_inv .refl hi hc (within_of_inv hR hi e)
  refine ⟨fun f => run_error_of_along hstep hinv h,
    h.of_inv (fun st e st' hi hc hs => ?_) (fun st e hi _ => within_of_inv hR hi e) hinv⟩
  rcases hstep st e hi hc with ⟨t, ht, hti⟩ | ⟨f, hf, -⟩
  · obtain rfl := Except.ok.inj (hs.symm.trans ht)
    exact hti
  · rw [hs] at hf
    cases hf

/-! Hashes that can be read, and both modules. -/

def readable : Schemes where
  hash p := '+' :: p
  hash_plus _ := rfl
  Hash2 p h := h = '$' :: p

def bothModules : Modules readable where
  env := ⟨⟨some fun p => '+' :: p, some fun p => some ('$' :: p), true, fun _ _ => false⟩, [],
    fun _ _ => 0, 0, 0⟩
  verifyPass2 q h := if h = '$' :: q then some none else none
  encryptPass_eq := by
    rintro e ⟨⟩
    rfl
  encryptPass2_hash := by
    rintro e ⟨⟩ p h hh
    exact (Option.some.inj hh).symm
  verify_iff q h := by
    show (if h = '$' :: q then some none else none : Option (Option CStr)).isSome ↔ h = '$' :: q
    split_ifs with hh <;> simp [hh]
  verify_hash q h new hv := by
    split_ifs at hv
    cases hv

def newcomer : Userrec := ⟨0, "someone".toList, 0, 0, [], [], false⟩

theorem fresh_newcomer : Fresh newcomer :=
  ⟨rfl, fun _ => .null, ⟨nodup_nil, fun e => by simp [newcomer, Value.isNull]⟩, rfl, rfl⟩

theorem made_bothModules (d : Option CStr) : Hashes.Made bothModules.hooks false d := by
  rintro - - e ⟨⟩
  rfl

theorem logins_sound_newcomer :
    let es : List (Event readable) := [.set (some "secret".toList), .login "secret".toList,
      .load bothModules, .login "another".toList]
    (∀ f, run step ⟨bothModules, newcomer, none⟩ es = .error f → f = .badFree) ∧
      Along step Sound ⟨bothModules, newcomer, none⟩ es :=
  logins_sound bothModules newcomer fresh_newcomer _
    ⟨⟨⟨by decide, made_bothModules _⟩, nofun, nofun⟩, fun _ _ => ⟨trivial, fun _ _ => ⟨trivial,
      fun _ _ => ⟨trivial, fun _ _ => trivial⟩⟩⟩⟩

/-! ### The last password -/

/-- No module goes, there is one when a password is set, and logins succeed with the last password
only. -/
def Grows (st : State S) : Event S → Prop
  | .set d => Event.Plain st.modules (.set d) ∧ (st.modules.loaded ∨ st.modules.loaded2)
  | .modules m | .load m =>
    (st.modules.loaded → m.loaded) ∧ (st.modules.loaded2 → m.loaded2)
  | .login q => Within Eq st (.login q)

/-- A login aborts: there is no `PASS2` yet, and once there is, `remove-pass` has `PASS` taken away. -/
structure Aborts (st : State S) (q : CStr) : Prop where
  remove : st.modules.hooks.removePass = true
  lacks : st.Lacks .pass2
  fault : step st (.login q) = .error .badFree

/-- A login with the last password succeeds, or it aborts. -/
def Complete (st : State S) : Event S → Prop
  | .login q => st.last = some (q.take passwordmax) → st.Accepts q ∨ Aborts st q
  | _ => True

/-- A hash of the password that was set last is stored, and the modules of all hashes are there. -/
structure Kept (st : State S) (h : Hashes) : Prop where
  pass : h.pass.isSome → st.modules.loaded
  pass2 : h.pass2.isSome → st.modules.loaded2
  stored : st.last.isSome → h.pass.isSome ∨ h.pass2.isSome
  plain : ∀ p ∈ st.last, p ≠ [] ∧ p.head? ≠ some '-'

theorem setTo_plain {d : Option CStr} : ∀ p ∈ setTo d, p ≠ [] ∧ p.head? ≠ some '-' := by
  rintro p hp
  unfold setTo at hp
  split_ifs at hp with hr
  · cases hp
  obtain rfl := Option.some.inj hp
  match d with
  | none => simp [isRemoval] at hr
  | some [] => simp [isRemoval] at hr
  | some (c :: s) =>
    have hc : c ≠ '-' := by
      rintro rfl
      exact hr rfl
    refine ⟨by simp [sanitizePass, passwordmax], ?_⟩
    simp only [sanitizePass, passwordmax, Option.getD_some, take_succ_cons, map_cons, head?_cons,
      ne_eq, Option.some.injEq]
    split_ifs
    · decide
    · exact hc

section Keep

variable {st : State S} {h : Hashes}

theorem login_snd (m : Modules S) (h : Hashes) {q : CStr} {h' : Hashes}
    (hafter : (h.login m.hooks false m.verifyPass2 q).map Prod.snd = .ok h') :
    h' = h ∨ m.loaded2 = true ∧ ∃ new, h' = { h with pass2 := some new } := by
  unfold Hashes.login at hafter
  by_cases hq : q.head? = some '-'
  · rw [if_pos hq] at hafter
    exact .inl (Except.ok.inj hafter).symm
  rw [if_neg hq] at hafter
  rcases hu : h.used m.hooks with ⟨_ | cmp, second⟩
  · rw [hu] at hafter
    exact .inl (Except.ok.inj hafter).symm
  rw [hu] at hafter
  dsimp only at hafter
  split_ifs at hafter
  · exact .inl (Except.ok.inj hafter).symm
  unfold Hashes.compare at hafter
  cases second with
  | true =>
    have hloaded : m.loaded2 = true := by
      unfold Hashes.used at hu
      unfold Modules.loaded2
      by_contra hno
      simp [hno] at hu
    rcases hv : m.verifyPass2 (q.take passwordmax) cmp with _ | _ | new
    · rw [hv] at hafter
      exact .inl (Except.ok.inj hafter).symm
    · rw [hv] at hafter
      exact .inl (Except.ok.inj hafter).symm
    · rw [hv] at hafter
      exact .inr ⟨hloaded, new, (Except.ok.inj hafter).symm⟩
  | false =>
    simp only [Bool.false_eq_true, if_false] at hafter
    cases he : m.hooks.encryptPass with
    | none =>
      rw [he] at hafter
      exact .inl (Except.ok.inj hafter).symm
    | some e =>
      rw [he] at hafter
      dsimp only at hafter
      by_cases hc : e (q.take passwordmax) ≠ cmp
      · rw [if_pos hc] at hafter
        exact .inl (Except.ok.inj hafter).symm
      rw [if_neg hc] at hafter
      cases hnew : m.hooks.encryptPass2.bind fun e2 => e2 (q.take passwordmax) with
      | none =>
        rw [hnew] at hafter
        exact .inl (Except.ok.inj hafter).symm
      | some new =>
        rw [hnew] at hafter
        dsimp only at hafter
        obtain ⟨e2, he2, -⟩ := Option.bind_eq_some_iff.1 hnew
        split_ifs at hafter
        · cases hafter
        · exact .inr ⟨by simp [Modules.loaded2, he2], new, (Except.ok.inj hafter).symm⟩

theorem lacks_pass2 (hin : h.In st.user.entries) (hnone : h.pass2 = none) : st.Lacks .pass2 := by
  obtain ⟨f, hf, -, hp2⟩ := hin
  intro v hv
  obtain ⟨t, ht, he⟩ := (hf.mem _).1 hv
  cases he
  rw [hp2, hnone] at ht
  cases ht

/-- With the last password a login succeeds, or it is the one that aborts. -/
theorem Kept.login (hk : Kept st h) (hgood : Good S Eq st.last h) {q : CStr} (hnil : q ≠ [])
    (hdash : q.head? ≠ some '-') (hq : st.last = some (q.take passwordmax)) :
    (∃ h', h.login st.modules.hooks false st.modules.verifyPass2 q = .ok (true, h')) ∨
      st.modules.hooks.removePass = true ∧ h.pass2 = none ∧
        h.login st.modules.hooks false st.modules.verifyPass2 q = .error .badFree := by
  have hpass : ∀ s ∈ h.pass, s = S.hash (q.take passwordmax) := by
    intro s hs
    obtain ⟨p, p', hp, rfl, rfl⟩ := hgood.pass s hs
    rw [Option.some.inj (hp.symm.trans hq)]
  have hpass2 : ∀ s ∈ h.pass2, S.Hash2 (q.take passwordmax) s := by
    intro s hs
    obtain ⟨p, p', hp, rfl, hs⟩ := hgood.pass2 s hs
    rwa [Option.some.inj (hp.symm.trans hq)] at hs
  unfold Hashes.login
  rw [if_neg hdash]
  unfold Hashes.used
  cases hs2 : h.pass2 with
  | some s2 =>
    have hloaded : st.modules.hooks.encryptPass2.isSome = true := hk.pass2 (by rw [hs2]; rfl)
    simp only [hloaded, if_true, if_neg hnil, Hashes.compare, Bool.false_eq_true, if_false]
    have hv := (st.modules.verify_iff (q.take passwordmax) s2).2 (hpass2 s2 hs2)
    revert hv
    rcases st.modules.verifyPass2 (q.take passwordmax) s2 with _ | _ | new
    · intro hv
      cases hv
    · exact fun _ => .inl ⟨_, rfl⟩
    · exact fun _ => .inl ⟨_, rfl⟩
  | none =>
    have hs := (hk.stored (by rw [hq]; rfl)).resolve_right (by simp [hs2])
    obtain ⟨s, hs⟩ := Option.isSome_iff_exists.1 hs
    obtain ⟨e, he⟩ := Option.isSome_iff_exists.1 (hk.pass (by rw [hs]; rfl))
    obtain rfl := st.modules.encryptPass_eq e he
    simp only [ite_self, hs, if_neg hnil, Hashes.compare, he, Bool.false_eq_true, if_false,
      hpass s hs, ne_eq, not_true_eq_false]
    cases st.modules.hooks.encryptPass2.bind fun e2 => e2 (q.take passwordmax) with
    | none => exact .inl ⟨_, rfl⟩
    | some new =>
      cases st.modules.hooks.removePass with
      | false => exact .inl ⟨_, rfl⟩
      | true => exact .inr ⟨rfl, trivial, rfl⟩

/-- The last password is let in, but where the login is to take `PASS` away. -/
theorem Kept.accepts (hk : Kept st h) (hgood : Good S Eq st.last h) (hin : h.In st.user.entries)
    (hbot : st.user.flags.has userBot = false) {q : CStr}
    (hq : st.last = some (q.take passwordmax)) : st.Accepts q ∨ Aborts st q := by
  obtain ⟨hnil, hdash⟩ := hk.plain _ hq
  have hnil' : q ≠ [] := by
    rintro rfl
    exact hnil rfl
  have hdash' : q.head? ≠ some '-' := by
    cases q with
    | nil => simp
    | cons c q => simpa [passwordmax] using hdash
  have hlogin := hk.login hgood hnil' hdash' hq
  rcases hlogin with hok | ⟨hremove, hnone, herror⟩
  · exact .inl ((accepts_iff hin hbot q).2 hok)
  · have hplain : Event.Plain st.modules (.login q) := trivial
    refine .inr ⟨hremove, lacks_pass2 hin hnone, ?_⟩
    rcases step_in hin hbot hgood.plus hplain with ⟨-, hstep⟩ | ⟨h', u, hafter, -, -, -⟩
    · exact hstep
    · rw [hashesAfter, herror] at hafter
      cases hafter

/-- What `Kept` asks of a user. -/
def Ready (st : State S) : Prop :=
  st.user.flags.has userBot = false ∧
    ∃ h : Hashes, h.In st.user.entries ∧ Good S Eq st.last h ∧ Kept st h

theorem Kept.after (hk : Kept st h) {e : Event S} (hg : Grows st e) {u : Userrec} {h' : Hashes}
    (hafter : hashesAfter st.modules h e = .ok h') :
    Kept ⟨st.modules.after e, u, lastAfter st.last e⟩ h' := by
  cases e with
  | set d =>
    cases hafter
    refine ⟨fun hs => ?_, fun hs => ?_, fun hs => ?_, setTo_plain⟩
    · obtain ⟨s, hs⟩ := Option.isSome_iff_exists.1 hs
      rcases Hashes.mem_set_pass hs with ⟨he, hs⟩ | ⟨-, e, he, -⟩
      · exact hk.pass (Option.isSome_of_mem hs)
      · exact Option.isSome_of_mem he
    · obtain ⟨s, hs⟩ := Option.isSome_iff_exists.1 hs
      rcases Hashes.mem_set_pass2 hg.1.2 hs with ⟨he, hs⟩ | ⟨-, e, he, -⟩
      · exact hk.pass2 (Option.isSome_of_mem hs)
      · exact Option.isSome_of_mem he
    · have hr : ¬ isRemoval d = true := by
        intro hr
        simp [lastAfter, setTo, hr] at hs
      have hl := hg.2
      unfold Modules.loaded Modules.loaded2 at hl
      cases he2 : st.modules.hooks.encryptPass2 with
      | some e2 =>
        obtain ⟨s, hs', -⟩ := Hashes.set_pass2_of_made h hg.1.2 (Bool.eq_false_iff.2 hr) he2
        exact .inr (Option.isSome_of_mem hs')
      | none =>
        obtain ⟨e, he⟩ := Option.isSome_iff_exists.1 (hl.resolve_right (by simp [he2]))
        exact .inl (by rw [Hashes.set, if_neg hr]; simp [he, he2])
  | login q =>
    rcases login_snd st.modules h hafter with rfl | ⟨hl, new, rfl⟩
    · exact ⟨hk.pass, hk.pass2, hk.stored, hk.plain⟩
    · exact ⟨hk.pass, fun _ => hl, fun _ => .inr rfl, hk.plain⟩
  | modules m =>
    cases hafter
    exact ⟨fun h => hg.1 (hk.pass h), fun h => hg.2 (hk.pass2 h), hk.stored, hk.plain⟩
  | load m =>
    cases hafter
    have hpass2 : (h.load m.hooks).pass2 = h.pass2 := by
      unfold Hashes.load
      split_ifs <;> rfl
    refine ⟨fun hs => hg.1 (hk.pass ?_), fun hs => hg.2 (hk.pass2 ?_), fun hs => ?_, hk.plain⟩
    · rw [Hashes.load] at hs
      split_ifs at hs
      · cases hs
      · exact hs
    · exact hpass2 ▸ hs
    · rw [hpass2, Hashes.load]
      split_ifs with hc
      · simp only [Bool.and_eq_true] at hc
        exact .inr hc.2
      · exact hk.stored hs

theorem Grows.plain {e : Event S} (hg : Grows st e) : e.Plain st.modules := by
  cases e with
  | set d => exact hg.1
  | _ => trivial

theorem ready_step (hr : Ready st) {e : Event S} (hg : Grows st e) {st' : State S}
    (hs : step st e = .ok st') : Ready st' := by
  obtain ⟨hbot, h, hin, hgood, hk⟩ := hr
  rcases step_in hin hbot hgood.plus hg.plain with ⟨-, herror⟩ | ⟨h', u, hafter, hu, hbot', hin'⟩
  · rw [hs] at herror
    cases herror
  obtain rfl := Except.ok.inj (hs.symm.trans hu)
  refine ⟨hbot', h', hin', hgood.after (fun _ => rfl) hin hbot hg.plain ?_ ?_ hafter,
    hk.after hg hafter⟩
  · rintro d -
    refine ⟨fun hl => ?_, fun hl => ?_⟩
    · by_contra hne
      simp [hk.pass (Option.isSome_iff_ne_none.2 hne)] at hl
    · by_contra hne
      simp [hk.pass2 (Option.isSome_iff_ne_none.2 hne)] at hl
  · cases e with
    | login q => exact hg
    | _ => trivial

end Keep

theorem last_step {st st' : State S} {e : Event S} (hs : step st e = .ok st') :
    st'.last = lastAfter st.last e := by
  cases e with
  | set d =>
    simp only [step] at hs
    cases hu : st.user.setUser st.modules.env .pass (.string d) with
    | error f => rw [hu] at hs; cases hs
    | ok u => rw [hu] at hs; cases hs; rfl
  | login q =>
    simp only [step] at hs
    cases hu : st.user.passMatch st.modules.env st.modules.verifyPass2 q with
    | error f => rw [hu] at hs; cases hs
    | ok u => rw [hu] at hs; cases hs; rfl
  | modules m => cases hs; rfl
  | load m =>
    simp only [step] at hs
    cases hu : st.user.loadPass m.env with
    | error f => rw [hu] at hs; cases hs
    | ok u => rw [hu] at hs; cases hs; rfl

end Eggdrop.Users.Password
