import Mathlib.Data.List.Nodup
import Mathlib.Data.List.Perm.Subperm
import Mathlib.Logic.Function.Basic
import Eggdrop.Base.CString
import Eggdrop.Lib.Run

/-!
# Modules — loading, linking and unloading modules

The modules of modules.c are records on the heap that `module_vec` points at, and so do the
dependencies in `dep_vec`.  A module's start function runs inside of `module_load`, its close
function inside of `module_unload`, and scripts are called before and after; all of these load and
unload other modules in turn.  What runs inside of what is a stack of frames here, and the
innermost call is the one that returns.

* `Sound`: `module_vec` holds the records that are on the heap, each once and under its own name, and
  dependencies are between these.
* `sound_step_iff`: a step keeps that exactly if a module that goes is where `module_vec` says, and
  no dependency is left that names it.
* `sound_iff_along`: so for every run; nothing is read that was freed.
-/

namespace Eggdrop.Modules

open List

inductive Fault where
  | useAfterFree
deriving DecidableEq, Repr

/-- The functions that a module registers; `close` is whether `MODCALL_CLOSE` is one of them. -/
structure FuncTable where
  close : Bool
deriving DecidableEq, Repr

/-- `module_entry`. -/
structure ModuleEntry where
  name : CStr
  major : Int
  minor : Int
  patch : Int
  funcs : Option FuncTable
deriving DecidableEq, Repr

/-- `dependancy`. -/
structure Dependancy where
  needed : ℕ
  needing : ℕ
  major : Int
  minor : Int
  patch : Int
deriving DecidableEq, Repr

/-- What `module_depend` has to do when the module has been loaded: `o` is the module that asks. -/
structure Want where
  o : Option ℕ
  name2 : CStr
  major : Int
  minor : Int
deriving DecidableEq, Repr

/-- A call that has not returned. -/
inductive Frame where
  /-- The start function of the module at `p`, for `module_depend` if there is a `want`. -/
  | starting (p : ℕ) (want : Option Want)
  /-- `check_tcl_load`, before `module_depend` goes on. -/
  | depending (want : Want)
  /-- `check_tcl_unld`, for the module at `p`, found in slot `i`. -/
  | unbinding (p i : ℕ)
  /-- The close function of the module at `p`, found in slot `i`. -/
  | closing (p i : ℕ)
deriving DecidableEq, Repr

structure State where
  mem : ℕ → Option ModuleEntry
  modules : List ℕ
  deps : List Dependancy
  frames : List Frame
  next : ℕ

/-- What the core, a module or a script asks for.  `opened` is whether there is such a module to be
opened, `failed` whether the start or close function that returns has a message. -/
inductive Event where
  | register (name : CStr) (funcs : Option FuncTable) (major minor : Int)
  | load (name : CStr) (opened : Bool)
  | depend (name1 name2 : CStr) (major minor : Int) (opened : Bool)
  | undepend (name1 : CStr)
  | rename (name newname : CStr)
  | unload (name : CStr)
  | returned (failed : Bool)
deriving DecidableEq, Repr

/-- The condition of `module_find` on the version. -/
def ModuleEntry.recent (p : ModuleEntry) (major minor : Int) : Bool :=
  (major < p.major || major = 0) || (major = p.major && minor ≤ p.minor)

namespace State

variable (s : State)

/-- Read the record at an address. -/
def deref (a : ℕ) : Except Fault ModuleEntry :=
  match s.mem a with
  | some p => .ok p
  | none => .error .useAfterFree

/-- The first record of `module_vec` that meets a condition; those before it are read. -/
def find (ok : ModuleEntry → Bool) : List ℕ → Except Fault (Option ℕ)
  | [] => .ok none
  | a :: as =>
    match s.deref a with
    | .ok p => if ok p then .ok (some a) else find ok as
    | .error f => .error f

def modify (a : ℕ) (f : ModuleEntry → ModuleEntry) : State :=
  { s with mem := Function.update s.mem a ((s.mem a).map f) }

/-- `op_bh_free` of a record. -/
def free (a : ℕ) : State := { s with mem := Function.update s.mem a none }

/-- `module_find`. -/
def moduleFind (name : CStr) (major minor : Int) : Except Fault (Option ℕ) :=
  s.find (fun p => p.recent major minor && strcaseEq name p.name) s.modules

/-- `module_register`; the patch stays. -/
def moduleRegister (name : CStr) (funcs : Option FuncTable) (major minor : Int) :
    Except Fault (State × Bool) := do
  match ← s.find (fun p => strcaseEq name p.name) s.modules with
  | some a =>
    return (s.modify a fun p => { p with major := major, minor := minor, funcs := funcs }, true)
  | none => return (s, false)

/-- The start function is called. -/
def startModule (name : CStr) (want : Option Want) : State :=
  { s with
    mem := Function.update s.mem s.next
      (some { name := name, major := 0, minor := 0, patch := 0, funcs := none })
    modules := s.modules ++ [s.next]
    frames := .starting s.next want :: s.frames
    next := s.next + 1 }

/-- `module_load`, up to the start function. -/
def moduleLoad (name : CStr) (opened : Bool) (want : Option Want) : Except Fault State := do
  match ← s.moduleFind name 0 0 with
  | some _ => return s
  | none => return if opened then s.startModule name want else s

/-- Who needs whom. -/
def edges : List (ℕ × ℕ) := s.deps.map fun d => (d.needing, d.needed)

/-- The loop of `dep_cycle_dfs`; `dfs` is the call for what is needed. -/
def depCycleLoop (dfs : ℕ → List ℕ → Bool × List ℕ) (start target : ℕ) :
    List (ℕ × ℕ) → List ℕ → Bool × List ℕ
  | [], visited => (false, visited)
  | d :: deps, visited =>
    if d.1 ≠ start then depCycleLoop dfs start target deps visited
    else if d.2 = target then (true, visited)
    else
      match dfs d.2 visited with
      | (true, visited) => (true, visited)
      | (false, visited) => depCycleLoop dfs start target deps visited

/-- `dep_cycle_dfs`, at most `n` modules deep: whether a way is found, and what was visited. -/
def depCycleDfs (deps : List (ℕ × ℕ)) (target : ℕ) : ℕ → ℕ → List ℕ → Bool × List ℕ
  | 0, _, visited => (false, visited)
  | n + 1, start, visited =>
    if start ∈ visited then (false, visited)
    else depCycleLoop (depCycleDfs deps target n) start target deps (visited ++ [start])

/-- `dep_cycle_dfs(p, o, &visited, 0)`: the depths 0 to 16 are gone into. -/
def depCycle (p o : ℕ) : Bool := (depCycleDfs s.edges o 17 p []).1

/-- The end of `module_depend`: `o` needs `p` from now on, unless this closes a circle. -/
def link (o p : ℕ) (major minor : Int) : State :=
  if s.depCycle p o then s
  else
    { s with deps := s.deps ++
        [{ needed := p, needing := o, major := major, minor := minor, patch := 0 }] }

/-- `module_depend`, up to the start function if the module has to be loaded. -/
def moduleDepend (name1 name2 : CStr) (major minor : Int) (opened : Bool) : Except Fault State := do
  let p ← s.moduleFind name2 major minor
  let o ← s.moduleFind name1 0 0
  match p, o with
  | none, o => s.moduleLoad name2 opened (some { o := o, name2 := name2, major := major, minor := minor })
  | some _, none => return s
  | some p, some o => return s.link o p major minor

/-- `module_undepend`, with how many dependencies were dropped. -/
def moduleUndepend (name1 : CStr) : Except Fault (State × ℕ) := do
  match ← s.moduleFind name1 0 0 with
  | some p =>
    return ({ s with deps := s.deps.filter (·.needing ≠ p) }, s.deps.countP (·.needing = p))
  | none => return (s, 0)

/-- `module_rename`. -/
def moduleRename (name newname : CStr) : Except Fault (State × Bool) := do
  match ← s.find (fun p => strcaseEq newname p.name) s.modules with
  | some _ => return (s, false)
  | none =>
    match ← s.find (fun p => strcaseEq name p.name) s.modules with
    | some a => return (s.modify a fun p => { p with name := newname }, true)
    | none => return (s, false)

/-- The module at `p` is freed, and what is in slot `i` leaves `module_vec`. -/
def dropModule (p i : ℕ) : State := { s.free p with modules := s.modules.eraseIdx i }

/-- `module_unload`, up to the scripts that are called before the close function.  A module that has
not registered its functions is gone at once. -/
def moduleUnload (name : CStr) : Except Fault State := do
  match ← s.find (fun p => name = p.name) s.modules with
  | none => return s
  | some a =>
    if s.deps.any (·.needed = a) then return s
    else
      let p ← s.deref a
      let i := s.modules.idxOf a
      match p.funcs with
      | none => return s.dropModule a i
      | some f => return if f.close then { s with frames := .unbinding a i :: s.frames } else s

/-- The start function of the module at `p` returns.  If it failed, the last slot of `module_vec`
is taken for its own, and its record is freed. -/
def startReturned (p : ℕ) (want : Option Want) (failed : Bool) (rest : List Frame) :
    Except Fault State := do
  if failed then
    let _ ← s.deref p
    return { s.free p with modules := s.modules.dropLast, frames := rest }
  else
    match want with
    | none => return { s with frames := rest }
    | some w => return { s with frames := .depending w :: rest }

/-- `module_depend` goes on. -/
def dependReturned (w : Want) (rest : List Frame) : Except Fault State := do
  match ← s.moduleFind w.name2 w.major w.minor, w.o with
  | some p, some o => return { s.link o p w.major w.minor with frames := rest }
  | _, _ => return { s with frames := rest }

/-- The close function of the module at `p` returns; its record is read to be freed. -/
def closeReturned (p i : ℕ) (failed : Bool) (rest : List Frame) : Except Fault State := do
  if failed then return { s with frames := rest }
  else
    let _ ← s.deref p
    return { s.dropModule p i with frames := rest }

/-- The innermost call returns. -/
def returned (failed : Bool) : Except Fault State :=
  match s.frames with
  | [] => .ok s
  | .starting p want :: rest => s.startReturned p want failed rest
  | .depending w :: rest => s.dependReturned w rest
  -- `f`, the module's functions, was read before
  | .unbinding p i :: rest => .ok { s with frames := .closing p i :: rest }
  | .closing p i :: rest => s.closeReturned p i failed rest

end State

def step (s : State) : Event → Except Fault State
  | .register name funcs major minor => (s.moduleRegister name funcs major minor).map Prod.fst
  | .load name opened => s.moduleLoad name opened none
  | .depend name1 name2 major minor opened => s.moduleDepend name1 name2 major minor opened
  | .undepend name1 => (s.moduleUndepend name1).map Prod.fst
  | .rename name newname => (s.moduleRename name newname).map Prod.fst
  | .unload name => s.moduleUnload name
  | .returned failed => s.returned failed

/-- `init_modules`: the core is a module itself, without functions. -/
def initModules (numver : ℕ) : State where
  mem := Function.update (fun _ => none) 0 (some
    { name := "eggdrop".toList, major := numver / 10000, minor := (numver / 100) % 100,
      patch := numver % 100, funcs := none })
  modules := [0]
  deps := []
  frames := []
  next := 1

/-! ### What fits together -/

/-- The records on the heap are those `module_vec` points at, and no two have the same name. -/
structure Listed (s : State) : Prop where
  nodup : s.modules.Nodup
  live : ∀ a, (s.mem a).isSome ↔ a ∈ s.modules
  names : ∀ a b p q, s.mem a = some p → s.mem b = some q → strcaseEq p.name q.name → a = b
  fresh : ∀ a ∈ s.modules, a < s.next

/-- And dependencies are between them. -/
structure Sound (s : State) : Prop extends Listed s where
  deps : ∀ d ∈ s.deps, d.needed ∈ s.modules ∧ d.needing ∈ s.modules

/-- No dependency names the module at `a`. -/
def Untied (s : State) (a : ℕ) : Prop := ∀ d ∈ s.deps, d.needed ≠ a ∧ d.needing ≠ a

/-- A module that is to go is in the slot that is cleared, and no dependency names it.  Who asked for a
module that has been loaded is still there. -/
def ReturnsWell (s : State) (failed : Bool) : Prop :=
  match s.frames with
  | [] => True
  | .starting p _ :: _ => failed → s.modules.getLast? = some p ∧ Untied s p
  | .depending w :: _ =>
    match s.moduleFind w.name2 w.major w.minor, w.o with
    | .ok (some p), some o => ¬ s.depCycle p o → o ∈ s.modules
    | _, _ => True
  | .unbinding _ _ :: _ => True
  | .closing p i :: _ => failed = false → s.modules[i]? = some p ∧ Untied s p

/-- A module without functions, which `module_unload` does not call, needs none. -/
def UnloadsWell (s : State) (name : CStr) : Prop :=
  ∀ a ∈ s.modules, ∀ p, s.mem a = some p → p.name = name → p.funcs = none →
    (∀ d ∈ s.deps, d.needed ≠ a) → ∀ d ∈ s.deps, d.needing ≠ a

/-- The condition on a step. -/
def Well (s : State) : Event → Prop
  | .unload name => UnloadsWell s name
  | .returned failed => ReturnsWell s failed
  | _ => True

section Decidable

variable (s : State)

instance (a : ℕ) : Decidable (Untied s a) := inferInstanceAs (Decidable (∀ d ∈ s.deps, _))

instance (name : CStr) : Decidable (UnloadsWell s name) :=
  inferInstanceAs (Decidable (∀ a ∈ s.modules, _))

instance (failed : Bool) : Decidable (ReturnsWell s failed) :=
  match hframes : s.frames with
  | [] => isTrue (by simp only [ReturnsWell, hframes])
  | .starting p _ :: _ =>
    decidable_of_iff (failed → s.modules.getLast? = some p ∧ Untied s p)
      (by simp only [ReturnsWell, hframes])
  | .depending w :: _ =>
    match hp : s.moduleFind w.name2 w.major w.minor, ho : w.o with
    | .ok (some p), some o =>
      decidable_of_iff (¬ s.depCycle p o → o ∈ s.modules) (by simp only [ReturnsWell, hframes, hp, ho])
    | .ok (some _), none => isTrue (by simp only [ReturnsWell, hframes, hp, ho])
    | .ok none, _ => isTrue (by simp only [ReturnsWell, hframes, hp])
    | .error _, _ => isTrue (by simp only [ReturnsWell, hframes, hp])
  | .unbinding _ _ :: _ => isTrue (by simp only [ReturnsWell, hframes])
  | .closing p i :: _ =>
    decidable_of_iff (failed = false → s.modules[i]? = some p ∧ Untied s p)
      (by simp only [ReturnsWell, hframes])

instance (e : Event) : Decidable (Well s e) :=
  match e with
  | .unload name => inferInstanceAs (Decidable (UnloadsWell s name))
  | .returned failed => inferInstanceAs (Decidable (ReturnsWell s failed))
  | .register .. | .load .. | .depend .. | .undepend .. | .rename .. => isTrue trivial

end Decidable

variable {s s' : State}

theorem sound_initModules (numver : ℕ) : Sound (initModules numver) where
  nodup := nodup_singleton 0
  live a := by
    by_cases ha : a = 0
    · simp [initModules, ha]
    · simp [initModules, ha]
  deps d hd := by simp [initModules] at hd
  names a b p q hp hq _ := by
    have hzero : ∀ {c r}, (initModules numver).mem c = some r → c = 0 := by
      intro c r hc
      by_contra hne
      simp [initModules, hne] at hc
    rw [hzero hp, hzero hq]
  fresh a ha := by
    obtain rfl : a = 0 := by simpa [initModules] using ha
    exact Nat.one_pos

/-! ### Reading the records -/

namespace Listed

theorem deref (h : Listed s) {a : ℕ} (ha : a ∈ s.modules) :
    ∃ p, s.mem a = some p ∧ s.deref a = .ok p := by
  obtain ⟨p, hp⟩ := Option.isSome_iff_exists.1 ((h.live a).2 ha)
  exact ⟨p, hp, by simp [State.deref, hp]⟩

theorem mem_modules (h : Listed s) {a : ℕ} {p : ModuleEntry} (ha : s.mem a = some p) :
    a ∈ s.modules :=
  (h.live a).1 (Option.isSome_iff_exists.2 ⟨p, ha⟩)

end Listed

theorem deref_of_mem {a : ℕ} {p : ModuleEntry} (h : s.mem a = some p) : s.deref a = .ok p := by
  simp [State.deref, h]

theorem deref_error_iff {a : ℕ} {f : Fault} : s.deref a = .error f ↔ s.mem a = none := by
  cases f
  cases hm : s.mem a with
  | some p => simp [State.deref, hm]
  | none => simp [State.deref, hm]

/-- Among records that are there, `find` comes to the first that meets the condition. -/
theorem find_cases (ok : ModuleEntry → Bool) :
    ∀ {l : List ℕ}, (∀ a ∈ l, ∃ p, s.mem a = some p) →
      (s.find ok l = .ok none ∧ ∀ a ∈ l, ∀ p, s.mem a = some p → ok p = false) ∨
      ∃ a p, s.find ok l = .ok (some a) ∧ a ∈ l ∧ s.mem a = some p ∧ ok p = true := by
  intro l
  induction l with
  | nil => exact fun _ => .inl ⟨rfl, fun a ha => absurd ha not_mem_nil⟩
  | cons a l ih =>
    intro hl
    obtain ⟨p, hp⟩ := hl a mem_cons_self
    by_cases hok : ok p = true
    · refine .inr ⟨a, p, ?_, mem_cons_self, hp, hok⟩
      simp [State.find, deref_of_mem hp, hok]
    · have heq : s.find ok (a :: l) = s.find ok l := by
        simp [State.find, deref_of_mem hp, hok]
      rw [heq]
      rcases ih fun b hb => hl b (mem_cons_of_mem a hb) with ⟨hnone, hall⟩ | ⟨b, q, hsome, hb, hq⟩
      · refine .inl ⟨hnone, fun b hb q hq => ?_⟩
        rcases mem_cons.1 hb with rfl | hb
        · rw [hp] at hq
          cases hq
          exact Bool.eq_false_iff.2 hok
        · exact hall b hb q hq
      · exact .inr ⟨b, q, hsome, mem_cons_of_mem a hb, hq⟩

theorem Listed.find_cases (h : Listed s) (ok : ModuleEntry → Bool) :
    (s.find ok s.modules = .ok none ∧ ∀ a p, s.mem a = some p → ok p = false) ∨
    ∃ a p, s.find ok s.modules = .ok (some a) ∧ a ∈ s.modules ∧ s.mem a = some p ∧ ok p = true := by
  have hl : ∀ a ∈ s.modules, ∃ p, s.mem a = some p := fun a ha =>
    Option.isSome_iff_exists.1 ((h.live a).2 ha)
  rcases Modules.find_cases ok hl with ⟨hnone, hall⟩ | hsome
  · exact .inl ⟨hnone, fun a p hp => hall a (h.mem_modules hp) p hp⟩
  · exact .inr hsome

theorem Listed.moduleFind_cases (h : Listed s) (name : CStr) (major minor : Int) :
    (s.moduleFind name major minor = .ok none ∧
      (major = 0 → ∀ a p, s.mem a = some p → strcaseEq name p.name = false)) ∨
    ∃ a, s.moduleFind name major minor = .ok (some a) ∧ a ∈ s.modules := by
  rcases h.find_cases fun p => p.recent major minor && strcaseEq name p.name with
    ⟨hnone, hall⟩ | ⟨a, p, hsome, ha, -, -⟩
  · refine .inl ⟨hnone, fun hmajor a p hp => ?_⟩
    simpa [hmajor, ModuleEntry.recent] using hall a p hp
  · exact .inr ⟨a, hsome, ha⟩

/-! ### Steps that change no record but one -/

theorem Listed.modify (h : Listed s) {a : ℕ} {f : ModuleEntry → ModuleEntry}
    (hname : ∀ p, s.mem a = some p → (f p).name = p.name ∨
      ∀ b q, s.mem b = some q → strcaseEq (f p).name q.name = false) : Listed (s.modify a f) where
  nodup := h.nodup
  live b := by
    refine Iff.trans ?_ (h.live b)
    by_cases hb : b = a
    · simp [State.modify, hb]
    · simp [State.modify, hb]
  names b c p q hp hq heq := by
    have hcase : ∀ {b p}, (s.modify a f).mem b = some p →
        b = a ∧ (∃ p', s.mem a = some p' ∧ f p' = p) ∨ b ≠ a ∧ s.mem b = some p := by
      intro b p hp
      by_cases hb : b = a
      · subst hb
        exact .inl ⟨rfl, by simpa [State.modify] using hp⟩
      · exact .inr ⟨hb, by simpa [State.modify, hb] using hp⟩
    rcases hcase hp with ⟨rfl, p', hp', rfl⟩ | ⟨-, hbp⟩
    · rcases hcase hq with ⟨rfl, -⟩ | ⟨-, hcq⟩
      · rfl
      · rcases hname p' hp' with hn | hn
        · rw [hn] at heq
          exact h.names b c p' q hp' hcq heq
        · rw [hn c q hcq] at heq
          cases heq
    · rcases hcase hq with ⟨rfl, q', hq', rfl⟩ | ⟨-, hcq⟩
      · rcases hname q' hq' with hn | hn
        · rw [hn] at heq
          exact h.names b c p q' hbp hq' heq
        · rw [strcaseEq_comm, hn b p hbp] at heq
          cases heq
      · exact h.names b c p q hbp hcq heq
  fresh := h.fresh

theorem Sound.moduleRegister (h : Sound s) (name : CStr) (funcs : Option FuncTable)
    (major minor : Int) :
    ∃ r, s.moduleRegister name funcs major minor = .ok r ∧ Sound r.1 := by
  rcases h.find_cases fun p => strcaseEq name p.name with ⟨hnone, -⟩ | ⟨a, p, hsome, -, -, -⟩
  · exact ⟨_, by simp only [State.moduleRegister, hnone]; rfl, h⟩
  · refine ⟨_, by simp only [State.moduleRegister, hsome]; rfl, ?_⟩
    exact ⟨h.toListed.modify fun p _ => .inl rfl, h.deps⟩

theorem Sound.moduleRename (h : Sound s) (name newname : CStr) :
    ∃ r, s.moduleRename name newname = .ok r ∧ Sound r.1 := by
  rcases h.find_cases fun p => strcaseEq newname p.name with ⟨hnone, hall⟩ | ⟨b, q, hsome, -, -, -⟩
  · rcases h.find_cases fun p => strcaseEq name p.name with ⟨hnone', -⟩ | ⟨a, p, hsome, -, -, -⟩
    · exact ⟨_, by simp only [State.moduleRename, hnone, hnone']; rfl, h⟩
    · refine ⟨_, by simp only [State.moduleRename, hnone, hsome]; rfl, ?_⟩
      exact ⟨h.toListed.modify fun p _ => .inr hall, h.deps⟩
  · exact ⟨_, by simp only [State.moduleRename, hsome]; rfl, h⟩

/-! ### Loading -/

theorem Sound.startModule (h : Sound s) {name : CStr} (want : Option Want)
    (hname : ∀ a p, s.mem a = some p → strcaseEq name p.name = false) :
    Sound (s.startModule name want) where
  nodup := by
    refine nodup_append.2 ⟨h.nodup, nodup_singleton _, fun a ha b hb => ?_⟩
    have := h.fresh a ha
    rw [mem_singleton] at hb
    omega
  live a := by
    by_cases ha : a = s.next
    · simp [State.startModule, ha]
    · simpa [State.startModule, ha] using h.live a
  deps d hd := by
    obtain ⟨h1, h2⟩ := h.deps d hd
    exact ⟨mem_append_left _ h1, mem_append_left _ h2⟩
  names a b p q hp hq heq := by
    have hcase : ∀ {c r}, (s.startModule name want).mem c = some r →
        c = s.next ∧ r.name = name ∨ s.mem c = some r := by
      intro c r hr
      by_cases hc : c = s.next
      · subst hc
        simp only [State.startModule, Function.update_self, Option.some_inj] at hr
        exact .inl ⟨rfl, (congrArg ModuleEntry.name hr).symm⟩
      · exact .inr (by simpa [State.startModule, hc] using hr)
    rcases hcase hp with ⟨rfl, hpn⟩ | hp
    · rcases hcase hq with ⟨rfl, -⟩ | hq
      · rfl
      · rw [hpn, hname b q hq] at heq
        cases heq
    · rcases hcase hq with ⟨rfl, hqn⟩ | hq
      · rw [hqn, strcaseEq_comm, hname a p hp] at heq
        cases heq
      · exact h.names a b p q hp hq heq
  fresh a ha := by
    rcases mem_append.1 ha with ha | ha
    · exact Nat.lt_succ_of_lt (h.fresh a ha)
    · rw [mem_singleton] at ha
      exact ha ▸ Nat.lt_succ_self _

theorem Sound.moduleLoad (h : Sound s) (name : CStr) (opened : Bool) (want : Option Want) :
    ∃ t, s.moduleLoad name opened want = .ok t ∧ Sound t := by
  rcases h.moduleFind_cases name 0 0 with ⟨hnone, hall⟩ | ⟨a, hsome, -⟩
  · refine ⟨_, by simp only [State.moduleLoad, hnone]; rfl, ?_⟩
    cases opened with
    | true => exact h.startModule want (hall rfl)
    | false => exact h
  · exact ⟨s, by simp only [State.moduleLoad, hsome]; rfl, h⟩

/-! ### Dependencies -/

theorem Listed.frames (h : Listed s) (fs : List Frame) : Listed { s with frames := fs } :=
  ⟨h.nodup, h.live, h.names, h.fresh⟩

theorem Sound.frames (h : Sound s) (fs : List Frame) : Sound { s with frames := fs } :=
  ⟨h.toListed.frames fs, h.deps⟩

theorem Sound.undep (h : Sound s) (keep : Dependancy → Bool) :
    Sound { s with deps := s.deps.filter keep } :=
  ⟨⟨h.nodup, h.live, h.names, h.fresh⟩, fun d hd => h.deps d (mem_filter.1 hd).1⟩

/-- A link to a module that is there is as good as its other end. -/
theorem Sound.link_iff (h : Sound s) {o p : ℕ} (hp : p ∈ s.modules) (major minor : Int) :
    Sound (s.link o p major minor) ↔ (¬ s.depCycle p o → o ∈ s.modules) := by
  by_cases hcycle : s.depCycle p o
  · rw [State.link, if_pos hcycle]
    exact iff_of_true h fun hno => absurd hcycle hno
  · rw [State.link, if_neg hcycle]
    constructor
    · intro h' _
      exact (h'.deps _ (mem_append_right _ (mem_singleton_self _))).2
    · intro ho
      have ho := ho hcycle
      refine ⟨⟨h.nodup, h.live, h.names, h.fresh⟩, fun d hd => ?_⟩
      rcases mem_append.1 hd with hd | hd
      · exact h.deps d hd
      · obtain rfl := mem_singleton.1 hd
        exact ⟨hp, ho⟩

theorem Sound.moduleDepend (h : Sound s) (name1 name2 : CStr) (major minor : Int) (opened : Bool) :
    ∃ t, s.moduleDepend name1 name2 major minor opened = .ok t ∧ Sound t := by
  rcases h.moduleFind_cases name1 0 0 with ⟨ho, -⟩ | ⟨o, ho, homem⟩
  · rcases h.moduleFind_cases name2 major minor with ⟨hp, -⟩ | ⟨p, hp, -⟩
    · obtain ⟨t, ht, hst⟩ := h.moduleLoad name2 opened
        (some { o := none, name2 := name2, major := major, minor := minor })
      exact ⟨t, by simp only [State.moduleDepend, hp, ho]; exact ht, hst⟩
    · exact ⟨s, by simp only [State.moduleDepend, hp, ho]; rfl, h⟩
  · rcases h.moduleFind_cases name2 major minor with ⟨hp, -⟩ | ⟨p, hp, hpmem⟩
    · obtain ⟨t, ht, hst⟩ := h.moduleLoad name2 opened
        (some { o := some o, name2 := name2, major := major, minor := minor })
      exact ⟨t, by simp only [State.moduleDepend, hp, ho]; exact ht, hst⟩
    · refine ⟨_, by simp only [State.moduleDepend, hp, ho]; rfl, ?_⟩
      exact (h.link_iff hpmem major minor).2 fun _ => homem

theorem Sound.moduleUndepend (h : Sound s) (name1 : CStr) :
    ∃ r, s.moduleUndepend name1 = .ok r ∧ Sound r.1 := by
  rcases h.moduleFind_cases name1 0 0 with ⟨hnone, -⟩ | ⟨a, hsome, -⟩
  · exact ⟨_, by simp only [State.moduleUndepend, hnone]; rfl, h⟩
  · exact ⟨_, by simp only [State.moduleUndepend, hsome]; rfl, h.undep _⟩

/-! ### A module goes -/

/-- Freeing the record at `p` and taking one entry off `module_vec` fits exactly if that was its
entry.  Then the others stay. -/
theorem Listed.drop_iff (h : Listed s) (fs : List Frame) {p : ℕ} (hp : p ∈ s.modules) {l : List ℕ}
    (hl : l.Sublist s.modules) (hlen : s.modules.length = l.length + 1) :
    (Listed { s.free p with modules := l, frames := fs } ↔ p ∉ l) ∧
      (p ∉ l → ∀ a, a ∈ l ↔ a ∈ s.modules ∧ a ≠ p) := by
  have hothers : p ∉ l → ∀ a, a ∈ l ↔ a ∈ s.modules ∧ a ≠ p := by
    -- `l` has all the others, as it is one shorter
    intro hpl a
    have hsub : (p :: l).Subperm s.modules :=
      (nodup_cons.2 ⟨hpl, h.nodup.sublist hl⟩).subperm (cons_subset.2 ⟨hp, hl.subset⟩)
    have hperm := hsub.perm_of_length_le (by rw [length_cons]; omega)
    rw [← hperm.mem_iff, mem_cons]
    constructor
    · exact fun ha => ⟨.inr ha, fun he => hpl (he ▸ ha)⟩
    · rintro ⟨ha, hne⟩
      exact ha.resolve_left hne
  refine ⟨⟨fun h' hpl => ?_, fun hpl => ?_⟩, hothers⟩
  · have := (h'.live p).2 hpl
    simp [State.free] at this
  · refine ⟨h.nodup.sublist hl, fun a => ?_, fun a b q r hq hr heq => ?_,
      fun a ha => h.fresh a (hl.subset ha)⟩
    · by_cases ha : a = p
      · simp [State.free, ha, hpl]
      · simpa [State.free, ha, hothers hpl a] using h.live a
    · have hold : ∀ {c x}, (s.free p).mem c = some x → s.mem c = some x := by
        intro c x hx
        by_cases hc : c = p
        · simp [State.free, hc] at hx
        · simpa [State.free, hc] using hx
      exact h.names a b q r (hold hq) (hold hr) heq

/-- And no dependency may name it. -/
theorem Sound.drop_iff (h : Sound s) (fs : List Frame) {p : ℕ} (hp : p ∈ s.modules) {l : List ℕ}
    (hl : l.Sublist s.modules) (hlen : s.modules.length = l.length + 1) :
    Sound { s.free p with modules := l, frames := fs } ↔ p ∉ l ∧ Untied s p := by
  obtain ⟨hiff, hothers⟩ := h.toListed.drop_iff fs hp hl hlen
  constructor
  · intro h'
    have hpl := hiff.1 h'.toListed
    refine ⟨hpl, fun d hd => ?_⟩
    obtain ⟨h1, h2⟩ := h'.deps d hd
    exact ⟨fun he => hpl (he ▸ h1), fun he => hpl (he ▸ h2)⟩
  · rintro ⟨hpl, huntied⟩
    refine ⟨hiff.2 hpl, fun d hd => ?_⟩
    obtain ⟨h1, h2⟩ := huntied d hd
    obtain ⟨h3, h4⟩ := h.deps d hd
    exact ⟨(hothers hpl _).2 ⟨h3, h1⟩, (hothers hpl _).2 ⟨h4, h2⟩⟩

theorem Listed.not_mem_eraseIdx_iff (h : Listed s) {p i : ℕ} (hp : p ∈ s.modules)
    (hi : i < s.modules.length) : p ∉ s.modules.eraseIdx i ↔ s.modules[i]? = some p := by
  rw [List.getElem?_eq_getElem hi, Option.some_inj]
  constructor
  · intro hnot
    by_contra hne
    obtain ⟨j, hj, hjp⟩ := getElem_of_mem hp
    refine hnot (mem_eraseIdx_iff_getElem.2 ⟨j, hj, ?_, hjp⟩)
    rintro rfl
    exact hne hjp
  · rintro rfl hmem
    obtain ⟨j, hj, hne, hjp⟩ := mem_eraseIdx_iff_getElem.1 hmem
    exact hne (h.nodup.getElem_inj_iff.1 hjp)

theorem length_eraseIdx_succ {l : List ℕ} {i : ℕ} (hi : i < l.length) :
    l.length = (l.eraseIdx i).length + 1 := by
  rw [length_eraseIdx_of_lt hi]
  omega

/-- Slot `i` is the right one exactly if the module is in it. -/
theorem Sound.eraseIdx_iff (h : Sound s) {p i : ℕ} (hp : p ∈ s.modules) (fs : List Frame) :
    Sound { s.dropModule p i with frames := fs } ↔ s.modules[i]? = some p ∧ Untied s p := by
  by_cases hi : i < s.modules.length
  · have hiff := h.drop_iff fs hp (eraseIdx_sublist s.modules i) (length_eraseIdx_succ hi)
    exact hiff.trans (and_congr_left fun _ => h.not_mem_eraseIdx_iff hp hi)
  · have hge : s.modules.length ≤ i := Nat.le_of_not_lt hi
    refine iff_of_false (fun h' => ?_) fun hno => ?_
    · have := (h'.live p).2 (by simpa [State.dropModule, eraseIdx_of_length_le hge] using hp)
      simp [State.dropModule, State.free] at this
    · rw [getElem?_eq_none hge] at hno
      exact nomatch hno.1

/-- The last slot is the right one exactly if the module is in it. -/
theorem Sound.dropLast_iff (h : Sound s) {p : ℕ} (hp : p ∈ s.modules) (fs : List Frame) :
    Sound { s.free p with modules := s.modules.dropLast, frames := fs } ↔
      s.modules.getLast? = some p ∧ Untied s p := by
  have hne : s.modules ≠ [] := ne_nil_of_mem hp
  have hiff := h.eraseIdx_iff (i := s.modules.length - 1) hp fs
  rw [State.dropModule, eraseIdx_length_sub_one] at hiff
  rw [getLast?_eq_getElem?]
  exact hiff

theorem Listed.eq_of_name (h : Listed s) {a b : ℕ} {p q : ModuleEntry} (hp : s.mem a = some p)
    (hq : s.mem b = some q) (hname : q.name = p.name) : b = a ∧ q = p := by
  obtain rfl : b = a := h.names b a q p hq hp (by rw [hname]; exact strcaseEq_refl _)
  exact ⟨rfl, Option.some.inj (hq.symm.trans hp)⟩

/-- `module_unload` refuses, or the module has no functions and goes, or its close function is next. -/
theorem Listed.moduleUnload_cases (h : Listed s) (name : CStr) :
    (s.moduleUnload name = .ok s ∧ ∀ a p, s.mem a = some p → p.name = name →
      (∃ d ∈ s.deps, d.needed = a) ∨ ∃ f, p.funcs = some f ∧ f.close = false) ∨
    ∃ a p i, a ∈ s.modules ∧ s.mem a = some p ∧ p.name = name ∧ s.modules[i]? = some a ∧
      (∀ d ∈ s.deps, d.needed ≠ a) ∧
      (p.funcs = none ∧ s.moduleUnload name = .ok (s.dropModule a i) ∨
        ∃ f, p.funcs = some f ∧ f.close = true ∧
          s.moduleUnload name = .ok { s with frames := .unbinding a i :: s.frames }) := by
  rcases h.find_cases fun p => name = p.name with ⟨hnone, hall⟩ | ⟨a, p, hsome, ha, hp, hname⟩
  · refine .inl ⟨by simp only [State.moduleUnload, hnone]; rfl, fun a p hp hn => ?_⟩
    have := hall a p hp
    simp [hn] at this
  have hname : p.name = name := (of_decide_eq_true hname).symm
  by_cases hneeded : s.deps.any (·.needed = a)
  · refine .inl ⟨?_, fun b q hq hqn => .inl ?_⟩
    · simp only [State.moduleUnload, hsome]
      simp only [bind, Except.bind, hneeded]
      rfl
    · obtain ⟨rfl, -⟩ := h.eq_of_name hp hq (hqn.trans hname.symm)
      simpa using hneeded
  have hfree : ∀ d ∈ s.deps, d.needed ≠ a := by simpa using hneeded
  have hderef := deref_of_mem hp
  have hslot : s.modules[s.modules.idxOf a]? = some a := by
    rw [List.getElem?_eq_getElem (idxOf_lt_length_of_mem ha), getElem_idxOf]
  cases hfuncs : p.funcs with
  | none =>
    refine .inr ⟨a, p, s.modules.idxOf a, ha, hp, hname, hslot, hfree, .inl ⟨hfuncs, ?_⟩⟩
    simp only [State.moduleUnload, hsome]
    simp only [bind, Except.bind, hneeded, hderef, hfuncs]
    rfl
  | some f =>
    by_cases hclose : f.close = true
    · refine .inr ⟨a, p, s.modules.idxOf a, ha, hp, hname, hslot, hfree,
        .inr ⟨f, hfuncs, hclose, ?_⟩⟩
      simp only [State.moduleUnload, hsome]
      simp only [bind, Except.bind, hneeded, hderef, hfuncs, hclose]
      rfl
    · refine .inl ⟨?_, fun b q hq hqn => .inr ?_⟩
      · simp only [State.moduleUnload, hsome]
        simp only [bind, Except.bind, hneeded, hderef, hfuncs, hclose]
        rfl
      · obtain ⟨-, rfl⟩ := h.eq_of_name hp hq (hqn.trans hname.symm)
        exact ⟨f, hfuncs, Bool.eq_false_iff.2 hclose⟩

theorem Sound.moduleUnload_iff (h : Sound s) (name : CStr) :
    ∃ t, s.moduleUnload name = .ok t ∧ (Sound t ↔ UnloadsWell s name) := by
  rcases h.moduleUnload_cases name with ⟨hsame, hall⟩ |
    ⟨a, p, i, ha, hp, hname, hi, hfree, ⟨hfuncs, hgone⟩ | ⟨f, hfuncs, -, hcall⟩⟩
  · refine ⟨s, hsame, iff_of_true h fun a _ p hp hn hnone hfree => ?_⟩
    rcases hall a p hp hn with ⟨d, hd, hda⟩ | ⟨f, hf, -⟩
    · exact absurd hda (hfree d hd)
    · rw [hnone] at hf
      cases hf
  · refine ⟨_, hgone, (h.eraseIdx_iff ha s.frames).trans ?_⟩
    constructor
    · rintro ⟨-, huntied⟩ b - q hq hqn _ _ d hd
      obtain ⟨rfl, -⟩ := h.eq_of_name hp hq (hqn.trans hname.symm)
      exact (huntied d hd).2
    · exact fun hwell => ⟨hi, fun d hd => ⟨hfree d hd, hwell a ha p hp hname hfuncs hfree d hd⟩⟩
  · refine ⟨_, hcall, iff_of_true (h.frames _) fun b _ q hq hqn hnone => ?_⟩
    obtain ⟨-, rfl⟩ := h.eq_of_name hp hq (hqn.trans hname.symm)
    rw [hfuncs] at hnone
    cases hnone

/-! ### Calls that return -/

theorem Listed.deref_error (h : Listed s) {p : ℕ} (hp : p ∉ s.modules) :
    s.deref p = .error .useAfterFree := by
  rw [deref_error_iff]
  by_contra hne
  exact hp ((h.live p).1 (Option.ne_none_iff_isSome.1 hne))

/-- What comes after a record has been read. -/
theorem Sound.deref_bind_iff (h : Sound s) {p : ℕ} {next : ModuleEntry → Except Fault State}
    {P : Prop} (hnext : p ∈ s.modules → ∀ q, (∃ t, next q = .ok t ∧ Sound t) ↔ P) :
    (∃ t, (s.deref p >>= next) = .ok t ∧ Sound t) ↔ p ∈ s.modules ∧ P := by
  by_cases hp : p ∈ s.modules
  · obtain ⟨q, -, hq⟩ := h.deref hp
    rw [hq]
    exact (hnext hp q).trans (and_iff_right hp).symm
  · rw [h.deref_error hp]
    exact iff_of_false (fun ⟨t, ht, _⟩ => nomatch ht) fun hno => hp hno.1

theorem exists_ok_iff {t : State} : (∃ u, Except.ok (ε := Fault) t = .ok u ∧ Sound u) ↔ Sound t :=
  ⟨fun ⟨_, hu, hs⟩ => Except.ok.inj hu ▸ hs, fun hs => ⟨t, rfl, hs⟩⟩

theorem Sound.startReturned_iff (h : Sound s) (p : ℕ) (want : Option Want) (failed : Bool)
    (rest : List Frame) :
    (∃ t, s.startReturned p want failed rest = .ok t ∧ Sound t) ↔
      (failed → s.modules.getLast? = some p ∧ Untied s p) := by
  cases failed with
  | true =>
    have hread := h.deref_bind_iff (p := p) fun hp _ =>
      (exists_ok_iff (t := { s.free p with modules := s.modules.dropLast, frames := rest })).trans
        (h.dropLast_iff hp rest)
    refine hread.trans ⟨fun hwell _ => hwell.2, fun hwell => ?_⟩
    exact ⟨mem_of_getLast? (hwell rfl).1, hwell rfl⟩
  | false =>
    refine iff_of_true ?_ (fun hno => nomatch hno)
    cases want with
    | none => exact ⟨_, rfl, h.frames rest⟩
    | some w => exact ⟨_, rfl, h.frames _⟩

theorem Sound.closeReturned_iff (h : Sound s) (p i : ℕ) (failed : Bool) (rest : List Frame) :
    (∃ t, s.closeReturned p i failed rest = .ok t ∧ Sound t) ↔
      (failed = false → s.modules[i]? = some p ∧ Untied s p) := by
  cases failed with
  | true => exact iff_of_true ⟨_, rfl, h.frames rest⟩ (fun hno => nomatch hno)
  | false =>
    have hread := h.deref_bind_iff (p := p) fun hp _ =>
      (exists_ok_iff (t := { s.dropModule p i with frames := rest })).trans
        (h.eraseIdx_iff (i := i) hp rest)
    refine hread.trans ⟨fun hwell _ => hwell.2, fun hwell => ?_⟩
    exact ⟨mem_of_getElem? (hwell rfl).1, hwell rfl⟩

theorem Sound.dependReturned_iff (h : Sound s) (w : Want) (rest : List Frame) :
    (∃ t, s.dependReturned w rest = .ok t ∧ Sound t) ↔
      match s.moduleFind w.name2 w.major w.minor, w.o with
      | .ok (some p), some o => ¬ s.depCycle p o → o ∈ s.modules
      | _, _ => True := by
  rcases h.moduleFind_cases w.name2 w.major w.minor with ⟨hnone, -⟩ | ⟨p, hsome, hp⟩
  · rw [hnone]
    exact iff_of_true ⟨_, by simp only [State.dependReturned, hnone]; rfl, h.frames rest⟩ trivial
  · rw [hsome]
    cases ho : w.o with
    | none =>
      exact iff_of_true ⟨_, by simp only [State.dependReturned, hsome, ho]; rfl, h.frames rest⟩ trivial
    | some o =>
      have hstep : s.dependReturned w rest =
          .ok { s.link o p w.major w.minor with frames := rest } := by
        simp only [State.dependReturned, hsome, ho]
        rfl
      have hlink : Sound { s.link o p w.major w.minor with frames := rest } ↔
          (¬ s.depCycle p o → o ∈ s.modules) := by
        rw [← h.link_iff hp w.major w.minor]
        exact ⟨fun h' => h'.frames (s.link o p w.major w.minor).frames, fun h' => h'.frames rest⟩
      constructor
      · rintro ⟨t, ht, hst⟩
        rw [hstep] at ht
        cases ht
        exact hlink.1 hst
      · exact fun hwell => ⟨_, hstep, hlink.2 hwell⟩

theorem Sound.endCall_iff (h : Sound s) (failed : Bool) :
    (∃ t, s.returned failed = .ok t ∧ Sound t) ↔ ReturnsWell s failed := by
  unfold State.returned ReturnsWell
  cases hframes : s.frames with
  | nil => exact iff_of_true ⟨s, rfl, h⟩ trivial
  | cons top rest =>
    cases top with
    | starting p want => exact h.startReturned_iff p want failed rest
    | depending w => exact h.dependReturned_iff w rest
    | unbinding p i => exact iff_of_true ⟨_, rfl, h.frames _⟩ trivial
    | closing p i => exact h.closeReturned_iff p i failed rest

/-! ### Runs -/

theorem sound_of_map {α : Type} {x : Except Fault (State × α)} (h : ∃ r, x = .ok r ∧ Sound r.1) :
    ∃ t, x.map Prod.fst = .ok t ∧ Sound t := by
  obtain ⟨r, hr, hs⟩ := h
  exact ⟨r.1, by rw [hr]; rfl, hs⟩

/-- A step reads no record that was freed and keeps what fits, exactly under the condition. -/
theorem sound_step_iff (h : Sound s) (e : Event) :
    (∃ t, step s e = .ok t ∧ Sound t) ↔ Well s e := by
  cases e with
  | register name funcs major minor =>
    exact iff_of_true (sound_of_map (h.moduleRegister name funcs major minor)) trivial
  | load name opened => exact iff_of_true (h.moduleLoad name opened none) trivial
  | depend name1 name2 major minor opened =>
    exact iff_of_true (h.moduleDepend name1 name2 major minor opened) trivial
  | undepend name1 => exact iff_of_true (sound_of_map (h.moduleUndepend name1)) trivial
  | rename name newname => exact iff_of_true (sound_of_map (h.moduleRename name newname)) trivial
  | unload name =>
    obtain ⟨t, ht, hiff⟩ := h.moduleUnload_iff name
    rw [step, ht]
    constructor
    · rintro ⟨u, hu, hsu⟩
      cases hu
      exact hiff.1 hsu
    · exact fun hwell => ⟨t, rfl, hiff.2 hwell⟩
  | returned failed => exact h.endCall_iff failed

/-- Loading and unloading modules inside of each other, in any order: no record is read that was
freed, and the tables fit together all the time, exactly if every call that returns does so
well. -/
theorem sound_iff_along (numver : ℕ) (es : List Event) :
    (∃ t, Machine.run step (initModules numver) es = .ok t) ∧
        Machine.Throughout step Sound (initModules numver) es ↔
      Machine.Along step Well (initModules numver) es :=
  Machine.run_throughout_iff_along (fun _ e h => sound_step_iff h e) (sound_initModules numver) es

/-- A start function that fails after another module was loaded for it takes that one's slot, and
leaves its own in the list. -/
example : ¬ Machine.Along step Well (initModules 1100102)
    [.load ['w'] true, .depend ['w'] ['c'] 1 1 true, .returned false, .returned false,
      .undepend ['w'], .returned true] := by
  decide

end Eggdrop.Modules
