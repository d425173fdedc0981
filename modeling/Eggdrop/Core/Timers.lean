import Mathlib.Algebra.Group.Pi.Basic
import Mathlib.Data.List.Nodup
import Mathlib.Logic.Function.Basic
import Eggdrop.Base.CString
import Eggdrop.Lib.Run

/-!
# Timers — timers of scripts and the event queue

The timers of chanprog.c are records on the heap that two vectors and the entries of the event queue
of libop point at.  What a timer's command does to the timers is taken as it comes: a list of
commands with every firing.  Times are left out: any entry of the queue may be the next.

* `Inv`: the records, the vectors and the queue fit together.
* `Inv.runOps`: so they do after any commands; no record is read that was freed.
* `good_throughout`: and after firings whose commands do not remove the timer that is firing.
-/

namespace Eggdrop.Timers

open List

inductive Fault where
  | useAfterFree
deriving DecidableEq, Repr

/-- The two vectors, by `secs_per_tick`. -/
inductive Stack where
  | timer
  | utimer
deriving DecidableEq, Repr

/-- `tcl_timer_t`. -/
structure Timer where
  count : ℕ
  stack : Stack
  id : ℕ
  name : CStr
  ev : ℕ
deriving DecidableEq, Repr

/-- One firing less to go, and the next one at a new entry of the queue. -/
def Timer.again (t : Timer) (ev : ℕ) : Timer :=
  { t with count := if t.count > 1 then t.count - 1 else t.count, ev := ev }

/-- `struct ev_entry` at the address `ev`, for the timer at the address `arg`. -/
structure EvEntry where
  ev : ℕ
  arg : ℕ
  dead : Bool
deriving DecidableEq, Repr

/-- Marked dead, if it is the entry at `ev`. -/
def EvEntry.kill (ev : ℕ) (e : EvEntry) : EvEntry := if e.ev = ev then { e with dead := true } else e

/-- What has happened to timers. -/
inductive Act where
  | created (a n : ℕ)
  | fired (a : ℕ)
  | removed (a : ℕ)
deriving DecidableEq, Repr

structure State where
  mem : ℕ → Option Timer
  vecs : Stack → List ℕ
  heap : List EvEntry
  nextTimer : ℕ
  nextEv : ℕ
  timerId : ℕ
  log : List Act

/-- What a script does to the timers: `add_timer`, `remove_timer` and `wipe_timers`. -/
inductive Op where
  | add (stack : Stack) (count : Int) (name : Option CStr) (prevId : ℕ)
  | remove (stack : Stack) (name : CStr)
  | wipe (stack : Stack)
deriving DecidableEq, Repr

/-- A script, the firing of an entry of the queue with what its command does, and the end of an
entry that is dead. -/
inductive Event where
  | script (ops : List Op)
  | fire (ev : ℕ) (ops : List Op)
  | reap (ev : ℕ)
deriving DecidableEq, Repr

namespace State

variable (s : State)

/-- Read the record at an address. -/
def deref (a : ℕ) : Except Fault Timer :=
  match s.mem a with
  | some t => .ok t
  | none => .error .useAfterFree

def emit (x : Act) : State := { s with log := s.log ++ [x] }

/-- `op_event_addonce` for a timer; the address of the entry is `nextEv`. -/
def eventAddonce (a : ℕ) : State :=
  { s with heap := s.heap ++ [{ ev := s.nextEv, arg := a, dead := false }], nextEv := s.nextEv + 1 }

/-- `op_event_delete`. -/
def eventDelete (ev : ℕ) : Except Fault State :=
  if s.heap.any (·.ev = ev) then .ok { s with heap := s.heap.map (EvEntry.kill ev) }
  else .error .useAfterFree

/-- `heap_remove`, and the entry is freed. -/
def heapRemove (ev : ℕ) : State := { s with heap := s.heap.filter (·.ev ≠ ev) }

/-- `op_vec_remove` of an address. -/
def vecRemove (k : Stack) (a : ℕ) : State :=
  { s with vecs := Function.update s.vecs k ((s.vecs k).erase a) }

/-- `op_bh_free` of a record. -/
def free (a : ℕ) : State := { s with mem := Function.update s.mem a none }

/-- `add_timer`. -/
def addTimer (k : Stack) (count : Int) (name : Option CStr) (prevId : ℕ) : State :=
  let id := if prevId > 0 then prevId else s.timerId
  let n := (count % 2 ^ 32).toNat
  let t : Timer :=
    { count := n, stack := k, id := id, name := name.getD ("timer".toList ++ showNat id)
      ev := s.nextEv }
  let a := s.nextTimer
  let s := s.eventAddonce a
  { s with
    mem := Function.update s.mem a (some t)
    vecs := Function.update s.vecs k (s.vecs k ++ [a])
    nextTimer := a + 1
    timerId := if prevId > 0 then s.timerId else s.timerId + 1
    log := s.log ++ [.created a n] }

/-- The event of a timer is cancelled, and the record is freed. -/
def dropTimer (a : ℕ) (t : Timer) : Except Fault State := do
  let s ← s.eventDelete t.ev
  pure ((s.free a).emit (.removed a))

/-- The loop of `remove_timer`, from the end of the vector. -/
def removeLoop (k : Stack) (name : CStr) : List ℕ → State → Except Fault State
  | [], s => .ok s
  | a :: as, s => do
    let t ← s.deref a
    let s ← (if strcaseEq t.name name then (s.vecRemove k a).dropTimer a t else .ok s)
    removeLoop k name as s

/-- `remove_timer`. -/
def removeTimer (k : Stack) (name : CStr) : Except Fault State :=
  removeLoop k name (s.vecs k).reverse s

/-- The loop of `wipe_timers`. -/
def wipeLoop : List ℕ → State → Except Fault State
  | [], s => .ok s
  | a :: as, s => do
    let t ← s.deref a
    let s ← s.dropTimer a t
    wipeLoop as s

/-- `wipe_timers`. -/
def wipeTimers (k : Stack) : Except Fault State := do
  let s ← wipeLoop (s.vecs k) s
  pure { s with vecs := Function.update s.vecs k [] }

def op : Op → Except Fault State
  | .add k count name prevId => .ok (s.addTimer k count name prevId)
  | .remove k name => s.removeTimer k name
  | .wipe k => s.wipeTimers k

def runOps : List Op → State → Except Fault State
  | [], s => .ok s
  | o :: os, s => do
    let s ← s.op o
    runOps os s

/-- A timer that has fired and has firings left is queued again. -/
def again (a : ℕ) (t : Timer) : State :=
  { s.eventAddonce a with mem := Function.update s.mem a (some (t.again s.nextEv)) }

/-- `egg_timer_fire`. -/
def eggTimerFire (a : ℕ) (ops : List Op) : Except Fault State := do
  let _ ← s.deref a
  let s ← runOps ops (s.emit (.fired a))
  let t ← s.deref a
  pure (if t.count = 1 then (s.vecRemove t.stack a).free a else s.again a t)

/-- `op_run_one_event`, for an entry that is not dead. -/
def runOneEvent (ev : ℕ) (ops : List Op) : Except Fault State :=
  match s.heap.find? (·.ev = ev) with
  | some e =>
    if e.dead then .ok s
    else do
      let s ← s.eggTimerFire e.arg ops
      pure (s.heapRemove ev)
  | none => .ok s

/-- A dead entry is taken out of the queue. -/
def reap (ev : ℕ) : State := { s with heap := s.heap.filter fun e => !(e.ev = ev && e.dead) }

def next : Event → Except Fault State
  | .script ops => runOps ops s
  | .fire ev ops => s.runOneEvent ev ops
  | .reap ev => .ok (s.reap ev)

end State

/-- The timer it is about. -/
def Act.timer : Act → ℕ
  | .created a _ | .fired a | .removed a => a

/-- What has happened to a timer. -/
def State.acts (s : State) (a : ℕ) : List Act := s.log.filter (·.timer = a)

/-- The whole of what has happened to the timer at `a`, by what is there now.  Made for `n` firings
and with `f` of them behind it, it waits for the others; `owed` is one while it fires. -/
inductive Life (a : ℕ) : ℕ → Option Timer → List Act → Prop
  | unborn : Life a 0 none []
  | waiting {t : Timer} {n f owed : ℕ}
      (h : n = 0 ∧ t.count = 0 ∨ 0 < n ∧ 0 < t.count ∧ f + t.count = n + owed) :
      Life a owed (some t) (.created a n :: replicate f (.fired a))
  | removed {n f : ℕ} (h : n = 0 ∨ f < n) :
      Life a 0 none (.created a n :: replicate f (.fired a) ++ [.removed a])
  | expired {n : ℕ} (h : 0 < n) : Life a 0 none (.created a n :: replicate n (.fired a))

/-- The vectors hold the addresses in `lists`, and the records, the queue and the log fit them. -/
structure Inv (lists : Stack → List ℕ) (owed : ℕ → ℕ) (s : State) : Prop where
  nodup : ∀ k, (lists k).Nodup
  mem_lists : ∀ k a, a ∈ lists k ↔ ∃ t, s.mem a = some t ∧ t.stack = k
  queued : ∀ a t, s.mem a = some t → ⟨t.ev, a, false⟩ ∈ s.heap
  owner : ∀ e ∈ s.heap, e.dead = false → ∃ t, s.mem e.arg = some t ∧ t.ev = e.ev
  evs : (s.heap.map (·.ev)).Nodup
  freshEv : ∀ e ∈ s.heap, e.ev < s.nextEv
  life : ∀ a, Life a (owed a) (s.mem a) (s.acts a)
  fresh : ∀ a, s.nextTimer ≤ a → s.acts a = []

variable {s : State} {lists : Stack → List ℕ} {owed : ℕ → ℕ} {a : ℕ} {t : Timer}

namespace Life

variable {o : ℕ} {m : Option Timer} {acts : List Act}

theorem none_of_nil (h : Life a o m []) : m = none ∧ o = 0 := by
  generalize hacts : ([] : List Act) = acts at h
  cases h with
  | unborn => exact ⟨rfl, rfl⟩
  | waiting _ => cases hacts
  | removed _ => cases hacts
  | expired _ => cases hacts

theorem created (n : ℕ) (ht : t.count = n) : Life a 0 (some t) [.created a n] := by
  refine waiting (f := 0) ?_
  omega

theorem remove (h : Life a 0 (some t) acts) : Life a 0 none (acts ++ [.removed a]) := by
  cases h with
  | waiting h =>
    refine removed ?_
    omega

theorem fire (h : Life a 0 (some t) acts) : Life a 1 (some t) (acts ++ [.fired a]) := by
  cases h with
  | @waiting _ n f _ h =>
    rw [cons_append, ← replicate_succ']
    refine waiting ?_
    omega

theorem expire (h : Life a 1 (some t) acts) (ht : t.count = 1) : Life a 0 none acts := by
  cases h with
  | @waiting _ n f _ h =>
    obtain ⟨hn, rfl⟩ : 0 < n ∧ f = n := by omega
    exact expired hn

theorem again (h : Life a 1 (some t) acts) (ht : t.count ≠ 1) (ev : ℕ) :
    Life a 0 (some { t with count := if t.count > 1 then t.count - 1 else t.count, ev := ev }) acts := by
  cases h with
  | @waiting _ n f _ h =>
    refine waiting ?_
    dsimp only
    by_cases hmore : t.count > 1
    · rw [if_pos hmore]
      omega
    · rw [if_neg hmore]
      omega

end Life

namespace Life

variable {m : Option Timer} {acts : List Act}

theorem count_fired (a n f : ℕ) :
    (Act.created a n :: replicate f (.fired a)).count (.fired a) = f := by
  rw [count_cons_of_ne (by simp), count_replicate_self]

theorem mem_created {a n f n' : ℕ} :
    Act.created a n' ∈ Act.created a n :: replicate f (.fired a) ↔ n' = n := by
  simp [mem_replicate]

theorem ne_removed {a n f : ℕ} {x : Act} (hx : x ∈ Act.created a n :: replicate f (.fired a)) :
    x ≠ .removed a := by
  rintro rfl
  simp [mem_replicate] at hx

/-- There is a record as long as there are firings to come. -/
theorem isSome_iff (h : Life a 0 m acts) :
    m.isSome ↔ ∃ n, .created a n ∈ acts ∧ .removed a ∉ acts ∧ (n = 0 ∨ acts.count (.fired a) < n) := by
  cases h with
  | unborn => simp
  | @waiting t n f _ h =>
    refine ⟨fun _ => ⟨n, mem_cons_self, fun hx => ne_removed hx rfl, ?_⟩, fun _ => rfl⟩
    rw [count_fired]
    omega
  | removed h =>
    refine ⟨nofun, ?_⟩
    rintro ⟨-, -, hnot, -⟩
    exact absurd (mem_append_right _ (mem_singleton_self _)) hnot
  | @expired n h =>
    refine ⟨nofun, ?_⟩
    rintro ⟨n', hn', -, hlt⟩
    rw [count_fired] at hlt
    have := mem_created.1 hn'
    omega

theorem count_le (h : Life a 0 m acts) {n : ℕ} (hn : .created a n ∈ acts) (hpos : 0 < n) :
    acts.count (.fired a) ≤ n := by
  cases h with
  | unborn => cases hn
  | waiting h =>
    rw [count_fired]
    have := mem_created.1 hn
    omega
  | removed h =>
    have hn : n = _ := mem_created.1 ((mem_append.1 hn).resolve_right (by simp))
    rw [count_append, count_fired, count_eq_zero_of_not_mem (by simp)]
    omega
  | expired h =>
    rw [count_fired]
    exact (mem_created.1 hn).ge

theorem silent (h : Life a 0 m acts) : acts.Pairwise fun x _ => x ≠ .removed a := by
  have hwaiting : ∀ n f, (Act.created a n :: replicate f (.fired a)).Pairwise
      fun x _ => x ≠ .removed a :=
    fun n f => Pairwise.imp_of_mem (fun hx _ _ => ne_removed hx) (pairwise_of_forall fun _ _ => trivial)
  cases h with
  | unborn => exact .nil
  | waiting _ => exact hwaiting _ _
  | removed _ =>
    exact pairwise_append.2 ⟨hwaiting _ _, pairwise_singleton _ _, fun x hx _ _ => ne_removed hx⟩
  | expired _ => exact hwaiting _ _

end Life

/-! ### The log -/

theorem mem_acts {x : Act} : x ∈ s.acts a ↔ x ∈ s.log ∧ x.timer = a := by
  rw [State.acts, mem_filter, decide_eq_true_eq]

theorem acts_append {b : ℕ} (log : List Act) {x : Act} (h : x.timer = b) :
    (log ++ [x]).filter (·.timer = b) = log.filter (·.timer = b) ++ [x] := by
  rw [filter_append, filter_cons_of_pos (by simpa using h), filter_nil]

theorem acts_append_of_ne {b : ℕ} (log : List Act) {x : Act} (h : x.timer ≠ b) :
    (log ++ [x]).filter (·.timer = b) = log.filter (·.timer = b) := by
  rw [filter_append, filter_cons_of_neg (by simpa using h), filter_nil, append_nil]

/-! ### The queue -/

@[simp] theorem kill_ev (ev : ℕ) (e : EvEntry) : (e.kill ev).ev = e.ev := by
  unfold EvEntry.kill
  split <;> rfl

theorem map_kill_ev (ev : ℕ) (heap : List EvEntry) :
    (heap.map (EvEntry.kill ev)).map (·.ev) = heap.map (·.ev) := by
  rw [map_map]
  exact map_congr_left fun e _ => kill_ev ev e

theorem mem_map_kill {ev : ℕ} {heap : List EvEntry} {e : EvEntry} (hdead : e.dead = false) :
    e ∈ heap.map (EvEntry.kill ev) ↔ e ∈ heap ∧ e.ev ≠ ev := by
  rw [mem_map]
  constructor
  · rintro ⟨e', he', rfl⟩
    rw [EvEntry.kill] at hdead ⊢
    split at hdead
    · cases hdead
    · next hev =>
      rw [if_neg hev]
      exact ⟨he', hev⟩
  · rintro ⟨he, hev⟩
    exact ⟨e, he, if_neg hev⟩

theorem Inv.ev_ne (h : Inv lists owed s) (ha : s.mem a = some t) {b : ℕ} {u : Timer}
    (hb : s.mem b = some u) (hne : b ≠ a) : u.ev ≠ t.ev := by
  intro hev
  have heq := inj_on_of_nodup_map h.evs (h.queued b u hb) (h.queued a t ha) hev
  exact hne (congrArg EvEntry.arg heq)

/-! ### What scripts do -/

theorem Inv.none_of_fresh (h : Inv lists owed s) (ha : s.nextTimer ≤ a) :
    s.mem a = none ∧ owed a = 0 := by
  have hlife := h.life a
  rw [h.fresh a ha] at hlife
  exact hlife.none_of_nil

/-- Afterwards all fits, and the timer that fires has not been touched. -/
def Kept (owed : ℕ → ℕ) (s s' : State) : Prop :=
  Inv s'.vecs owed s' ∧ ∀ b, owed b ≠ 0 → s'.mem b = s.mem b

theorem Kept.trans {s' s'' : State} (h : Kept owed s s') (h' : Kept owed s' s'') : Kept owed s s'' :=
  ⟨h'.1, fun b hb => (h'.2 b hb).trans (h.2 b hb)⟩

theorem Inv.add {s' : State} (h : Inv s.vecs owed s) (hev : t.ev = s.nextEv)
    (hmem : s'.mem = Function.update s.mem s.nextTimer (some t))
    (hvecs : s'.vecs = Function.update s.vecs t.stack (s.vecs t.stack ++ [s.nextTimer]))
    (hheap : s'.heap = s.heap ++ [{ ev := t.ev, arg := s.nextTimer, dead := false }])
    (htimer : s'.nextTimer = s.nextTimer + 1) (hnextEv : s'.nextEv = s.nextEv + 1)
    (hlog : s'.log = s.log ++ [.created s.nextTimer t.count]) : Kept owed s s' := by
  obtain ⟨hnone, howed⟩ := h.none_of_fresh le_rfl
  have hnot : ∀ k, s.nextTimer ∉ s.vecs k := by
    intro k hk
    obtain ⟨u, hu, -⟩ := (h.mem_lists k _).1 hk
    rw [hnone] at hu
    cases hu
  refine ⟨⟨?_, ?_, ?_, ?_, ?_, ?_, ?_, ?_⟩, ?_⟩
  · intro k
    rw [hvecs]
    by_cases hk : k = t.stack
    · subst hk
      rw [Function.update_self]
      refine nodup_append.2 ⟨h.nodup _, nodup_singleton _, fun b hb c hc => ?_⟩
      rw [mem_singleton] at hc
      rintro rfl
      exact hnot _ (hc ▸ hb)
    · rw [Function.update_of_ne hk]
      exact h.nodup k
  · intro k b
    rw [hvecs, hmem]
    by_cases hb : b = s.nextTimer
    · subst hb
      simp only [Function.update_self, Option.some.injEq, exists_eq_left']
      by_cases hk : k = t.stack
      · subst hk
        simp
      · rw [Function.update_of_ne hk]
        exact ⟨fun hmem => absurd hmem (hnot k), fun heq => absurd heq.symm hk⟩
    · rw [Function.update_of_ne hb, ← h.mem_lists k b]
      by_cases hk : k = t.stack
      · subst hk
        simp [hb]
      · rw [Function.update_of_ne hk]
  · intro b u hu
    rw [hmem] at hu
    rw [hheap]
    by_cases hb : b = s.nextTimer
    · subst hb
      rw [Function.update_self] at hu
      obtain rfl := Option.some.inj hu
      exact mem_append_right _ (mem_singleton_self _)
    · rw [Function.update_of_ne hb] at hu
      exact mem_append_left _ (h.queued b u hu)
  · intro e he hdead
    rw [hheap] at he
    rw [hmem]
    rcases mem_append.1 he with he | he
    · obtain ⟨u, hu, huev⟩ := h.owner e he hdead
      have hne : e.arg ≠ s.nextTimer := by
        intro heq
        rw [heq, hnone] at hu
        cases hu
      rw [Function.update_of_ne hne]
      exact ⟨u, hu, huev⟩
    · obtain rfl := mem_singleton.1 he
      exact ⟨t, Function.update_self .., rfl⟩
  · rw [hheap, map_append]
    refine nodup_append.2 ⟨h.evs, nodup_singleton _, fun x hx y hy => ?_⟩
    obtain ⟨e, he, rfl⟩ := mem_map.1 hx
    rw [mem_singleton.1 hy]
    show e.ev ≠ t.ev
    rw [hev]
    exact (h.freshEv e he).ne
  · intro e he
    rw [hheap] at he
    rw [hnextEv]
    rcases mem_append.1 he with he | he
    · exact (h.freshEv e he).trans (Nat.lt_succ_self _)
    · rw [mem_singleton.1 he]
      show t.ev < _
      rw [hev]
      exact Nat.lt_succ_self _
  · intro b
    rw [State.acts, hmem, hlog]
    by_cases hb : b = s.nextTimer
    · subst hb
      have hacts : s.log.filter (·.timer = s.nextTimer) = [] := h.fresh _ le_rfl
      rw [acts_append (b := s.nextTimer) s.log (x := .created _ _) rfl, hacts, Function.update_self, howed]
      exact Life.created _ rfl
    · rw [acts_append_of_ne s.log (x := .created _ _) (Ne.symm hb), Function.update_of_ne hb]
      exact h.life b
  · intro b hb
    have hlt : s.nextTimer < b := by omega
    rw [State.acts, hlog, acts_append_of_ne s.log (x := .created _ _) hlt.ne]
    exact h.fresh b hlt.le
  · intro b hb
    rw [hmem]
    refine Function.update_of_ne ?_ _ _
    rintro rfl
    exact hb howed

theorem Inv.addTimer (h : Inv s.vecs owed s) (k : Stack) (count : Int) (name : Option CStr)
    (prevId : ℕ) : Kept owed s (s.addTimer k count name prevId) :=
  h.add rfl rfl rfl rfl rfl rfl rfl

/-! One record is freed. -/

theorem mem_free {b : ℕ} {u : Timer} :
    (s.free a).mem b = some u ↔ b ≠ a ∧ s.mem b = some u := by
  show Function.update s.mem a none b = some u ↔ _
  by_cases hb : b = a
  · subst hb
    rw [Function.update_self]
    exact ⟨nofun, fun h => absurd rfl h.1⟩
  · rw [Function.update_of_ne hb]
    exact ⟨fun h => ⟨hb, h⟩, fun h => h.2⟩

theorem Inv.lists_erase (h : Inv lists owed s) (ha : s.mem a = some t) :
    (∀ k, (Function.update lists t.stack ((lists t.stack).erase a) k).Nodup) ∧
      ∀ k b, b ∈ Function.update lists t.stack ((lists t.stack).erase a) k ↔
        ∃ u, (s.free a).mem b = some u ∧ u.stack = k := by
  constructor
  · intro k
    by_cases hk : k = t.stack
    · subst hk
      rw [Function.update_self]
      exact (h.nodup _).erase a
    · rw [Function.update_of_ne hk]
      exact h.nodup k
  · intro k b
    simp only [mem_free, and_assoc, exists_and_left, ← h.mem_lists]
    by_cases hk : k = t.stack
    · subst hk
      rw [Function.update_self, (h.nodup _).mem_erase_iff]
    · rw [Function.update_of_ne hk]
      refine ⟨fun hb => ⟨?_, hb⟩, fun hb => hb.2⟩
      rintro rfl
      obtain ⟨u, hu, hstack⟩ := (h.mem_lists k b).1 hb
      rw [ha] at hu
      exact hk (hstack.symm.trans (congrArg Timer.stack (Option.some.inj hu)).symm)

theorem Inv.owner_ne (h : Inv lists owed s) (ha : s.mem a = some t) {e : EvEntry} (he : e ∈ s.heap)
    (hdead : e.dead = false) (hev : e.ev ≠ t.ev) : ∃ u, (s.free a).mem e.arg = some u ∧ u.ev = e.ev := by
  obtain ⟨u, hu, huev⟩ := h.owner e he hdead
  refine ⟨u, mem_free.2 ⟨?_, hu⟩, huev⟩
  intro heq
  rw [heq, ha] at hu
  exact hev (huev.symm.trans (congrArg Timer.ev (Option.some.inj hu)).symm)

theorem Inv.dropTimer (h : Inv lists owed s) (ha : s.mem a = some t) (howed : owed a = 0) :
    ∃ s', s.dropTimer a t = .ok s' ∧ s'.vecs = s.vecs ∧ (∀ b, b ≠ a → s'.mem b = s.mem b) ∧
      Inv (Function.update lists t.stack ((lists t.stack).erase a)) owed s' := by
  have hany : s.heap.any (·.ev = t.ev) = true :=
    any_eq_true.2 ⟨_, h.queued a t ha, decide_eq_true rfl⟩
  refine ⟨(({ s with heap := s.heap.map (EvEntry.kill t.ev) } : State).free a).emit (.removed a), ?_,
    rfl, fun b hb => Function.update_of_ne hb _ _, ?_⟩
  · rw [State.dropTimer, State.eventDelete, if_pos hany]
    rfl
  obtain ⟨hnodup, hmem⟩ := h.lists_erase ha
  refine ⟨hnodup, hmem, ?_, ?_, ?_, ?_, ?_, ?_⟩
  · intro b u hu
    obtain ⟨hb, hu⟩ := mem_free.1 hu
    exact (mem_map_kill rfl).2 ⟨h.queued b u hu, h.ev_ne ha hu hb⟩
  · intro e he hdead
    obtain ⟨he, hev⟩ := (mem_map_kill hdead).1 he
    exact h.owner_ne ha he hdead hev
  · show ((s.heap.map (EvEntry.kill t.ev)).map (·.ev)).Nodup
    rw [map_kill_ev]
    exact h.evs
  · intro e he
    obtain ⟨e', he', rfl⟩ := mem_map.1 he
    rw [kill_ev]
    exact h.freshEv e' he'
  · intro b
    show Life b (owed b) (Function.update s.mem a none b)
      ((s.log ++ [Act.removed a]).filter (·.timer = b))
    by_cases hb : b = a
    · subst hb
      have hlife := h.life b
      rw [ha, howed] at hlife
      rw [acts_append (b := b) s.log (x := .removed b) rfl, Function.update_self, howed]
      exact hlife.remove
    · rw [acts_append_of_ne s.log (x := .removed a) (Ne.symm hb), Function.update_of_ne hb]
      exact h.life b
  · intro b hb
    have hne : a ≠ b := by
      rintro rfl
      rw [(h.none_of_fresh hb).1] at ha
      cases ha
    show (s.log ++ [Act.removed a]).filter (·.timer = b) = []
    rw [acts_append_of_ne s.log (x := .removed a) hne]
    exact h.fresh b hb

/-- The command leaves the timer alone. -/
def Spares (t : Timer) : Op → Prop
  | .add .. => True
  | .remove k name => ¬ (k = t.stack ∧ strcaseEq t.name name)
  | .wipe k => k ≠ t.stack

/-- The command leaves the timer that fires alone. -/
def SparesFiring (owed : ℕ → ℕ) (s : State) (o : Op) : Prop :=
  ∀ a t, owed a ≠ 0 → s.mem a = some t → Spares t o

theorem Kept.spares {s' : State} {o : Op} (h : Kept owed s s') (ho : SparesFiring owed s o) :
    SparesFiring owed s' o := by
  intro a t howed ha
  rw [h.2 a howed] at ha
  exact ho a t howed ha

theorem State.deref_eq (ha : s.mem a = some t) : s.deref a = .ok t := by
  rw [State.deref, ha]

theorem State.removeLoop_cons (ha : s.mem a = some t) (k : Stack) (name : CStr) (as : List ℕ) :
    State.removeLoop k name (a :: as) s =
      (if strcaseEq t.name name then (s.vecRemove k a).dropTimer a t else .ok s) >>=
        State.removeLoop k name as := by
  rw [State.removeLoop, State.deref_eq ha]
  rfl

theorem State.wipeLoop_cons (ha : s.mem a = some t) (as : List ℕ) :
    State.wipeLoop (a :: as) s = s.dropTimer a t >>= State.wipeLoop as := by
  rw [State.wipeLoop, State.deref_eq ha]
  rfl

theorem Inv.removeLoop (k : Stack) (name : CStr) {as : List ℕ} :
    ∀ {s : State}, Inv s.vecs owed s → as.Nodup → (∀ a ∈ as, a ∈ s.vecs k) →
      SparesFiring owed s (.remove k name) →
      ∃ s', State.removeLoop k name as s = .ok s' ∧ Kept owed s s' := by
  induction as with
  | nil => exact fun h _ _ _ => ⟨_, rfl, h, fun _ _ => rfl⟩
  | cons a as ih =>
    intro s h hnodup hmem hspare
    obtain ⟨hnot, hnodup⟩ := nodup_cons.1 hnodup
    obtain ⟨t, ha, hk⟩ := (h.mem_lists k a).1 (hmem a mem_cons_self)
    by_cases hname : strcaseEq t.name name = true
    · have howed : owed a = 0 := by
        by_contra howed
        exact hspare a t howed ha ⟨hk.symm, hname⟩
      obtain ⟨s₁, hdrop, hvecs, hother, hinv⟩ :=
        Inv.dropTimer (s := s.vecRemove k a) ⟨h.nodup, h.mem_lists, h.queued, h.owner, h.evs,
          h.freshEv, h.life, h.fresh⟩ ha howed
      have hlists : s₁.vecs = Function.update s.vecs t.stack ((s.vecs t.stack).erase a) := by
        rw [hvecs, hk]
        rfl
      rw [← hlists] at hinv
      have hkept : Kept owed s s₁ := by
        refine ⟨hinv, fun b hb => hother b ?_⟩
        rintro rfl
        exact hb howed
      have hmem' : ∀ b ∈ as, b ∈ s₁.vecs k := by
        intro b hb
        have hne : b ≠ a := by
          rintro rfl
          exact hnot hb
        rw [hlists, hk, Function.update_self, mem_erase_of_ne hne]
        exact hmem b (mem_cons_of_mem a hb)
      obtain ⟨s₂, hloop, hkept'⟩ := ih hinv hnodup hmem' (hkept.spares hspare)
      refine ⟨s₂, ?_, hkept.trans hkept'⟩
      rw [State.removeLoop_cons ha, if_pos hname, hdrop]
      exact hloop
    · obtain ⟨s₂, hloop, hkept'⟩ := ih h hnodup (fun b hb => hmem b (mem_cons_of_mem a hb)) hspare
      refine ⟨s₂, ?_, hkept'⟩
      rw [State.removeLoop_cons ha, if_neg hname]
      exact hloop

theorem Inv.removeTimer (h : Inv s.vecs owed s) {k : Stack} {name : CStr}
    (hspare : SparesFiring owed s (.remove k name)) :
    ∃ s', s.removeTimer k name = .ok s' ∧ Kept owed s s' :=
  h.removeLoop k name (nodup_reverse.2 (h.nodup k)) (fun _ ha => mem_reverse.1 ha) hspare

theorem Inv.wipeLoop {k : Stack} {as : List ℕ} :
    ∀ {s : State}, Inv (Function.update lists k as) owed s → SparesFiring owed s (.wipe k) →
      ∃ s', State.wipeLoop as s = .ok s' ∧ s'.vecs = s.vecs ∧
        Inv (Function.update lists k []) owed s' ∧ ∀ b, owed b ≠ 0 → s'.mem b = s.mem b := by
  induction as with
  | nil => exact fun h _ => ⟨_, rfl, rfl, h, fun _ _ => rfl⟩
  | cons a as ih =>
    intro s h hspare
    obtain ⟨t, ha, hk⟩ := (h.mem_lists k a).1 (by rw [Function.update_self]; exact mem_cons_self)
    have howed : owed a = 0 := by
      by_contra howed
      exact hspare a t howed ha hk.symm
    obtain ⟨s₁, hdrop, hvecs, hother, hinv⟩ := h.dropTimer ha howed
    rw [hk, Function.update_self, erase_cons_head, Function.update_idem] at hinv
    have hfiring : ∀ b, owed b ≠ 0 → s₁.mem b = s.mem b := by
      intro b hb
      refine hother b ?_
      rintro rfl
      exact hb howed
    obtain ⟨s₂, hloop, hvecs', hinv', hfiring'⟩ := ih hinv fun b u hb hu => by
      rw [hfiring b hb] at hu
      exact hspare b u hb hu
    refine ⟨s₂, ?_, hvecs'.trans hvecs, hinv', fun b hb => (hfiring' b hb).trans (hfiring b hb)⟩
    rw [State.wipeLoop_cons ha, hdrop]
    exact hloop

theorem Inv.wipeTimers (h : Inv s.vecs owed s) {k : Stack}
    (hspare : SparesFiring owed s (.wipe k)) :
    ∃ s', s.wipeTimers k = .ok s' ∧ Kept owed s s' := by
  have h' : Inv (Function.update s.vecs k (s.vecs k)) owed s := by
    rw [Function.update_eq_self]
    exact h
  obtain ⟨s₁, hloop, hvecs, hinv, hfiring⟩ := h'.wipeLoop hspare
  refine ⟨{ s₁ with vecs := Function.update s₁.vecs k [] }, ?_, ?_, hfiring⟩
  · rw [State.wipeTimers, hloop]
    rfl
  · rw [hvecs]
    exact ⟨hinv.nodup, hinv.mem_lists, hinv.queued, hinv.owner, hinv.evs, hinv.freshEv, hinv.life,
      hinv.fresh⟩

theorem Inv.op (h : Inv s.vecs owed s) {o : Op} (hspare : SparesFiring owed s o) :
    ∃ s', s.op o = .ok s' ∧ Kept owed s s' := by
  cases o with
  | add k count name prevId => exact ⟨_, rfl, h.addTimer k count name prevId⟩
  | remove k name => exact h.removeTimer hspare
  | wipe k => exact h.wipeTimers hspare

theorem Inv.runOps {os : List Op} :
    ∀ {s : State}, Inv s.vecs owed s → (∀ o ∈ os, SparesFiring owed s o) →
      ∃ s', State.runOps os s = .ok s' ∧ Kept owed s s' := by
  induction os with
  | nil => exact fun h _ => ⟨_, rfl, h, fun _ _ => rfl⟩
  | cons o os ih =>
    intro s h hspare
    obtain ⟨s₁, hop, hkept⟩ := h.op (hspare o mem_cons_self)
    obtain ⟨s₂, hops, hkept'⟩ := ih hkept.1 fun o' ho' =>
      hkept.spares (hspare o' (mem_cons_of_mem o ho'))
    refine ⟨s₂, ?_, hkept.trans hkept'⟩
    rw [State.runOps, hop]
    exact hops

/-! ### A firing -/

theorem Inv.fired (h : Inv s.vecs 0 s) (ha : s.mem a = some t) :
    Inv (s.emit (.fired a)).vecs (Pi.single a 1) (s.emit (.fired a)) := by
  refine ⟨h.nodup, h.mem_lists, h.queued, h.owner, h.evs, h.freshEv, fun b => ?_, fun b hb => ?_⟩
  · show Life b _ (s.mem b) ((s.log ++ [Act.fired a]).filter (·.timer = b))
    have hlife := h.life b
    by_cases hb : b = a
    · subst hb
      rw [ha] at hlife ⊢
      rw [acts_append (b := b) s.log (x := .fired b) rfl, Pi.single_eq_same]
      exact hlife.fire
    · rw [acts_append_of_ne s.log (x := .fired a) (Ne.symm hb), Pi.single_eq_of_ne hb]
      exact hlife
  · show (s.log ++ [Act.fired a]).filter (·.timer = b) = []
    have hne : a ≠ b := by
      rintro rfl
      rw [(h.none_of_fresh hb).1] at ha
      cases ha
    rw [acts_append_of_ne s.log (x := .fired a) hne]
    exact h.fresh b hb

theorem mem_heapRemove {ev : ℕ} {e : EvEntry} : e ∈ (s.heapRemove ev).heap ↔ e ∈ s.heap ∧ e.ev ≠ ev := by
  rw [State.heapRemove, mem_filter, decide_eq_true_eq]

theorem Inv.last (h : Inv s.vecs (Pi.single a 1) s) (ha : s.mem a = some t) (ht : t.count = 1) :
    Inv ((s.vecRemove t.stack a).free a).vecs 0
      (((s.vecRemove t.stack a).free a).heapRemove t.ev) := by
  obtain ⟨hnodup, hmem⟩ := h.lists_erase ha
  refine ⟨hnodup, hmem, ?_, ?_, ?_, ?_, ?_, h.fresh⟩
  · intro b u hu
    obtain ⟨hb, hu⟩ := mem_free.1 hu
    exact mem_heapRemove.2 ⟨h.queued b u hu, h.ev_ne ha hu hb⟩
  · intro e he hdead
    obtain ⟨he, hev⟩ := mem_heapRemove.1 he
    exact h.owner_ne ha he hdead hev
  · exact h.evs.sublist (filter_sublist.map _)
  · exact fun e he => h.freshEv e (mem_heapRemove.1 he).1
  · intro b
    show Life b 0 (Function.update s.mem a none b) (s.acts b)
    have hlife := h.life b
    by_cases hb : b = a
    · subst hb
      rw [Function.update_self]
      rw [ha, Pi.single_eq_same] at hlife
      exact hlife.expire ht
    · rw [Function.update_of_ne hb]
      rw [Pi.single_eq_of_ne hb] at hlife
      exact hlife

theorem mem_again {b : ℕ} {u : Timer} : (s.again a t).mem b = some u ↔
    b = a ∧ u = t.again s.nextEv ∨ b ≠ a ∧ s.mem b = some u := by
  show Function.update s.mem a _ b = some u ↔ _
  by_cases hb : b = a
  · subst hb
    rw [Function.update_self, Option.some.injEq]
    simp [eq_comm]
  · rw [Function.update_of_ne hb]
    simp [hb]

theorem Inv.again (h : Inv s.vecs (Pi.single a 1) s) (ha : s.mem a = some t) (ht : t.count ≠ 1) :
    Inv s.vecs 0 ((s.again a t).heapRemove t.ev) := by
  have hnew : s.nextEv ≠ t.ev := (h.freshEv _ (h.queued a t ha)).ne'
  refine ⟨h.nodup, ?_, ?_, ?_, ?_, ?_, ?_, h.fresh⟩
  · intro k b
    show _ ↔ ∃ u, (s.again a t).mem b = some u ∧ u.stack = k
    rw [h.mem_lists k b]
    by_cases hb : b = a
    · subst hb
      simp [mem_again, ha, Timer.again]
    · simp [mem_again, hb]
  · intro b u hu
    refine mem_heapRemove.2 ?_
    rcases mem_again.1 hu with ⟨rfl, rfl⟩ | ⟨hb, hu⟩
    · exact ⟨mem_append_right _ (mem_singleton_self _), hnew⟩
    · exact ⟨mem_append_left _ (h.queued b u hu), h.ev_ne ha hu hb⟩
  · intro e he hdead
    obtain ⟨he, hev⟩ := mem_heapRemove.1 he
    rcases mem_append.1 he with he | he
    · obtain ⟨u, hu, huev⟩ := h.owner_ne ha he hdead hev
      exact ⟨u, mem_again.2 (.inr (mem_free.1 hu)), huev⟩
    · rw [mem_singleton.1 he]
      exact ⟨t.again s.nextEv, mem_again.2 (.inl ⟨rfl, rfl⟩), rfl⟩
  · refine Nodup.sublist (filter_sublist.map _) ?_
    show ((s.heap ++ [(⟨s.nextEv, a, false⟩ : EvEntry)]).map (·.ev)).Nodup
    rw [map_append]
    refine nodup_append.2 ⟨h.evs, nodup_singleton _, fun x hx y hy => ?_⟩
    obtain ⟨e, he, rfl⟩ := mem_map.1 hx
    rw [mem_singleton.1 hy]
    exact (h.freshEv e he).ne
  · intro e he
    show e.ev < s.nextEv + 1
    rcases mem_append.1 (mem_heapRemove.1 he).1 with he | he
    · exact (h.freshEv e he).trans (Nat.lt_succ_self _)
    · rw [mem_singleton.1 he]
      exact Nat.lt_succ_self _
  · intro b
    show Life b 0 (Function.update s.mem a _ b) (s.acts b)
    have hlife := h.life b
    by_cases hb : b = a
    · subst hb
      rw [Function.update_self]
      rw [ha, Pi.single_eq_same] at hlife
      exact hlife.again ht s.nextEv
    · rw [Function.update_of_ne hb]
      rw [Pi.single_eq_of_ne hb] at hlife
      exact hlife

/-- Nothing but this condition is needed: the command leaves the timer that it is the command of. -/
def Spared (s : State) : Event → Prop
  | .fire ev ops => ∀ e ∈ s.heap, e.ev = ev → ∀ t, s.mem e.arg = some t → ∀ o ∈ ops, Spares t o
  | .script _ | .reap _ => True

theorem Inv.runOneEvent (h : Inv s.vecs 0 s) {ev : ℕ} {ops : List Op}
    (hspare : Spared s (.fire ev ops)) :
    ∃ s', s.runOneEvent ev ops = .ok s' ∧ Inv s'.vecs 0 s' := by
  rw [State.runOneEvent]
  cases hfind : s.heap.find? (·.ev = ev) with
  | none => exact ⟨s, rfl, h⟩
  | some e =>
    have he : e ∈ s.heap := mem_of_find?_eq_some hfind
    obtain rfl : e.ev = ev := by simpa using find?_some hfind
    dsimp only
    by_cases hdead : e.dead = true
    · rw [if_pos hdead]
      exact ⟨s, rfl, h⟩
    rw [if_neg hdead]
    obtain ⟨t, ha, hev⟩ := h.owner e he (by simpa using hdead)
    have hspare : ∀ o ∈ ops, SparesFiring (Pi.single e.arg 1) (s.emit (.fired e.arg)) o := by
      intro o ho b u hb hu
      obtain rfl : b = e.arg := by
        by_contra hne
        exact hb (Pi.single_eq_of_ne hne 1)
      obtain rfl : t = u := Option.some.inj (ha.symm.trans hu)
      exact hspare e he rfl t ha o ho
    obtain ⟨s₁, hops, hinv, hfiring⟩ := (h.fired ha).runOps hspare
    have ha₁ : s₁.mem e.arg = some t := by
      rw [hfiring e.arg (by rw [Pi.single_eq_same]; exact Nat.one_ne_zero)]
      exact ha
    have hfire : s.eggTimerFire e.arg ops =
        .ok (if t.count = 1 then (s₁.vecRemove t.stack e.arg).free e.arg else s₁.again e.arg t) := by
      rw [State.eggTimerFire, State.deref_eq ha, hops]
      show (do
        let t ← s₁.deref e.arg
        pure (if t.count = 1 then (s₁.vecRemove t.stack e.arg).free e.arg else s₁.again e.arg t)) = _
      rw [State.deref_eq ha₁]
      rfl
    rw [hfire, ← hev]
    by_cases ht : t.count = 1
    · rw [if_pos ht]
      exact ⟨_, rfl, hinv.last ha₁ ht⟩
    · rw [if_neg ht]
      exact ⟨_, rfl, hinv.again ha₁ ht⟩

theorem Inv.reap (h : Inv s.vecs 0 s) (ev : ℕ) : Inv s.vecs 0 (s.reap ev) :=
  ⟨h.nodup, h.mem_lists,
    fun a t ha => mem_filter.2 ⟨h.queued a t ha, by simp⟩,
    fun e he => h.owner e (mem_filter.1 he).1, h.evs.sublist (filter_sublist.map _),
    fun e he => h.freshEv e (mem_filter.1 he).1, h.life, h.fresh⟩

theorem Inv.next (h : Inv s.vecs 0 s) {e : Event} (hspare : Spared s e) :
    ∃ s', s.next e = .ok s' ∧ Inv s'.vecs 0 s' := by
  cases e with
  | script ops =>
    have hspare : ∀ o ∈ ops, SparesFiring 0 s o := fun _ _ _ _ hb _ => absurd rfl hb
    obtain ⟨s', hops, hinv, -⟩ := h.runOps hspare
    exact ⟨s', hops, hinv⟩
  | fire ev ops => exact h.runOneEvent hspare
  | reap ev => exact ⟨_, rfl, h.reap ev⟩

/-! ### Runs -/

/-- How often a timer has fired. -/
def State.fires (s : State) (a : ℕ) : ℕ := s.log.count (.fired a)

/-- What holds of the timers in a state. -/
structure Good (s : State) : Prop where
  /-- A timer is listed once at most, and in one of the vectors. -/
  once : (s.vecs .timer ++ s.vecs .utimer).Nodup
  /-- The timers listed are those of the entries of the queue that will run, each of one entry. -/
  queued : ((s.heap.filter (! ·.dead)).map (·.arg)).Perm (s.vecs .timer ++ s.vecs .utimer)
  /-- They are those that were made, were not removed and have not fired as often as they should. -/
  mem_iff : ∀ a, a ∈ s.vecs .timer ++ s.vecs .utimer ↔
    ∃ n, .created a n ∈ s.log ∧ .removed a ∉ s.log ∧ (n = 0 ∨ s.fires a < n)
  /-- A timer made for `n` firings fires `n` times at most. -/
  fires_le : ∀ a n, .created a n ∈ s.log → 0 < n → s.fires a ≤ n
  /-- After a timer was removed nothing happens to it. -/
  silent : s.log.Pairwise fun x y => ∀ a, x = .removed a → y.timer ≠ a

theorem fires_eq (s : State) (a : ℕ) : s.fires a = (s.acts a).count (.fired a) := by
  rw [State.fires, State.acts, count_filter (by simp [Act.timer])]

theorem Inv.mem_vecs (h : Inv s.vecs 0 s) : a ∈ s.vecs .timer ++ s.vecs .utimer ↔ (s.mem a).isSome := by
  rw [mem_append, h.mem_lists, h.mem_lists, Option.isSome_iff_exists]
  constructor
  · rintro (⟨t, ht, -⟩ | ⟨t, ht, -⟩)
    · exact ⟨t, ht⟩
    · exact ⟨t, ht⟩
  · rintro ⟨t, ht⟩
    cases hstack : t.stack with
    | timer => exact .inl ⟨t, ht, hstack⟩
    | utimer => exact .inr ⟨t, ht, hstack⟩

theorem Inv.good (h : Inv s.vecs 0 s) : Good s := by
  have hmem : ∀ a x, x.timer = a → (x ∈ s.acts a ↔ x ∈ s.log) := by
    intro a x hx
    rw [mem_acts]
    exact and_iff_left hx
  have honce : (s.vecs .timer ++ s.vecs .utimer).Nodup := by
    refine nodup_append.2 ⟨h.nodup _, h.nodup _, fun a ha b hb => ?_⟩
    rintro rfl
    obtain ⟨t, ht, hstack⟩ := (h.mem_lists _ _).1 ha
    obtain ⟨u, hu, hstack'⟩ := (h.mem_lists _ _).1 hb
    rw [ht] at hu
    rw [← Option.some.inj hu, hstack] at hstack'
    cases hstack'
  refine ⟨honce, ?_, fun a => ?_, fun a n hn hpos => ?_, ?_⟩
  · have hlive : ∀ e, e ∈ s.heap.filter (! ·.dead) ↔ e ∈ s.heap ∧ e.dead = false := by
      intro e
      rw [mem_filter, Bool.not_eq_true']
    have hinj : ∀ e ∈ s.heap.filter (! ·.dead), ∀ e' ∈ s.heap.filter (! ·.dead),
        e.arg = e'.arg → e = e' := by
      intro e he e' he' harg
      obtain ⟨he, hdead⟩ := (hlive e).1 he
      obtain ⟨he', hdead'⟩ := (hlive e').1 he'
      obtain ⟨t, ht, hev⟩ := h.owner e he hdead
      obtain ⟨u, hu, hev'⟩ := h.owner e' he' hdead'
      rw [← harg, ht] at hu
      rw [← Option.some.inj hu, hev] at hev'
      exact inj_on_of_nodup_map h.evs he he' hev'
    have hnodup : (s.heap.filter (! ·.dead)).Nodup := (Nodup.of_map _ h.evs).filter _
    refine (perm_ext_iff_of_nodup (hnodup.map_on hinj) honce).2 fun a => ?_
    rw [h.mem_vecs, Option.isSome_iff_exists, mem_map]
    constructor
    · rintro ⟨e, he, rfl⟩
      obtain ⟨he, hdead⟩ := (hlive e).1 he
      obtain ⟨t, ht, -⟩ := h.owner e he hdead
      exact ⟨t, ht⟩
    · rintro ⟨t, ht⟩
      exact ⟨_, (hlive _).2 ⟨h.queued a t ht, rfl⟩, rfl⟩
  · rw [h.mem_vecs, (h.life a).isSome_iff, fires_eq]
    simp only [hmem a (.created a _) rfl, hmem a (.removed a) rfl]
  · rw [fires_eq]
    exact (h.life a).count_le ((hmem a _ rfl).2 hn) hpos
  · refine pairwise_iff_forall_sublist.2 fun {x y} hxy a hx hy => ?_
    have hsub : [x, y].Sublist (s.acts a) := by
      have hboth : ∀ z ∈ [x, y], z.timer = a := by
        rintro z (_ | ⟨_, _ | ⟨_, hz⟩⟩)
        · rw [hx]
          rfl
        · exact hy
        · cases hz
      have hfilter := hxy.filter (·.timer = a)
      rwa [filter_eq_self.2 fun z hz => decide_eq_true (hboth z hz)] at hfilter
    exact (pairwise_iff_forall_sublist.1 (h.life a).silent hsub) hx

/-- Before the first timer. -/
def start (timerId : ℕ) : State :=
  { mem := fun _ => none, vecs := fun _ => [], heap := [], nextTimer := 0, nextEv := 0
    timerId := timerId, log := [] }

theorem inv_start (timerId : ℕ) : Inv (start timerId).vecs 0 (start timerId) :=
  ⟨fun _ => .nil, fun _ _ => by simp [start], fun _ _ h => (nomatch h), fun _ h => (nomatch h), .nil,
    fun _ h => (nomatch h), fun _ => .unborn, fun _ _ => rfl⟩

/-- Timers made, removed and fired in any order, where no command removes the timer it is of. -/
theorem good_throughout (timerId : ℕ) (es : List Event)
    (h : Machine.Along State.next Spared (start timerId) es) :
    (∃ s, Machine.run State.next (start timerId) es = .ok s) ∧
      Machine.Throughout State.next Good (start timerId) es := by
  have hnext : ∀ s e, Inv s.vecs 0 s → Spared s e → ∃ s', s.next e = .ok s' ∧ Inv s'.vecs 0 s' :=
    fun _ _ hinv hspare => hinv.next hspare
  have hok : ∀ s e s', Inv s.vecs 0 s → Spared s e → s.next e = .ok s' → Inv s'.vecs 0 s' := by
    intro s e s' hinv hspare hs
    obtain ⟨s'', hs'', hinv'⟩ := hnext s e hinv hspare
    obtain rfl : s'' = s' := Except.ok.inj (hs''.symm.trans hs)
    exact hinv'
  constructor
  · have hrun : ∃ s, Machine.run State.next (start timerId) es = .ok s ∧ Inv s.vecs 0 s :=
      Machine.run_ok_of_along hnext (inv_start timerId) h
    exact hrun.imp fun _ h => h.1
  · have hinv : Machine.Throughout State.next (fun s => Inv s.vecs 0 s) (start timerId) es :=
      Machine.throughout_of_along hok (inv_start timerId) h
    exact hinv.imp fun _ h => h.good

instance (t : Timer) : ∀ o, Decidable (Spares t o)
  | .add .. => inferInstanceAs (Decidable True)
  | .remove k name => inferInstanceAs (Decidable (¬ (k = t.stack ∧ strcaseEq t.name name)))
  | .wipe k => inferInstanceAs (Decidable (k ≠ t.stack))

instance (s : State) : ∀ e, Decidable (Spared s e)
  | .fire ev ops => inferInstanceAs (Decidable
      (∀ e ∈ s.heap, e.ev = ev → ∀ t, s.mem e.arg = some t → ∀ o ∈ ops, Spares t o))
  | .script _ | .reap _ => inferInstanceAs (Decidable True)

/-- A timer for two firings: its command makes another one and then removes that. -/
theorem good_throughout_two :
    (∃ s, Machine.run State.next (start 1)
      [.script [.add .utimer 2 none 0], .fire 0 [.add .utimer 0 (some "b".toList) 0],
        .fire 2 [.remove .utimer "B".toList], .reap 1] = .ok s) ∧
      Machine.Throughout State.next Good (start 1)
        [.script [.add .utimer 2 none 0], .fire 0 [.add .utimer 0 (some "b".toList) 0],
          .fire 2 [.remove .utimer "B".toList], .reap 1] :=
  good_throughout 1 _ (by decide)

/-- A command that removes its own timer: the record is read after it was freed. -/
theorem not_good_remove_self :
    ¬ ((∃ s, Machine.run State.next (start 1)
      [.script [.add .utimer 1 none 0], .fire 0 [.remove .utimer "timer1".toList]] = .ok s) ∧
      Machine.Throughout State.next Good (start 1)
        [.script [.add .utimer 1 none 0], .fire 0 [.remove .utimer "timer1".toList]]) := by
  rintro ⟨⟨s, hs⟩, -⟩
  have hrun : Machine.run State.next (start 1)
      [.script [.add .utimer 1 none 0], .fire 0 [.remove .utimer "timer1".toList]] =
        .error .useAfterFree := rfl
  rw [hrun] at hs
  cases hs

end Eggdrop.Timers
