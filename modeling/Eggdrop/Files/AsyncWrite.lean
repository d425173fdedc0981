import Mathlib.Data.List.Perm.Basic
import Mathlib.Logic.Function.Basic
import Eggdrop.Base.CString
import Eggdrop.Lib.Run

/-!
# AsyncWrite — files that are written in the background

`async_writebuf` of async_fileio.c, the writes in the thread pool and their completions on the main
thread.  A path has one write in the pool at most, and one buffer that waits for its end.

* `Inv`: where the newest buffer of a path is, and where all of them are.
* `correct_throughout`: one write per path, no buffer lost or released twice, and the last one in the
  file at the end, in runs where nothing is written past a buffer that waits.
-/

namespace Eggdrop.Files

open List

/-- A buffer that is handed over, with the mode of the file. -/
structure Buf where
  addr : ℕ
  data : CStr
  perm : ℕ
deriving DecidableEq, Repr

/-- `coalesce_slot_t`; a path without one has one that is idle. -/
structure Slot where
  pending : Option Buf
  inFlight : Bool
deriving DecidableEq, Repr

/-- `awrite_ctx_t`; `landed` says that `awrite_work` is done. -/
structure Work where
  path : CStr
  buf : Buf
  landed : Bool
deriving DecidableEq, Repr

/-- `active` is `op_async_active`; `released` has the buffers of a path that were freed. -/
structure State where
  active : Bool
  slots : CStr → Slot
  works : List Work
  files : CStr → Option Buf
  released : CStr → List Buf

inductive Event where
  | writebuf (path : CStr) (buf : Buf) (ok : Bool)
  | land (i : ℕ) (ok : Bool)
  | done (i : ℕ) (ok : Bool)
  | shutdown
  | init
deriving DecidableEq, Repr

namespace State

variable (s : State)

/-- The `rename` at the end of a write, unless the write fails. -/
def store (path : CStr) (buf : Buf) (ok : Bool) : State :=
  if ok then { s with files := Function.update s.files path (some buf) } else s

/-- `op_free` of a buffer. -/
def free (path : CStr) (buf : Buf) : State :=
  { s with released := Function.update s.released path (s.released path ++ [buf]) }

def setSlot (path : CStr) (slot : Slot) : State :=
  { s with slots := Function.update s.slots path slot }

/-- `awrite_sync`. -/
def awriteSync (path : CStr) (buf : Buf) (ok : Bool) : State := (s.store path buf ok).free path buf

/-- `async_writebuf`; `ok` is for a write that is not left to the pool. -/
def asyncWritebuf (path : CStr) (buf : Buf) (ok : Bool) : State :=
  if s.active = false then s.awriteSync path buf ok
  else if (s.slots path).inFlight then
    let s' := match (s.slots path).pending with
      | some old => s.free path old
      | none => s
    s'.setSlot path { pending := some buf, inFlight := true }
  else
    let s' := s.setSlot path { s.slots path with inFlight := true }
    { s' with works := s'.works ++ [{ path := path, buf := buf, landed := false }] }

/-- The end of `awrite_work` of a write in the pool. -/
def awriteWork (i : ℕ) (ok : Bool) : State :=
  match s.works[i]? with
  | some c =>
    if c.landed then s
    else { s.store c.path c.buf ok with works := s.works.set i { c with landed := true } }
  | none => s

/-- `awrite_done`, for a write that has ended. -/
def awriteDone (i : ℕ) (ok : Bool) : State :=
  match s.works[i]? with
  | some c =>
    if c.landed then
      let s' := { s with works := s.works.eraseIdx i }
      let s' := s'.setSlot c.path { s.slots c.path with inFlight := false }
      let s' := match (s.slots c.path).pending with
        | some pbuf => (s'.setSlot c.path { pending := none, inFlight := false }).asyncWritebuf
            c.path pbuf ok
        | none => s'
      s'.free c.path c.buf
    else s
  | none => s

/-- `op_tpool_shutdown` waits until all writes have ended. -/
def shutdown : State := if s.works.all (·.landed) then { s with active := false } else s

def next : Event → State
  | .writebuf path buf ok => s.asyncWritebuf path buf ok
  | .land i ok => s.awriteWork i ok
  | .done i ok => s.awriteDone i ok
  | .shutdown => s.shutdown
  | .init => { s with active := true }

/-- The writes of a path that are in the pool. -/
def worksOf (path : CStr) : List Work := s.works.filter (·.path = path)

/-- The buffers of a path that are in the pool or wait. -/
def held (path : CStr) : List Buf := (s.worksOf path).map Work.buf ++ (s.slots path).pending.toList

end State

/-- The buffers that were handed over for each path, and whether a write has failed. -/
structure Calls where
  handed : CStr → List Buf
  failed : Bool

def Calls.next (t : Calls) : Event → Calls
  | .writebuf path buf ok =>
    { handed := Function.update t.handed path (t.handed path ++ [buf]), failed := t.failed || !ok }
  | .land _ ok | .done _ ok => { t with failed := t.failed || !ok }
  | .shutdown | .init => t

/-- A write per path at most; every buffer was released once or is still held; and if no write is in
flight, none is held, and each file is that of the last call. -/
structure Correct (s : State) (t : Calls) : Prop where
  single : ∀ path, (s.worksOf path).length ≤ 1
  released : ∀ path, (s.released path ++ s.held path).Perm (t.handed path)
  settled : s.works = [] → ∀ path, s.held path = [] ∧
    (t.failed = false → ∀ buf ∈ (t.handed path).getLast?, s.files path = some buf)

/-! ### One path -/

/-- All that belongs to a path. -/
structure PathState where
  slot : Slot
  works : List Work
  file : Option Buf
  released : List Buf

def State.at (s : State) (path : CStr) : PathState where
  slot := s.slots path
  works := s.worksOf path
  file := s.files path
  released := s.released path

/-- The buffer that the file will have in the end. -/
def PathState.newest (a : PathState) : Option Buf :=
  a.slot.pending.or (((a.works.find? (!·.landed)).map Work.buf).or a.file)

/-- A slot is in flight while its path has a write in the pool. -/
structure PathShape (active : Bool) (a : PathState) : Prop where
  busy : a.slot.inFlight = true → ∃ c, a.works = [c]
  idle : a.slot.inFlight = false → a.works = [] ∧ a.slot.pending = none
  landed : active = false → ∀ c ∈ a.works, c.landed = true

structure PathInv (active : Bool) (a : PathState) (handed : List Buf) (failed : Bool) : Prop
    extends PathShape active a where
  released : (a.released ++ (a.works.map Work.buf ++ a.slot.pending.toList)).Perm handed
  newest : failed = false → ∀ buf ∈ handed.getLast?, a.newest = some buf

def Inv (s : State) (t : Calls) : Prop := ∀ path, PathInv s.active (s.at path) (t.handed path) t.failed

theorem Inv.correct {s : State} {t : Calls} (h : Inv s t) : Correct s t where
  single path := by
    cases hbusy : (s.slots path).inFlight with
    | true =>
      obtain ⟨c, hc⟩ := (h path).busy hbusy
      replace hc : s.worksOf path = [c] := hc
      rw [hc, length_singleton]
    | false =>
      have hnil : s.worksOf path = [] := ((h path).idle hbusy).1
      rw [hnil]
      exact Nat.zero_le _
  released path := (h path).released
  settled hworks path := by
    have hof : s.worksOf path = [] := by rw [State.worksOf, hworks]; rfl
    have hidle : (s.slots path).inFlight = false := by
      cases hbusy : (s.slots path).inFlight with
      | true =>
        obtain ⟨c, hc⟩ := (h path).busy hbusy
        exact absurd (hof.symm.trans hc) (by simp)
      | false => rfl
    have hpending : (s.slots path).pending = none := ((h path).idle hidle).2
    refine ⟨?_, fun hfailed buf hbuf => ?_⟩
    · rw [State.held, hof, hpending]
      rfl
    · have hnewest := (h path).newest hfailed buf hbuf
      rw [PathState.newest] at hnewest
      simp only [State.at, hof, hpending] at hnewest
      exact hnewest

variable {active failed : Bool} {a : PathState} {handed : List Buf} {buf : Buf}

def PathState.store (a : PathState) (buf : Buf) (ok : Bool) : PathState :=
  { a with file := if ok then some buf else a.file }

/-- `async_writebuf`, for the path that is written. -/
def PathState.writebuf (a : PathState) (active : Bool) (path : CStr) (buf : Buf) (ok : Bool) :
    PathState :=
  if active = false then { a.store buf ok with released := a.released ++ [buf] }
  else if a.slot.inFlight then
    { a with
      slot := { pending := some buf, inFlight := true }
      released := a.released ++ a.slot.pending.toList }
  else
    { a with
      slot := { a.slot with inFlight := true }
      works := a.works ++ [{ path := path, buf := buf, landed := false }] }

/-- `awrite_work`, for the path that is written. -/
def PathState.land (a : PathState) (c : Work) (ok : Bool) : PathState :=
  { a.store c.buf ok with works := [{ c with landed := true }] }

/-- `awrite_done`, for the path that was written. -/
def PathState.done (a : PathState) (active : Bool) (path : CStr) (c : Work) (ok : Bool) : PathState :=
  let a' : PathState := { a with slot := { pending := none, inFlight := false }, works := [] }
  let a' := match a.slot.pending with
    | some pbuf => a'.writebuf active path pbuf ok
    | none => a'
  { a' with released := a'.released ++ [c.buf] }

/-- What has been handed over is in the file. -/
structure PathState.Settled (a : PathState) : Prop where
  pending : a.slot.pending = none
  landed : ∀ c ∈ a.works, c.landed = true

theorem PathState.Settled.newest (h : a.Settled) : a.newest = a.file := by
  have hnone : a.works.find? (!·.landed) = none := by
    rw [find?_eq_none]
    intro c hc
    rw [h.landed c hc]
    decide
  rw [PathState.newest, h.pending, hnone]
  rfl

/-- Nothing waits that would be written after what is written at once. -/
def Free (active : Bool) (slot : Slot) : Prop := active = true ∨ slot.pending = none

theorem Free.writebuf (h : Free active a.slot) (path : CStr) (ok : Bool) :
    Free active (a.writebuf active path buf ok).slot := by
  cases active with
  | true => exact .inl rfl
  | false => exact h

theorem free_done (path : CStr) (c : Work) (ok : Bool) : Free active (a.done active path c ok).slot := by
  cases active with
  | true => exact .inl rfl
  | false =>
    unfold PathState.done
    cases a.slot.pending <;> exact .inr rfl

namespace PathShape

variable {path : CStr} {ok : Bool} {c : Work}

theorem writebuf (h : PathShape active a) : PathShape active (a.writebuf active path buf ok) := by
  unfold PathState.writebuf
  by_cases hactive : active = false
  · rw [if_pos hactive]
    exact ⟨h.busy, h.idle, h.landed⟩
  · rw [if_neg hactive]
    by_cases hbusy : a.slot.inFlight = true
    · rw [if_pos hbusy]
      exact ⟨fun _ => h.busy hbusy, fun hidle => absurd hidle Bool.false_ne_true.symm, h.landed⟩
    · obtain ⟨hworks, -⟩ := h.idle (by simpa using hbusy)
      rw [if_neg hbusy]
      exact ⟨fun _ => ⟨_, by rw [hworks]; rfl⟩, fun hidle => absurd hidle Bool.false_ne_true.symm,
        fun hstop => absurd hstop hactive⟩

theorem newest_writebuf (h : PathShape active a) (hfree : Free active a.slot) :
    (a.writebuf active path buf true).newest = some buf := by
  unfold PathState.writebuf
  by_cases hactive : active = false
  · have hpending : a.slot.pending = none := hfree.resolve_left (by rw [hactive]; decide)
    have hlanded : a.works.find? (!·.landed) = none := by
      rw [find?_eq_none]
      intro c hc
      rw [h.landed hactive c hc]
      decide
    rw [if_pos hactive, PathState.newest, PathState.store]
    simp [hpending, hlanded]
  · rw [if_neg hactive]
    by_cases hbusy : a.slot.inFlight = true
    · rw [if_pos hbusy]
      rfl
    · obtain ⟨hworks, hpending⟩ := h.idle (by simpa using hbusy)
      rw [if_neg hbusy]
      simp [PathState.newest, hworks, hpending]

theorem land (h : PathShape active a) (hworks : a.works = [c]) : PathShape active (a.land c ok) where
  busy _ := ⟨_, rfl⟩
  idle hidle := absurd ((h.idle hidle).1.symm.trans hworks) (by simp)
  landed _ d hd := by rw [mem_singleton.1 hd]

theorem newest_land (hworks : a.works = [c]) (hc : c.landed = false) :
    (a.land c true).newest = a.newest := by
  rw [PathState.newest, PathState.newest, hworks]
  simp [hc, PathState.land, PathState.store]

theorem pending_of_works (h : PathShape active a) (hworks : a.works = []) : a.slot.pending = none := by
  cases hbusy : a.slot.inFlight with
  | true =>
    obtain ⟨c, hc⟩ := h.busy hbusy
    rw [hworks] at hc
    cases hc
  | false => exact (h.idle hbusy).2

theorem settled (h : PathShape active a) (hworks : a.works = []) : a.Settled := by
  refine ⟨h.pending_of_works hworks, fun c hc => ?_⟩
  rw [hworks] at hc
  cases hc

theorem empty (active : Bool) (a : PathState) :
    PathShape active { a with slot := { pending := none, inFlight := false }, works := [] } :=
  ⟨fun hbusy => absurd hbusy Bool.false_ne_true, fun _ => ⟨rfl, rfl⟩, fun _ _ hd => nomatch hd⟩

theorem done (a : PathState) : PathShape active (a.done active path c ok) := by
  unfold PathState.done
  cases a.slot.pending with
  | none => exact ⟨(empty active a).busy, (empty active a).idle, (empty active a).landed⟩
  | some pbuf =>
    have h : PathShape active (PathState.writebuf
        { a with slot := { pending := none, inFlight := false }, works := [] } active path pbuf ok) :=
      (empty active a).writebuf
    exact ⟨h.busy, h.idle, h.landed⟩

theorem newest_done (hworks : a.works = [c]) (hc : c.landed = true) :
    (a.done active path c true).newest = a.newest := by
  unfold PathState.done
  cases hpending : a.slot.pending with
  | none => simp [PathState.newest, hworks, hpending, hc]
  | some pbuf =>
    have h : (PathState.writebuf { a with slot := { pending := none, inFlight := false }, works := [] }
        active path pbuf true).newest = some pbuf := (empty active a).newest_writebuf (.inr rfl)
    have hnewest : a.newest = some pbuf := by rw [PathState.newest, hpending, Option.some_or]
    rw [hnewest]
    exact h

end PathShape

theorem PathInv.fail (h : PathInv active a handed failed) (ok : Bool) :
    PathInv active a handed (failed || !ok) where
  toPathShape := h.toPathShape
  released := h.released
  newest hfailed := h.newest (Bool.or_eq_false_iff.1 hfailed).1

theorem PathInv.writebuf (h : PathInv active a handed failed) (hfree : Free active a.slot)
    (path : CStr) (ok : Bool) :
    PathInv active (a.writebuf active path buf ok) (handed ++ [buf]) (failed || !ok) := by
  refine ⟨h.toPathShape.writebuf, ?_, fun hfailed b hb => ?_⟩
  · have hreleased := h.released
    unfold PathState.writebuf
    rw [perm_iff_count] at hreleased ⊢
    intro b
    have hcount := hreleased b
    by_cases hactive : active = false
    · rw [if_pos hactive]
      simp only [PathState.store, count_append] at hcount ⊢
      omega
    · rw [if_neg hactive]
      by_cases hbusy : a.slot.inFlight = true
      · rw [if_pos hbusy]
        simp only [count_append, Option.toList_some] at hcount ⊢
        omega
      · rw [if_neg hbusy]
        simp only [count_append, map_append, map_cons, map_nil] at hcount ⊢
        omega
  · obtain rfl : buf = b := by simpa using hb
    obtain rfl : ok = true := by simpa using (Bool.or_eq_false_iff.1 hfailed).2
    exact h.toPathShape.newest_writebuf hfree

theorem PathInv.land (h : PathInv active a handed failed) {c : Work} (hworks : a.works = [c])
    (hc : c.landed = false) (ok : Bool) :
    PathInv active (a.land c ok) handed (failed || !ok) where
  toPathShape := h.toPathShape.land hworks
  released := by
    have hreleased := h.released
    rw [hworks] at hreleased
    exact hreleased
  newest hfailed b hb := by
    obtain ⟨hold, hok⟩ := Bool.or_eq_false_iff.1 hfailed
    obtain rfl : ok = true := by simpa using hok
    rw [PathShape.newest_land hworks hc]
    exact h.newest hold b hb

theorem PathInv.done (h : PathInv active a handed failed) {path : CStr} {c : Work}
    (hworks : a.works = [c]) (hc : c.landed = true) (ok : Bool) :
    PathInv active (a.done active path c ok) handed (failed || !ok) := by
  refine ⟨PathShape.done a, ?_, fun hfailed b hb => ?_⟩
  · have hreleased := h.released
    rw [hworks, perm_iff_count] at hreleased
    refine perm_iff_count.2 fun b => ?_
    have hcount := hreleased b
    unfold PathState.done
    cases hpending : a.slot.pending with
    | none =>
      simp only [hpending, count_append, map_cons, map_nil, count_nil, Option.toList_none] at hcount ⊢
      omega
    | some pbuf =>
      simp only [hpending, count_append, map_cons, map_nil, Option.toList_some] at hcount
      dsimp only
      unfold PathState.writebuf
      by_cases hactive : active = false
      · rw [if_pos hactive]
        simp only [PathState.store, count_append, map_nil, count_nil, Option.toList_none]
        omega
      · rw [if_neg hactive, if_neg (by simp)]
        simp only [count_append, map_append, map_cons, map_nil, count_nil, Option.toList_none]
        omega
  · obtain ⟨hold, hok⟩ := Bool.or_eq_false_iff.1 hfailed
    obtain rfl : ok = true := by simpa using hok
    rw [PathShape.newest_done hworks hc]
    exact h.newest hold b hb

/-! ### All paths -/

section Paths

variable {s : State} {path q : CStr} {ok : Bool}

theorem at_asyncWritebuf_self :
    (s.asyncWritebuf path buf ok).at path = (s.at path).writebuf s.active path buf ok := by
  unfold State.asyncWritebuf PathState.writebuf
  by_cases hactive : s.active = false
  · rw [if_pos hactive, if_pos hactive]
    cases ok <;> simp [State.awriteSync, State.store, State.free, State.at, State.worksOf,
      PathState.store]
  · rw [if_neg hactive, if_neg hactive]
    by_cases hbusy : (s.slots path).inFlight = true
    · rw [if_pos hbusy, if_pos (show (s.at path).slot.inFlight = true from hbusy)]
      cases hpending : (s.slots path).pending <;>
        simp [State.setSlot, State.free, State.at, State.worksOf, hpending]
    · rw [if_neg hbusy, if_neg (show ¬ (s.at path).slot.inFlight = true from hbusy)]
      simp [State.setSlot, State.at, State.worksOf]

theorem at_asyncWritebuf_of_ne (hne : q ≠ path) : (s.asyncWritebuf path buf ok).at q = s.at q := by
  unfold State.asyncWritebuf
  by_cases hactive : s.active = false
  · rw [if_pos hactive]
    cases ok <;> simp [State.awriteSync, State.store, State.free, State.at, State.worksOf, hne]
  · rw [if_neg hactive]
    by_cases hbusy : (s.slots path).inFlight = true
    · rw [if_pos hbusy]
      cases hpending : (s.slots path).pending <;>
        simp [State.setSlot, State.free, State.at, State.worksOf, hne]
    · rw [if_neg hbusy]
      simp [State.setSlot, State.at, State.worksOf, hne, hne.symm]

theorem active_asyncWritebuf : (s.asyncWritebuf path buf ok).active = s.active := by
  unfold State.asyncWritebuf
  split
  · cases ok <;> rfl
  · split
    · cases (s.slots path).pending <;> rfl
    · rfl

theorem split_works {works : List Work} {i : ℕ} {c : Work} (h : works[i]? = some c) :
    ∃ l₁ l₂, works = l₁ ++ c :: l₂ ∧ (∀ d, works.set i d = l₁ ++ d :: l₂) ∧
      works.eraseIdx i = l₁ ++ l₂ := by
  induction works generalizing i with
  | nil => cases h
  | cons w works ih =>
    cases i with
    | zero =>
      obtain rfl : w = c := by simpa using h
      exact ⟨[], works, rfl, fun _ => rfl, rfl⟩
    | succ i =>
      obtain ⟨l₁, l₂, hsplit, hset, herase⟩ := ih (by simpa using h)
      refine ⟨w :: l₁, l₂, by rw [hsplit]; rfl, fun d => ?_, ?_⟩
      · rw [set_cons_succ, hset, cons_append]
      · rw [eraseIdx_cons_succ, herase, cons_append]

variable {c : Work} {l₁ l₂ : List Work}

theorem others_nil (hworks : s.works = l₁ ++ c :: l₂) (honly : s.worksOf c.path = [c]) :
    l₁.filter (·.path = c.path) = [] ∧ l₂.filter (·.path = c.path) = [] := by
  have hlen := congrArg length honly
  rw [State.worksOf, hworks, filter_append, filter_cons_of_pos (by simp), length_append, length_cons,
    length_singleton] at hlen
  exact ⟨length_eq_zero_iff.1 (by omega), length_eq_zero_iff.1 (by omega)⟩

theorem at_awriteWork_self {i : ℕ} (hi : s.works[i]? = some c) (hc : c.landed = false)
    (honly : s.worksOf c.path = [c]) : (s.awriteWork i ok).at c.path =
      (s.at c.path).land c ok := by
  obtain ⟨l₁, l₂, hsplit, hset, -⟩ := split_works hi
  obtain ⟨h₁, h₂⟩ := others_nil hsplit honly
  unfold State.awriteWork
  rw [hi]
  cases ok <;> simp [hc, State.at, State.store, PathState.land, PathState.store, State.worksOf, hset, h₁, h₂]

theorem at_awriteWork_of_ne {i : ℕ} (hi : s.works[i]? = some c) (hne : q ≠ c.path) :
    (s.awriteWork i ok).at q = s.at q := by
  obtain ⟨l₁, l₂, hsplit, hset, -⟩ := split_works hi
  have hnot : ¬ c.path = q := hne.symm
  unfold State.awriteWork
  rw [hi]
  have hfilter : (s.works.set i { c with landed := true }).filter (·.path = q) =
      s.works.filter (·.path = q) := by
    rw [hset, hsplit]
    simp [hnot]
  by_cases hc : c.landed = true
  · simp [hc]
  · cases ok <;> simp [hc, State.at, State.store, State.worksOf, hfilter, hne]

theorem at_free_self : (s.free path buf).at path =
    { s.at path with released := (s.at path).released ++ [buf] } := by
  simp [State.free, State.at, State.worksOf]

theorem at_free_of_ne (hne : q ≠ path) : (s.free path buf).at q = s.at q := by
  simp [State.free, State.at, State.worksOf, hne]

theorem at_awriteDone_self {i : ℕ} (hi : s.works[i]? = some c) (hc : c.landed = true)
    (honly : s.worksOf c.path = [c]) :
    (s.awriteDone i ok).at c.path = (s.at c.path).done s.active c.path c ok := by
  obtain ⟨l₁, l₂, hsplit, -, herase⟩ := split_works hi
  obtain ⟨h₁, h₂⟩ := others_nil hsplit honly
  unfold State.awriteDone PathState.done
  simp only [hi, hc, if_true]
  rw [at_free_self]
  cases hpending : (s.slots c.path).pending with
  | none =>
    have hslot : (s.at c.path).slot.pending = none := hpending
    simp only [hslot]
    simp [State.setSlot, State.at, State.worksOf, herase, h₁, h₂]
  | some pbuf =>
    have hslot : (s.at c.path).slot.pending = some pbuf := hpending
    simp only [hslot]
    rw [at_asyncWritebuf_self]
    simp [State.setSlot, State.at, State.worksOf, herase, h₁, h₂]

theorem at_awriteDone_of_ne {i : ℕ} (hi : s.works[i]? = some c) (hne : q ≠ c.path) :
    (s.awriteDone i ok).at q = s.at q := by
  obtain ⟨l₁, l₂, hsplit, -, herase⟩ := split_works hi
  have hnot : ¬ c.path = q := hne.symm
  have hfilter : (s.works.eraseIdx i).filter (·.path = q) = s.works.filter (·.path = q) := by
    rw [herase, hsplit]
    simp [hnot]
  unfold State.awriteDone
  simp only [hi]
  split
  · rw [at_free_of_ne hne]
    cases hpending : (s.slots c.path).pending with
    | none => simp [State.setSlot, State.at, State.worksOf, hfilter, hne]
    | some pbuf =>
      dsimp only
      rw [at_asyncWritebuf_of_ne hne]
      simp [State.setSlot, State.at, State.worksOf, hfilter, hne]
  · rfl

theorem active_awriteWork {i : ℕ} : (s.awriteWork i ok).active = s.active := by
  unfold State.awriteWork
  split
  · split
    · rfl
    · cases ok <;> rfl
  · rfl

theorem active_awriteDone {i : ℕ} : (s.awriteDone i ok).active = s.active := by
  unfold State.awriteDone
  split
  · next c _ =>
    split
    · cases (s.slots c.path).pending with
      | none => rfl
      | some pbuf => exact active_asyncWritebuf
    · rfl
  · rfl

/-- Every slot is in flight while its path has a write in the pool. -/
def Shape (s : State) : Prop := ∀ path, PathShape s.active (s.at path)

theorem Shape.only (h : Shape s) {i : ℕ} (hi : s.works[i]? = some c) : s.worksOf c.path = [c] := by
  have hmem : c ∈ s.worksOf c.path :=
    mem_filter.2 ⟨mem_of_getElem? hi, by simp⟩
  cases hbusy : (s.slots c.path).inFlight with
  | true =>
    obtain ⟨d, hd⟩ := (h c.path).busy hbusy
    replace hd : s.worksOf c.path = [d] := hd
    rw [hd] at hmem ⊢
    rw [mem_singleton.1 hmem]
  | false =>
    have hnil : s.worksOf c.path = [] := ((h c.path).idle hbusy).1
    rw [hnil] at hmem
    cases hmem

theorem Shape.at_awriteWork (h : Shape s) (i : ℕ) (ok : Bool) (q : CStr) :
    (s.awriteWork i ok).at q = s.at q ∨ ∃ c, (s.at q).works = [c] ∧ c.landed = false ∧
      (s.awriteWork i ok).at q = (s.at q).land c ok := by
  cases hi : s.works[i]? with
  | none =>
    rw [State.awriteWork, hi]
    exact .inl rfl
  | some c =>
    by_cases hc : c.landed = true
    · rw [State.awriteWork, hi]
      dsimp only
      rw [if_pos hc]
      exact .inl rfl
    · by_cases hq : q = c.path
      · subst hq
        exact .inr ⟨c, h.only hi, by simpa using hc, at_awriteWork_self hi (by simpa using hc) (h.only hi)⟩
      · exact .inl (at_awriteWork_of_ne hi hq)

theorem Shape.at_awriteDone (h : Shape s) (i : ℕ) (ok : Bool) (q : CStr) :
    (s.awriteDone i ok).at q = s.at q ∨ ∃ c, (s.at q).works = [c] ∧ c.landed = true ∧
      (s.awriteDone i ok).at q = (s.at q).done s.active q c ok := by
  cases hi : s.works[i]? with
  | none =>
    rw [State.awriteDone, hi]
    exact .inl rfl
  | some c =>
    by_cases hc : c.landed = true
    · by_cases hq : q = c.path
      · subst hq
        exact .inr ⟨c, h.only hi, hc, at_awriteDone_self hi hc (h.only hi)⟩
      · exact .inl (at_awriteDone_of_ne hi hq)
    · rw [State.awriteDone, hi]
      dsimp only
      rw [if_neg hc]
      exact .inl rfl

theorem Shape.writebuf (h : Shape s) : Shape (s.asyncWritebuf path buf ok) := by
  intro q
  rw [active_asyncWritebuf]
  by_cases hq : q = path
  · rw [hq, at_asyncWritebuf_self]
    exact (h path).writebuf
  · rw [at_asyncWritebuf_of_ne hq]
    exact h q

theorem Shape.land (h : Shape s) (i : ℕ) (ok : Bool) : Shape (s.awriteWork i ok) := by
  intro q
  rw [active_awriteWork]
  obtain heq | ⟨c, hworks, -, heq⟩ := h.at_awriteWork i ok q
  · rw [heq]
    exact h q
  · rw [heq]
    exact (h q).land hworks

theorem Shape.done (h : Shape s) (i : ℕ) (ok : Bool) : Shape (s.awriteDone i ok) := by
  intro q
  rw [active_awriteDone]
  obtain heq | ⟨c, -, -, heq⟩ := h.at_awriteDone i ok q
  · rw [heq]
    exact h q
  · rw [heq]
    exact .done _

/-- The slots are as they should be, and nothing is written past a buffer that waits. -/
structure Steady (s : State) : Prop where
  shape : Shape s
  free : ∀ path, Free s.active (s.at path).slot

theorem Steady.writebuf (h : Steady s) (path : CStr) (buf : Buf) :
    Steady (s.asyncWritebuf path buf true) ∧
      ∀ q, ((s.asyncWritebuf path buf true).at q).newest =
        if q = path then some buf else (s.at q).newest := by
  refine ⟨⟨h.shape.writebuf, fun q => ?_⟩, fun q => ?_⟩
  · rw [active_asyncWritebuf]
    by_cases hq : q = path
    · rw [hq, at_asyncWritebuf_self]
      exact (h.free path).writebuf path true
    · rw [at_asyncWritebuf_of_ne hq]
      exact h.free q
  · by_cases hq : q = path
    · rw [if_pos hq, hq, at_asyncWritebuf_self]
      exact (h.shape path).newest_writebuf (h.free path)
    · rw [if_neg hq, at_asyncWritebuf_of_ne hq]

theorem Steady.land (h : Steady s) (i : ℕ) : Steady (s.awriteWork i true) ∧
    ∀ q, ((s.awriteWork i true).at q).newest = (s.at q).newest := by
  refine ⟨⟨h.shape.land i true, fun q => ?_⟩, fun q => ?_⟩
  · rw [active_awriteWork]
    obtain heq | ⟨c, -, -, heq⟩ := h.shape.at_awriteWork i true q
    · rw [heq]
      exact h.free q
    · rw [heq]
      exact h.free q
  · obtain heq | ⟨c, hworks, hc, heq⟩ := h.shape.at_awriteWork i true q
    · rw [heq]
    · rw [heq, PathShape.newest_land hworks hc]

theorem Steady.done (h : Steady s) (i : ℕ) : Steady (s.awriteDone i true) ∧
    ∀ q, ((s.awriteDone i true).at q).newest = (s.at q).newest := by
  refine ⟨⟨h.shape.done i true, fun q => ?_⟩, fun q => ?_⟩
  · rw [active_awriteDone]
    obtain heq | ⟨c, -, -, heq⟩ := h.shape.at_awriteDone i true q
    · rw [heq]
      exact h.free q
    · rw [heq]
      exact free_done q c true
  · obtain heq | ⟨c, hworks, hc, heq⟩ := h.shape.at_awriteDone i true q
    · rw [heq]
    · rw [heq, PathShape.newest_done hworks hc]

end Paths

/-! ### Runs -/

variable {s : State} {t : Calls}

theorem Inv.shape (h : Inv s t) : Shape s := fun path => (h path).toPathShape

/-- Nothing is written at once past a buffer that waits. -/
def Ordered (s : State × Calls) : Event → Prop
  | .writebuf path _ _ => Free s.1.active (s.1.slots path)
  | _ => True

def step (s : State × Calls) (e : Event) : Except Empty (State × Calls) := .ok (s.1.next e, s.2.next e)

theorem inv_writebuf (h : Inv s t) {path : CStr} {buf : Buf} {ok : Bool}
    (hfree : Free s.active (s.slots path)) :
    Inv (s.asyncWritebuf path buf ok) (t.next (.writebuf path buf ok)) := by
  intro q
  rw [active_asyncWritebuf]
  by_cases hq : q = path
  · rw [hq, at_asyncWritebuf_self]
    show PathInv _ _ (Function.update t.handed path _ path) _
    rw [Function.update_self]
    exact (h path).writebuf hfree path ok
  · rw [at_asyncWritebuf_of_ne hq]
    show PathInv _ _ (Function.update t.handed path _ q) _
    rw [Function.update_of_ne hq]
    exact (h q).fail ok

theorem inv_land (h : Inv s t) (i : ℕ) (ok : Bool) : Inv (s.awriteWork i ok) (t.next (.land i ok)) := by
  intro q
  rw [active_awriteWork]
  obtain heq | ⟨c, hworks, hc, heq⟩ := h.shape.at_awriteWork i ok q
  · rw [heq]
    exact (h q).fail ok
  · rw [heq]
    exact (h q).land hworks hc ok

theorem inv_done (h : Inv s t) (i : ℕ) (ok : Bool) : Inv (s.awriteDone i ok) (t.next (.done i ok)) := by
  intro q
  rw [active_awriteDone]
  obtain heq | ⟨c, hworks, hc, heq⟩ := h.shape.at_awriteDone i ok q
  · rw [heq]
    exact (h q).fail ok
  · rw [heq]
    exact (h q).done hworks hc ok

theorem inv_shutdown (h : Inv s t) : Inv s.shutdown t := by
  intro q
  unfold State.shutdown
  split
  · next hall =>
    obtain ⟨⟨hbusy, hidle, -⟩, hreleased, hnewest⟩ := h q
    refine ⟨⟨hbusy, hidle, fun _ c hc => ?_⟩, hreleased, hnewest⟩
    exact all_eq_true.1 hall c (mem_of_mem_filter hc)
  · exact h q

theorem inv_init (h : Inv s t) : Inv { s with active := true } t := fun q =>
  ⟨⟨(h q).busy, (h q).idle, fun hstop => nomatch hstop⟩, (h q).released, (h q).newest⟩

theorem inv_step {s s' : State × Calls} {e : Event} (h : Inv s.1 s.2) (hordered : Ordered s e)
    (hs : step s e = .ok s') : Inv s'.1 s'.2 := by
  obtain rfl : (s.1.next e, s.2.next e) = s' := Except.ok.inj hs
  cases e with
  | writebuf path buf ok => exact inv_writebuf h hordered
  | land i ok => exact inv_land h i ok
  | done i ok => exact inv_done h i ok
  | shutdown => exact inv_shutdown h
  | init => exact inv_init h

/-- Before the first call, with any files. -/
def start (active : Bool) (files : CStr → Option Buf) : State × Calls :=
  ({ active := active, slots := fun _ => { pending := none, inFlight := false }, works := []
     files := files, released := fun _ => [] },
    { handed := fun _ => [], failed := false })

theorem inv_start (active : Bool) (files : CStr → Option Buf) :
    Inv (start active files).1 (start active files).2 := fun _ =>
  ⟨⟨fun hbusy => absurd hbusy Bool.false_ne_true, fun _ => ⟨rfl, rfl⟩, fun _ _ hc => nomatch hc⟩,
    .nil, fun _ _ hb => nomatch hb⟩

/-- Calls, ends of writes and completions in any order. -/
theorem correct_throughout (active : Bool) (files : CStr → Option Buf) (es : List Event)
    (h : Machine.Along step Ordered (start active files) es) :
    Machine.Throughout step (fun s => Correct s.1 s.2) (start active files) es :=
  (Machine.throughout_of_along (fun _ _ _ => inv_step) (inv_start active files) h).imp
    fun _ h => h.correct

instance (active : Bool) (slot : Slot) : Decidable (Free active slot) :=
  inferInstanceAs (Decidable (active = true ∨ slot.pending = none))

instance (s : State × Calls) : ∀ e, Decidable (Ordered s e)
  | .writebuf path _ _ => inferInstanceAs (Decidable (Free s.1.active (s.1.slots path)))
  | .land _ _ | .done _ _ | .shutdown | .init => inferInstanceAs (Decidable True)

/-- Three calls for one path while it is written, and the pool stopped at the end. -/
theorem correct_throughout_three :
    Machine.Throughout step (fun s => Correct s.1 s.2) (start true fun _ => none)
      [.writebuf "u".toList ⟨1, "a".toList, 384⟩ true, .writebuf "u".toList ⟨2, "b".toList, 384⟩ true,
        .writebuf "u".toList ⟨3, "c".toList, 384⟩ true, .land 0 true, .shutdown, .done 0 true] :=
  correct_throughout true (fun _ => none) _ (by decide)

/-- A call from another completion, after the pool was stopped and before the buffer that waits was
taken: that buffer is written over the newer one. -/
theorem not_correct_shutdown :
    ¬ Machine.Throughout step (fun s => Correct s.1 s.2) (start true fun _ => none)
      [.writebuf "u".toList ⟨1, "a".toList, 384⟩ true, .writebuf "u".toList ⟨2, "b".toList, 384⟩ true,
        .land 0 true, .shutdown, .writebuf "u".toList ⟨3, "c".toList, 384⟩ true, .done 0 true] := by
  intro h
  have hrun : ∃ s, Machine.run step (start true fun _ => none)
      [.writebuf "u".toList ⟨1, "a".toList, 384⟩ true, .writebuf "u".toList ⟨2, "b".toList, 384⟩ true,
        .land 0 true, .shutdown, .writebuf "u".toList ⟨3, "c".toList, 384⟩ true, .done 0 true] =
          .ok s ∧ s.1.works = [] ∧ s.2.failed = false ∧
            (s.2.handed "u".toList).getLast? = some ⟨3, "c".toList, 384⟩ ∧
              s.1.files "u".toList = some ⟨2, "b".toList, 384⟩ := ⟨_, rfl, by decide⟩
  obtain ⟨s, hs, hworks, hfailed, hlast, hfile⟩ := hrun
  have hsettled := ((h.last hs).settled hworks "u".toList).2 hfailed _ hlast
  rw [hfile] at hsettled
  exact absurd hsettled (by decide)

end Eggdrop.Files
