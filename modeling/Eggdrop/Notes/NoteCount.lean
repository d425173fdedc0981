import Eggdrop.Notes.NoteStore

/-!
# NoteCount — how many notes there are

`num_notes` answers from counts that are kept in memory, `notes_read` and `notes_del` number the
notes as they read the file, with buffers of different sizes.

* `lookup_cacheScan`: the counts are right where no handle is cut off.
* `agrees_throughout`: the numbers are the same where all lines fit, in runs where the counts are
  taken from the file only when what was written is in it.
-/

namespace Eggdrop.Notes

open List Eggdrop.Files

/-- The rest of a line that is a note to a handle. -/
def Line.restFor? (hand : CStr) : Line → Option CStr
  | .note toHand rest => if strcaseEq toHand hand then some rest else none
  | .other _ => none

/-- The notes to a handle in the order a reader numbers them, from 1. -/
def numbered (n : ℕ) (hand text : CStr) : List CStr :=
  (readLines n text).filterMap (Line.restFor? hand)

/-- The words that are taken for handles. -/
def handles (text : CStr) : List CStr := (text.splitOn '\n').filterMap fun l => (Line.of l).hand?

/-- Every line fits the smaller buffer, and every handle an entry of the cache. -/
structure Plain (text : CStr) : Prop where
  fits : Fits lineRoom text
  short : ∀ w ∈ handles text, w.length ≤ handLen

namespace State

variable (s : State)

/-- What a reader finds in the file that is set. -/
def readable : CStr := if s.notefile = [] then [] else s.text

/-- `tcl_listnotes`, for a user. -/
def tclListnotes (maxnotes : ℤ) (user noteslist : CStr) : List ℕ :=
  (range' 1 (s.numNotes user).1).filter fun i => notesIn (notesParse maxnotes noteslist) i

end State

/-- The numbers of `notes_read` are those of the others. -/
structure Agrees (s : State) : Prop where
  count : ∀ user, (s.numNotes user).1 = (numbered readRoom user s.readable).length
  list : ∀ maxnotes user noteslist, s.tclListnotes maxnotes user noteslist =
    (range' 1 (numbered readRoom user s.readable).length).filter fun i =>
      notesIn (notesParse maxnotes noteslist) i
  del : ∀ user, numbered lineRoom user s.readable = numbered readRoom user s.readable

/-! ### The cache -/

variable {cache : List (CStr × ℕ)} {toHand user text : CStr}

theorem lookup_cons (e : CStr × ℕ) (cache : List (CStr × ℕ)) (user : CStr) :
    lookup (e :: cache) user = if strcaseEq e.1 user then e.2 else lookup cache user := by
  rw [lookup, find?_cons]
  by_cases h : strcaseEq e.1 user = true
  · rw [if_pos h, h]
    rfl
  · rw [if_neg h, Bool.not_eq_true] at *
    rw [h]
    rfl

theorem lookup_modifyFirst (cache : List (CStr × ℕ)) (toHand user : CStr) :
    lookup (ListEdit.modifyFirst (fun e => strcaseEq e.1 toHand) (fun e => (e.1, e.2 + 1)) cache) user =
      lookup cache user +
        if strcaseEq toHand user && cache.any fun e => strcaseEq e.1 toHand then 1 else 0 := by
  induction cache with
  | nil => simp [ListEdit.modifyFirst, lookup]
  | cons e cache ih =>
    rw [ListEdit.modifyFirst]
    by_cases he : strcaseEq e.1 toHand = true
    · have hsame := strcaseEq_congr_left he user
      rw [if_pos he, lookup_cons, lookup_cons]
      by_cases hu : strcaseEq e.1 user = true
      · rw [if_pos hu, if_pos hu]
        simp [← hsame, hu, he]
      · rw [if_neg hu, if_neg hu]
        simp [← hsame, hu]
    · rw [if_neg he, lookup_cons, lookup_cons, any_cons, eq_false_of_ne_true he,
        Bool.false_or]
      by_cases hu : strcaseEq e.1 user = true
      · have hnot : strcaseEq toHand user = false := by
          by_contra hto
          rw [Bool.not_eq_false] at hto
          rw [strcaseEq_comm] at hto
          exact he (strcaseEq_trans hu hto)
        rw [if_pos hu, if_pos hu, hnot]
        rfl
      · rw [if_neg hu, if_neg hu, ih]

theorem lookup_bump (hto : toHand.length ≤ handLen) (cache : List (CStr × ℕ)) (user : CStr) :
    lookup (bump cache toHand) user = lookup cache user + if strcaseEq toHand user then 1 else 0 := by
  rw [bump]
  by_cases hany : cache.any (fun e => strcaseEq e.1 toHand) = true
  · rw [if_pos hany, lookup_modifyFirst, hany, Bool.and_true]
  · rw [if_neg hany, lookup_cons, take_of_length_le hto]
    by_cases hu : strcaseEq toHand user = true
    · have hnone : cache.find? (fun e => strcaseEq e.1 user) = none := by
        rw [find?_eq_none]
        intro e he heu
        rw [strcaseEq_comm] at hu
        exact hany (any_eq_true.2 ⟨e, he, strcaseEq_trans heu hu⟩)
      rw [if_pos hu, if_pos hu, lookup, hnone]
      rfl
    · rw [if_neg hu, if_neg hu, Nat.add_zero]

theorem lookup_foldl_bump {ws : List CStr} (h : ∀ w ∈ ws, w.length ≤ handLen)
    (cache : List (CStr × ℕ)) (user : CStr) :
    lookup (ws.foldl bump cache) user = lookup cache user + ws.countP (strcaseEq · user) := by
  induction ws generalizing cache with
  | nil => rfl
  | cons w ws ih =>
    rw [forall_mem_cons] at h
    rw [foldl_cons, ih h.2, lookup_bump h.1, countP_cons, Nat.add_assoc, Nat.add_comm (ite _ _ _)]

theorem length_restFor (ls : List Line) (user : CStr) :
    (ls.filterMap (Line.restFor? user)).length =
      (ls.filterMap Line.hand?).countP (strcaseEq · user) := by
  induction ls with
  | nil => rfl
  | cons ℓ ls ih =>
    cases ℓ with
    | note w rest =>
      rw [filterMap_cons, filterMap_cons_some (show Line.hand? _ = _ from rfl), countP_cons, ← ih]
      by_cases hw : strcaseEq w user = true
      · simp [Line.restFor?, hw]
      · simp [Line.restFor?, hw]
    | other s => exact ih

theorem lookup_cacheScan (h : Plain text) (user : CStr) :
    lookup (cacheScan text) user = (numbered lineRoom user text).length := by
  have hshort := h.short
  rw [handles, ← filterMap_readLines (by decide) h.fits rfl] at hshort
  rw [cacheScan, lookup_foldl_bump hshort, numbered, length_restFor]
  exact Nat.zero_add _

theorem numbered_eq (h : Fits lineRoom text) (user : CStr) :
    numbered lineRoom user text = numbered readRoom user text := by
  have hread : Fits readRoom text := fun l hl => (h l hl).trans (by decide)
  rw [numbered, numbered, filterMap_readLines (by decide) h rfl,
    filterMap_readLines (by decide) hread rfl]

/-! ### Runs -/

/-- The counts are those of the file as it will be. -/
structure Cached (s : State) : Prop where
  steady : Steady s.fs
  cache : s.cache = [] ∨ s.cache = cacheScan (State.textOf (s.fs.at s.cachedPath).newest)

variable {s : State} {env : Env}

theorem Cached.numNotes (h : Cached s) (hwritten : s.notefile ≠ [] → s.stale → s.Written) (user : CStr) :
    Cached (s.numNotes user).2 := by
  rw [State.numNotes]
  by_cases hne : s.notefile = []
  · rw [if_pos hne]
    exact h
  · rw [if_neg hne]
    dsimp only
    by_cases hstale : s.stale = true
    · rw [if_pos hstale]
      refine ⟨h.steady, .inr ?_⟩
      show cacheScan _ = cacheScan (State.textOf (s.fs.at s.notefile).newest)
      rw [(hwritten hne hstale).newest]
      rfl
    · rw [if_neg hstale]
      exact h

theorem Cached.rewrite (h : Cached s) (image : CStr → CStr) : Cached (s.rewrite env image) := by
  rw [State.rewrite]
  by_cases hne : s.notefile = []
  · rw [if_pos hne]
    exact h
  rw [if_neg hne]
  cases s.fs.files s.notefile with
  | none => exact h
  | some b =>
    obtain ⟨hsteady, hnewest⟩ := h.steady.writebuf s.notefile
      { addr := env.addr, data := image b.data, perm := env.userfilePerm }
    refine ⟨hsteady, .inr ?_⟩
    dsimp only
    rw [hnewest, if_pos rfl]
    rfl

theorem Cached.append (h : Cached s) (line : CStr) : Cached (s.append env line) :=
  ⟨⟨fun path => ⟨(h.steady.shape path).busy, (h.steady.shape path).idle,
    (h.steady.shape path).landed⟩, h.steady.free⟩, .inl rfl⟩

/-- The counts are taken from the file when what was written is in it. -/
def Taken (s : State) : Cmd → Prop
  | .storenote .. | .numNotes _ => s.notefile ≠ [] → s.stale → s.Written
  | .msgTo .. | .del .. | .erasenotes .. | .change .. | .expire | .setNotefile _ | .land _
  | .done _ => True

theorem Cached.next (h : Cached s) {c : Cmd} (htaken : Taken s c) : Cached (s.next env c) := by
  cases c with
  | storenote toHand fromHand msg =>
    have hcounted := h.numNotes htaken toHand
    rw [State.next, State.tclStorenote]
    split
    · exact hcounted.append _
    · exact hcounted
  | msgTo toHand handle par =>
    rw [State.next, State.msgTo]
    split
    · exact h
    · exact h.append _
  | del hand sdl => exact h.rewrite _
  | erasenotes hand sdl =>
    rw [State.next, State.tclErasenotes]
    split
    · exact h.rewrite _
    · exact h
  | change oldnick newnick =>
    rw [State.next, State.notesChange]
    split
    · exact h
    · exact h.rewrite _
  | expire => exact h.rewrite _
  | numNotes user => exact h.numNotes htaken user
  | setNotefile path => exact ⟨h.steady, h.cache⟩
  | land i =>
    obtain ⟨hsteady, hnewest⟩ := h.steady.land i
    refine ⟨hsteady, ?_⟩
    show s.cache = [] ∨ s.cache = cacheScan (State.textOf ((s.fs.awriteWork i true).at s.cachedPath).newest)
    rw [hnewest]
    exact h.cache
  | done i =>
    obtain ⟨hsteady, hnewest⟩ := h.steady.done i
    refine ⟨hsteady, ?_⟩
    show s.cache = [] ∨ s.cache = cacheScan (State.textOf ((s.fs.awriteDone i true).at s.cachedPath).newest)
    rw [hnewest]
    exact h.cache

theorem Cached.count (h : Cached s) (hwritten : s.Written) (hplain : Plain s.readable) (user : CStr) :
    (s.numNotes user).1 = (numbered readRoom user s.readable).length := by
  rw [State.numNotes, State.readable]
  by_cases hne : s.notefile = []
  · rw [if_pos hne, if_pos hne]
    rfl
  rw [State.readable, if_neg hne] at hplain
  rw [if_neg hne, if_neg hne, ← numbered_eq hplain.fits, ← lookup_cacheScan hplain]
  dsimp only
  by_cases hstale : s.stale = true
  · rw [if_pos hstale]
    rfl
  · rw [if_neg hstale]
    rw [State.stale, Bool.or_eq_true, not_or] at hstale
    have hpath : s.cachedPath = s.notefile := by simpa using hstale.2
    have hcache := h.cache.resolve_left (by simpa using hstale.1)
    rw [hpath, hwritten.newest] at hcache
    rw [hcache]
    rfl

theorem Cached.agrees (h : Cached s) (hwritten : s.Written) (hplain : Plain s.readable) : Agrees s where
  count := h.count hwritten hplain
  list maxnotes user noteslist := by rw [State.tclListnotes, h.count hwritten hplain]
  del := numbered_eq hplain.fits

def countStep (s : State) (e : Env × Cmd) : Except Empty State := .ok (s.next e.1 e.2)

/-- Wherever all that was written is in the file, the numbers of notes are the same for all, if all
lines and handles fit. -/
theorem agrees_throughout (active : Bool) (notefile : CStr) (files : CStr → Option Buf)
    (es : List (Env × Cmd))
    (h : Machine.Along countStep (fun s e => Taken s e.2) (start active notefile files) es) :
    Machine.Throughout countStep (fun s => s.fs.worksOf s.notefile = [] → Plain s.readable → Agrees s)
      (start active notefile files) es := by
  have hcached : Machine.Throughout countStep Cached (start active notefile files) es := by
    refine Machine.throughout_of_along (fun s e s' hs htaken hstep => ?_)
      ⟨steady_start active files, .inl rfl⟩ h
    obtain rfl : s.next e.1 e.2 = s' := Except.ok.inj hstep
    exact hs.next htaken
  refine hcached.imp fun s hs hworks hplain => hs.agrees ?_ hplain
  exact (hs.steady.shape s.notefile).settled hworks

instance (s : State) : ∀ c, Decidable (Taken s c)
  | .storenote .. | .numNotes _ =>
    inferInstanceAs (Decidable (s.notefile ≠ [] → s.stale = true → s.Written))
  | .msgTo .. | .del .. | .erasenotes .. | .change .. | .expire | .setNotefile _ | .land _
  | .done _ => inferInstanceAs (Decidable True)

/-- A note is left and counted, another one erased, and the file is changed for another. -/
theorem agrees_throughout_two :
    Machine.Throughout countStep (fun s => s.fs.worksOf s.notefile = [] → Plain s.readable → Agrees s)
      (start true "n".toList fun _ => some ⟨0, "bob al 1 old\n".toList, 384⟩)
      [(someEnv, .storenote "Bob".toList "al".toList "hi".toList), (someEnv, .numNotes "bob".toList),
        (someEnv, .del "bob".toList "1".toList), (someEnv, .numNotes "bob".toList), (someEnv, .land 0),
        (someEnv, .done 0), (someEnv, .setNotefile "m".toList)] :=
  agrees_throughout true _ _ _ (by decide)

/-- A note to a name that is cut off in the cache counts for the handle that is left of it. -/
theorem not_agrees_long_name :
    ¬ Machine.Throughout countStep (fun s => s.fs.worksOf s.notefile = [] → Agrees s)
      (start true "n".toList fun _ => some ⟨0, replicate 33 'a' ++ " al 1 hi\n".toList, 384⟩)
      [(someEnv, .numNotes (replicate 32 'a'))] := by
  intro h
  have hcount := (h.1 (by decide)).count (replicate 32 'a')
  exact absurd hcount (by decide)

end Eggdrop.Notes
