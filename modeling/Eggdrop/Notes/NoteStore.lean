import Eggdrop.Files.AsyncWrite
import Eggdrop.Lib.ListEdit
import Eggdrop.Notes.NoteFile

/-!
# NoteStore — the notes module

What notes.c does with the file of the notes: a note is left at the end of the file as it is, while
handles that change, notes that are erased and notes that are too old make a new image of it, which
is written in the background.  The numbers of notes are kept in memory.

* `holds_throughout`: once nothing is in flight, the file has the notes that it should have, in runs
  where the file is used only when what was written is in it.
-/

namespace Eggdrop.Notes

open List Eggdrop.Files

/-- What a command finds: the clock, the settings, the users, and the address of a new buffer. -/
structure Env where
  now : ℤ
  maxnotes : ℤ
  noteLife : ℤ
  isUser : CStr → Bool
  userfilePerm : ℕ
  addr : ℕ

/-- `notes_count_cache` has the handles with their counts. -/
structure State where
  notefile : CStr
  cache : List (CStr × ℕ)
  cachedPath : CStr
  fs : Files.State

inductive Cmd where
  | storenote (toHand fromHand msg : CStr)
  | msgTo (toHand handle par : CStr)
  | del (hand sdl : CStr)
  | erasenotes (hand sdl : CStr)
  | change (oldnick newnick : CStr)
  | expire
  | numNotes (user : CStr)
  | setNotefile (path : CStr)
  | land (i : ℕ)
  | done (i : ℕ)
deriving DecidableEq, Repr

/-- One more note to a handle; a new entry has as much of the handle as there is room for. -/
def bump (cache : List (CStr × ℕ)) (toHand : CStr) : List (CStr × ℕ) :=
  if cache.any fun e => strcaseEq e.1 toHand then
    ListEdit.modifyFirst (fun e => strcaseEq e.1 toHand) (fun e => (e.1, e.2 + 1)) cache
  else (toHand.take handLen, 1) :: cache

/-- The word of a line that is taken for a handle. -/
def Line.hand? : Line → Option CStr
  | .note toHand _ => some toHand
  | .other _ => none

/-- `notes_cache_scan`, from an empty cache. -/
def cacheScan (text : CStr) : List (CStr × ℕ) :=
  ((readLines lineRoom text).filterMap Line.hand?).foldl bump []

/-- The count of the first entry for a handle. -/
def lookup (cache : List (CStr × ℕ)) (user : CStr) : ℕ :=
  ((cache.find? fun e => strcaseEq e.1 user).map (·.2)).getD 0

/-- The loop of `tcl_storenote` over the words of the message that begin with `<` or `>`. -/
def unchain (remote : Bool) : ℕ → CStr → CStr → CStr → CStr × CStr
  | 0, fromHand, chain, blah => (fromHand, chain ++ blah)
  | k + 1, fromHand, chain, blah =>
    if blah.head? = some '<' then
      unchain remote k fromHand (chain ++ "via ".toList ++ (newsplit blah).1.tail ++ ", ".toList)
        (newsplit blah).2
    else if blah.head? = some '>' then
      unchain remote k (if remote then (newsplit blah).1.tail else fromHand) chain (newsplit blah).2
    else (fromHand, chain ++ blah)

/-- The sender and the text that `tcl_storenote` writes. -/
def storeWords (fromHand msg : CStr) : CStr × CStr :=
  unchain (fromHand.head? = some '@') msg.length fromHand [] msg

namespace State

variable (s : State) (env : Env)

/-- The text of a file, where there is one. -/
def textOf (f : Option Buf) : CStr := (f.map Buf.data).getD []

/-- `notes_cache_build`. -/
def cacheBuild : State :=
  { s with cache := cacheScan (textOf (s.fs.files s.notefile)), cachedPath := s.notefile }

/-- The cache is of no use for the file that is set. -/
def stale : Bool := s.cache = [] || s.cachedPath ≠ s.notefile

/-- `num_notes`. -/
def numNotes (user : CStr) : ℕ × State :=
  if s.notefile = [] then (0, s)
  else
    let s := if s.stale then s.cacheBuild else s
    (lookup s.cache user, s)

/-- The file is opened, and the image that is made of it is written with `async_writebuf`, after
`notes_cache_rebuild_from_buf`. -/
def rewrite (image : CStr → CStr) : State :=
  if s.notefile = [] then s
  else
    match s.fs.files s.notefile with
    | none => s
    | some f =>
      { s with
        cache := cacheScan (image f.data)
        cachedPath := s.notefile
        fs := s.fs.asyncWritebuf s.notefile
          { addr := env.addr, data := image f.data, perm := env.userfilePerm } true }

/-- `notes_change`. -/
def notesChange (oldnick newnick : CStr) : State :=
  if strcaseEq oldnick newnick then s else s.rewrite env (changeImage oldnick newnick)

/-- `expire_notes`. -/
def expireNotes : State := s.rewrite env (expireImage env.now env.noteLife env.isUser)

/-- `notes_del`. -/
def notesDel (hand sdl : CStr) : State := s.rewrite env (delImage env.maxnotes hand sdl)

/-- `tcl_erasenotes`. -/
def tclErasenotes (hand noteslist : CStr) : State :=
  if env.isUser hand then s.rewrite env (eraseImage env.maxnotes hand noteslist) else s

/-- A line is written at the end of the file, and the cache is cleared. -/
def append (line : CStr) : State :=
  { s with
    cache := []
    fs := { s.fs with
      files := Function.update s.fs.files s.notefile (some
        { addr := env.addr, data := textOf (s.fs.files s.notefile) ++ line
          perm := env.userfilePerm }) } }

/-- Whether `tcl_storenote` leaves a note. -/
def accepts (toHand : CStr) : Bool := s.notefile ≠ [] && (s.numNotes toHand).1 < env.maxnotes

/-- `tcl_storenote`, for a note that is not forwarded. -/
def tclStorenote (toHand fromHand msg : CStr) : State :=
  let s' := (s.numNotes toHand).2
  if s.accepts env toHand then
    s'.append env (noteLine toHand (storeWords fromHand msg).1 env.now (storeWords fromHand msg).2)
  else s'

/-- `msg_notes`, where a note is left. -/
def msgTo (toHand handle par : CStr) : State :=
  if s.notefile = [] then s else s.append env (noteLine toHand handle env.now par)

def next : Cmd → State
  | .storenote toHand fromHand msg => s.tclStorenote env toHand fromHand msg
  | .msgTo toHand handle par => s.msgTo env toHand handle par
  | .del hand sdl => s.notesDel env hand sdl
  | .erasenotes hand sdl => s.tclErasenotes env hand sdl
  | .change oldnick newnick => s.notesChange env oldnick newnick
  | .expire => s.expireNotes env
  | .numNotes user => (s.numNotes user).2
  | .setNotefile path => { s with notefile := path }
  | .land i => { s with fs := s.fs.awriteWork i true }
  | .done i => { s with fs := s.fs.awriteDone i true }

end State

/-- The notes that each file should have. -/
abbrev Want := CStr → List Note

/-- A change of the notes in the file that is set. -/
def Want.change (want : Want) (s : State) (f : List Note → List Note) : Want :=
  if s.notefile = [] then want else Function.update want s.notefile (f (want s.notefile))

def Want.add (want : Want) (s : State) (env : Env) (toHand fromHand text : CStr) : Want :=
  want.change s (· ++
    [{ toHand := toHand, fromHand := fromHand, ts := showInt env.now, text := trimEnd text }])

/-- What a command does to the notes. -/
def Want.next (want : Want) (s : State) (env : Env) : Cmd → Want
  | .storenote toHand fromHand msg =>
    if s.accepts env toHand then
      want.add s env toHand (storeWords fromHand msg).1 (storeWords fromHand msg).2
    else want
  | .msgTo toHand handle par => want.add s env toHand handle par
  | .del hand sdl =>
    want.change s (eraseFrom hand (notesParse env.maxnotes (if sdl = [] then ['-'] else sdl)) 1)
  | .erasenotes hand sdl =>
    if env.isUser hand then
      want.change s (eraseFrom hand (notesParse env.maxnotes (if sdl = [] then ['-'] else sdl)) 1)
    else want
  | .change oldnick newnick => want.change s (rename oldnick newnick)
  | .expire => want.change s (filter fun n => !expired env.now env.noteLife env.isUser n)
  | .numNotes _ | .setNotefile _ | .land _ | .done _ => want

/-- Where no write is outstanding the file has the notes that it should have. -/
def Holds (s : State) (want : Want) : Prop :=
  ∀ path, s.fs.worksOf path = [] → held (State.textOf (s.fs.files path)) = want path

structure Inv (s : State) (want : Want) : Prop where
  steady : Steady s.fs
  newest : ∀ path, held (State.textOf (s.fs.at path).newest) = want path

variable {s : State} {want : Want} {env : Env}

theorem Inv.holds (h : Inv s want) : Holds s want := by
  intro path hworks
  have hsettled : (s.fs.at path).Settled := (h.steady.shape path).settled hworks
  rw [← h.newest path, hsettled.newest]
  rfl

/-- The text of the file that is set. -/
def State.text (s : State) : CStr := State.textOf (s.fs.files s.notefile)

/-- All that was handed over for the file that is set has been written. -/
def State.Written (s : State) : Prop := (s.fs.at s.notefile).Settled

theorem Inv.text (h : Inv s want) (hwritten : s.Written) : held s.text = want s.notefile := by
  rw [← h.newest s.notefile, hwritten.newest]
  rfl

theorem Inv.rewrite (h : Inv s want) {image : CStr → CStr} {f : List Note → List Note} (hnil : f [] = [])
    (hwritten : s.notefile ≠ [] → s.Written)
    (himage : s.notefile ≠ [] → held (image s.text) = f (held s.text)) :
    Inv (s.rewrite env image) (want.change s f) := by
  rw [State.rewrite, Want.change]
  by_cases hne : s.notefile = []
  · rw [if_pos hne, if_pos hne]
    exact h
  rw [if_neg hne, if_neg hne]
  have htext := h.text (hwritten hne)
  have himage := himage hne
  cases hfile : s.fs.files s.notefile with
  | none =>
    have hempty : want s.notefile = [] := by
      rw [← htext, State.text, hfile]
      exact held_nil
    rw [hempty, hnil, ← hempty, Function.update_eq_self]
    exact h
  | some b =>
    obtain ⟨hsteady, hnewest⟩ := h.steady.writebuf s.notefile
      { addr := env.addr, data := image b.data, perm := env.userfilePerm }
    have hdata : s.text = b.data := by
      rw [State.text, hfile]
      rfl
    refine ⟨hsteady, fun path => ?_⟩
    dsimp only
    rw [hnewest]
    by_cases hpath : path = s.notefile
    · rw [if_pos hpath, hpath, Function.update_self, ← htext, ← himage, hdata]
      rfl
    · rw [if_neg hpath, Function.update_of_ne hpath]
      exact h.newest path

theorem Inv.append (h : Inv s want) {toHand fromHand text : CStr} (hne : s.notefile ≠ [])
    (hwritten : s.Written) (hended : Ended s.text) (hto : Word toHand) (hfrom : Unspaced fromHand)
    (hnl : '\n' ∉ text) : Inv (s.append env (noteLine toHand fromHand env.now text))
      (want.add s env toHand fromHand text) := by
  have htext := h.text hwritten
  rw [Want.add, Want.change, if_neg hne]
  refine ⟨⟨fun path => ⟨(h.steady.shape path).busy, (h.steady.shape path).idle,
    (h.steady.shape path).landed⟩, h.steady.free⟩, fun path => ?_⟩
  by_cases hpath : path = s.notefile
  · subst hpath
    have hsettled : ((s.append env (noteLine toHand fromHand env.now text)).fs.at s.notefile).Settled :=
      ⟨hwritten.pending, hwritten.landed⟩
    have hfile : ((s.append env (noteLine toHand fromHand env.now text)).fs.at s.notefile).file =
        some ⟨env.addr, s.text ++ noteLine toHand fromHand env.now text, env.userfilePerm⟩ :=
      Function.update_self ..
    rw [hsettled.newest, hfile, Function.update_self, ← htext]
    exact held_append_note hended hto hfrom hnl
  · have hat : (s.append env (noteLine toHand fromHand env.now text)).fs.at path = s.fs.at path := by
      have hfile : Function.update s.fs.files s.notefile _ path = s.fs.files path :=
        Function.update_of_ne hpath (some
          { addr := env.addr, data := s.text ++ noteLine toHand fromHand env.now text
            perm := env.userfilePerm }) s.fs.files
      rw [Files.State.at, Files.State.at, ← hfile]
      rfl
    rw [hat, Function.update_of_ne hpath]
    exact h.newest path

theorem numNotes_eq (s : State) (user : CStr) :
    ∃ cache path, (s.numNotes user).2 = { s with cache := cache, cachedPath := path } := by
  rw [State.numNotes]
  split
  · exact ⟨s.cache, s.cachedPath, rfl⟩
  · dsimp only
    split
    · exact ⟨_, _, rfl⟩
    · exact ⟨s.cache, s.cachedPath, rfl⟩

theorem Inv.numNotes (h : Inv s want) (user : CStr) : Inv (s.numNotes user).2 want := by
  obtain ⟨cache, path, heq⟩ := numNotes_eq s user
  rw [heq]
  exact ⟨h.steady, h.newest⟩

theorem change_self {f : List Note → List Note} (hf : ∀ l, f l = l) : want.change s f = want := by
  rw [Want.change, hf, Function.update_eq_self, ite_self]

/-- The file is not used past a write that is under way, and what is read and written can be read
again: lines that fit the buffer, and words where words belong. -/
def Orderly (s : State) (env : Env) : Cmd → Prop
  | .storenote toHand fromHand msg => s.accepts env toHand → s.Written ∧ Ended s.text ∧ Word toHand ∧
      Unspaced (storeWords fromHand msg).1 ∧ '\n' ∉ (storeWords fromHand msg).2
  | .msgTo toHand handle par => s.notefile ≠ [] → s.Written ∧ Ended s.text ∧ Word toHand ∧
      Unspaced handle ∧ '\n' ∉ par
  | .del _ _ | .expire => s.notefile ≠ [] → s.Written ∧ Fits lineRoom s.text
  | .erasenotes hand _ => s.notefile ≠ [] → env.isUser hand → s.Written ∧ Fits readRoom s.text
  | .change oldnick newnick => s.notefile ≠ [] → strcaseEq oldnick newnick = false →
      s.Written ∧ Fits lineRoom s.text ∧ Word newnick
  | .numNotes _ | .setNotefile _ | .land _ | .done _ => True

theorem Inv.next (h : Inv s want) {c : Cmd} (horderly : Orderly s env c) :
    Inv (s.next env c) (want.next s env c) := by
  cases c with
  | storenote toHand fromHand msg =>
    have hcounted := h.numNotes toHand
    obtain ⟨cache, path, heq⟩ := numNotes_eq s toHand
    rw [State.next, State.tclStorenote, Want.next]
    rw [heq] at hcounted ⊢
    by_cases haccept : s.accepts env toHand = true
    · obtain ⟨hwritten, hended, hto, hfrom, hnl⟩ := horderly haccept
      have hne : s.notefile ≠ [] := by
        rw [State.accepts, Bool.and_eq_true] at haccept
        simpa using haccept.1
      rw [if_pos haccept, if_pos haccept]
      exact hcounted.append hne hwritten hended hto hfrom hnl
    · rw [if_neg haccept, if_neg haccept]
      exact hcounted
  | msgTo toHand handle par =>
    rw [State.next, State.msgTo, Want.next]
    by_cases hne : s.notefile = []
    · rw [if_pos hne, Want.add, Want.change, if_pos hne]
      exact h
    · obtain ⟨hwritten, hended, hto, hfrom, hnl⟩ := horderly hne
      rw [if_neg hne]
      exact h.append hne hwritten hended hto hfrom hnl
  | del hand sdl =>
    exact h.rewrite rfl (fun hne => (horderly hne).1) fun hne => held_delImage (horderly hne).2
  | erasenotes hand sdl =>
    rw [State.next, State.tclErasenotes, Want.next]
    by_cases huser : env.isUser hand = true
    · rw [if_pos huser, if_pos huser]
      exact h.rewrite rfl (fun hne => (horderly hne huser).1) fun hne =>
        held_eraseImage (horderly hne huser).2
    · rw [if_neg huser, if_neg huser]
      exact h
  | change oldnick newnick =>
    rw [State.next, State.notesChange, Want.next]
    by_cases hsame : strcaseEq oldnick newnick = true
    · rw [if_pos hsame, change_self fun l => by rw [rename, if_pos hsame]]
      exact h
    · rw [if_neg hsame]
      have hsame : strcaseEq oldnick newnick = false := by simpa using hsame
      refine h.rewrite ?_ (fun hne => (horderly hne hsame).1) fun hne =>
        held_changeImage (horderly hne hsame).2.1 (horderly hne hsame).2.2 hsame
      rw [rename, hsame]
      rfl
  | expire =>
    exact h.rewrite rfl (fun hne => (horderly hne).1) fun hne => held_expireImage (horderly hne).2
  | numNotes user => exact h.numNotes user
  | setNotefile path => exact ⟨h.steady, h.newest⟩
  | land i =>
    obtain ⟨hsteady, hnewest⟩ := h.steady.land i
    exact ⟨hsteady, fun path => (congrArg _ (congrArg _ (hnewest path))).trans (h.newest path)⟩
  | done i =>
    obtain ⟨hsteady, hnewest⟩ := h.steady.done i
    exact ⟨hsteady, fun path => (congrArg _ (congrArg _ (hnewest path))).trans (h.newest path)⟩

/-! ### Runs -/

def step (s : State × Want) (e : Env × Cmd) : Except Empty (State × Want) :=
  .ok (s.1.next e.1 e.2, s.2.next s.1 e.1 e.2)

/-- Before the first command, with any files. -/
def start (active : Bool) (notefile : CStr) (files : CStr → Option Buf) : State :=
  { notefile := notefile, cache := [], cachedPath := []
    fs := (Files.start active files).1 }

def wanted (files : CStr → Option Buf) : Want := fun path => held (State.textOf (files path))

theorem steady_start (active : Bool) (files : CStr → Option Buf) :
    Steady (Files.start active files).1 :=
  ⟨(inv_start active files).shape, fun _ => .inr rfl⟩

theorem inv_start (active : Bool) (notefile : CStr) (files : CStr → Option Buf) :
    Inv (start active notefile files) (wanted files) :=
  ⟨steady_start active files, fun _ => rfl⟩

/-- Notes that are left, erased, given to another handle and too old, with the writes in the
background ending in any order. -/
theorem holds_throughout (active : Bool) (notefile : CStr) (files : CStr → Option Buf)
    (es : List (Env × Cmd))
    (h : Machine.Along step (fun s e => Orderly s.1 e.1 e.2)
      (start active notefile files, wanted files) es) :
    Machine.Throughout step (fun s => Holds s.1 s.2) (start active notefile files, wanted files) es := by
  have hinv : Machine.Throughout step (fun s => Inv s.1 s.2)
      (start active notefile files, wanted files) es := by
    refine Machine.throughout_of_along (fun s e s' hs horderly hstep => ?_)
      (inv_start active notefile files) h
    obtain rfl : (s.1.next e.1 e.2, s.2.next s.1 e.1 e.2) = s' := Except.ok.inj hstep
    exact Inv.next hs horderly
  exact hinv.imp fun _ h => h.holds

instance (a : PathState) : Decidable a.Settled :=
  decidable_of_iff (a.slot.pending = none ∧ ∀ c ∈ a.works, c.landed = true)
    ⟨fun h => ⟨h.1, h.2⟩, fun h => ⟨h.1, h.2⟩⟩

instance (w : CStr) : Decidable (Word w) :=
  decidable_of_iff (w ≠ [] ∧ (∀ c ∈ w, isSpace c = false) ∧ isComment w = false)
    ⟨fun h => ⟨h.1, h.2.1, h.2.2⟩, fun h => ⟨h.1, h.2, h.3⟩⟩

instance (w : CStr) : Decidable (Unspaced w) :=
  decidable_of_iff (w ≠ [] ∧ ∀ c ∈ w, isSpace c = false) ⟨fun h => ⟨h.1, h.2⟩, fun h => ⟨h.1, h.2⟩⟩

instance (text : CStr) : Decidable (Ended text) :=
  decidable_of_iff (text.getLast?.all (· = '\n')) (by simp [Ended, Option.all_eq_true])

instance (k : ℕ) (text : CStr) : Decidable (Fits k text) :=
  inferInstanceAs (Decidable (∀ l ∈ text.splitOn '\n', l.length ≤ k))

instance (s : State) : Decidable s.Written := inferInstanceAs (Decidable (s.fs.at s.notefile).Settled)

instance (s : State) (env : Env) (c : Cmd) : Decidable (Orderly s env c) := by
  cases c <;> unfold Orderly <;> infer_instance

/-- The settings of the runs below. -/
def someEnv : Env :=
  { now := 60, maxnotes := 50, noteLife := 60, isUser := fun _ => true, userfilePerm := 384, addr := 0 }

/-- A note is left and erased with an older one, and another is left before the write is completed. -/
theorem holds_throughout_two :
    Machine.Throughout step (fun s => Holds s.1 s.2)
      (start true "n".toList fun _ => some ⟨0, "bob al 1 old\n".toList, 384⟩,
        wanted fun _ => some ⟨0, "bob al 1 old\n".toList, 384⟩)
      [(someEnv, .msgTo "Bob".toList "al".toList "hi".toList), (someEnv, .del "bob".toList []),
        (someEnv, .land 0), (someEnv, .storenote "bob".toList "al".toList "<eve me".toList),
        (someEnv, .done 0)] :=
  holds_throughout true _ _ _ (by decide)

/-- A note that is left while an image is written is lost. -/
theorem not_holds_append :
    ¬ Machine.Throughout step (fun s => Holds s.1 s.2)
      (start true "n".toList fun _ => some ⟨0, "bob al 1 old\n".toList, 384⟩,
        wanted fun _ => some ⟨0, "bob al 1 old\n".toList, 384⟩)
      [(someEnv, .del "bob".toList []), (someEnv, .msgTo "bob".toList "al".toList "hi".toList),
        (someEnv, .land 0), (someEnv, .done 0)] := by
  intro h
  have hrun : ∃ s, Machine.run step
      (start true "n".toList fun _ => some ⟨0, "bob al 1 old\n".toList, 384⟩,
        wanted fun _ => some ⟨0, "bob al 1 old\n".toList, 384⟩)
      [(someEnv, .del "bob".toList []), (someEnv, .msgTo "bob".toList "al".toList "hi".toList),
        (someEnv, .land 0), (someEnv, .done 0)] = .ok s ∧ s.1.fs.worksOf "n".toList = [] ∧
          held (State.textOf (s.1.fs.files "n".toList)) ≠ s.2 "n".toList := ⟨_, rfl, by decide⟩
  obtain ⟨s, hs, hworks, hne⟩ := hrun
  exact hne (h.last hs _ hworks)

end Eggdrop.Notes
