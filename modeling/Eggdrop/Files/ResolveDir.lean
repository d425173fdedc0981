import Eggdrop.Base.CString

/-!
# ResolveDir — the current directory in the file area (filesys.mod/files.c)

`resolve_dir` goes through a change of directory element by element.  Whether an element may be
entered is looked up in the database of the directory in front of it, whose entries are found with the
element as a mask.  The directory that comes out is kept for the session, cut to its buffer, and with
the user as `DCCDIR`, from where the next session begins.

* `resolveDir_contained`: no file command is ever given a directory outside of the file area.
* `newDirs_entered`: nobody is in a directory whose elements he was not let into, one after the other.
-/

open List

namespace Eggdrop.Files.Dirs

/-! ### Changing the directory -/

/-- What `resolve_dir` reads of a `filedb_entry`. -/
structure FiledbEntry where
  filename : CStr
  /-- `FILE_DIR` -/
  dir : Bool
  sharelink : Option CStr
  chan : Option CStr
  flags_req : Option CStr

/-- What is found outside, at the time of a command. -/
structure World where
  /-- `filedb_open`: the entries that are in use, in order -/
  filedbOpen : CStr → Option (List FiledbEntry)
  /-- `wild_match_file` -/
  wildMatchFile : CStr → CStr → Bool
  /-- `flagrec_ok` with the flags that are asked for and those of the user, in general and on a channel -/
  flagrecOk : Option CStr → CStr → Bool
  /-- `opendir` of a directory below `dccdir` -/
  opendir : CStr → Bool

/-- Whether an element may be entered: the first entry that it matches is a directory, not a link, and
asks for no flags but the user's. -/
def World.allows (w : World) (real elem : CStr) : Bool :=
  match w.filedbOpen real with
  | none => false
  | some fdb =>
    match fdb.find? fun fdbe => w.wildMatchFile elem fdbe.filename with
    | none => false
    | some fdbe =>
      fdbe.dir && fdbe.sharelink.isNone && fdbe.flags_req.all (w.flagrecOk fdbe.chan)

/-- What stands in front of the last `/`. -/
def beforeSlash (real : CStr) : CStr := (real.reverse.dropWhile (· ≠ '/')).tail.reverse

/-- A path with an element behind it. -/
def appendElem (real elem : CStr) : CStr :=
  if real = [] ∨ real.getLast? = some '/' then real ++ elem else real ++ '/' :: elem

/-- One round of the loop. -/
def World.enter (w : World) (real elem : CStr) : Option CStr :=
  if elem = [] ∨ elem = ['.'] then some real
  else if elem = ['.', '.'] then
    if '/' ∈ real then some (beforeSlash real) else if real = [] then none else some []
  else if w.allows real elem then some (appendElem real elem)
  else none

/-- `resolve_dir`: what it returns, and `*real`. -/
def World.resolveDir (w : World) (current change : CStr) : Bool × CStr :=
  if change = [] then (true, current)
  else
    let start := if change.head? = some '/' then ([], change.tail) else (current, change)
    match (start.2.splitOn '/').foldlM w.enter start.1 with
    | none => (false, current)
    | some real => (w.opendir real, real)

/-! ### Sessions -/

/-- What `def_set` makes of a control character. -/
def cleanChar (c : Char) : Char :=
  if c.toNat < 32 ∧ c.toNat ∉ [0o02, 0o03, 0o26, 0o37] then '?' else c

/-- `set_user` for `DCCDIR`. -/
def setDccdir (dir : CStr) : Option CStr := if dir = [] then none else some (dir.map cleanChar)

/-- `sizeof(u.file->dir) - 1`. -/
def dirSize : ℕ := 160

/-- A user: the current directories of his sessions, and `DCCDIR`. -/
structure State where
  dir : ℕ → CStr
  dccdir : Option CStr

def State.init : State := ⟨fun _ => [], none⟩

inductive Op
  /-- `welcome_to_files` where these databases can be opened -/
  | welcome (filedbOpen : CStr → Bool)
  /-- `cmd_chdir` -/
  | chdir (w : World) (msg : CStr)
  /-- `files_setpwd` -/
  | setpwd (w : World) (where_ : CStr)
  /-- `cmd_optimize` -/
  | optimize (filedbOpen : CStr → Bool)
  /-- the end of `dcc_files` -/
  | quit

/-- The directory that `cmd_chdir` and `files_setpwd` keep. -/
def World.newDir (w : World) (dir change : CStr) : Option CStr :=
  match w.resolveDir dir change with
  | (false, _) => none
  | (true, real) => some (real.take dirSize)

/-- What becomes of a user with it. -/
def State.change (s : State) (idx : ℕ) (w : World) (change : CStr) : State :=
  match w.newDir (s.dir idx) change with
  | none => s
  | some dir => ⟨Function.update s.dir idx dir, setDccdir dir⟩

def State.step (s : State) (idx : ℕ) : Op → State
  | .welcome filedbOpen =>
    let dir := (s.dccdir.getD []).take dirSize
    { s with dir := Function.update s.dir idx (if filedbOpen dir then dir else []) }
  | .chdir w msg => if msg = [] then s else s.change idx w msg
  | .setpwd w where_ => s.change idx w where_
  | .optimize filedbOpen => if s.dccdir.all filedbOpen then s else { s with dccdir := none }
  | .quit => { s with dccdir := setDccdir (s.dir idx) }

/-- The sessions of a user take turns. -/
def State.run (s : State) (ops : List (ℕ × Op)) : State := ops.foldl (fun s op => s.step op.1 op.2) s

/-! ### Paths -/

/-- The name of a directory that can be entered. -/
structure IsElem (e : CStr) : Prop where
  ne_nil : e ≠ []
  ne_dot : e ≠ ['.']
  ne_dots : e ≠ ['.', '.']
  slash : '/' ∉ e

/-- The path of a list of names. -/
def text (p : List CStr) : CStr := ['/'].intercalate p

/-- How far below the beginning a list of elements leads, if it never leads above it. -/
def depth? : ℕ → List CStr → Option ℕ
  | d, [] => some d
  | d, e :: es =>
    if e = [] ∨ e = ['.'] then depth? d es
    else if e = ['.', '.'] then
      match d with
      | 0 => none
      | d + 1 => depth? d es
    else depth? (d + 1) es

/-- A path does not lead out of the directory that it begins in. -/
def Contained (dir : CStr) : Prop := (depth? 0 (dir.splitOn '/')).isSome

instance (dir : CStr) : Decidable (Contained dir) := inferInstanceAs (Decidable (_ = true))

theorem depth?_append (d : ℕ) (es fs : List CStr) :
    depth? d (es ++ fs) = (depth? d es).bind (depth? · fs) := by
  induction es generalizing d with
  | nil => rfl
  | cons e es ih =>
    simp only [cons_append, depth?]
    split
    · exact ih d
    · split
      · cases d with
        | zero => rfl
        | succ d => exact ih d
      · exact ih (d + 1)

theorem depth?_elems {p : List CStr} (hp : ∀ e ∈ p, IsElem e) (d : ℕ) :
    depth? d p = some (d + p.length) := by
  induction p generalizing d with
  | nil => rfl
  | cons e p ih =>
    have he := hp e mem_cons_self
    simp only [depth?, he.ne_nil, he.ne_dot, he.ne_dots, or_self, if_false]
    rw [ih fun e' he' => hp e' (mem_cons_of_mem e he'), length_cons]
    congr 1
    omega

theorem splitOn_text {p : List CStr} (hp : ∀ e ∈ p, IsElem e) (hne : p ≠ []) :
    (text p).splitOn '/' = p :=
  splitOn_intercalate '/' (fun e he => (hp e he).slash) hne

theorem text_splitOn (s : CStr) : text (s.splitOn '/') = s := intercalate_splitOn '/'

theorem text_eq_nil_iff {p : List CStr} (hp : ∀ e ∈ p, IsElem e) : text p = [] ↔ p = [] := by
  constructor
  · intro h
    by_contra hne
    have hsplit := splitOn_text hp hne
    rw [h, splitOn_nil] at hsplit
    exact (hp [] (hsplit ▸ mem_singleton_self _)).ne_nil rfl
  · rintro rfl
    rfl

theorem eq_take_of_slash {p : List CStr} (hp : ∀ e ∈ p, IsElem e) {r t : CStr}
    (h : r ++ '/' :: t = text p) :
    r.splitOn '/' <+: p ∧ r = text (r.splitOn '/') := by
  have hne : p ≠ [] := by
    rintro rfl
    exact append_ne_nil_of_right_ne_nil r (cons_ne_nil _ _) h
  refine ⟨⟨t.splitOn '/', ?_⟩, (text_splitOn r).symm⟩
  rw [← splitOn_append_cons_self, h, splitOn_text hp hne]

theorem getLast?_text {p : List CStr} (hp : ∀ e ∈ p, IsElem e) : (text p).getLast? ≠ some '/' := by
  intro h
  obtain ⟨r, hr⟩ := getLast?_eq_some_iff.1 h
  have hne : p ≠ [] := by
    rintro rfl
    cases h
  have hsplit := splitOn_text hp hne
  rw [hr, splitOn_append_cons_self, splitOn_nil] at hsplit
  exact (hp [] (hsplit ▸ mem_append_right _ (mem_singleton_self _))).ne_nil rfl

theorem appendElem_text {p : List CStr} (hp : ∀ e ∈ p, IsElem e) {e : CStr} (he : IsElem e) :
    appendElem (text p) e = text (p ++ [e]) := by
  rcases eq_or_ne p [] with rfl | hne
  · simp [appendElem, text]
  · have hnil : text p ≠ [] := fun h => hne ((text_eq_nil_iff hp).1 h)
    have hsplit : (text p ++ '/' :: e).splitOn '/' = p ++ [e] := by
      rw [splitOn_append_cons_self, splitOn_text hp hne, splitOn_eq_singleton he.slash]
    rw [appendElem, if_neg (by simp [hnil, getLast?_text hp]), ← hsplit, text_splitOn]

/-! ### The last slash -/

theorem exists_beforeSlash {real : CStr} (h : '/' ∈ real) :
    ∃ s, real = beforeSlash real ++ '/' :: s ∧ '/' ∉ s := by
  obtain ⟨as, bs, hrev, has⟩ := eq_append_cons_of_mem (mem_reverse.2 h)
  have hdrop : real.reverse.dropWhile (· ≠ '/') = '/' :: bs := by
    rw [hrev, dropWhile_append_of_pos, dropWhile_cons_of_neg (by simp)]
    intro c hc
    rw [decide_eq_true_iff]
    rintro rfl
    exact has hc
  refine ⟨as.reverse, ?_, fun hs => has (mem_reverse.1 hs)⟩
  rw [beforeSlash, hdrop, tail_cons, ← reverse_inj, hrev]
  simp

/-! ### Staying inside -/

theorem contained_text {p : List CStr} (hp : ∀ e ∈ p, IsElem e) : Contained (text p) := by
  rcases eq_or_ne p [] with rfl | hne
  · decide
  · rw [Contained, splitOn_text hp hne, depth?_elems hp]
    rfl

theorem contained_append_slash {r s : CStr} :
    Contained (r ++ '/' :: s) ↔
      ((depth? 0 (r.splitOn '/')).bind (depth? · (s.splitOn '/'))).isSome := by
  rw [Contained, splitOn_append_cons_self, depth?_append]

theorem Contained.of_append_slash {r s : CStr} (h : Contained (r ++ '/' :: s)) : Contained r := by
  rw [contained_append_slash] at h
  rw [Contained]
  cases hd : depth? 0 (r.splitOn '/') with
  | none => simp [hd] at h
  | some d => rfl

theorem depth?_elem (d : ℕ) {e : CStr} (he : IsElem e) : depth? d (e.splitOn '/') = some (d + 1) := by
  rw [splitOn_eq_singleton he.slash, depth?_elems (by simpa using he)]
  rfl

theorem Contained.appendElem {real e : CStr} (h : Contained real) (he : IsElem e) :
    Contained (appendElem real e) := by
  have hslash {r : CStr} (hr : Contained r) : Contained (r ++ '/' :: e) := by
    obtain ⟨d, hd⟩ := Option.isSome_iff_exists.1 hr
    rw [contained_append_slash, hd, Option.bind_some, depth?_elem d he]
    rfl
  unfold Dirs.appendElem
  split_ifs with hlast
  · rcases hlast with rfl | hlast
    · rw [nil_append, Contained, depth?_elem 0 he]
      rfl
    · obtain ⟨r, rfl⟩ := getLast?_eq_some_iff.1 hlast
      rw [append_assoc, singleton_append]
      exact hslash h.of_append_slash
  · exact hslash h

/-- What is left of a path in the buffer, if its last name is cut to `..`, is still below another. -/
theorem contained_take {p : List CStr} (hp : ∀ e ∈ p, IsElem e) :
    Contained ((text p).take dirSize) := by
  rcases le_or_gt (text p).length dirSize with hle | hlt
  · rw [take_of_length_le hle]
    exact contained_text hp
  · have hlen : ((text p).take dirSize).length = dirSize := length_take_of_le hlt.le
    have htake := take_append_drop dirSize (text p)
    generalize (text p).take dirSize = t at hlen htake ⊢
    by_cases hmem : '/' ∈ t
    · obtain ⟨s, ht, hs⟩ := exists_beforeSlash hmem
      generalize beforeSlash t = r at ht
      rw [ht, append_assoc, cons_append] at htake
      obtain ⟨hpre, -⟩ := eq_take_of_slash hp htake
      have hpos : 0 < (r.splitOn '/').length := length_pos_iff.2 (splitOn_ne_nil _ _)
      rw [ht, contained_append_slash, depth?_elems (fun e he => hp e (hpre.subset he)),
        Option.bind_some, splitOn_eq_singleton hs]
      obtain ⟨d, hd⟩ := Nat.exists_eq_succ_of_ne_zero hpos.ne'
      rw [Nat.zero_add, hd]
      unfold depth?
      split_ifs <;> rfl
    · have hdots : t ≠ ['.', '.'] := by
        rintro rfl
        cases hlen
      rw [Contained, splitOn_eq_singleton hmem]
      unfold depth?
      rw [if_neg hdots]
      split_ifs <;> rfl

/-! ### What a session keeps -/

/-- All names of a path, each with what is in front of it, have come through `Let`. -/
def Entered (Let : CStr → CStr → Prop) (p : List CStr) : Prop :=
  ∀ q e, q ++ [e] <+: p → Let (text q) e

/-- The beginning of a path whose names have come through `Let`, as much as the buffer holds. -/
def Kept (Let : CStr → CStr → Prop) (dir : CStr) : Prop :=
  ∃ p, (∀ e ∈ p, IsElem e) ∧ Entered Let p ∧ dir = (text p).take dirSize

/-- What the loop of `resolve_dir` may have come to: such a path, or one so long that only its
beginning counts. -/
inductive Walked (Let : CStr → CStr → Prop) (real : CStr) : Prop
  | whole (p : List CStr) (hp : ∀ e ∈ p, IsElem e) (hlet : Entered Let p) (heq : real = text p)
  | long (p : List CStr) (hp : ∀ e ∈ p, IsElem e) (hlet : Entered Let p)
      (heq : real.take dirSize = (text p).take dirSize) (hlen : dirSize ≤ real.length)
      (hin : Contained real)

variable {Let : CStr → CStr → Prop}

theorem Entered.of_prefix {p q : List CStr} (h : Entered Let p) (hpre : q <+: p) : Entered Let q :=
  fun r e hr => h r e (hr.trans hpre)

theorem Entered.concat {p : List CStr} {e : CStr} (h : Entered Let p) (he : Let (text p) e) :
    Entered Let (p ++ [e]) := by
  intro q e' hq
  rcases prefix_concat_iff.1 hq with heq | hq
  · obtain ⟨hqp, hee⟩ := append_inj' heq rfl
    rwa [hqp, (cons.inj hee).1]
  · exact h q e' hq

theorem entered_nil : Entered Let [] := fun q e h => by simp at h

theorem kept_nil : Kept Let [] := ⟨[], by simp, entered_nil, rfl⟩

theorem Walked.nil : Walked Let [] := .whole [] (by simp) entered_nil rfl

theorem Kept.walked {dir : CStr} (h : Kept Let dir) : Walked Let dir := by
  obtain ⟨p, hp, hlet, rfl⟩ := h
  rcases le_or_gt (text p).length dirSize with hle | hlt
  · exact .whole p hp hlet (take_of_length_le hle)
  · exact .long p hp hlet (by rw [take_take, min_self]) (length_take_of_le hlt.le).ge
      (contained_take hp)

theorem Walked.kept {real : CStr} (h : Walked Let real) : Kept Let (real.take dirSize) := by
  cases h with
  | whole p hp hlet heq => exact ⟨p, hp, hlet, by rw [heq]⟩
  | long p hp hlet heq => exact ⟨p, hp, hlet, heq⟩

theorem Walked.contained {real : CStr} (h : Walked Let real) : Contained real := by
  cases h with
  | whole p hp _ heq => exact heq ▸ contained_text hp
  | long _ _ _ _ _ hin => exact hin

theorem Walked.of_slash {p : List CStr} (hp : ∀ e ∈ p, IsElem e) (hlet : Entered Let p) {r t : CStr}
    (h : r ++ '/' :: t = text p) : Walked Let r := by
  obtain ⟨hpre, hr⟩ := eq_take_of_slash hp h
  exact .whole _ (fun e he => hp e (hpre.subset he)) (hlet.of_prefix hpre) hr

theorem Walked.beforeSlash {real : CStr} (h : Walked Let real) (hmem : '/' ∈ real) :
    Walked Let (beforeSlash real) := by
  obtain ⟨s, hreal, -⟩ := exists_beforeSlash hmem
  generalize Dirs.beforeSlash real = r at hreal
  cases h with
  | whole p hp hlet heq => exact .of_slash hp hlet (hreal ▸ heq)
  | long p hp hlet heq hlen hin =>
    subst hreal
    rcases le_or_gt dirSize r.length with hle | hlt
    · rw [take_append_of_le_length hle] at heq
      exact .long p hp hlet heq hle hin.of_append_slash
    · -- the slash is in the part that counts
      obtain ⟨k, hk⟩ := Nat.exists_eq_add_of_lt hlt
      have htake : (r ++ '/' :: s).take dirSize = r ++ '/' :: s.take k := by
        rw [hk, add_assoc, take_length_add_append, take_succ_cons]
      have htext := take_append_drop dirSize (text p)
      rw [← heq, htake, append_assoc, cons_append] at htext
      exact .of_slash hp hlet htext

theorem Walked.appendElem {real e : CStr} (h : Walked Let real) (he : IsElem e) (hlet : Let real e) :
    Walked Let (appendElem real e) := by
  cases h with
  | whole p hp hent heq =>
    subst heq
    refine .whole (p ++ [e]) ?_ (hent.concat hlet) (appendElem_text hp he)
    intro e' he'
    rcases mem_append.1 he' with he' | he'
    · exact hp e' he'
    · rwa [mem_singleton.1 he']
  | long p hp hent heq hlen hin =>
    have htake : ∃ t, Dirs.appendElem real e = real ++ t := by
      unfold Dirs.appendElem
      split_ifs
      exacts [⟨_, rfl⟩, ⟨_, rfl⟩]
    refine .long p hp hent ?_ ?_ (hin.appendElem he)
    all_goals
      obtain ⟨t, ht⟩ := htake
      rw [ht]
    · rw [take_append_of_le_length hlen, heq]
    · rw [length_append]
      omega

theorem Walked.enter {w : World} (hw : ∀ q e, w.allows q e = true → Let q e) {real elem real' : CStr}
    (h : Walked Let real) (hslash : '/' ∉ elem) (hs : w.enter real elem = some real') :
    Walked Let real' := by
  unfold World.enter at hs
  split_ifs at hs with hskip hdots hmem hnil hallow
  · cases hs
    exact h
  · cases hs
    exact h.beforeSlash hmem
  · cases hs
    exact .nil
  · cases hs
    rw [not_or] at hskip
    exact h.appendElem ⟨hskip.1, hskip.2, hdots, hslash⟩ (hw _ _ hallow)

theorem slash_notMem_of_mem_splitOn {s e : CStr} (h : e ∈ s.splitOn '/') : '/' ∉ e := by
  induction s generalizing e with
  | nil =>
    rw [splitOn_nil, mem_singleton] at h
    simp [h]
  | cons c s ih =>
    rw [splitOn_cons_eq_if_modifyHead] at h
    split_ifs at h with hc
    · rcases mem_cons.1 h with rfl | h
      · simp
      · exact ih h
    · obtain ⟨e', es, hsplit⟩ := exists_cons_of_ne_nil (splitOn_ne_nil '/' s)
      rw [hsplit, modifyHead_cons] at h
      rcases mem_cons.1 h with rfl | h
      · have hc' : '/' ≠ c := fun heq => hc (beq_iff_eq.2 heq.symm)
        simp [hc', ih (hsplit ▸ mem_cons_self)]
      · exact ih (hsplit ▸ mem_cons_of_mem e' h)

theorem Walked.walk {w : World} (hw : ∀ q e, w.allows q e = true → Let q e) {es : List CStr}
    (hes : ∀ e ∈ es, '/' ∉ e) {real real' : CStr} (h : Walked Let real)
    (hs : es.foldlM w.enter real = some real') : Walked Let real' := by
  induction es generalizing real with
  | nil =>
    cases hs
    exact h
  | cons e es ih =>
    rw [foldlM_cons] at hs
    obtain ⟨mid, hmid, hs⟩ := Option.bind_eq_some_iff.1 hs
    exact ih (fun e' he' => hes e' (mem_cons_of_mem e he'))
      (h.enter hw (hes e mem_cons_self) hmid) hs

theorem Kept.resolveDir {w : World} (hw : ∀ q e, w.allows q e = true → Let q e) {current : CStr}
    (h : Kept Let current) (change : CStr) : Walked Let (w.resolveDir current change).2 := by
  rcases eq_or_ne change [] with rfl | hne
  · exact h.walked
  · rw [World.resolveDir, if_neg hne]
    generalize hstart : (if change.head? = some '/' then (([] : CStr), change.tail)
      else (current, change)) = start
    have hwalked : Walked Let start.1 := by
      rw [← hstart]
      split_ifs
      exacts [.nil, h.walked]
    dsimp only
    cases hs : (start.2.splitOn '/').foldlM w.enter start.1 with
    | none => exact h.walked
    | some real => exact hwalked.walk hw (fun e he => slash_notMem_of_mem_splitOn he) hs

/-! ### Runs -/

/-- What a user is kept with: the directories of all his sessions, and what the next begins with. -/
structure State.Inv (Let : CStr → CStr → Prop) (s : State) : Prop where
  dir : ∀ idx, Kept Let (s.dir idx)
  dccdir : ∀ dir ∈ s.dccdir, Kept Let dir

theorem cleanChar_eq_iff {c d : Char} (hd : d = '/' ∨ d = '.') : cleanChar c = d ↔ c = d := by
  unfold cleanChar
  split_ifs with h
  · have hne : c ≠ d := by
      rintro rfl
      rcases hd with rfl | rfl
      all_goals simp at h
    rcases hd with rfl | rfl
    all_goals simp [hne]
  · rfl

theorem IsElem.map_cleanChar {e : CStr} (h : IsElem e) : IsElem (e.map cleanChar) where
  ne_nil hnil := h.ne_nil (map_eq_nil_iff.1 hnil)
  ne_dot hdot := by
    obtain ⟨c, rfl, hc⟩ := map_eq_singleton_iff.1 hdot
    exact h.ne_dot (by rw [(cleanChar_eq_iff (.inr rfl)).1 hc])
  ne_dots hdots := by
    obtain ⟨c, t, rfl, hc, ht⟩ := map_eq_cons_iff.1 hdots
    obtain ⟨d, rfl, hd⟩ := map_eq_singleton_iff.1 ht
    exact h.ne_dots (by rw [(cleanChar_eq_iff (.inr rfl)).1 hc, (cleanChar_eq_iff (.inr rfl)).1 hd])
  slash hmem := by
    obtain ⟨c, hc, heq⟩ := mem_map.1 hmem
    exact h.slash ((cleanChar_eq_iff (.inl rfl)).1 heq ▸ hc)

theorem map_cleanChar_text (p : List CStr) : (text p).map cleanChar = text (p.map (map cleanChar)) := by
  induction p with
  | nil => rfl
  | cons e p ih =>
    rcases p with _ | ⟨e', p⟩
    · simp [text]
    · have hslash : cleanChar '/' = '/' := by decide
      simp only [text, map_cons, intercalate_cons_cons, map_append, hslash, map_nil] at ih ⊢
      rw [ih]

theorem Kept.newDir {w : World} (hw : ∀ q e, w.allows q e = true → Let q e) {current change dir : CStr}
    (h : Kept Let current) (hdir : w.newDir current change = some dir) : Kept Let dir := by
  have hreal := h.resolveDir hw change
  unfold World.newDir at hdir
  split at hdir
  · cases hdir
  · next real heq =>
    cases hdir
    rw [heq] at hreal
    exact hreal.kept

theorem Kept.map_cleanChar {dir : CStr} (h : Kept (fun _ _ => True) dir) :
    Kept (fun _ _ => True) (dir.map cleanChar) := by
  obtain ⟨p, hp, -, rfl⟩ := h
  refine ⟨p.map (map cleanChar), ?_, fun _ _ _ => trivial, ?_⟩
  · intro e he
    obtain ⟨e', he', rfl⟩ := mem_map.1 he
    exact (hp e' he').map_cleanChar
  · rw [map_take, map_cleanChar_text]

theorem Kept.take {dir : CStr} (h : Kept Let dir) : Kept Let (dir.take dirSize) := by
  obtain ⟨p, hp, hlet, rfl⟩ := h
  exact ⟨p, hp, hlet, by rw [take_take, min_self]⟩

theorem Kept.setDccdir {dir : CStr} (h : Kept (fun _ _ => True) dir) :
    ∀ dir' ∈ setDccdir dir, Kept (fun _ _ => True) dir' := by
  intro dir' hdir'
  unfold Dirs.setDccdir at hdir'
  split_ifs at hdir'
  · cases hdir'
  · obtain rfl := Option.mem_some_iff.1 hdir'
    exact h.map_cleanChar

namespace State

variable {s : State}

theorem Inv.update (h : s.Inv Let) (idx : ℕ) {dir : CStr} (hdir : Kept Let dir) (idx' : ℕ) :
    Kept Let (Function.update s.dir idx dir idx') := by
  rcases eq_or_ne idx' idx with rfl | hne
  · rwa [Function.update_self]
  · rw [Function.update_of_ne hne]
    exact h.dir idx'

theorem Inv.change (h : s.Inv fun _ _ => True) (idx : ℕ) (w : World) (change : CStr) :
    (s.change idx w change).Inv fun _ _ => True := by
  unfold State.change
  cases hdir : w.newDir (s.dir idx) change with
  | none => exact h
  | some dir =>
    have hkept := (h.dir idx).newDir (fun _ _ _ => trivial) hdir
    exact ⟨h.update idx hkept, hkept.setDccdir⟩

theorem Inv.step (h : s.Inv fun _ _ => True) (idx : ℕ) (op : Op) :
    (s.step idx op).Inv fun _ _ => True := by
  cases op with
  | welcome filedbOpen =>
    refine ⟨h.update idx ?_, h.dccdir⟩
    split_ifs
    · cases hd : s.dccdir with
      | none => exact kept_nil
      | some dir => exact (h.dccdir dir hd).take
    · exact kept_nil
  | chdir w msg =>
    simp only [State.step]
    split_ifs
    · exact h
    · exact h.change idx w msg
  | setpwd w where_ => exact h.change idx w where_
  | optimize filedbOpen =>
    simp only [State.step]
    split_ifs
    · exact h
    · exact ⟨h.dir, by simp⟩
  | quit => exact ⟨h.dir, (h.dir idx).setDccdir⟩

theorem inv_init : State.init.Inv Let := ⟨fun _ => kept_nil, by simp [State.init]⟩

theorem Inv.run (h : s.Inv fun _ _ => True) (ops : List (ℕ × Op)) :
    (s.run ops).Inv fun _ _ => True := by
  induction ops generalizing s with
  | nil => exact h
  | cons op ops ih => exact ih (h.step op.1 op.2)

end State

/-- Whatever a user does in any number of sessions, and whatever becomes of the databases, the
directories and his flags meanwhile: the directories that are kept, for the sessions and for the
next one, lie in the file area, and so does every directory that a command comes to from there. -/
theorem resolveDir_contained (ops : List (ℕ × Op)) :
    (∀ idx, Contained ((State.init.run ops).dir idx)) ∧
    (∀ dir ∈ (State.init.run ops).dccdir, Contained dir) ∧
    ∀ idx w change, Contained (World.resolveDir w ((State.init.run ops).dir idx) change).2 := by
  have hinv := State.inv_init.run ops
  have hkept {dir : CStr} (h : Kept (fun _ _ => True) dir) : Contained dir := by
    obtain ⟨p, hp, -, rfl⟩ := h
    exact contained_take hp
  exact ⟨fun idx => hkept (hinv.dir idx), fun dir hdir => hkept (hinv.dccdir dir hdir),
    fun idx w change => ((hinv.dir idx).resolveDir (fun _ _ _ => trivial) change).contained⟩

/-- The directory of a session after a list of changes. -/
def newDirs (cmds : List (World × CStr)) (dir : CStr) : CStr :=
  cmds.foldl (fun dir c => (c.1.newDir dir c.2).getD dir) dir

theorem Kept.newDirs {cmds : List (World × CStr)}
    (hcmds : ∀ c ∈ cmds, ∀ q e, c.1.allows q e = true → Let q e) {dir : CStr} (h : Kept Let dir) :
    Kept Let (newDirs cmds dir) := by
  induction cmds generalizing dir with
  | nil => exact h
  | cons c cmds ih =>
    refine ih (fun c' hc' => hcmds c' (mem_cons_of_mem c hc')) ?_
    show Kept Let ((c.1.newDir dir c.2).getD dir)
    cases hdir : c.1.newDir dir c.2 with
    | none => exact h
    | some dir' => exact h.newDir (hcmds c mem_cons_self) hdir

/-- Who has begun in the file area itself and changed the directory any number of times is in one whose
names, as far as they fit in, he was let into one after the other, each from the directory in front of
it: at some time its first entry that the name matches was a directory for his flags. -/
theorem newDirs_entered (cmds : List (World × CStr)) :
    ∃ p, (∀ e ∈ p, IsElem e) ∧ newDirs cmds [] = (text p).take dirSize ∧
      ∀ q e, q ++ [e] <+: p → ∃ c ∈ cmds, c.1.allows (text q) e = true := by
  have hkept : Kept (fun q e => ∃ c ∈ cmds, c.1.allows q e = true) (newDirs cmds []) :=
    kept_nil.newDirs fun c hc q e h => ⟨c, hc, h⟩
  obtain ⟨p, hp, hlet, heq⟩ := hkept
  exact ⟨p, hp, heq, hlet⟩

end Eggdrop.Files.Dirs
