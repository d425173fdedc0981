import Mathlib.Data.Int.Notation
import Mathlib.Data.List.Basic
import Eggdrop.Base.CString

/-!
# HelpSubst — the codes in help texts (src/misc.c)

`help_subst` works on a line in place and keeps between the lines whether a section is shown, which
highlights are on, and the entries of a row of columns that is not full yet.

* `subst_cols`: a line without the codes of sections and columns does the same whatever the columns.
* `length_helpSubst_le`: what a line becomes fits its buffer.
* `bounded_subst`: where the rest of a line is given up, the buffer is nearly full.
-/

namespace Eggdrop.HelpSubst

open List

/-! ### The source -/

/-- `HELP_BUF_LEN`. -/
def helpBufLen : ℕ := 256

/-- `col_state`, without its `blind`. -/
structure ColState where
  cols : ℤ
  colsofar : ℤ
  subwidth : ℤ
  colstrings : List CStr
deriving DecidableEq

/-- The bits of `col_state.blind` and of `help_state.flags`. -/
structure Marks where
  /-- `blind & 1`: flags are required -/
  restricted : Bool
  /-- `blind & 2`: the section is for another topic -/
  elsewhere : Bool
  irc : Bool
  bold : Bool
  rev : Bool
  under : Bool
  flash : Bool
deriving DecidableEq

def Marks.blind (m : Marks) : Bool := m.restricted || m.elsewhere

/-- What is the same for all lines of a text. -/
structure Env where
  nick : CStr
  isdcc : Bool
  topic : Option CStr
  hilite : Bool
  /-- `flagrec_eq` with the flags broken down from a text -/
  flagrecEq : CStr → Bool
  uname : CStr
  botnetnick : CStr
  botname : CStr
  ver : CStr
  version : CStr
  admin : CStr
  network : CStr
  clock : CStr
  chans : List CStr

/-- What stands behind a percent sign. -/
inductive Code where
  | letter (c : Char)
  /-- between braces -/
  | tag (q : CStr)
  /-- a brace that is not closed -/
  | brace
  /-- the end of the line -/
  | last

/-- The codes of a line, each with the text before it, and the text behind them. -/
def scan : ℕ → CStr → List (CStr × Code) × CStr
  | 0, xx => ([], xx)
  | n + 1, xx =>
    match xx.dropWhile (· != '%') with
    | [] => ([], xx)
    | [_] => ([(xx.takeWhile (· != '%'), .last)], [])
    | _ :: c :: r =>
      if c = '\x7b' then
        match r.dropWhile (· != '\x7d') with
        | [] => ((xx.takeWhile (· != '%'), .brace) :: (scan n r).1, (scan n r).2)
        | _ :: r' =>
          ((xx.takeWhile (· != '%'), .tag (r.takeWhile (· != '\x7d'))) :: (scan n r').1, (scan n r').2)
      else ((xx.takeWhile (· != '%'), .letter c) :: (scan n r).1, (scan n r).2)

/-- One entry behind the other, all but the last padded. -/
def cells (colwidth : ℤ) : List CStr → CStr
  | [] => []
  | [col] => col
  | col :: row => col ++ replicate (colwidth - col.length).toNat ' ' ++ cells colwidth row

/-- A row as it is put together. -/
def columns (colwidth : ℤ) (row : List CStr) : CStr := "     ".toList ++ cells colwidth row

def ColState.colwidth (c : ColState) : ℤ := (c.subwidth - 5).tdiv c.cols

/-- An entry that is not empty is kept; the byte 377 ends a row. -/
def ColState.push (newcol : CStr) (c : ColState) : ColState :=
  if newcol = [] ∨ newcol.head? = some '\u00ff' then c
  else { c with colsofar := c.colsofar + 1, colstrings := c.colstrings ++ [newcol] }

/-- `subst_addcol` on a buffer of that size that holds `s`. -/
def substAddcol (sz : ℕ) (s newcol : CStr) (c : ColState) : CStr × ColState :=
  let c' := c.push newcol
  if c'.colsofar = c'.cols ∨ (newcol.head? = some '\u00ff' ∧ c'.colstrings ≠ []) then
    ((columns c'.colwidth c'.colstrings).take (sz - 1), { c' with colsofar := 0, colstrings := [] })
  else (s, c')

/-- A line under way: what is written of it, and whether the function has returned. -/
structure Sub where
  out : CStr
  center : Bool
  marks : Marks
  cols : ColState
  returned : Bool

namespace Sub

/-- Copy to the end of the buffer, or what fits and return. -/
def write (t : CStr) (st : Sub) : Sub :=
  if st.out.length + t.length ≥ helpBufLen then
    { st with out := (st.out ++ t).take helpBufLen, returned := true }
  else { st with out := st.out ++ t }

/-- The text of a code is written where the section is shown. -/
def put (t : CStr) (st : Sub) : Sub := if st.marks.blind then st else st.write t

/-- The list of channels. -/
def writeChans : List CStr → Sub → Sub
  | [], st => st
  | dname :: chans, st =>
    if dname.length + st.out.length + 2 ≥ helpBufLen then
      { st with out := (st.out ++ dname).take helpBufLen, returned := true }
    else
      writeChans chans
        { st with out := st.out ++ dname ++ if chans = [] then [] else ", ".toList }

end Sub

/-- A highlight that is on or not: the code for it, and whether it is on then. -/
def bright (irc isOn : Bool) (ircCode escCode : CStr) : CStr × Bool :=
  if irc then (ircCode, isOn)
  else if isOn then ("\x1b[0m".toList, false)
  else (escCode, true)

/-- `%f` remembers on IRC too whether it is on. -/
def flash (irc isOn : Bool) : CStr × Bool :=
  if isOn then (if irc then "\x02\x1f".toList else "\x1b[0m".toList, false)
  else (if irc then "\x1f\x02".toList else "\x1b[5m".toList, true)

/-- The name behind the colon. -/
def nickOf (nick : CStr) : CStr :=
  match nick.dropWhile (· != ':') with
  | [] => nick
  | _ :: name => name

/-- What stands between the braces of `%{cols=` and is a number of columns, and maybe a width. -/
def setCols (spec : CStr) (c : ColState) : ColState where
  cols := eggAtoi spec
  colsofar := 0
  subwidth :=
    match spec.dropWhile (· != '/') with
    | [] => c.subwidth
    | _ :: width => eggAtoi width
  colstrings := c.colstrings

variable (env : Env)

def runTag (q : CStr) (st : Sub) : Sub :=
  if q.take 5 = "help=".toList then
    { st with marks := { st.marks with elsewhere := env.topic.any fun t => !strcaseEq (q.drop 5) t } }
  else if st.marks.elsewhere then st
  else if q.head? = some '+' then
    { st with marks := { st.marks with restricted := !env.flagrecEq q.tail } }
  else if q.head? = some '-' then { st with marks := { st.marks with restricted := false } }
  else if strcaseEq q "end".toList then
    let st := { st with marks := { st.marks with restricted := false },
                        cols := { st.cols with subwidth := 70 } }
    if st.cols.cols ≠ 0 then
      let sub := substAddcol 512 [] ['\u00ff'] st.cols
      { st with cols := { sub.2 with cols := 0 } }.put sub.1
    else st
  else if strcaseEq q "center".toList then { st with center := true }
  else if q.take 5 = "cols=".toList then { st with cols := setCols (q.drop 5) st.cols }
  else st

def runLetter (c : Char) (st : Sub) : Sub :=
  match c with
  | 'b' =>
    if env.hilite then
      let b := bright st.marks.irc st.marks.bold "\x02".toList "\x1b[1m".toList
      { st with marks := { st.marks with bold := b.2 } }.put b.1
    else st
  | 'v' =>
    if env.hilite then
      let b := bright st.marks.irc st.marks.rev "\x16".toList "\x1b[7m".toList
      { st with marks := { st.marks with rev := b.2 } }.put b.1
    else st
  | '_' =>
    if env.hilite then
      let b := bright st.marks.irc st.marks.under "\x1f".toList "\x1b[4m".toList
      { st with marks := { st.marks with under := b.2 } }.put b.1
    else st
  | 'f' =>
    if env.hilite then
      let b := flash st.marks.irc st.marks.flash
      { st with marks := { st.marks with flash := b.2 } }.put b.1
    else st
  | 'U' => st.put env.uname
  | 'B' => st.put (if env.isdcc then env.botnetnick else env.botname)
  | 'V' => st.put env.ver
  | 'E' => st.put env.version
  | 'A' => st.put env.admin
  | 'n' => st.put env.network
  | 'T' => st.put env.clock
  | 'N' => st.put (nickOf env.nick)
  | 'C' => if st.marks.blind then st else st.writeChans env.chans
  | c => st.put [c]

/-- The `switch`.  At the end of the line the NUL is copied, so nothing is seen of it. -/
def runCode (st : Sub) : Code → Sub
  | .letter c => runLetter env c st
  | .tag q => runTag env q st
  | .brace => st
  | .last =>
    if st.marks.blind then st
    else if st.out.length + 1 ≥ helpBufLen then { st with returned := true }
    else st

/-- One round of the loop.  The text before the code must fit also where it is not shown. -/
def step (st : Sub) (p : CStr × Code) : Sub :=
  if st.returned then st
  else if (st.write p.1).returned then st.write p.1
  else runCode env (if st.marks.blind then st else st.write p.1) p.2

/-- `help_subst` up to the text behind the last code. -/
def subst (s : CStr) (m : Marks) (c : ColState) : Sub :=
  let xx := s.take helpBufLen
  let st := (scan xx.length xx).1.foldl (step env)
    { out := [], center := false, marks := m, cols := c, returned := false }
  if st.returned ∨ st.marks.blind = true ∨ (scan xx.length xx).2 = [] then st
  else st.write (scan xx.length xx).2

/-- The line, moved to the middle. -/
def Sub.text (st : Sub) : CStr :=
  let i := 35 - ((st.out.length / 2 : ℕ) : ℤ)
  if st.center ∧ i > 0 then (replicate i.toNat ' ' ++ st.out).take helpBufLen else st.out

/-- The static variables. -/
structure Help where
  marks : Marks
  cols : ColState

/-- `help_subst` of a line; the row of columns goes to a buffer of the size of a pointer. -/
def helpSubst (s : CStr) (h : Help) : CStr × Help :=
  let st := subst env s h.marks h.cols
  if st.returned then (st.out, ⟨st.marks, st.cols⟩)
  else if st.cols.cols ≠ 0 then
    let row := substAddcol 8 [] st.text st.cols
    (row.1, ⟨st.marks, row.2⟩)
  else (st.text, ⟨st.marks, st.cols⟩)

/-- `help_subst` without a line, which every text begins with. -/
def reset (irc : Bool) (h : Help) : Help where
  marks := ⟨false, false, irc, false, false, false, false⟩
  cols := { h.cols with cols := 0, subwidth := 70, colstrings := [] }

/-- A text line by line: what each becomes, and what is kept behind them. -/
def helpLines : List CStr → Help → List CStr × Help
  | [], h => ([], h)
  | s :: ls, h =>
    ((helpSubst env s h).1 :: (helpLines ls (helpSubst env s h).2).1,
      (helpLines ls (helpSubst env s h).2).2)

/-! ### Lines without the codes of sections and columns -/

/-- `%{help=`, `%{cols=` and `%{end}`. -/
def isMarker : Code → Bool
  | .tag q => q.take 5 = "help=".toList || q.take 5 = "cols=".toList || strcaseEq q "end".toList
  | _ => false

def Unmarked (s : CStr) : Prop :=
  ∀ p ∈ (scan (s.take helpBufLen).length (s.take helpBufLen)).1, isMarker p.2 = false

instance (s : CStr) : Decidable (Unmarked s) := by unfold Unmarked; infer_instance

/-- The same line with other columns. -/
def Sub.withCols (c : ColState) (st : Sub) : Sub := { st with cols := c }

variable {env} {st : Sub} {c : ColState}

theorem Sub.write_withCols (t : CStr) (st : Sub) (c : ColState) :
    (st.withCols c).write t = (st.write t).withCols c := by
  unfold Sub.write Sub.withCols
  split <;> rfl

theorem Sub.put_withCols (t : CStr) (st : Sub) (c : ColState) :
    (st.withCols c).put t = (st.put t).withCols c := by
  show (if st.marks.blind then st.withCols c else (st.withCols c).write t) = _
  rw [Sub.write_withCols, Sub.put]
  split <;> rfl

theorem Sub.writeChans_withCols (chans : List CStr) (st : Sub) (c : ColState) :
    (st.withCols c).writeChans chans = (st.writeChans chans).withCols c := by
  induction chans generalizing st with
  | nil => rfl
  | cons dname chans ih =>
    rw [Sub.writeChans, Sub.writeChans]
    show (if dname.length + st.out.length + 2 ≥ helpBufLen then _ else _) = _
    split
    · rfl
    · exact ih { st with out := st.out ++ dname ++ if chans = [] then [] else ", ".toList }

theorem runTag_withCols {q : CStr} (hq : isMarker (.tag q) = false) (st : Sub) (c : ColState) :
    runTag env q (st.withCols c) = (runTag env q st).withCols c := by
  rw [isMarker, Bool.or_eq_false_iff, Bool.or_eq_false_iff, decide_eq_false_iff_not,
    decide_eq_false_iff_not] at hq
  obtain ⟨⟨hhelp, hcols⟩, hend⟩ := hq
  unfold runTag
  rw [if_neg hhelp, if_neg hhelp, hend, if_neg Bool.false_ne_true, if_neg Bool.false_ne_true,
    if_neg hcols, if_neg hcols]
  show (if st.marks.elsewhere = true then _ else _) = _
  split
  · rfl
  · split
    · rfl
    · split
      · rfl
      · split <;> rfl

theorem runLetter_withCols (d : Char) (st : Sub) (c : ColState) :
    runLetter env d (st.withCols c) = (runLetter env d st).withCols c := by
  have hif (h : Prop) [Decidable h] (a b : Sub) :
      (if h then a.withCols c else b.withCols c) = (if h then a else b).withCols c := by
    split <;> rfl
  unfold runLetter
  split
  all_goals first
    | exact Sub.put_withCols _ st c
    | (rw [← hif, ← Sub.put_withCols]; rfl)
    | (rw [← hif, ← Sub.writeChans_withCols]; rfl)

theorem step_withCols {p : CStr × Code} (hp : isMarker p.2 = false) (st : Sub) (c : ColState) :
    step env (st.withCols c) p = (step env st p).withCols c := by
  rw [step, step, Sub.write_withCols]
  show (if st.returned = true then _ else if (st.write p.1).returned = true then _ else _) = _
  split
  · rfl
  · split
    · rfl
    · have harg : (if (st.withCols c).marks.blind = true then st.withCols c
          else (st.write p.1).withCols c) =
          (if st.marks.blind = true then st else st.write p.1).withCols c := by
        show (if st.marks.blind = true then _ else _) = _
        split <;> rfl
      rw [harg]
      generalize (if st.marks.blind = true then st else st.write p.1) = st
      cases hcode : p.2 with
      | letter d => exact runLetter_withCols d st c
      | tag q =>
        rw [hcode] at hp
        exact runTag_withCols hp st c
      | brace => rfl
      | last =>
        show (if st.marks.blind = true then _ else if st.out.length + 1 ≥ helpBufLen then _ else _) = _
        rw [runCode]
        split
        · rfl
        · split <;> rfl

theorem foldl_step_withCols {ps : List (CStr × Code)} (hps : ∀ p ∈ ps, isMarker p.2 = false) (st : Sub)
    (c : ColState) : ps.foldl (step env) (st.withCols c) = (ps.foldl (step env) st).withCols c := by
  induction ps generalizing st with
  | nil => rfl
  | cons p ps ih =>
    obtain ⟨hp, hps⟩ := forall_mem_cons.1 hps
    rw [foldl_cons, foldl_cons, step_withCols hp, ih hps]

theorem subst_cols {s : CStr} (hs : Unmarked s) (m : Marks) (c c' : ColState) :
    subst env s m c' = (subst env s m c).withCols c' := by
  have hfold := @foldl_step_withCols env _ hs
    { out := [], center := false, marks := m, cols := c, returned := false } c'
  unfold subst
  dsimp only
  rw [show (Sub.mk [] false m c' false) = (Sub.mk [] false m c false).withCols c' from rfl, hfold]
  generalize foldl (step env) (Sub.mk [] false m c false) _ = st
  rw [Sub.write_withCols]
  by_cases hkeep : st.returned = true ∨ st.marks.blind = true ∨
      (scan (s.take helpBufLen).length (s.take helpBufLen)).2 = []
  · rw [if_pos hkeep]
    exact if_pos hkeep
  · rw [if_neg hkeep]
    exact if_neg hkeep

theorem Sub.marks_write (t : CStr) (st : Sub) : (st.write t).marks = st.marks := by
  unfold Sub.write
  split <;> rfl

theorem Sub.marks_put (t : CStr) (st : Sub) : (st.put t).marks = st.marks := by
  unfold Sub.put
  split
  · rfl
  · exact marks_write t st

theorem Sub.marks_writeChans (chans : List CStr) (st : Sub) : (st.writeChans chans).marks = st.marks := by
  induction chans generalizing st with
  | nil => rfl
  | cons dname chans ih =>
    rw [Sub.writeChans]
    split
    · rfl
    · rw [ih]

theorem elsewhere_runTag {q : CStr} (hq : isMarker (.tag q) = false) (st : Sub) :
    (runTag env q st).marks.elsewhere = st.marks.elsewhere := by
  rw [isMarker, Bool.or_eq_false_iff, Bool.or_eq_false_iff, decide_eq_false_iff_not,
    decide_eq_false_iff_not] at hq
  obtain ⟨⟨hhelp, hcols⟩, hend⟩ := hq
  unfold runTag
  rw [if_neg hhelp, hend, if_neg Bool.false_ne_true, if_neg hcols]
  split
  · rfl
  · split
    · rfl
    · split
      · rfl
      · split <;> rfl

theorem elsewhere_runLetter (d : Char) (st : Sub) :
    (runLetter env d st).marks.elsewhere = st.marks.elsewhere := by
  have hput (b : Bool) (m : Marks) (t : CStr) (hm : m.elsewhere = st.marks.elsewhere) :
      (if b then { st with marks := m }.put t else st).marks.elsewhere = st.marks.elsewhere := by
    split
    · rw [Sub.marks_put]
      exact hm
    · rfl
  unfold runLetter
  split
  all_goals first
    | rw [Sub.marks_put]
    | exact hput _ _ _ rfl
    | skip
  split
  · rfl
  · rw [Sub.marks_writeChans]

theorem elsewhere_step {p : CStr × Code} (hp : isMarker p.2 = false) (st : Sub) :
    (step env st p).marks.elsewhere = st.marks.elsewhere := by
  rw [step]
  split
  · rfl
  · split
    · rw [Sub.marks_write]
    · have hmarks : (if st.marks.blind = true then st else st.write p.1).marks = st.marks := by
        split
        · rfl
        · exact Sub.marks_write _ _
      refine Eq.trans ?_ (congrArg Marks.elsewhere hmarks)
      generalize (if st.marks.blind = true then st else st.write p.1) = st
      cases hcode : p.2 with
      | letter d => exact elsewhere_runLetter d st
      | tag q =>
        rw [hcode] at hp
        exact elsewhere_runTag hp st
      | brace => rfl
      | last =>
        rw [runCode]
        split
        · rfl
        · split <;> rfl

theorem elsewhere_subst {s : CStr} (hs : Unmarked s) (m : Marks) (c : ColState) :
    (subst env s m c).marks.elsewhere = m.elsewhere := by
  have hfold (ps : List (CStr × Code)) (hps : ∀ p ∈ ps, isMarker p.2 = false) (st : Sub) :
      (ps.foldl (step env) st).marks.elsewhere = st.marks.elsewhere := by
    induction ps generalizing st with
    | nil => rfl
    | cons p ps ih =>
      obtain ⟨hp, hps⟩ := forall_mem_cons.1 hps
      rw [foldl_cons, ih hps, elsewhere_step hp]
  unfold subst
  dsimp only
  split
  · rw [hfold _ hs]
  · rw [Sub.marks_write, hfold _ hs]

/-! ### The buffer -/

/-- While the function runs there is room in the buffer, and when it returned there is hardly any. -/
structure Bounded (st : Sub) : Prop where
  room : st.returned = false → st.out.length < helpBufLen
  full : st.returned = true → 254 ≤ st.out.length
  fits : st.out.length ≤ helpBufLen

theorem Bounded.write (h : Bounded st) (hrun : st.returned = false) (t : CStr) :
    Bounded (st.write t) := by
  have hroom := h.room hrun
  rw [helpBufLen] at hroom
  unfold Sub.write
  split
  · next hfull =>
    rw [helpBufLen] at hfull
    have hlen : ((st.out ++ t).take helpBufLen).length = 256 := by
      rw [length_take, length_append, helpBufLen]
      omega
    constructor
    · intro hr
      cases hr
    · intro _
      show 254 ≤ ((st.out ++ t).take helpBufLen).length
      omega
    · exact hlen.le
  · next hfit =>
    have hlen : (st.out ++ t).length < helpBufLen := by
      rw [length_append]
      omega
    refine ⟨fun _ => hlen, fun hr => ?_, hlen.le⟩
    rw [show st.returned = true from hr] at hrun
    cases hrun

theorem Bounded.put (h : Bounded st) (hrun : st.returned = false) (t : CStr) :
    Bounded (st.put t) := by
  unfold Sub.put
  split
  · exact h
  · exact h.write hrun t

theorem Bounded.writeChans (h : Bounded st) (hrun : st.returned = false) (chans : List CStr) :
    Bounded (st.writeChans chans) := by
  induction chans generalizing st with
  | nil => exact h
  | cons dname chans ih =>
    have hroom := h.room hrun
    rw [helpBufLen] at hroom
    rw [Sub.writeChans]
    split
    · next hfull =>
      rw [helpBufLen] at hfull
      have hlen : ((st.out ++ dname).take helpBufLen).length = min 256 (st.out.length + dname.length) := by
        rw [length_take, length_append, helpBufLen]
      constructor
      · intro hr
        cases hr
      · intro _
        show 254 ≤ ((st.out ++ dname).take helpBufLen).length
        omega
      · show ((st.out ++ dname).take helpBufLen).length ≤ helpBufLen
        rw [helpBufLen] at hlen ⊢
        omega
    · next hfit =>
      rw [helpBufLen] at hfit
      have hsep : (if chans = [] then [] else ", ".toList : CStr).length ≤ 2 := by
        split
        · exact Nat.zero_le _
        · exact Nat.le_refl _
      have hlen : (st.out ++ dname ++ if chans = [] then [] else ", ".toList).length < helpBufLen := by
        rw [length_append, length_append, helpBufLen]
        omega
      refine ih ⟨fun _ => hlen, fun hr => ?_, hlen.le⟩ hrun
      rw [show st.returned = true from hr] at hrun
      cases hrun

theorem Bounded.congr {st' : Sub} (h : Bounded st) (hout : st'.out = st.out)
    (hret : st'.returned = st.returned) : Bounded st' := by
  constructor
  · rw [hout, hret]
    exact h.room
  · rw [hout, hret]
    exact h.full
  · rw [hout]
    exact h.fits

theorem Bounded.runTag (h : Bounded st) (hrun : st.returned = false) (q : CStr) :
    Bounded (runTag env q st) := by
  unfold HelpSubst.runTag
  split
  · exact h.congr rfl rfl
  · split
    · exact h
    · split
      · exact h.congr rfl rfl
      · split
        · exact h.congr rfl rfl
        · split
          · dsimp only
            split
            · refine Bounded.put ?_ ?_ _
              · exact h.congr rfl rfl
              · exact hrun
            · exact h.congr rfl rfl
          · split
            · exact h.congr rfl rfl
            · split
              · exact h.congr rfl rfl
              · exact h

theorem Bounded.runLetter (h : Bounded st) (hrun : st.returned = false) (d : Char) :
    Bounded (runLetter env d st) := by
  have hif (b : Bool) (m : Marks) (t : CStr) :
      Bounded (if b then { st with marks := m }.put t else st) := by
    split
    · refine Bounded.put ?_ ?_ t
      · exact h.congr rfl rfl
      · exact hrun
    · exact h
  unfold HelpSubst.runLetter
  split
  all_goals first
    | exact h.put hrun _
    | exact hif _ _ _
    | skip
  split
  · exact h
  · exact h.writeChans hrun _

theorem Bounded.runCode (h : Bounded st) (hrun : st.returned = false) (code : Code) :
    Bounded (runCode env st code) := by
  cases code with
  | letter d => exact h.runLetter hrun d
  | tag q => exact h.runTag hrun q
  | brace => exact h
  | last =>
    unfold HelpSubst.runCode
    dsimp only
    split
    · exact h
    · split
      · next hfull =>
        rw [helpBufLen] at hfull
        refine ⟨fun hr => ?_, fun _ => ?_, h.fits⟩
        · cases hr
        · show 254 ≤ st.out.length
          omega
      · exact h

theorem Bounded.step (h : Bounded st) (p : CStr × Code) : Bounded (step env st p) := by
  unfold HelpSubst.step
  split
  · exact h
  · next hrun =>
    have hrun : st.returned = false := Bool.eq_false_iff.2 hrun
    split
    · exact h.write hrun _
    · next hwrite =>
      split
      · exact h.runCode hrun _
      · exact (h.write hrun _).runCode (Bool.eq_false_iff.2 hwrite) _

theorem Bounded.foldl (h : Bounded st) (ps : List (CStr × Code)) :
    Bounded (ps.foldl (HelpSubst.step env) st) := by
  induction ps generalizing st with
  | nil => exact h
  | cons p ps ih => exact ih (h.step p)

theorem bounded_subst (s : CStr) (m : Marks) (c : ColState) : Bounded (subst env s m c) := by
  have hfold : Bounded ((scan (s.take helpBufLen).length (s.take helpBufLen)).1.foldl (step env)
      { out := [], center := false, marks := m, cols := c, returned := false }) := by
    refine Bounded.foldl ⟨fun _ => ?_, fun hr => ?_, Nat.zero_le _⟩ _
    · show 0 < helpBufLen
      decide
    · cases hr
  unfold subst
  dsimp only
  split
  · exact hfold
  · next hkeep =>
    exact hfold.write (Bool.eq_false_iff.2 fun hr => hkeep (.inl hr)) _

theorem length_text_le (h : Bounded st) : st.text.length ≤ helpBufLen := by
  unfold Sub.text
  dsimp only
  split
  · exact length_take_le _ _
  · exact h.fits

theorem length_substAddcol_le (s newcol : CStr) {sz : ℕ} (h : s.length ≤ sz - 1) (c : ColState) :
    (substAddcol sz s newcol c).1.length ≤ sz - 1 := by
  unfold substAddcol
  generalize c.push newcol = c'
  dsimp only
  split
  · exact length_take_le _ _
  · exact h

theorem length_helpSubst_le (s : CStr) (h : Help) : (helpSubst env s h).1.length ≤ helpBufLen := by
  have hb : Bounded (subst env s h.marks h.cols) := bounded_subst s h.marks h.cols
  unfold helpSubst
  dsimp only
  split
  · exact hb.fits
  · split
    · exact (length_substAddcol_le _ _ (Nat.zero_le _) _).trans (by decide)
    · exact length_text_le hb

end Eggdrop.HelpSubst
