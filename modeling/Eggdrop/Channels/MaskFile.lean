import Eggdrop.Channels.MaskLine
import Eggdrop.Lib.Ensures
import Eggdrop.Users.Accounts

/-!
# MaskFile — the ban, exempt and invite lists through the userfile

* `channelsWriteuserfile`: what the channels module appends to the userfile.
* `run_maskLines`: what the reader makes of it, list by list.
* `masks_restored_iff`: the lists come back exactly when each of their records does, and no exempts
  or invites are in a channel whose name begins with `&` or `!`.
-/

namespace Eggdrop.Channels

open List Users

/-! ### Writing -/

/-- `BAN_NAME` and its like. -/
def sectionName : MaskKind → CStr
  | .ban => "*ban".toList
  | .exempt => "*exempt".toList
  | .invite => "*Invite".toList

def sectionMark : MaskKind → CStr
  | .ban => "::".toList
  | .exempt => "&&".toList
  | .invite => "$$".toList

def sectionWord : MaskKind → CStr
  | .ban => "bans".toList
  | .exempt => "exempts".toList
  | .invite => "invites".toList

/-- The line before the global list. -/
def globalLine (kind : MaskKind) : CStr := sectionName kind ++ " - -\n".toList

/-- The line before the list of a channel. -/
def chanLine (kind : MaskKind) (dname : CStr) : CStr :=
  sectionMark kind ++ dname ++ ' ' :: sectionWord kind ++ ['\n']

/-- The lines of `write_bans` and its like, for the channels that are `wanted`: all of them in the
userfile, and the shared ones where the other bot may have them in one that is sent. -/
def maskLines (kind : MaskKind) (wanted : Chanset → Bool) (st : State) : List CStr :=
  (if st.globalMasks kind = [] then [] else [globalLine kind]) ++
    (st.globalMasks kind).map (recordLine kind) ++
      st.chanset.flatMap fun chan =>
        if wanted chan then chanLine kind chan.dname :: (chan.masks kind).map (recordLine kind)
        else []

def writeBans (wanted : Chanset → Bool) (st : State) : CStr := (maskLines .ban wanted st).flatten

def writeExempts (wanted : Chanset → Bool) (st : State) : CStr :=
  (maskLines .exempt wanted st).flatten

def writeInvites (wanted : Chanset → Bool) (st : State) : CStr :=
  (maskLines .invite wanted st).flatten

/-- `channels_writeuserfile`, the lists of masks. -/
def channelsWriteuserfile (st : State) : CStr :=
  writeBans (fun _ => true) st ++ writeExempts (fun _ => true) st ++ writeInvites (fun _ => true) st

/-! ### Lines of a file -/

/-- A line that is read by one call of `fgets`. -/
structure IsLine (l : CStr) : Prop where
  ends : ∃ t, l = t ++ ['\n'] ∧ '\n' ∉ t ∧ '\x00' ∉ t
  fits : l.length ≤ bufRoom

theorem fgetsAll_cons (acc : CStr) (room : ℕ) (c : Char) (s : CStr) :
    fgetsAll acc room (c :: s) =
      if c = '\n' ∨ room ≤ 1 then (c :: acc).reverse :: fgetsAll [] bufRoom s
      else fgetsAll (c :: acc) (room - 1) s := by
  cases acc <;> rfl

theorem fgetsAll_append (a b : CStr) (acc : CStr) (room : ℕ) :
    fgetsAll acc room (a ++ '\n' :: b) =
      fgetsAll acc room (a ++ ['\n']) ++ fgetsAll [] bufRoom b := by
  induction a generalizing acc room with
  | nil =>
    rw [nil_append, nil_append, fgetsAll_cons, fgetsAll_cons, if_pos (.inl rfl), if_pos (.inl rfl)]
    rfl
  | cons c a ih =>
    rw [cons_append, cons_append, fgetsAll_cons, fgetsAll_cons]
    split
    · rw [ih, cons_append]
    · exact ih _ _

theorem fgetsAll_line {t : CStr} (hnl : '\n' ∉ t) (b acc : CStr) {room : ℕ}
    (hroom : t.length + 1 ≤ room) :
    fgetsAll acc room (t ++ '\n' :: b) = (acc.reverse ++ t ++ ['\n']) :: fgetsAll [] bufRoom b := by
  induction t generalizing acc room with
  | nil =>
    rw [nil_append, fgetsAll_cons, if_pos (.inl rfl)]
    simp
  | cons c t ih =>
    rw [length_cons] at hroom
    rw [mem_cons, not_or] at hnl
    rw [cons_append, fgetsAll_cons, if_neg (not_or.2 ⟨Ne.symm hnl.1, by omega⟩),
      ih hnl.2 _ (by omega)]
    simp

theorem fgetsAll_flatten {lines : List CStr} (h : ∀ l ∈ lines, IsLine l) :
    fgetsAll [] bufRoom lines.flatten = lines := by
  induction lines with
  | nil => rfl
  | cons l lines ih =>
    obtain ⟨⟨t, rfl, hnl, -⟩, hfits⟩ := h l mem_cons_self
    rw [length_append, length_singleton] at hfits
    rw [flatten_cons, append_assoc, singleton_append, fgetsAll_line hnl _ _ hfits,
      ih fun l hl => h l (mem_cons_of_mem _ hl)]
    rfl

theorem cstring_line {l : CStr} (h : IsLine l) : cstring l = l := by
  obtain ⟨⟨t, rfl, -, hnul⟩, -⟩ := h
  refine cstring_of_notMem ?_
  rw [mem_append, not_or]
  exact ⟨hnul, by decide⟩

theorem fileLines_append (p : CStr) {lines : List CStr} (h : ∀ l ∈ lines, IsLine l) :
    fileLines (p ++ ['\n'] ++ lines.flatten) = fileLines (p ++ ['\n']) ++ lines := by
  rw [fileLines, append_assoc, singleton_append, fgetsAll_append, map_append, ← fileLines,
    fgetsAll_flatten h]
  have hlines : lines.map cstring = lines := by
    conv_rhs => rw [← map_id lines]
    exact map_congr_left fun l hl => cstring_line (h l hl)
  rw [hlines]

/-! ### One line -/

variable {env : Env} {ld : Load} {kind : MaskKind} {b : Maskrec} {dname : CStr}

/-- A name that is a word, as channels have them. -/
structure IsName (dname : CStr) : Prop where
  word : ' ' ∉ dname
  line : '\n' ∉ dname
  string : '\x00' ∉ dname
  short : dname.length ≤ 200
  sign : ∃ h ∈ dname.head?, h ∈ chanmeta

theorem line_record (b : Maskrec) : ld.line env (recordLine kind b) =
    match kind with
    | .ban => ld.dashLine env (recordBody (trimmed b))
    | .exempt => ld.maskLine .exempt 'e' (recordBody (trimmed b))
    | .invite => ld.maskLine .invite 'I' (recordBody (trimmed b)) := by
  have hsplit (c : Char) (hc : c ≠ ' ') : newsplit (c :: ' ' :: (recordBody b ++ ['\n'])) =
      ([c], recordBody b ++ ['\n']) := newsplit_word (a := [c]) _ (cons_ne_nil _ _) (by simpa using hc.symm)
  cases kind with
  | ban =>
    show ld.line env ('-' :: ' ' :: (recordBody b ++ ['\n'])) = _
    simp only [Load.line, hsplit '-' (by decide), rmspace_body]
    rfl
  | exempt =>
    show ld.line env ('%' :: ' ' :: (recordBody b ++ ['\n'])) = _
    simp only [Load.line, hsplit '%' (by decide), rmspace_body]
    rfl
  | invite =>
    show ld.line env ('@' :: ' ' :: (recordBody b ++ ['\n'])) = _
    simp only [Load.line, hsplit '@' (by decide), rmspace_body]
    rfl

theorem line_global : ld.line env (globalLine kind) =
    .ok { ld with lasthand := sectionName kind, u := none } := by
  cases kind <;> rfl

theorem line_chan (hname : IsName dname) :
    ld.line env (chanLine kind dname) = .ok (ld.sectionLine kind dname) := by
  have hsplit (c : Char) (hc : c ≠ ' ') (rest : CStr) :
      newsplit (c :: c :: (dname ++ ' ' :: rest)) = (c :: c :: dname, rest) := by
    refine newsplit_word (a := c :: c :: dname) rest (cons_ne_nil _ _) ?_
    simpa [hc.symm] using hname.word
  cases kind with
  | ban =>
    have htext : chanLine .ban dname =
        ':' :: ':' :: (dname ++ ' ' :: ("bans".toList ++ ['\n'])) :=
      append_assoc (':' :: ':' :: dname) (' ' :: "bans".toList) ['\n']
    rw [htext]
    simp only [Load.line, hsplit ':' (by decide)]
    rfl
  | exempt =>
    have htext : chanLine .exempt dname =
        '&' :: '&' :: (dname ++ ' ' :: ("exempts".toList ++ ['\n'])) :=
      append_assoc ('&' :: '&' :: dname) (' ' :: "exempts".toList) ['\n']
    rw [htext]
    simp only [Load.line, hsplit '&' (by decide)]
    rfl
  | invite =>
    have htext : chanLine .invite dname =
        '$' :: '$' :: (dname ++ ' ' :: ("invites".toList ++ ['\n'])) :=
      append_assoc ('$' :: '$' :: dname) (' ' :: "invites".toList) ['\n']
    rw [htext]
    simp only [Load.line, hsplit '$' (by decide)]
    rfl

/-! ### The lines of a list -/

/-- Whether the lines of a list are taken in the section of a channel. -/
def accepts (kind : MaskKind) (dname : CStr) : Bool :=
  match kind with
  | .ban => true
  | .exempt | .invite => dname.head? = some '#' || dname.head? = some '+'

theorem recordBody_ne_nil (b : Maskrec) : recordBody b ≠ [] := by
  rw [recordBody]
  exact append_ne_nil_of_right_ne_nil _ (cons_ne_nil _ _)

theorem restoreMask_body (st : State) (chan : Option ℕ) (b : Maskrec) :
    st.restoreMask kind chan (recordBody (trimmed b)) =
      .ok (st.addmaskFully kind chan (readBack b)) := by
  rw [State.restoreMask, parseMask_body]
  rfl

theorem line_record_global (hu : ld.u = none) (hsec : ld.lasthand = sectionName kind) :
    ld.line env (recordLine kind b) =
      .ok { ld with st := ld.st.addmaskFully kind none (readBack b) } := by
  rw [line_record]
  obtain ⟨st, live, bu, u, lasthand, cst⟩ := ld
  dsimp only at hu hsec
  subst hu hsec
  obtain ⟨c, s, hcons⟩ := exists_cons_of_ne_nil (recordBody_ne_nil (trimmed b))
  have hrestore : st.restoreMask kind none (recordBody (trimmed b)) =
    .ok (st.addmaskFully kind none (readBack b)) := restoreMask_body st none b
  rw [hcons] at hrestore ⊢
  cases kind with
  | ban =>
    show (st.restoreMask .ban none (c :: s) >>= _) = _
    rw [hrestore]
    rfl
  | exempt =>
    show (st.restoreMask .exempt none (c :: s) >>= _) = _
    rw [hrestore]
    rfl
  | invite =>
    show (st.restoreMask .invite none (c :: s) >>= _) = _
    rw [hrestore]
    rfl

theorem line_record_chan (hu : ld.u = none) (hsec : ld.lasthand = dname) (hname : IsName dname) :
    ld.line env (recordLine kind b) =
      .ok (if accepts kind dname then { ld with st := ld.st.addmaskFully kind ld.cst (readBack b) }
        else ld) := by
  rw [line_record]
  obtain ⟨st, live, bu, u, lasthand, cst⟩ := ld
  dsimp only at hu hsec
  subst hu hsec
  obtain ⟨c, s, hcons⟩ := exists_cons_of_ne_nil (recordBody_ne_nil (trimmed b))
  have hrestore : st.restoreMask kind cst (recordBody (trimmed b)) =
    .ok (st.addmaskFully kind cst (readBack b)) := restoreMask_body st cst b
  rw [hcons] at hrestore ⊢
  obtain ⟨h, hhead, hsign⟩ := hname.sign
  obtain ⟨hand, rfl⟩ := head?_eq_some_iff.1 hhead
  have hstar : h ≠ '*' := by
    rintro rfl
    exact absurd hsign (by decide)
  cases kind with
  | ban =>
    show (if chanmeta.contains h = true then st.restoreMask .ban cst (c :: s) >>= _ else _) = _
    rw [if_pos (by simpa using hsign), hrestore]
    rfl
  | exempt =>
    show (if h = '#' ∨ h = '+' then st.restoreMask .exempt cst (c :: s) >>= _ else _) = _
    by_cases hsame : h = '#' ∨ h = '+'
    · rw [if_pos hsame, hrestore, if_pos (by simpa [accepts] using hsame)]
      rfl
    · rw [if_neg hsame, if_neg fun heq => hstar heq.1, if_neg (by simpa [accepts] using hsame)]
      rfl
  | invite =>
    show (if h = '#' ∨ h = '+' then st.restoreMask .invite cst (c :: s) >>= _ else _) = _
    by_cases hsame : h = '#' ∨ h = '+'
    · rw [if_pos hsame, hrestore, if_pos (by simpa [accepts] using hsame)]
      rfl
    · rw [if_neg hsame, if_neg fun heq => hstar heq.1, if_neg (by simpa [accepts] using hsame)]
      rfl

/-! ### One list -/

/-- The lists that records with these lines join. -/
def addMasks (kind : MaskKind) (chan : Option ℕ) (bs : List Maskrec) (st : State) : State :=
  bs.foldl (fun st b => st.addmaskFully kind chan (readBack b)) st

theorem run_records_global (hu : ld.u = none) (hsec : ld.lasthand = sectionName kind)
    (bs : List Maskrec) : Machine.run (Load.line env) ld (bs.map (recordLine kind)) =
      .ok { ld with st := addMasks kind none bs ld.st } := by
  induction bs generalizing ld with
  | nil => rfl
  | cons b bs ih =>
    rw [map_cons, Machine.run_cons_ok (line_record_global hu hsec)]
    exact ih hu hsec

theorem run_records_chan (hu : ld.u = none) (hsec : ld.lasthand = dname) (hname : IsName dname)
    (bs : List Maskrec) : Machine.run (Load.line env) ld (bs.map (recordLine kind)) =
      .ok (if accepts kind dname then { ld with st := addMasks kind ld.cst bs ld.st } else ld) := by
  induction bs generalizing ld with
  | nil => cases accepts kind dname <;> rfl
  | cons b bs ih =>
    rw [map_cons, Machine.run_cons_ok (line_record_chan hu hsec hname)]
    cases haccepts : accepts kind dname with
    | true =>
      rw [if_pos rfl, ih (by exact hu) (by exact hsec), haccepts]
      rfl
    | false =>
      rw [if_neg Bool.false_ne_true, ih hu hsec, haccepts]
      rfl

theorem addMasks_global (bs : List Maskrec) (st : State) : addMasks kind none bs st =
    st.withGlobalMasks ((bs.map readBack).reverse ++ st.globalMasks kind) kind := by
  induction bs generalizing st with
  | nil => cases kind <;> rfl
  | cons b bs ih =>
    show addMasks kind none bs (st.withGlobalMasks (readBack b :: st.globalMasks kind) kind) = _
    rw [ih, map_cons, reverse_cons, append_assoc]
    cases kind <;> rfl

theorem withMasks_masks (c : Chanset) (l l' : List Maskrec) :
    (c.withMasks l kind).withMasks l' kind = c.withMasks l' kind ∧
      (c.withMasks l kind).masks kind = l := by
  cases kind <;> exact ⟨rfl, rfl⟩

/-- A channel with more masks on a list. -/
def withMore (kind : MaskKind) (l : List Maskrec) (c : Chanset) : Chanset :=
  c.withMasks (l ++ c.masks kind) kind

theorem withMore_nil : withMore kind [] = id := by
  funext c
  cases kind <;> rfl

theorem withMore_comp (l l' : List Maskrec) :
    withMore kind l ∘ withMore kind l' = withMore kind (l ++ l') := by
  funext c
  rw [Function.comp_apply, withMore, withMore, withMore, (withMasks_masks c _ _).1,
    (withMasks_masks c _ []).2, append_assoc]

theorem addMasks_chan (i : ℕ) (bs : List Maskrec) (st : State) : addMasks kind (some i) bs st =
    { st with chanset := st.chanset.modify i (withMore kind (bs.map readBack).reverse) } := by
  induction bs generalizing st with
  | nil =>
    rw [map_nil, reverse_nil, withMore_nil, modify_id]
    rfl
  | cons b bs ih =>
    show addMasks kind (some i) bs
      { st with chanset := st.chanset.modify i (withMore kind [readBack b]) } = _
    rw [ih, map_cons, reverse_cons, ← withMore_comp, ← modify_modify_eq]

/-- The list of a channel after it was read. -/
def restoredMasks (kind : MaskKind) (chan : Chanset) : List Maskrec :=
  if accepts kind chan.dname then ((chan.masks kind).map readBack).reverse else []

theorem modify_append_cons {α : Type*} (f : α → α) (done : List α) (a : α) (rest : List α) :
    (done ++ a :: rest).modify done.length f = done ++ f a :: rest := by
  induction done with
  | nil => rfl
  | cons d done ih => rw [cons_append, length_cons, modify_succ_cons, ih, cons_append]

theorem findIdx?_append_cons {α : Type*} {p : α → Bool} {done : List α} {a : α}
    (hdone : ∀ d ∈ done, p d = false) (ha : p a = true) (rest : List α) :
    (done ++ a :: rest).findIdx? p = some done.length := by
  rw [findIdx?_append, findIdx?_eq_none_iff.2 hdone, findIdx?_cons, ha]
  simp

theorem run_section (env : Env) (kind : MaskKind) (hlive : ld.live = true) {src : Chanset}
    (hname : IsName src.dname)
    {done rest : List Chanset} {c : Chanset} (hset : ld.st.chanset = done ++ c :: rest)
    (hc : c.dname = src.dname) (hdone : ∀ d ∈ done, rfcCaseEq d.dname c.dname = false) :
    ∃ ld', Machine.run (Load.line env) ld
        (chanLine kind src.dname :: (src.masks kind).map (recordLine kind)) = .ok ld' ∧
      ld'.st = { ld.st with
        chanset := done ++ c.withMasks (restoredMasks kind src) kind :: rest } ∧
      ld'.bu = ld.bu ∧ ld'.live = true := by
  have hfind : ld.st.findchanByDname src.dname = some done.length := by
    rw [State.findchanByDname, hset, ← hc]
    exact findIdx?_append_cons hdone (rfcCaseEq_refl _) rest
  have hsection : ld.sectionLine kind src.dname =
      { ld with
        lasthand := src.dname, u := none, cst := some done.length
        st := { ld.st with chanset := done ++ c.withMasks [] kind :: rest } } := by
    unfold Load.sectionLine
    simp only [hfind, hlive, Bool.true_or, if_true, hset]
    rw [modify_append_cons]
  rw [Machine.run_cons_ok (line_chan hname), hsection, run_records_chan rfl rfl hname]
  refine ⟨_, rfl, ?_, ?_, ?_⟩
  · unfold restoredMasks
    split
    · rw [addMasks_chan, modify_append_cons, withMore, (withMasks_masks c [] _).1,
        (withMasks_masks c [] []).2, append_nil]
    · rfl
  · split <;> rfl
  · split <;> exact hlive

def zipMasks (kind : MaskKind) (cs src : List Chanset) : List Chanset :=
  zipWith (fun c s => c.withMasks (restoredMasks kind s) kind) cs src

/-- The lists of one kind after they were read. -/
def restoreLists (kind : MaskKind) (src st : State) : State :=
  let l := ((src.globalMasks kind).map readBack).reverse ++ st.globalMasks kind
  (({ st with chanset := zipMasks kind st.chanset src.chanset } : State)).withGlobalMasks l kind

theorem run_sections (env : Env) (kind : MaskKind) (hlive : ld.live = true) {src done rest : List Chanset}
    (hnames : ∀ s ∈ src, IsName s.dname)
    (hdistinct : src.Pairwise fun a b => rfcCaseEq a.dname b.dname = false)
    (hset : ld.st.chanset = done ++ rest) (hrest : rest.map (·.dname) = src.map (·.dname))
    (hdone : ∀ d ∈ done, ∀ s ∈ src, rfcCaseEq d.dname s.dname = false) :
    ∃ ld', Machine.run (Load.line env) ld (src.flatMap fun s =>
        chanLine kind s.dname :: (s.masks kind).map (recordLine kind)) = .ok ld' ∧
      ld'.st = { ld.st with chanset := done ++ zipMasks kind rest src } ∧
      ld'.bu = ld.bu ∧ ld'.live = true := by
  induction src generalizing ld done rest with
  | nil =>
    obtain rfl : rest = [] := by simpa using hrest
    refine ⟨ld, rfl, ?_, rfl, hlive⟩
    rw [zipMasks, zipWith_nil_right, ← hset]
  | cons s src ih =>
    obtain ⟨c, rest, rfl⟩ : ∃ c rest', rest = c :: rest' := by
      cases rest with
      | nil => cases hrest
      | cons c rest => exact ⟨c, rest, rfl⟩
    rw [map_cons, map_cons, cons.injEq] at hrest
    obtain ⟨hs, hdistinct⟩ := pairwise_cons.1 hdistinct
    obtain ⟨ld₁, hrun, hst, hbu, hlive₁⟩ := run_section env kind hlive
      (hnames s mem_cons_self) hset hrest.1 fun d hd => by
        rw [hrest.1]
        exact hdone d hd s mem_cons_self
    have hname (l : List Maskrec) : (c.withMasks l kind).dname = s.dname := by
      rw [← hrest.1]
      cases kind <;> rfl
    have hset₁ : ld₁.st.chanset = done ++ [c.withMasks (restoredMasks kind s) kind] ++ rest := by
      rw [hst, append_assoc]
      rfl
    obtain ⟨ld₂, hrun₂, hst₂, hbu₂, hlive₂⟩ := ih hlive₁
      (fun s hs => hnames s (mem_cons_of_mem _ hs)) hdistinct hset₁ hrest.2 fun d hd t ht => by
        rcases mem_append.1 hd with hd | hd
        · exact hdone d hd t (mem_cons_of_mem _ ht)
        · rw [mem_singleton.1 hd, hname]
          exact hs t ht
    refine ⟨ld₂, ?_, ?_, hbu₂.trans hbu, hlive₂⟩
    · rw [flatMap_cons, Machine.run_append, hrun]
      exact hrun₂
    · rw [hst₂, hst, append_assoc]
      rfl

/-- The channels that lists are read for. -/
structure Named (cs : List Chanset) : Prop where
  names : ∀ s ∈ cs, IsName s.dname
  distinct : cs.Pairwise fun a b => rfcCaseEq a.dname b.dname = false

theorem run_maskLines (env : Env) (kind : MaskKind) (hlive : ld.live = true) {src : State}
    (hchan : Named src.chanset)
    (hset : ld.st.chanset.map (·.dname) = src.chanset.map (·.dname)) :
    ∃ ld', Machine.run (Load.line env) ld (maskLines kind (fun _ => true) src) = .ok ld' ∧
      ld'.st = restoreLists kind src ld.st ∧ ld'.bu = ld.bu ∧ ld'.live = true := by
  -- the global list
  have hglobal : ∃ ld₁, Machine.run (Load.line env) ld
        ((if src.globalMasks kind = [] then [] else [globalLine kind]) ++
          (src.globalMasks kind).map (recordLine kind)) = .ok ld₁ ∧
      ld₁.st = ld.st.withGlobalMasks
        (((src.globalMasks kind).map readBack).reverse ++ ld.st.globalMasks kind) kind ∧
      ld₁.bu = ld.bu ∧ ld₁.live = true := by
    by_cases hnil : src.globalMasks kind = []
    · rw [hnil]
      refine ⟨ld, rfl, ?_, rfl, hlive⟩
      cases kind <;> rfl
    · rw [if_neg hnil, singleton_append, Machine.run_cons_ok line_global]
      refine ⟨_, run_records_global rfl rfl _, ?_, rfl, hlive⟩
      exact addMasks_global _ _
  obtain ⟨ld₁, hrun, hst, hbu, hlive₁⟩ := hglobal
  have hset₁ : ld₁.st.chanset = [] ++ ld.st.chanset := by
    rw [hst]
    cases kind <;> rfl
  obtain ⟨ld₂, hrun₂, hst₂, hbu₂, hlive₂⟩ := run_sections env kind hlive₁ hchan.names hchan.distinct
    hset₁ hset fun d hd => nomatch hd
  refine ⟨ld₂, ?_, ?_, hbu₂.trans hbu, hlive₂⟩
  · rw [maskLines, Machine.run_append, hrun]
    exact hrun₂
  · rw [hst₂, hst, restoreLists]
    cases kind <;> rfl

/-! ### What comes before the lists -/

section Live

/-- A line leaves it as it is which list is read. -/
def KeepsLive (ld ld' : Load) : Prop := ld'.live = ld.live

theorem modifyUser_live (ld : Load) (id : ℕ) (f : Userrec → Except Fault Userrec) :
    Ensures (ld.modifyUser id f) (KeepsLive ld) := by
  refine .bind' fun l _ => .pure ?_
  rw [Load.withUsers]
  split <;> rfl

theorem setHosts_live (ld : Load) (s : CStr) : Ensures (ld.setHosts env s) (KeepsLive ld) := by
  unfold Load.setHosts
  split
  · exact .pure rfl
  · exact modifyUser_live _ _ _

theorem setCommaHosts_live (ps : List CStr) (ld : Load) :
    Ensures (Load.setCommaHosts env ps ld) (KeepsLive ld) := by
  induction ps generalizing ld with
  | nil => exact .pure rfl
  | cons p ps ih =>
    refine .bind (P := KeepsLive ld) (.ite (fun _ => .pure rfl) fun _ => setHosts_live _ _)
      fun ld₁ h₁ => (ih ld₁).mono fun ld₂ h₂ => ?_
    exact Eq.trans h₂ h₁

theorem dashLine_live (ld : Load) (s : CStr) : Ensures (ld.dashLine env s) (KeepsLive ld) := by
  unfold Load.dashLine
  refine .ite (fun _ => .pure rfl) fun _ => ?_
  refine .bind (setCommaHosts_live _ ld) fun ld₁ h₁ => ?_
  split
  · exact .pure h₁
  · exact .pure h₁
  · refine .ite (fun _ => .bind' fun _ _ => .pure h₁) fun _ => ?_
    refine .ite (fun _ => .bind' fun _ _ => .pure h₁) fun _ => ?_
    exact (setHosts_live ld₁ _).mono fun ld₂ h₂ => Eq.trans h₂ h₁

theorem maskLine_live (ld : Load) (kind : MaskKind) (letter : Char) (s : CStr) :
    Ensures (ld.maskLine kind letter s) (KeepsLive ld) := by
  unfold Load.maskLine
  split
  · exact .pure rfl
  · exact .pure rfl
  · refine .ite (fun _ => .bind' fun _ _ => .pure rfl) fun _ => ?_
    exact .ite (fun _ => .bind' fun _ _ => .pure rfl) fun _ => .pure rfl

theorem chanLine_live (ld : Load) (s : CStr) : Ensures (ld.chanLine s) (KeepsLive ld) := by
  unfold Load.chanLine
  split
  · exact .pure rfl
  · exact .ite (fun _ => modifyUser_live _ _ _) fun _ => .pure rfl

theorem sectionLine_live (ld : Load) (kind : MaskKind) (name : CStr) :
    KeepsLive ld (ld.sectionLine kind name) := by
  unfold Load.sectionLine
  dsimp only
  split
  · rfl
  · split <;> rfl

theorem entryLine_live (ld : Load) (name s : CStr) :
    Ensures (ld.entryLine name s) (KeepsLive ld) := by
  unfold Load.entryLine
  split
  · exact .pure rfl
  · exact modifyUser_live _ _ _

theorem userLine_live (ld : Load) (code s : CStr) :
    Ensures (ld.userLine env code s) (KeepsLive ld) := by
  unfold Load.userLine
  refine .ite (fun _ => .pure rfl) fun _ => .bind' fun r _ => ?_
  dsimp only
  split
  · exact .bind' fun _ _ => .pure rfl
  · unfold Load.addUser
    refine .bind' fun _ _ => .bind' fun _ _ => ?_
    dsimp only
    split
    · exact .error
    · exact modifyUser_live _ _ _

theorem line_live (ld : Load) (buf : CStr) : Ensures (ld.line env buf) (KeepsLive ld) := by
  unfold Load.line
  split
  · exact .pure rfl
  · exact .pure rfl
  · exact .pure rfl
  · dsimp only
    refine .ite (fun _ => dashLine_live ld _) fun _ => ?_
    refine .ite (fun _ => maskLine_live ld _ _ _) fun _ => ?_
    refine .ite (fun _ => maskLine_live ld _ _ _) fun _ => ?_
    refine .ite (fun _ => chanLine_live ld _) fun _ => ?_
    refine .ite (fun _ => .pure (sectionLine_live ld _ _)) fun _ => ?_
    refine .ite (fun _ => .pure (sectionLine_live ld _ _)) fun _ => ?_
    refine .ite (fun _ => .pure (sectionLine_live ld _ _)) fun _ => ?_
    refine .ite (fun _ => entryLine_live ld _ _) fun _ => ?_
    refine .ite (fun _ => .pure rfl) fun _ => ?_
    exact .ite (fun _ => .pure rfl) fun _ => userLine_live ld _ _

theorem run_live (ld : Load) {lines : List CStr} (hlive : ld.live = true) :
    Ensures (Machine.run (Load.line env) ld lines) fun ld' => ld'.live = true :=
  .run_forall (fun ld buf _ h => (line_live ld buf).mono fun _ h' => Eq.trans h' h) hlive

end Live

theorem fgetsAll_ne_nil (s : CStr) : ∀ (acc : CStr) (room : ℕ), acc ++ s ≠ [] →
    fgetsAll acc room s ≠ [] := by
  induction s with
  | nil =>
    intro acc room h
    cases acc with
    | nil => exact absurd rfl h
    | cons c acc => exact cons_ne_nil _ _
  | cons c s ih =>
    intro acc room _
    rw [fgetsAll_cons]
    split
    · exact cons_ne_nil _ _
    · exact ih _ _ (cons_ne_nil _ _)

/-! ### The file -/

/-- All the lists after they were read. -/
def restoreAll (src st : State) : State :=
  restoreLists .invite src (restoreLists .exempt src (restoreLists .ban src st))

theorem dname_withMasks (c : Chanset) (l : List Maskrec) : (c.withMasks l kind).dname = c.dname := by
  cases kind <;> rfl

theorem dname_zipMasks {cs src : List Chanset} (h : cs.map (·.dname) = src.map (·.dname)) :
    (zipMasks kind cs src).map (·.dname) = src.map (·.dname) := by
  rw [zipMasks, ← h]
  induction cs generalizing src with
  | nil => rfl
  | cons c cs ih =>
    cases src with
    | nil => cases h
    | cons s src =>
      rw [zipWith_cons_cons, map_cons, map_cons, dname_withMasks, ih (cons.inj h).2]

theorem chanset_restoreLists (src st : State) :
    (restoreLists kind src st).chanset = zipMasks kind st.chanset src.chanset := by
  cases kind <;> rfl

theorem dname_restoreLists {src st : State}
    (h : st.chanset.map (·.dname) = src.chanset.map (·.dname)) :
    (restoreLists kind src st).chanset.map (·.dname) = src.chanset.map (·.dname) := by
  rw [chanset_restoreLists]
  exact dname_zipMasks h

/-- The lines that the channels module appends. -/
def allMaskLines (st : State) : List CStr :=
  maskLines .ban (fun _ => true) st ++ maskLines .exempt (fun _ => true) st ++
    maskLines .invite (fun _ => true) st

theorem channelsWriteuserfile_eq (st : State) :
    channelsWriteuserfile st = (allMaskLines st).flatten := by
  rw [allMaskLines, flatten_append, flatten_append]
  rfl

theorem run_allMaskLines (env : Env) (hlive : ld.live = true) {src : State}
    (hchan : Named src.chanset)
    (hset : ld.st.chanset.map (·.dname) = src.chanset.map (·.dname)) :
    ∃ ld', Machine.run (Load.line env) ld (allMaskLines src) = .ok ld' ∧
      ld'.st = restoreAll src ld.st ∧ ld'.bu = ld.bu := by
  obtain ⟨ld₁, hrun₁, hst₁, hbu₁, hlive₁⟩ := run_maskLines env .ban hlive hchan hset
  have hset₁ : ld₁.st.chanset.map (·.dname) = src.chanset.map (·.dname) := by
    rw [hst₁]
    exact dname_restoreLists hset
  obtain ⟨ld₂, hrun₂, hst₂, hbu₂, hlive₂⟩ := run_maskLines env .exempt hlive₁ hchan hset₁
  have hset₂ : ld₂.st.chanset.map (·.dname) = src.chanset.map (·.dname) := by
    rw [hst₂]
    exact dname_restoreLists hset₁
  obtain ⟨ld₃, hrun₃, hst₃, hbu₃, -⟩ := run_maskLines env .invite hlive₂ hchan hset₂
  refine ⟨ld₃, ?_, ?_, hbu₃.trans (hbu₂.trans hbu₁)⟩
  · rw [allMaskLines, Machine.run_append, Machine.run_append, hrun₁]
    show (Machine.run _ ld₁ _).bind _ = _
    rw [hrun₂]
    exact hrun₃
  · rw [hst₃, hst₂, hst₁, restoreAll]

theorem finishLoad_eq_ok {env : Env} {ld : Load} {st : State} (h : finishLoad env ld = .ok st) :
    ∃ l, st = { ld.st with userlist := l } ∧
      ∀ ld' : Load, ld'.users = ld.users →
        finishLoad env ld' = .ok { ld'.st with userlist := l } := by
  unfold finishLoad at h ⊢
  cases hunpack : unpackUsers env ld.users with
  | error f => rw [hunpack] at h; cases h
  | ok l =>
    rw [hunpack] at h
    replace h : (mapM (migratePassword env) (l.map fun u => { u with dirty := true }) >>= _) =
      .ok st := h
    cases hmigrate : mapM (migratePassword env) (l.map fun u => { u with dirty := true }) with
    | error f => rw [hmigrate] at h; cases h
    | ok l' =>
      rw [hmigrate] at h
      replace h : ((if (env.hooks.removePass && env.hooks.encryptPass.isSome &&
        env.hooks.encryptPass2.isSome) = true then mapM cleanupPass l' else pure l') >>= _) =
          .ok st := h
      cases hclean : (if (env.hooks.removePass && env.hooks.encryptPass.isSome &&
        env.hooks.encryptPass2.isSome) = true then mapM cleanupPass l' else pure l') with
      | error f => rw [hclean] at h; cases h
      | ok l'' =>
        rw [hclean] at h
        refine ⟨l'', (Except.ok.inj h).symm, fun ld' husers => ?_⟩
        rw [husers, hunpack]
        show (mapM (migratePassword env) (l.map fun u => { u with dirty := true }) >>= _) = _
        rw [hmigrate]
        show ((if (env.hooks.removePass && env.hooks.encryptPass.isSome &&
          env.hooks.encryptPass2.isSome) = true then mapM cleanupPass l' else pure l') >>= _) = _
        rw [hclean]
        rfl

/-- Reading a file that ends with the lists, where `st₁` is read from what is before them. -/
theorem readuserfile_masks {env : Env} {st st₁ src : State} {p : CStr}
    (hread : readuserfile env st (some (p ++ ['\n'])) = .ok (true, st₁))
    (hchan : Named src.chanset)
    (hset : st₁.chanset.map (·.dname) = src.chanset.map (·.dname))
    (hlines : ∀ l ∈ allMaskLines src, IsLine l) :
    readuserfile env st (some (p ++ ['\n'] ++ channelsWriteuserfile src)) =
      .ok (true, restoreAll src st₁) := by
  rw [channelsWriteuserfile_eq]
  unfold readuserfile at hread ⊢
  dsimp only at hread ⊢
  rw [fileLines_append p hlines]
  obtain ⟨s, lines, hcons⟩ : ∃ s lines, fileLines (p ++ ['\n']) = s :: lines := by
    refine exists_cons_of_ne_nil ?_
    rw [fileLines, ne_eq, map_eq_nil_iff]
    exact fgetsAll_ne_nil _ _ _
      (append_ne_nil_of_right_ne_nil _ (append_ne_nil_of_right_ne_nil _ (cons_ne_nil _ _)))
  rw [hcons] at hread ⊢
  rw [cons_append, tail_cons]
  rw [tail_cons] at hread
  cases hheader : headerOk s with
  | false =>
    rw [checkHeader, hheader] at hread
    cases hread
  | true =>
    rw [checkHeader, if_pos hheader] at hread ⊢
    rw [Machine.run_append]
    cases hrun : Machine.run (Load.line env) (Load.start st.forgetMasks true none) lines with
    | error f =>
      rw [hrun] at hread
      cases hread
    | ok ld =>
      rw [hrun] at hread
      replace hread : (orHalt (finishLoad env ld) >>= fun st => pure (true, st)) =
        .ok (true, st₁) := hread
      cases hfinish : finishLoad env ld with
      | error f =>
        rw [hfinish] at hread
        cases hread
      | ok st' =>
        rw [hfinish] at hread
        obtain rfl : st' = st₁ := congrArg Prod.snd (Except.ok.inj hread)
        obtain ⟨l, hst, hsame⟩ := finishLoad_eq_ok hfinish
        have hlive := run_live (Load.start st.forgetMasks true none) rfl ld hrun
        have hset' : ld.st.chanset.map (·.dname) = src.chanset.map (·.dname) := by
          rw [← hset, hst]
        obtain ⟨ld', hrun', hst', hbu'⟩ := run_allMaskLines env hlive hchan hset'
        show (orHalt (Machine.run (Load.line env) ld (allMaskLines src)) >>= _) = _
        rw [hrun']
        show (orHalt (finishLoad env ld') >>= _) = _
        have husers : ld'.users = ld.users := by
          rw [Load.users, Load.users, hst', hbu']
          rfl
        rw [hsame ld' husers, hst', hst]
        rfl

/-! ### Lines that fit -/

/-- A record whose line is read by one call of `fgets`. -/
structure OneLine (b : Maskrec) : Prop where
  mask : '\n' ∉ b.mask
  user : '\n' ∉ b.user
  desc : '\n' ∉ b.desc
  fits : (recordBody b).length + 3 ≤ bufRoom

theorem notMem_strEscape {c : Char} (hhex : c ∉ "\\3a5c".toList) {s : CStr} (h : c ∉ s) :
    c ∉ strEscape s ':' '\\' := by
  rw [strEscape, mem_flatMap]
  rintro ⟨d, hd, hc⟩
  split at hc
  · next hesc =>
    refine hhex ?_
    obtain rfl | rfl := hesc
    · exact (show ['\\', '3', 'a'] ⊆ "\\3a5c".toList by decide) hc
    · exact (show ['\\', '5', 'c'] ⊆ "\\3a5c".toList by decide) hc
  · exact h (mem_singleton.1 hc ▸ hd)

theorem notMem_recordBody {c : Char} (hc : c ∉ "\\3a5c:+*".toList) (hdigit : isDigit c = false)
    {b : Maskrec} (hmask : c ∉ b.mask) (huser : c ∉ b.user) (hdesc : c ∉ b.desc) :
    c ∉ recordBody b := by
  have hcolon : c ≠ ':' := by
    rintro rfl
    exact hc (by decide)
  have hplus : c ≠ '+' := by
    rintro rfl
    exact hc (by decide)
  have hstar : c ≠ '*' := by
    rintro rfl
    exact hc (by decide)
  have hescape : c ∉ strEscape b.mask ':' '\\' :=
    notMem_strEscape (fun h => hc ((show "\\3a5c".toList ⊆ "\\3a5c:+*".toList by decide) h)) hmask
  have hexpire : c ∉ expireText b := by
    have hnum := notMem_showUlong hdigit b.expire
    rw [expireText, mem_append, mem_append]
    rintro ((h | h) | h)
    · split at h
      · exact hplus (mem_singleton.1 h)
      · cases h
    · exact hnum h
    · split at h
      · exact hstar (mem_singleton.1 h)
      · cases h
  simp [recordBody, hescape, hexpire, notMem_showUlong hdigit, hcolon, hplus, huser, hdesc]

theorem isLine_record {b : Maskrec} (hmem : InMemory b) (h : OneLine b) :
    IsLine (recordLine kind b) := by
  have hnl : '\n' ∉ recordBody b :=
    notMem_recordBody (by decide) (by decide) h.mask h.user h.desc
  have hnul : '\x00' ∉ recordBody b :=
    notMem_recordBody (by decide) (by decide) hmem.mask hmem.user hmem.desc
  refine ⟨⟨lineMark kind ++ ' ' :: recordBody b, rfl, ?_, ?_⟩, ?_⟩
  · cases kind <;> simp [lineMark, hnl]
  · cases kind <;> simp [lineMark, hnul]
  · have hlength : (recordLine kind b).length = (recordBody b).length + 3 := by
      cases kind <;> simp [recordLine, lineMark]
    exact hlength ▸ h.fits

theorem isLine_global : IsLine (globalLine kind) := by
  refine ⟨⟨sectionName kind ++ " - -".toList, ?_, ?_, ?_⟩, ?_⟩
  · cases kind <;> rfl
  · cases kind <;> decide
  · cases kind <;> decide
  · cases kind <;> decide

theorem isLine_chan (h : IsName dname) : IsLine (chanLine kind dname) := by
  have htext {c : Char} (hmark : c ∉ sectionMark kind) (hname : c ∉ dname) (hblank : c ≠ ' ')
      (hword : c ∉ sectionWord kind) : c ∉ sectionMark kind ++ dname ++ ' ' :: sectionWord kind := by
    simp only [mem_append, mem_cons, not_or]
    exact ⟨⟨hmark, hname⟩, hblank, hword⟩
  refine ⟨⟨sectionMark kind ++ dname ++ ' ' :: sectionWord kind, rfl, ?_, ?_⟩, ?_⟩
  · exact htext (by cases kind <;> decide) h.line (by decide) (by cases kind <;> decide)
  · exact htext (by cases kind <;> decide) h.string (by decide) (by cases kind <;> decide)
  · have hmark : (sectionMark kind).length ≤ 2 := by cases kind <;> decide
    have hword : (sectionWord kind).length ≤ 7 := by cases kind <;> decide
    have hshort := h.short
    simp only [chanLine, bufRoom, length_append, length_cons, length_nil]
    omega

/-- Every record on a list, with the name of its channel if it has one. -/
def ForRecords (st : State) (P : Maskrec → Prop) : Prop :=
  ∀ kind, (∀ b ∈ st.globalMasks kind, P b) ∧ ∀ c ∈ st.chanset, ∀ b ∈ c.masks kind, P b

theorem isLine_maskLines {src : State} (hchan : Named src.chanset)
    (hmem : ForRecords src InMemory) (hone : ForRecords src OneLine) :
    ∀ l ∈ maskLines kind (fun _ => true) src, IsLine l := by
  intro l hl
  rw [maskLines, mem_append, mem_append] at hl
  rcases hl with (hl | hl) | hl
  · split at hl
    · cases hl
    · rw [mem_singleton.1 hl]
      exact isLine_global
  · obtain ⟨b, hb, rfl⟩ := mem_map.1 hl
    exact isLine_record ((hmem kind).1 b hb) ((hone kind).1 b hb)
  · obtain ⟨c, hc, hl⟩ := mem_flatMap.1 hl
    rw [if_pos rfl] at hl
    rcases mem_cons.1 hl with rfl | hl
    · exact isLine_chan (hchan.names c hc)
    · obtain ⟨b, hb, rfl⟩ := mem_map.1 hl
      exact isLine_record ((hmem kind).2 c hc b hb) ((hone kind).2 c hc b hb)

theorem isLine_allMaskLines {src : State} (hchan : Named src.chanset)
    (hmem : ForRecords src InMemory) (hone : ForRecords src OneLine) :
    ∀ l ∈ allMaskLines src, IsLine l := by
  intro l hl
  rw [allMaskLines, mem_append, mem_append] at hl
  rcases hl with (hl | hl) | hl
  · exact isLine_maskLines hchan hmem hone l hl
  · exact isLine_maskLines hchan hmem hone l hl
  · exact isLine_maskLines hchan hmem hone l hl

/-! ### The same records -/

/-- Two states whose lists have the same records, channel by channel. -/
def SameMasks (src st : State) : Prop :=
  ∀ kind, (st.globalMasks kind).Perm (src.globalMasks kind) ∧
    Forall₂ (fun c s : Chanset => c.dname = s.dname ∧ (c.masks kind).Perm (s.masks kind))
      st.chanset src.chanset

/-- The records come back, and those of a channel are read in its section. -/
def AllRestorable (src : State) : Prop :=
  ForRecords src Restorable ∧
    ∀ kind, ∀ c ∈ src.chanset, c.masks kind ≠ [] → accepts kind c.dname = true

theorem perm_readBack_iff {l : List Maskrec} (h : ∀ b ∈ l, InMemory b) :
    (l.map readBack).reverse.Perm l ↔ ∀ b ∈ l, Restorable b := by
  constructor
  · intro hperm b hb
    -- every record is one that was read, and so on
    replace hperm := (reverse_perm _).symm.trans hperm
    obtain ⟨b', hb', rfl⟩ := mem_map.1 (hperm.mem_iff.2 hb)
    obtain ⟨b'', -, rfl⟩ := mem_map.1 (hperm.mem_iff.2 hb')
    exact restorable_readBack b''
  · intro hall
    have hmap : l.map readBack = l := by
      conv_rhs => rw [← map_id l]
      exact map_congr_left fun b hb => (readBack_eq_iff (h b hb)).2 (hall b hb)
    rw [hmap]
    exact reverse_perm l

theorem perm_restoredMasks_iff {c : Chanset} (h : ∀ b ∈ c.masks kind, InMemory b) :
    (restoredMasks kind c).Perm (c.masks kind) ↔
      (∀ b ∈ c.masks kind, Restorable b) ∧ (c.masks kind ≠ [] → accepts kind c.dname = true) := by
  rw [restoredMasks]
  cases haccepts : accepts kind c.dname with
  | true =>
    rw [if_pos rfl, perm_readBack_iff h]
    exact ⟨fun hall => ⟨hall, fun _ => rfl⟩, And.left⟩
  | false =>
    rw [if_neg Bool.false_ne_true]
    constructor
    · intro hperm
      have hnil := hperm.symm.eq_nil
      rw [hnil]
      exact ⟨fun _ hb => (nomatch hb), fun hne => absurd rfl hne⟩
    · rintro ⟨-, hne⟩
      have hnil : c.masks kind = [] := by
        by_contra hcons
        exact Bool.false_ne_true (hne hcons)
      rw [hnil]

theorem globalMasks_restoreAll (src st : State) :
    (restoreAll src st).globalMasks kind =
      ((src.globalMasks kind).map readBack).reverse ++ st.globalMasks kind := by
  cases kind <;> rfl

theorem chanset_restoreAll {src st : State}
    (h : st.chanset.map (·.dname) = src.chanset.map (·.dname)) :
    Forall₂ (fun c s : Chanset => c.dname = s.dname ∧ ∀ kind, c.masks kind = restoredMasks kind s)
      (restoreAll src st).chanset src.chanset := by
  rw [restoreAll, chanset_restoreLists, chanset_restoreLists, chanset_restoreLists]
  generalize st.chanset = cs, src.chanset = ss at h ⊢
  induction ss generalizing cs with
  | nil =>
    rw [zipMasks, zipWith_nil_right]
    exact .nil
  | cons s ss ih =>
    cases cs with
    | nil => cases h
    | cons c cs =>
      refine .cons ⟨?_, fun kind => ?_⟩ (ih cs (cons.inj h).2)
      · rw [dname_withMasks, dname_withMasks, dname_withMasks]
        exact (cons.inj h).1
      · cases kind <;> rfl

theorem sameMasks_restoreAll_iff {src st : State}
    (hset : st.chanset.map (·.dname) = src.chanset.map (·.dname))
    (hglobal : ∀ kind, st.globalMasks kind = []) (hmem : ForRecords src InMemory) :
    SameMasks src (restoreAll src st) ↔ AllRestorable src := by
  have hchans := chanset_restoreAll hset
  constructor
  · intro hsame
    have hchan (kind : MaskKind) : ∀ c ∈ src.chanset, (∀ b ∈ c.masks kind, Restorable b) ∧
        (c.masks kind ≠ [] → accepts kind c.dname = true) := by
      intro s hs
      obtain ⟨i, hi, rfl⟩ := mem_iff_getElem.1 hs
      have hi' : i < (restoreAll src st).chanset.length := by rwa [hchans.length_eq]
      have hperm := ((hsame kind).2.get hi' hi).2
      have hmasks := (hchans.get hi' hi).2 kind
      simp only [get_eq_getElem] at hperm hmasks
      rw [hmasks] at hperm
      exact (perm_restoredMasks_iff ((hmem kind).2 _ hs)).1 hperm
    refine ⟨fun kind => ⟨?_, fun c hc => (hchan kind c hc).1⟩, fun kind c hc => (hchan kind c hc).2⟩
    have hperm := (hsame kind).1
    rw [globalMasks_restoreAll, hglobal, append_nil] at hperm
    exact (perm_readBack_iff (hmem kind).1).1 hperm
  · rintro ⟨hall, haccepts⟩ kind
    refine ⟨?_, forall₂_iff_get.2 ⟨hchans.length_eq, fun i hi hi' => ?_⟩⟩
    · rw [globalMasks_restoreAll, hglobal, append_nil]
      exact (perm_readBack_iff (hmem kind).1).2 (hall kind).1
    · have hs : src.chanset.get ⟨i, hi'⟩ ∈ src.chanset := get_mem _ _
      obtain ⟨hname, hmasks⟩ := hchans.get hi hi'
      refine ⟨hname, ?_⟩
      rw [hmasks kind]
      exact (perm_restoredMasks_iff ((hmem kind).2 _ hs)).2
        ⟨(hall kind).2 _ hs, haccepts kind _ hs⟩

/-- Where the lines fit, the masks of all the lists come back from the userfile exactly when every
record is one that is read as it was, and no exempts or invites are those of a `&` or `!` channel. -/
theorem masks_restored_iff {env : Env} {st st₁ src : State} {p : CStr}
    (hread : readuserfile env st (some (p ++ ['\n'])) = .ok (true, st₁))
    (hset : st₁.chanset.map (·.dname) = src.chanset.map (·.dname))
    (hglobal : ∀ kind, st₁.globalMasks kind = []) (hchan : Named src.chanset)
    (hmem : ForRecords src InMemory) (hone : ForRecords src OneLine) :
    ∃ st₂, readuserfile env st (some (p ++ ['\n'] ++ channelsWriteuserfile src)) =
        .ok (true, st₂) ∧ (SameMasks src st₂ ↔ AllRestorable src) :=
  ⟨restoreAll src st₁,
    readuserfile_masks hread hchan hset (isLine_allMaskLines hchan hmem hone),
    sameMasks_restoreAll_iff hset hglobal hmem⟩

/-- A channel of the server, with an exempt. -/
def localChannel (dname : String) : Chanset :=
  { dname := dname.toList, shared := false, bans := []
    exempts := [⟨"*!*@a:b".toList, "joe".toList, "friend".toList, 0, 7, 0, false, true⟩]
    invites := [] }

/-- A bot on that channel. -/
def onChannel (dname : String) : State :=
  { Accounts.emptyState with chanset := [localChannel dname] }

theorem named_onChannel {dname : String} (h : IsName dname.toList) :
    Named (onChannel dname).chanset where
  names _ hs := mem_singleton.1 hs ▸ h
  distinct := pairwise_singleton _ _

theorem forRecords_onChannel (dname : String) {P : Maskrec → Prop}
    (h : ∀ b ∈ (localChannel dname).exempts, P b) : ForRecords (onChannel dname) P := by
  intro kind
  refine ⟨?_, ?_⟩
  · cases kind <;> exact fun _ hb => nomatch hb
  · intro c hc
    obtain rfl := mem_singleton.1 hc
    cases kind
    · exact fun _ hb => nomatch hb
    · exact h
    · exact fun _ hb => nomatch hb

theorem inMemory_onChannel (dname : String) : ForRecords (onChannel dname) InMemory := by
  refine forRecords_onChannel dname fun b hb => ?_
  obtain rfl := mem_singleton.1 hb
  constructor <;> decide

theorem oneLine_onChannel (dname : String) : ForRecords (onChannel dname) OneLine := by
  refine forRecords_onChannel dname fun b hb => ?_
  obtain rfl := mem_singleton.1 hb
  constructor <;> decide

/-- The exempt of a channel of the network comes back. -/
theorem masks_restored_network :
    ∃ st₂, readuserfile Accounts.plainEnv (onChannel "#x") (some ("#4v: x".toList ++ ['\n'] ++
        channelsWriteuserfile (onChannel "#x"))) = .ok (true, st₂) ∧
      (SameMasks (onChannel "#x") st₂ ↔ AllRestorable (onChannel "#x")) :=
  have hread : readuserfile Accounts.plainEnv (onChannel "#x") (some ("#4v: x".toList ++ ['\n'])) =
      .ok (true, onChannel "#x") := by decide +kernel
  masks_restored_iff hread rfl (fun kind => by cases kind <;> rfl)
    (named_onChannel ⟨by decide, by decide, by decide, by decide, '#', rfl, by decide⟩)
    (inMemory_onChannel _) (oneLine_onChannel _)

/-- The exempt of a channel of the server does not: bans are read for all channels, exempts and
invites for those whose name begins with `#` or `+`. -/
theorem not_restored_local :
    ∃ st₂, readuserfile Accounts.plainEnv (onChannel "&x") (some ("#4v: x".toList ++ ['\n'] ++
        channelsWriteuserfile (onChannel "&x"))) = .ok (true, st₂) ∧
      ForRecords (onChannel "&x") Restorable ∧ ¬ SameMasks (onChannel "&x") st₂ := by
  refine ⟨{ onChannel "&x" with chanset := [⟨"&x".toList, false, [], [], []⟩] },
    by decide +kernel, ?_, fun hsame => ?_⟩
  · refine forRecords_onChannel _ fun b hb => ?_
    obtain rfl := mem_singleton.1 hb
    exact ⟨⟨by decide, ⟨by decide, by decide⟩, ⟨by decide, by decide⟩, by decide, by decide⟩,
      by decide, by decide⟩
  · have hperm := ((hsame .exempt).2.get (i := 0) (by decide) (by decide)).2
    exact absurd hperm.length_eq (by decide)

end Eggdrop.Channels
