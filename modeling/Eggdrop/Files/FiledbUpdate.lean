import Eggdrop.Files.FiledbRuns
import Eggdrop.Transfer.WildMatchFile

/-!
# FiledbUpdate — the database and the files of its directory (filesys.mod/filedb3.c)

`filedb_update` looks up every file of a directory, adds what it does not find, corrects sizes, and
deletes entries whose files are gone.  Every lookup is one with a mask, for which the name of the file
is taken; so it may find the entry of another file.

* `lookup_iff`: when a lookup finds the entry with the name, and only that.
* `scanNames_spec`: what every lookup keeps is kept by the first loop.
* `right_of_suited`, `suited_of_right`: when an update is right.
* `update_iff`: the same for `filedb_getentry` and for an update.
-/

open List

namespace Eggdrop.Files.Filedb

open ByteFile

/-! ### Lookups -/

/-- The characters of a text. -/
def Text.chars (s : Text) : CStr := s.1.map fun b => Char.ofNat b.toNat

/-- `wild_match_file`, with the mask first; there may be no name. -/
def takes (mask : Text) (name : Option Text) : Bool :=
  match name with
  | none => false
  | some s =>
    match Transfer.wildMatchFile mask.chars s.chars with
    | some (.ok v) => v != 0
    | _ => false

/-- `filedb_getentry`, and the lookups of `filedb_update`. -/
def getentry (fn : Text) (bytes : Bytes) : Option Fdbe :=
  (matchfile (takes fn) topSize bytes).map Prod.fst

/-- The entry has this name. -/
def isNamed (fn : Text) (e : Entry) : Bool := e.str.filename == some fn

/-- What is found is the entry with the name, and it is found if there is one. -/
def Finds (fn : Text) (bytes : Bytes) : Prop :=
  (∀ fdbe, getentry fn bytes = some fdbe → fdbe.toEntry ∈ liveOf bytes ∧ isNamed fn fdbe.toEntry = true) ∧
    (getentry fn bytes = none → ∀ e ∈ liveOf bytes, isNamed fn e = false)

/-- The name, as a mask, takes no other entry before the first one with the name; and where there is
one, it takes itself. -/
structure Apt (fn : Text) (live : List Entry) : Prop where
  first : ∀ l e r, live = l ++ e :: r → (∀ e' ∈ l, isNamed fn e' = false) →
    takes fn e.str.filename = true → isNamed fn e = true
  self : ∀ e ∈ live, isNamed fn e = true → takes fn (some fn) = true

/-! ### The update -/

/-- `st_size` and `S_ISDIR`. -/
structure FileStat where
  size : ℕ
  isDir : Bool

/-- A directory: what `opendir` and `readdir` give, and `stat` for a name in it, if that succeeds.  A
name has 255 bytes at most. -/
structure Directory where
  opened : Bool
  names : List Text
  stat : Text → Option FileStat
  nonempty : ∀ s ∈ names, s.1 ≠ []
  short : ∀ s ∈ names, s.1.length ≤ 255

/-- The name starts with a dot. -/
def isDot (name : Text) : Bool := name.1.head? == some 0x2e

/-- A new entry of `filedb_update`; 2 is `FILE_DIR`. -/
def newEntry (nick : Text) (now : UInt64) (name : Text) (st : FileStat) : Entry :=
  ⟨now, UInt32.ofNat st.size, if st.isDir then 2 else 0, 0,
    { Fields.all none with filename := some name, uploader := some nick }⟩

section Update

variable (d : Directory) (nick : Text) (now : UInt64)

/-- One name of the directory.  `st` keeps what it had when `stat` fails. -/
def scanName (s : Bytes × FileStat) (name : Text) : Bytes × FileStat :=
  if isDot name = true then s
  else
    let (bytes, st) := s
    let st := (d.stat name).getD st
    match getentry name bytes with
    | none => (addfile (newEntry nick now name st) bytes, st)
    | some fdbe =>
      if fdbe.size.toNat ≠ st.size then
        let fdbe := { fdbe with toEntry := { fdbe.toEntry with size := UInt32.ofNat st.size } }
        ((updatefile fdbe.pos fdbe .header bytes).1, st)
      else (bytes, st)

/-- `stat & FILE_ISLINK`. -/
def isLink (stat : UInt16) : Bool := stat.toNat.testBit 4

/-- An entry that is no link, and whose file is gone. -/
def isStale (stat : UInt16) (filename : Option Text) : Bool :=
  !unused stat && !isLink stat && filename.any fun s => (d.stat s).isNone

/-- The second loop: the entries from a position. -/
def staleLoop : ℕ → ℕ → Bytes → Bytes
  | 0, _, bytes => bytes
  | fuel + 1, pos, bytes =>
    match getfile .filename pos bytes with
    | none => bytes
    | some (fdbe, next) =>
      staleLoop fuel next
        (if isStale d fdbe.stat fdbe.str.filename = true then delfile fdbe.pos bytes else bytes)

/-- `filedb_timestamp`.  Where there is no top to be read, the version is that of the variable; it is 0
here. -/
def timestamp (time : UInt64) (bytes : Bytes) : Bytes :=
  let top := (fread topSize 0 bytes).getD (replicate topSize 0)
  fwrite 0 (top.take 8 ++ le 8 time.toNat) bytes

/-- The database when every real file is in it, and no other. -/
def swept (st : FileStat) (bytes : Bytes) : Bytes :=
  let bytes := (d.names.foldl (scanName d nick now) (bytes, st)).1
  staleLoop d bytes.length topSize bytes

/-- `filedb_update`; `st` is what was in the variable before the first `stat`. -/
def update (time : UInt64) (sort : Bool) (st : FileStat) (bytes : Bytes) : Except Fault Bytes :=
  if d.opened = true then do
    let bytes := swept d nick now st bytes
    let bytes ← if sort = true then cleanup bytes else .ok bytes
    .ok (timestamp time bytes)
  else .ok bytes

end Update

/-- A file of the directory for which the database is to have an entry. -/
def Directory.IsReal (d : Directory) (name : Text) (st : FileStat) : Prop :=
  name ∈ d.names ∧ isDot name = false ∧ d.stat name = some st

/-- The database is that of the directory. -/
structure InStep (d : Directory) (live : List Entry) : Prop where
  one : ∀ name st, d.IsReal name st → ∃ e, live.filter (isNamed name) = [e] ∧ e.size.toNat = st.size
  real : ∀ e ∈ live, isLink e.stat = false → ∃ s, e.str.filename = some s ∧ (d.stat s).isSome = true

/-! ### When it is right -/

section Suited

variable (d : Directory) (nick : Text) (now : UInt64)

/-- Every lookup along the scan finds the entry with the name, and only that. -/
def FindsAlong : List Text → Bytes × FileStat → Prop
  | [], _ => True
  | name :: names, s =>
    (isDot name = false → Finds name s.1) ∧ FindsAlong names (scanName d nick now s name)

/-- An update is right: its lookups are, and then the database is that of the directory. -/
def Right (time : UInt64) (sort : Bool) (st : FileStat) (bytes : Bytes) : Prop :=
  (d.opened = true → FindsAlong d nick now d.names (bytes, st)) ∧
    ∃ bytes', update d nick now time sort st bytes = .ok bytes' ∧ (∃ bs', Laid bytes' bs') ∧
      InStep d (liveOf bytes')

/-- Every name that is looked up is apt for the entries that there are then. -/
def AptAlong : List Text → Bytes × FileStat → Prop
  | [], _ => True
  | name :: names, s =>
    (isDot name = false → Apt name (liveOf s.1)) ∧ AptAlong names (scanName d nick now s name)

/-- Sizes can be stored; no real file has two entries, and entries that are no links have names; the
names that are looked up are apt; and when the database is cleaned up, no entry is unused. -/
structure Suited (sort : Bool) (st : FileStat) (bytes : Bytes) : Prop where
  size : ∀ name st, d.IsReal name st → st.size < 2 ^ 32
  single : ∀ name st, d.IsReal name st → ((liveOf bytes).filter (isNamed name)).length ≤ 1
  named : ∀ e ∈ liveOf bytes, isLink e.stat = false → e.str.filename ≠ none
  apt : AptAlong d nick now d.names (bytes, st)
  used : sort = true → ∀ f ∈ scanFile (swept d nick now st bytes), unused f.stat = false

/-- A directory that cannot be opened changes nothing. -/
def Ready (sort : Bool) (st : FileStat) (bytes : Bytes) : Prop :=
  if d.opened = true then Suited d nick now sort st bytes else InStep d (liveOf bytes)

/-- No live entry stands behind an unused one. -/
def LiveFirst (bytes : Bytes) : Prop :=
  (scanFile bytes).Pairwise fun f g => unused f.stat = true → unused g.stat = true

end Suited

/-! ### One lookup -/

section Lookup

variable {fn : Text} {bs : List Block} {top : Bytes}

theorem isNamed_iff {e : Entry} : isNamed fn e = true ↔ e.str.filename = some fn := by
  rw [isNamed, beq_iff_eq]

theorem getentry_spec (h : ∀ b ∈ bs, b.Ok) (htop : top.length = topSize) (fn : Text) :
    (getentry fn (top ++ flat bs) = none ∧ ∀ e ∈ entries bs, takes fn e.str.filename = false) ∨
    ∃ l b r, bs = l ++ b :: r ∧ unused b.entry.stat = false ∧
      takes fn b.entry.norm.str.filename = true ∧
      (∀ e ∈ entries l, takes fn e.str.filename = false) ∧
      getentry fn (top ++ flat bs) = some (b.fdbe .full (top ++ flat l).length) := by
  rw [getentry, matchfile, ← htop]
  rcases matchLoop_spec (m := takes fn) h (flat_fuel (by rw [htop]; decide) bs) top with
    ⟨hnone, hall⟩ | ⟨l, b, r, hsplit, hused, htakes, hl, hsome⟩
  · left
    rw [hnone]
    exact ⟨rfl, hall⟩
  · right
    rw [hsome]
    exact ⟨l, b, r, hsplit, hused, htakes, hl, rfl⟩

theorem Laid.flat_eq {bytes : Bytes} (h : Laid bytes bs) :
    ∃ top, top.length = topSize ∧ bytes = top ++ flat bs := h.bytes

/-- A lookup is right exactly if the name is apt. -/
theorem lookup_iff {bytes : Bytes} (hlaid : Laid bytes bs) (fn : Text) :
    Finds fn bytes ↔ Apt fn (liveOf bytes) := by
  rw [Finds, hlaid.liveOf_eq]
  obtain ⟨top, htop, rfl⟩ := hlaid.flat_eq
  rcases getentry_spec hlaid.ok htop fn with
    ⟨hnone, hall⟩ | ⟨l, b, r, rfl, hused, htakes, hl, hsome⟩
  · rw [hnone]
    constructor
    · rintro ⟨-, hno⟩
      constructor
      · intro l e r hlive _ htakes
        rw [hall e (by rw [hlive]; simp)] at htakes
        cases htakes
      · intro e he hnamed
        rw [hno rfl e he] at hnamed
        cases hnamed
    · intro hapt
      constructor
      · intro fdbe h
        cases h
      · intro _ e he
        apply eq_false_of_ne_true
        intro hnamed
        have hself := hapt.self e he hnamed
        rw [← isNamed_iff.1 hnamed, hall e he] at hself
        cases hself
  · rw [hsome, entries_append, entries_used hused]
    have hentry : (b.fdbe .full (top ++ flat l).length).toEntry = b.entry.norm := rfl
    constructor
    · rintro ⟨hfound, -⟩
      have hb : isNamed fn b.entry.norm = true := (hfound _ rfl).2
      constructor
      · intro l' e r' hlive hno htakes'
        rcases append_eq_append_iff.1 hlive with ⟨x, rfl, hx⟩ | ⟨x, hlx, hx⟩
        · cases x with
          | nil =>
            obtain ⟨rfl, -⟩ := cons.inj hx
            exact hb
          | cons e' x =>
            obtain ⟨rfl, -⟩ := cons.inj hx
            have hnot := hno b.entry.norm (by simp)
            rw [hb] at hnot
            cases hnot
        · cases x with
          | nil =>
            obtain ⟨rfl, -⟩ := cons.inj hx
            exact hb
          | cons e' x =>
            obtain ⟨rfl, -⟩ := cons.inj hx
            rw [hl e (by rw [hlx]; simp)] at htakes'
            cases htakes'
      · intro e he hnamed
        rw [← isNamed_iff.1 hb]
        exact htakes
    · intro hapt
      constructor
      · intro fdbe hfdbe
        cases hfdbe
        rw [hentry]
        refine ⟨by simp, hapt.first (entries l) _ (entries r) rfl ?_ htakes⟩
        intro e he
        apply eq_false_of_ne_true
        intro hnamed
        have hself := hapt.self e (by simp [he]) hnamed
        rw [← isNamed_iff.1 hnamed, hl e he] at hself
        cases hself
      · intro h
        cases h

end Lookup

/-! ### One name -/

section Scan

variable {d : Directory} {nick : Text} {now : UInt64} {bs : List Block} {top : Bytes}

/-- The live entries before and after the lookup of a name: the one with the name is new, or took the
place of one, and it has the size. -/
def Looked (name : Text) (size : ℕ) (live live' : List Entry) : Prop :=
  ∃ rest e', live'.Perm (e' :: rest) ∧ isNamed name e' = true ∧ e'.size = UInt32.ofNat size ∧
    ((live.Perm rest ∧ ∀ e ∈ rest, isNamed name e = false) ∨
      ∃ e, isNamed name e = true ∧ live.Perm (e :: rest))

theorem newEntry_used (nick : Text) (now : UInt64) (name : Text) (st : FileStat) :
    unused (newEntry nick now name st).stat = false := by
  show unused (if st.isDir then 2 else 0) = false
  cases st.isDir
  · decide
  · decide

theorem newEntry_data (nick : Text) (now : UInt64) (name : Text) (st : FileStat) :
    (newEntry nick now name st).data.length = name.1.length + nick.1.length + 2 := by
  simp only [Entry.data, newEntry, Fields.all, Fields.toList, flatMap_cons, flatMap_nil, textBytes,
    length_append, length_cons, length_nil]
  omega

/-- The name is looked up, and the file goes on as blocks. -/
theorem scanName_spec (d : Directory) (now : UInt64) (h : ∀ b ∈ bs, b.Ok)
    (htop : top.length = topSize) {name : Text}
    (hdot : isDot name = false) (hlen : name.1.length + nick.1.length + 2 ≤ 65535)
    (hapt : Apt name (entries bs)) (st : FileStat) :
    ∃ bs', (scanName d nick now (top ++ flat bs, st) name).1 = top ++ flat bs' ∧
      (∀ b ∈ bs', b.Ok) ∧ Looked name ((d.stat name).getD st).size (entries bs) (entries bs') := by
  have hlaid : Laid (top ++ flat bs) bs := ⟨⟨top, htop, rfl⟩, h⟩
  have hfinds := (lookup_iff hlaid name).2 (by rwa [hlaid.liveOf_eq])
  rw [Finds, hlaid.liveOf_eq] at hfinds
  rw [scanName, if_neg (by simp [hdot])]
  dsimp only
  rcases getentry_spec h htop name with
    ⟨hnone, -⟩ | ⟨l, b, r, rfl, hused, -, -, hsome⟩
  · rw [hnone]
    obtain ⟨bs', hadd, hok', hperm, -⟩ := add_spec
      ((newEntry_data nick now name ((d.stat name).getD st)).trans_le hlen)
      (newEntry_used nick now name _) h htop
    exact ⟨bs', hadd, hok', entries bs, _, hperm, isNamed_iff.2 rfl, rfl,
      .inl ⟨.refl _, hfinds.2 hnone⟩⟩
  · have hnamed : isNamed name b.entry.norm = true := (hfinds.1 _ hsome).2
    have hold := entries_cons_append l hused r
    rw [hsome]
    dsimp only
    split
    · have hspace := (h b (mem_append_right _ mem_cons_self)).space
      obtain ⟨bs', hup, hok', hperm⟩ := @header_spec l r b h
        { b.fdbe .full (top ++ flat l).length with
          toEntry := { b.entry.norm with size := UInt32.ofNat ((d.stat name).getD st).size } }
        rfl (toNat_ofNat (by omega)) (toNat_ofNat (by omega)) rfl
        ((unused_linkStat _ _).trans hused) top
      exact ⟨bs', hup, hok', entries (l ++ r), _, hperm, hnamed, rfl, .inr ⟨_, hnamed, hold⟩⟩
    · next hsize =>
      have hsame : b.entry.norm.size = UInt32.ofNat ((d.stat name).getD st).size := by
        rw [← Decidable.not_not.1 hsize, UInt32.ofNat_toNat]
        rfl
      exact ⟨l ++ b :: r, rfl, h, entries (l ++ r), _, hold, hnamed, hsame, .inr ⟨_, hnamed, hold⟩⟩

/-- What holds of the entries when some of the names have been looked up. -/
structure Scanned (d : Directory) (done : List Text) (live : List Entry) : Prop where
  one : ∀ name st, d.IsReal name st → name ∈ done →
    ∃ e, live.filter (isNamed name) = [e] ∧ e.size.toNat = st.size
  few : ∀ name st, d.IsReal name st → (live.filter (isNamed name)).length ≤ 1
  named : ∀ e ∈ live, isLink e.stat = false → e.str.filename ≠ none

theorem Looked.filter_self {name : Text} {size : ℕ} {live live' : List Entry}
    (h : Looked name size live live') (hfew : (live.filter (isNamed name)).length ≤ 1) :
    ∃ e', live'.filter (isNamed name) = [e'] ∧ e'.size = UInt32.ofNat size := by
  obtain ⟨rest, e', hperm, hnamed, hsize, hold⟩ := h
  have hrest : rest.filter (isNamed name) = [] := by
    rcases hold with ⟨-, hno⟩ | ⟨e, he, hlive⟩
    · rw [filter_eq_nil_iff]
      intro e he
      rw [hno e he]
      exact Bool.false_ne_true
    · rw [(hlive.filter _).length_eq, filter_cons_of_pos he, length_cons] at hfew
      exact length_eq_zero_iff.1 (by omega)
  have hfilter := hperm.filter (isNamed name)
  rw [filter_cons_of_pos hnamed, hrest, perm_singleton] at hfilter
  exact ⟨e', hfilter, hsize⟩

theorem Looked.filter_other {name other : Text} {size : ℕ} {live live' : List Entry}
    (h : Looked name size live live') (hne : other ≠ name) :
    (live'.filter (isNamed other)).Perm (live.filter (isNamed other)) := by
  obtain ⟨rest, e', hperm, hnamed, -, hold⟩ := h
  have hno {e : Entry} (he : isNamed name e = true) : ¬ isNamed other e = true := by
    intro hother
    rw [isNamed_iff, isNamed_iff.1 he] at hother
    exact hne (Option.some.inj hother).symm
  have hfilter := hperm.filter (isNamed other)
  rw [filter_cons_of_neg (hno hnamed)] at hfilter
  rcases hold with ⟨hlive, -⟩ | ⟨e, he, hlive⟩
  · exact hfilter.trans (hlive.filter _).symm
  · have hlive := hlive.filter (isNamed other)
    rw [filter_cons_of_neg (hno he)] at hlive
    exact hfilter.trans hlive.symm

theorem Scanned.looked {name : Text} {st : FileStat} {done : List Text} {live live' : List Entry}
    (h : Scanned d done live) (hlooked : Looked name ((d.stat name).getD st).size live live')
    (hsize : ∀ name st, d.IsReal name st → st.size < 2 ^ 32) :
    Scanned d (done ++ [name]) live' := by
  have hself (st' : FileStat) (hreal : d.IsReal name st') :
      ∃ e, live'.filter (isNamed name) = [e] ∧ e.size.toNat = st'.size := by
    obtain ⟨e, he, hsz⟩ := hlooked.filter_self (h.few name st' hreal)
    refine ⟨e, he, ?_⟩
    rw [hsz, hreal.2.2, Option.getD_some]
    exact UInt32.toNat_ofNat_of_lt' (hsize name st' hreal)
  constructor
  · intro other st' hreal hmem
    by_cases hne : other = name
    · subst hne
      exact hself st' hreal
    · have hmem : other ∈ done := by simpa [hne] using hmem
      obtain ⟨e, he, hsz⟩ := h.one other st' hreal hmem
      have hperm := hlooked.filter_other hne
      rw [he, perm_singleton] at hperm
      exact ⟨e, hperm, hsz⟩
  · intro other st' hreal
    by_cases hne : other = name
    · subst hne
      obtain ⟨e, he, -⟩ := hself st' hreal
      rw [he]
      exact le_rfl
    · rw [(hlooked.filter_other hne).length_eq]
      exact h.few other st' hreal
  · intro e he hlink
    obtain ⟨rest, e', hperm, hnamed, -, hold⟩ := hlooked
    rcases mem_cons.1 (hperm.mem_iff.1 he) with rfl | he
    · rw [isNamed_iff.1 hnamed]
      exact Option.some_ne_none _
    · apply h.named e _ hlink
      rcases hold with ⟨hlive, -⟩ | ⟨e₀, -, hlive⟩
      · exact hlive.mem_iff.2 he
      · exact hlive.mem_iff.2 (mem_cons_of_mem _ he)

theorem Scanned.skipped {name : Text} {done : List Text} {live : List Entry} (h : Scanned d done live)
    (hdot : isDot name = true) : Scanned d (done ++ [name]) live := by
  refine ⟨fun other st hreal hmem => ?_, h.few, h.named⟩
  rcases mem_append.1 hmem with hmem | hmem
  · exact h.one other st hreal hmem
  · rw [← mem_singleton.1 hmem, hreal.2.1] at hdot
    cases hdot

/-- No entry is lost: not one of those with a name, nor one without. -/
structure Kept (live live' : List Entry) : Prop where
  count : ∀ name, (live.filter (isNamed name)).length ≤ (live'.filter (isNamed name)).length
  nameless : ∀ e ∈ live, e.str.filename = none → e ∈ live'

theorem Kept.trans {live live' live'' : List Entry} (h : Kept live live') (h' : Kept live' live'') :
    Kept live live'' :=
  ⟨fun name => (h.count name).trans (h'.count name),
    fun e he hnone => h'.nameless e (h.nameless e he hnone) hnone⟩

theorem Looked.kept {name : Text} {size : ℕ} {live live' : List Entry}
    (h : Looked name size live live') : Kept live live' := by
  constructor
  · intro other
    by_cases hne : other = name
    · subst hne
      obtain ⟨rest, e', hperm, hnamed, -, hold⟩ := h
      rw [(hperm.filter _).length_eq, filter_cons_of_pos hnamed, length_cons]
      rcases hold with ⟨hlive, -⟩ | ⟨e, he, hlive⟩
      · rw [(hlive.filter _).length_eq]
        exact Nat.le_succ _
      · rw [(hlive.filter _).length_eq, filter_cons_of_pos he, length_cons]
    · exact (h.filter_other hne).length_eq.ge
  · intro e he hnone
    obtain ⟨rest, e', hperm, -, -, hold⟩ := h
    rw [hperm.mem_iff]
    refine mem_cons_of_mem _ ?_
    rcases hold with ⟨hlive, -⟩ | ⟨e₀, he₀, hlive⟩
    · exact hlive.mem_iff.1 he
    · refine (mem_cons.1 (hlive.mem_iff.1 he)).resolve_left ?_
      rintro rfl
      rw [isNamed_iff, hnone] at he₀
      exact (Option.some_ne_none _ he₀.symm).elim

theorem entry_fits (hnick : nick.1.length ≤ 32) {name : Text} (hname : name ∈ d.names) :
    name.1.length + nick.1.length + 2 ≤ 65535 := by
  have := d.short name hname
  omega

/-- A lookup by a name that is apt, with the variable for `stat`. -/
theorem scanName_laid (hnick : nick.1.length ≤ 32) (h : ∀ b ∈ bs, b.Ok) (htop : top.length = topSize)
    {name : Text} (hname : name ∈ d.names) (hdot : isDot name = false)
    (hapt : Apt name (liveOf (top ++ flat bs))) (st : FileStat) :
    ∃ bs', scanName d nick now (top ++ flat bs, st) name =
        (top ++ flat bs', (scanName d nick now (top ++ flat bs, st) name).2) ∧
      (∀ b ∈ bs', b.Ok) ∧ Looked name ((d.stat name).getD st).size (entries bs) (entries bs') := by
  have hlaid : Laid (top ++ flat bs) bs := ⟨⟨top, htop, rfl⟩, h⟩
  rw [hlaid.liveOf_eq] at hapt
  obtain ⟨bs', hfile, hok', hlooked⟩ :=
    scanName_spec d now h htop hdot (entry_fits hnick hname) hapt st
  exact ⟨bs', Prod.ext hfile rfl, hok', hlooked⟩

theorem scanName_dot (s : Bytes × FileStat) {name : Text} (hdot : isDot name = true) :
    scanName d nick now s name = s := if_pos hdot

/-- The rule for the first loop: what is kept by each lookup holds when all names are done. -/
theorem scanNames_spec {P : List Text → List Entry → Prop} (hnick : nick.1.length ≤ 32)
    (hskipped : ∀ {done live name}, P done live → isDot name = true → P (done ++ [name]) live)
    (hlooked : ∀ {done live live' name} {st : FileStat}, P done live →
      Looked name ((d.stat name).getD st).size live live' → P (done ++ [name]) live')
    (htop : top.length = topSize) (names : List Text) (hnames : names ⊆ d.names) :
    ∀ (done : List Text) (bs : List Block) (st : FileStat), (∀ b ∈ bs, b.Ok) →
      AptAlong d nick now names (top ++ flat bs, st) → P done (entries bs) →
      ∃ bs', (names.foldl (scanName d nick now) (top ++ flat bs, st)).1 = top ++ flat bs' ∧
        (∀ b ∈ bs', b.Ok) ∧ P (done ++ names) (entries bs') := by
  induction names with
  | nil =>
    intro done bs st h _ hP
    rw [append_nil]
    exact ⟨bs, rfl, h, hP⟩
  | cons name names ih =>
    intro done bs st h hapt hP
    obtain ⟨hname, hnames⟩ := cons_subset.1 hnames
    obtain ⟨hfirst, hapt'⟩ := hapt
    rw [foldl_cons, append_cons]
    by_cases hdot : isDot name = true
    · rw [scanName_dot _ hdot] at hapt' ⊢
      exact ih hnames _ bs st h hapt' (hskipped hP hdot)
    · have hdot := eq_false_of_ne_true hdot
      obtain ⟨bs₁, hst, hok₁, hlook⟩ := scanName_laid hnick h htop hname hdot (hfirst hdot) st
      rw [hst] at hapt' ⊢
      exact ih hnames _ bs₁ _ hok₁ hapt' (hlooked hP hlook)

/-- The lookups are right exactly if the names are apt. -/
theorem findsAlong_iff (hnick : nick.1.length ≤ 32) (htop : top.length = topSize) (names : List Text)
    (hnames : names ⊆ d.names) : ∀ (bs : List Block) (st : FileStat), (∀ b ∈ bs, b.Ok) →
      (FindsAlong d nick now names (top ++ flat bs, st) ↔
        AptAlong d nick now names (top ++ flat bs, st)) := by
  induction names with
  | nil =>
    intro bs st _
    exact Iff.rfl
  | cons name names ih =>
    intro bs st h
    obtain ⟨hname, hnames⟩ := cons_subset.1 hnames
    have hlaid : Laid (top ++ flat bs) bs := ⟨⟨top, htop, rfl⟩, h⟩
    rw [FindsAlong, AptAlong]
    refine (and_congr_left' (imp_congr_right fun _ => lookup_iff hlaid name)).trans
      (and_congr_right fun hfirst => ?_)
    by_cases hdot : isDot name = true
    · rw [scanName_dot _ hdot]
      exact ih hnames bs st h
    · have hdot := eq_false_of_ne_true hdot
      obtain ⟨bs₁, hst, hok₁, -⟩ := scanName_laid hnick h htop hname hdot (hfirst hdot) st
      rw [hst]
      exact ih hnames bs₁ _ hok₁

end Scan

/-! ### Entries whose files are gone -/

section Sweep

variable {d : Directory}

def Block.swept (d : Directory) (b : Block) : Block :=
  if isStale d b.entry.norm.stat b.entry.str.filename = true then b.deleted else b

theorem length_deleted (b : Block) : b.deleted.bytes.length = b.bytes.length := by
  have hnone : b.deleted.entry.data = [] := data_none rfl
  rw [Block.length_bytes, Block.length_bytes, Block.size, Block.size, hnone]
  show headerSize + 0 + (b.entry.data ++ b.buf).length = _
  rw [length_append]
  omega

theorem staleLoop_spec {bs : List Block} (h : ∀ b ∈ bs, b.Ok) {fuel : ℕ} (hfuel : bs.length < fuel)
    (pre : Bytes) :
    staleLoop d fuel pre.length (pre ++ flat bs) = pre ++ flat (bs.map (Block.swept d)) := by
  induction bs generalizing fuel pre with
  | nil =>
    obtain ⟨fuel, rfl⟩ : ∃ k, fuel = k + 1 := ⟨fuel - 1, by rw [length_nil] at hfuel; omega⟩
    rw [staleLoop, flat_nil, getfile_eof .filename (by rw [append_nil])]
    rfl
  | cons b bs ih =>
    obtain ⟨fuel, rfl⟩ : ∃ k, fuel = k + 1 := ⟨fuel - 1, by rw [length_cons] at hfuel; omega⟩
    obtain ⟨hb, hbs⟩ := forall_mem_cons.1 h
    have hfuel' := Nat.lt_of_succ_lt_succ hfuel
    have hstat : (b.fdbe .filename pre.length).stat = b.entry.norm.stat := rfl
    have hname : (b.fdbe .filename pre.length).str.filename = b.entry.str.filename := rfl
    rw [staleLoop, getfile_cons hb .filename rfl]
    dsimp only
    rw [hstat, hname, map_cons, Block.swept]
    split
    · have hdel := (@delete_spec [] bs b h pre).1
      rw [flat_nil, append_nil, nil_append, nil_append] at hdel
      rw [show (b.fdbe .filename pre.length).pos = pre.length from rfl, hdel, flat_cons, flat_cons,
        ← append_assoc, ← append_assoc, ← ih hbs hfuel' (pre ++ b.deleted.bytes), length_append,
        length_append, length_deleted]
    · rw [flat_cons, flat_cons, ← append_assoc, ← append_assoc, ih hbs hfuel']

theorem entries_swept (bs : List Block) :
    entries (bs.map (Block.swept d)) =
      (entries bs).filter fun e => !isStale d e.stat e.str.filename := by
  induction bs with
  | nil => rfl
  | cons b bs ih =>
    rw [map_cons, Block.swept]
    by_cases hunused : unused b.entry.stat = true
    · have hstale : isStale d b.entry.norm.stat b.entry.str.filename = false := by
        have hstat : unused b.entry.norm.stat = true := (unused_linkStat _ _).trans hunused
        rw [isStale, hstat]
        rfl
      rw [if_neg (by rw [hstale]; exact Bool.false_ne_true), entries_unused hunused,
        entries_unused hunused, ih]
    · have hused := eq_false_of_ne_true hunused
      rw [entries_used hused]
      by_cases hstale : isStale d b.entry.norm.stat b.entry.str.filename = true
      · have hstale' : isStale d b.entry.norm.stat b.entry.norm.str.filename = true := hstale
        rw [if_pos hstale, entries_unused unused_one, filter_cons_of_neg (by simp [hstale']), ih]
      · have hstale' : isStale d b.entry.norm.stat b.entry.norm.str.filename = false :=
          eq_false_of_ne_true hstale
        rw [if_neg hstale, entries_used hused, filter_cons_of_pos (by simp [hstale']), ih]

theorem filter_named_stale {name : Text} {st : FileStat} (hstat : d.stat name = some st)
    (live : List Entry) :
    (live.filter fun e => !isStale d e.stat e.str.filename).filter (isNamed name) =
      live.filter (isNamed name) := by
  rw [filter_filter]
  apply filter_congr
  intro e _
  by_cases hnamed : isNamed name e = true
  · rw [hnamed, isNamed_iff.1 hnamed, isStale, Option.any_some, hstat]
    simp
  · rw [eq_false_of_ne_true hnamed, Bool.false_and]

theorem Scanned.inStep {live : List Entry} (h : Scanned d d.names live)
    (hused : ∀ e ∈ live, unused e.stat = false) :
    InStep d (live.filter fun e => !isStale d e.stat e.str.filename) := by
  constructor
  · intro name st hreal
    obtain ⟨e, he, hsize⟩ := h.one name st hreal hreal.1
    exact ⟨e, (filter_named_stale hreal.2.2 live).trans he, hsize⟩
  · intro e he hlink
    obtain ⟨hmem, hstale⟩ := mem_filter.1 he
    obtain ⟨s, hs⟩ := Option.ne_none_iff_exists'.1 (h.named e hmem hlink)
    refine ⟨s, hs, ?_⟩
    rw [isStale, hused e hmem, hlink, hs] at hstale
    cases hstat : d.stat s with
    | none => simp [hstat] at hstale
    | some st => rfl

theorem used_of_mem_entries {bs : List Block} {e : Entry} (h : e ∈ entries bs) :
    unused e.stat = false := by
  obtain ⟨b, hb, rfl⟩ := mem_map.1 h
  obtain ⟨-, hused⟩ := mem_filter.1 hb
  exact (unused_linkStat _ _).trans (by simpa using hused)

end Sweep

/-! ### The update as a whole -/

section Whole

variable {d : Directory} {nick : Text} {now : UInt64} {bs : List Block}

theorem timestamp_spec (time : UInt64) {top : Bytes} (htop : top.length = topSize) :
    ∃ top', top'.length = topSize ∧ timestamp time (top ++ flat bs) = top' ++ flat bs := by
  have hread : fread topSize 0 ([] ++ top ++ flat bs) = some top := fread_append rfl htop.symm
  have hlen : (top.take 8 ++ le 8 time.toNat).length = topSize := by
    rw [length_append, length_take, length_le, htop, topSize]
    rfl
  have hwrite : fwrite 0 (top.take 8 ++ le 8 time.toNat) ([] ++ top ++ flat bs) =
      [] ++ (top.take 8 ++ le 8 time.toNat) ++ flat bs :=
    fwrite_append rfl (htop.trans hlen.symm)
  rw [nil_append] at hread hwrite
  refine ⟨top.take 8 ++ le 8 time.toNat, hlen, ?_⟩
  rw [timestamp, hread, Option.getD_some]
  exact hwrite

theorem Laid.used_iff {bytes : Bytes} (h : Laid bytes bs) :
    (∀ f ∈ scanFile bytes, unused f.stat = false) ↔ ∀ b ∈ bs, unused b.entry.stat = false := by
  have hscan := @forall_mem_map _ _ Fdbe.space (scanFile bytes) fun x => x.1 = false
  rw [h.spaces_eq, forall_mem_map] at hscan
  exact hscan.symm

theorem Laid.liveFirst_iff {bytes : Bytes} (h : Laid bytes bs) :
    LiveFirst bytes ↔
      bs.Pairwise fun b c => unused b.entry.stat = true → unused c.entry.stat = true := by
  have hscan := @pairwise_map _ _ Fdbe.space (fun x y => x.1 = true → y.1 = true) (scanFile bytes)
  rw [h.spaces_eq, pairwise_map] at hscan
  exact hscan.symm

theorem Laid.used_of_cleanup {bytes bytes' : Bytes} (h : Laid bytes bs) (hfirst : LiveFirst bytes)
    (hclean : cleanup bytes = .ok bytes') : ∀ f ∈ scanFile bytes, unused f.stat = false := by
  rw [h.used_iff]
  by_contra hnot
  push Not at hnot
  obtain ⟨b, hb, hunused⟩ := hnot
  rw [Ne, Bool.not_eq_false] at hunused
  cases hfind : bs.find? fun b => unused b.entry.stat with
  | none => exact find?_eq_none.1 hfind b hb hunused
  | some u =>
    obtain ⟨hu, l, r, rfl, hl⟩ := find?_eq_some_iff_append.1 hfind
    have hr := (pairwise_cons.1 (pairwise_append.1 (h.liveFirst_iff.1 hfirst)).2.1).1
    obtain ⟨top, htop, rfl⟩ := h.flat_eq
    rw [clean_loops h.ok (fun b hb => by simpa using hl b hb)
      (forall_mem_cons.2 ⟨hu, fun c hc => hr c hc hu⟩) htop] at hclean
    cases hclean

theorem swept_eq {top : Bytes} (htop : top.length = topSize) {st : FileStat} {bytes : Bytes}
    {bs₁ : List Block} (hfile : (d.names.foldl (scanName d nick now) (bytes, st)).1 = top ++ flat bs₁)
    (h : ∀ b ∈ bs₁, b.Ok) :
    swept d nick now st bytes = top ++ flat (bs₁.map (Block.swept d)) ∧
      ∀ b ∈ bs₁.map (Block.swept d), b.Ok := by
  constructor
  · rw [swept, hfile, ← htop]
    exact staleLoop_spec h (flat_fuel (by rw [htop]; decide) bs₁) top
  · intro b hb
    obtain ⟨b₁, hb₁, rfl⟩ := mem_map.1 hb
    rw [Block.swept]
    split
    · exact b₁.deleted_ok (h b₁ hb₁)
    · exact h b₁ hb₁

theorem update_eq {top bytes : Bytes} (htop : top.length = topSize) {st : FileStat} {sort : Bool}
    {bs₂ : List Block} (hopen : d.opened = true)
    (hswept : swept d nick now st bytes = top ++ flat bs₂) (h : ∀ b ∈ bs₂, b.Ok)
    (hused : sort = true → ∀ f ∈ scanFile (swept d nick now st bytes), unused f.stat = false)
    (time : UInt64) :
    ∃ bytes', update d nick now time sort st bytes = .ok bytes' ∧ Laid bytes' bs₂ := by
  have hlaid : Laid (top ++ flat bs₂) bs₂ := ⟨⟨top, htop, rfl⟩, h⟩
  obtain ⟨top', htop', htime⟩ := @timestamp_spec bs₂ time top htop
  refine ⟨top' ++ flat bs₂, ?_, ⟨top', htop', rfl⟩, h⟩
  rw [hswept] at hused
  rw [update, if_pos hopen, hswept]
  dsimp only
  split
  · next hsort =>
    rw [clean_spec h (hlaid.used_iff.1 (hused hsort)) htop]
    exact congrArg Except.ok htime
  · exact congrArg Except.ok htime

theorem right_of_suited {bytes : Bytes} (hlaid : Laid bytes bs) (hnick : nick.1.length ≤ 32)
    (hopen : d.opened = true) {sort : Bool} {st : FileStat} (h : Suited d nick now sort st bytes)
    (time : UInt64) : Right d nick now time sort st bytes := by
  have hstart : Scanned d [] (entries bs) := by
    rw [← hlaid.liveOf_eq]
    exact ⟨fun name st _ hmem => absurd hmem not_mem_nil, h.single, h.named⟩
  have hapt := h.apt
  have hused := h.used
  obtain ⟨top, htop, rfl⟩ := hlaid.flat_eq
  refine ⟨fun _ => (findsAlong_iff hnick htop _ (Subset.refl _) bs st hlaid.ok).2 hapt, ?_⟩
  obtain ⟨bs₁, hfile₁, hok₁, hscanned⟩ := scanNames_spec hnick Scanned.skipped
    (fun hs hl => hs.looked hl h.size) htop d.names (Subset.refl _) [] bs st hlaid.ok hapt hstart
  obtain ⟨hswept, hok₂⟩ := swept_eq htop hfile₁ hok₁
  obtain ⟨bytes', hup, hlaid'⟩ := update_eq htop hopen hswept hok₂ hused time
  refine ⟨bytes', hup, ⟨_, hlaid'⟩, ?_⟩
  rw [hlaid'.liveOf_eq, entries_swept]
  exact hscanned.inStep fun e he => used_of_mem_entries he

theorem suited_of_right {bytes : Bytes} (hlaid : Laid bytes bs) (hnick : nick.1.length ≤ 32)
    (hopen : d.opened = true) {time : UInt64} {sort : Bool} {st : FileStat}
    (hfirst : sort = true → LiveFirst (swept d nick now st bytes))
    (h : Right d nick now time sort st bytes) : Suited d nick now sort st bytes := by
  obtain ⟨hfinds, bytes', hup, -, hstep⟩ := h
  have hlive := hlaid.liveOf_eq
  obtain ⟨top, htop, rfl⟩ := hlaid.flat_eq
  have hapt := (findsAlong_iff hnick htop _ (Subset.refl _) bs st hlaid.ok).1 (hfinds hopen)
  have hself : Kept (entries bs) (entries bs) := ⟨fun _ => Nat.le_refl _, fun _ he _ => he⟩
  obtain ⟨bs₁, hfile₁, hok₁, hkept⟩ := scanNames_spec (P := fun _ live => Kept (entries bs) live)
    hnick (fun h _ => h) (fun h hlooked => h.trans hlooked.kept) htop d.names (Subset.refl _) [] bs st
    hlaid.ok hapt hself
  obtain ⟨hswept, hok₂⟩ := swept_eq htop hfile₁ hok₁
  have hused (hsort : sort = true) :
      ∀ f ∈ scanFile (swept d nick now st (top ++ flat bs)), unused f.stat = false := by
    have hlaid₂ : Laid (swept d nick now st (top ++ flat bs)) (bs₁.map (Block.swept d)) :=
      ⟨⟨top, htop, hswept⟩, hok₂⟩
    rw [update, if_pos hopen, if_pos hsort] at hup
    cases hclean : cleanup (swept d nick now st (top ++ flat bs)) with
    | error e =>
      rw [hclean] at hup
      cases hup
    | ok cleaned => exact hlaid₂.used_of_cleanup (hfirst hsort) hclean
  obtain ⟨bytes'', hup', hlaid'⟩ := update_eq htop hopen hswept hok₂ hused time
  obtain rfl := Except.ok.inj (hup.symm.trans hup')
  rw [hlaid'.liveOf_eq, entries_swept] at hstep
  refine ⟨fun name st hreal => ?_, fun name st hreal => ?_, fun e he hlink hnone => ?_, hapt, hused⟩
  · obtain ⟨e, -, hsize⟩ := hstep.one name st hreal
    rw [← hsize]
    exact e.size.toNat_lt
  · obtain ⟨e, he, -⟩ := hstep.one name st hreal
    have hcount := hkept.count name
    rw [filter_named_stale hreal.2.2] at he
    rwa [he, ← hlive] at hcount
  · rw [hlive] at he
    have hstays : e ∈ (entries bs₁).filter fun e => !isStale d e.stat e.str.filename := by
      rw [mem_filter, isStale, hnone]
      exact ⟨hkept.nameless e he hnone, by simp⟩
    obtain ⟨s, hs, -⟩ := hstep.real e hstays hlink
    rw [hnone] at hs
    cases hs

end Whole

/-- Of a database that is well-formed: a name that is looked up finds the entry with the name, and only
that, exactly if it is apt; and an update is right if the database and the directory are ready for it,
and only then, but where the clean-up finds unused entries before live ones. -/
theorem update_iff (d : Directory) (nick : Text) (now time : UInt64) (sort : Bool) (st : FileStat)
    (bytes : Bytes) (hlaid : ∃ bs, Laid bytes bs) (hnick : nick.1.length ≤ 32) :
    (∀ fn : Text, fn.1 ≠ [] → (Finds fn bytes ↔ Apt fn (liveOf bytes))) ∧
    (Ready d nick now sort st bytes → Right d nick now time sort st bytes) ∧
    ((d.opened = true → sort = true → LiveFirst (swept d nick now st bytes)) →
      Right d nick now time sort st bytes → Ready d nick now sort st bytes) := by
  obtain ⟨bs, hlaid⟩ := hlaid
  refine ⟨fun fn _ => lookup_iff hlaid fn, ?_⟩
  rw [Ready]
  split
  · next hopen =>
    exact ⟨fun h => right_of_suited hlaid hnick hopen h time,
      fun hfirst h => suited_of_right hlaid hnick hopen (hfirst hopen) h⟩
  · next hclosed =>
    have hsame : update d nick now time sort st bytes = .ok bytes := if_neg hclosed
    refine ⟨fun h => ⟨fun hopen => absurd hopen hclosed, bytes, hsame, ⟨bs, hlaid⟩, h⟩, ?_⟩
    rintro - ⟨-, bytes', hup, -, hstep⟩
    obtain rfl := Except.ok.inj (hsame.symm.trans hup)
    exact hstep

theorem apt_of_exact {fn : Text} {live : List Entry}
    (h : ∀ e ∈ live, takes fn e.str.filename = isNamed fn e) : Apt fn live := by
  constructor
  · rintro l e r rfl - htakes
    rw [← h e (by simp), htakes]
  · intro e he hnamed
    rw [← isNamed_iff.1 hnamed, h e he, hnamed]

def textB : Text := ⟨[98], by decide⟩

def textCD : Text := ⟨[99, 100], by decide⟩

/-- A directory with a file `b` of 12 bytes and a file `cd` of seven. -/
def grown : Directory where
  opened := true
  names := [⟨[46], by decide⟩, textB, textCD]
  stat s := if s = textB then some ⟨12, false⟩ else if s = textCD then some ⟨7, false⟩ else none
  nonempty := by decide
  short := by decide

/-- A database with an entry for `b`, with ten bytes. -/
def oneFile : Bytes := addfile fileB emptyDb.file

theorem laid_oneFile : ∃ bs, Laid oneFile bs := by
  obtain ⟨bs', hfile, hok, -⟩ := @add_spec fileB (by decide) (by decide) []
    (fun b hb => absurd hb not_mem_nil) (replicate topSize 0) rfl
  refine ⟨bs', ⟨replicate topSize 0, rfl, ?_⟩, hok⟩
  rw [flat_nil, append_nil] at hfile
  exact hfile

theorem suited_grown : Suited grown textB 0 true ⟨0, false⟩ oneFile where
  size name st hreal := by
    have hstat := hreal.2.2
    simp only [grown] at hstat
    split_ifs at hstat <;> cases hstat <;> decide
  single name st _ := (length_filter_le _ _).trans (by decide +kernel)
  named := by decide +kernel
  apt := by
    refine ⟨fun hdot => absurd hdot (by decide), fun _ => apt_of_exact ?_, fun _ => apt_of_exact ?_,
      trivial⟩
    · decide +kernel
    · decide +kernel
  used := by decide +kernel

/-- A file has grown, and one is new. -/
theorem update_iff_grown :
    (∀ fn : Text, fn.1 ≠ [] → (Finds fn oneFile ↔ Apt fn (liveOf oneFile))) ∧
      Right grown textB 0 0 true ⟨0, false⟩ oneFile := by
  obtain ⟨hfinds, hright, -⟩ :=
    update_iff grown textB 0 0 true ⟨0, false⟩ oneFile laid_oneFile (by decide)
  refine ⟨hfinds, hright ?_⟩
  have hopen : grown.opened = true := rfl
  rw [Ready, if_pos hopen]
  exact suited_grown

def textAA : Text := ⟨[97, 97], by decide⟩

def textA : Text := ⟨[97], by decide⟩

/-- A directory with the files `aa` and `a`, of one byte and of two. -/
def twoFiles : Directory where
  opened := true
  names := [textAA, textA]
  stat s := if s = textAA then some ⟨1, false⟩ else if s = textA then some ⟨2, false⟩ else none
  nonempty := by decide
  short := by decide

/-- The entry of `aa` is taken for that of `a`. -/
theorem not_update : ¬ ∀ (d : Directory) (nick : Text) (now time : UInt64) (sort : Bool) (st : FileStat)
    (bytes : Bytes), (∃ bs, Laid bytes bs) → d.opened = true →
      ∀ bytes', update d nick now time sort st bytes = .ok bytes' → InStep d (liveOf bytes') := by
  intro h
  have hcount : (update twoFiles textA 0 0 false ⟨0, false⟩ emptyDb.file).toOption.map
      (fun bytes => ((liveOf bytes).filter (isNamed textA)).length) = some 0 := by decide +kernel
  cases hrun : update twoFiles textA 0 0 false ⟨0, false⟩ emptyDb.file with
  | error e =>
    rw [hrun] at hcount
    cases hcount
  | ok bytes' =>
    rw [hrun] at hcount
    have hin := h twoFiles textA 0 0 false ⟨0, false⟩ emptyDb.file emptyDb_stored.laid rfl bytes' hrun
    have hreal : twoFiles.IsReal textA ⟨2, false⟩ := ⟨by decide, by decide, rfl⟩
    obtain ⟨e, he, -⟩ := hin.one textA ⟨2, false⟩ hreal
    have hlength : ((liveOf bytes').filter (isNamed textA)).length = 0 := Option.some.inj hcount
    rw [he] at hlength
    cases hlength

end Eggdrop.Files.Filedb
