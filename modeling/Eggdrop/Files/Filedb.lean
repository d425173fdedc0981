import Eggdrop.Lib.ByteFile
import Eggdrop.Lib.Run
import Mathlib.Data.List.TakeWhile

/-!
# Filedb — the file database of a directory (filesys.mod/filedb3.c)

The file is a top header and then entries: a header, the strings and spare space.  Deleted entries are
marked and used again; `filedb_mergeempty` joins those that follow each other and `filedb_cleanup`
throws them out.

The position of the file is given to the functions and comes back from them.
-/

open List

namespace Eggdrop.Files.Filedb

open ByteFile

abbrev Bytes := List UInt8

/-! ### Entries -/

/-- The text of a `char *`. -/
abbrev Text := {s : Bytes // (0 : UInt8) ∉ s}

/-- What there is once for each string of an entry, in the order of the file. -/
structure Fields (α : Type) where
  filename : α
  desc : α
  chan : α
  uploader : α
  flags_req : α
  sharelink : α
deriving DecidableEq

namespace Fields

variable {α β : Type}

def toList (f : Fields α) : List α :=
  [f.filename, f.desc, f.chan, f.uploader, f.flags_req, f.sharelink]

def map (g : α → β) (f : Fields α) : Fields β :=
  ⟨g f.filename, g f.desc, g f.chan, g f.uploader, g f.flags_req, g f.sharelink⟩

/-- The same for all. -/
def all (a : α) : Fields α := ⟨a, a, a, a, a, a⟩

end Fields

/-- What an entry tells of a file. -/
structure Entry where
  uploaded : UInt64
  size : UInt32
  stat : UInt16
  gots : UInt16
  str : Fields (Option Text)
deriving DecidableEq

/-- `filedb_entry`; `exist` is `TYPE_EXIST`. -/
structure Fdbe extends Entry where
  exist : Bool
  pos : ℕ
  dyn_len : UInt16
  buf_len : UInt16
deriving DecidableEq

/-- `filedb_header`; `pad` are the two bytes after its fields. -/
structure Header where
  uploaded : UInt64
  size : UInt32
  stat : UInt16
  gots : UInt16
  len : Fields UInt16
  buffer_len : UInt16
  pad : UInt16
deriving DecidableEq

/-- `stat & FILE_UNUSED`. -/
def unused (stat : UInt16) : Bool := stat.toNat.testBit 0

/-- `FILE_ISLINK` is set if and only if there is a share link. -/
def linkStat (stat : UInt16) (link : Bool) : UInt16 :=
  if link then stat ||| 0x10 else stat &&& 0xffef

/-- `sizeof(filedb_header)`. -/
def headerSize : ℕ := 32

/-- `sizeof(filedb_top)`. -/
def topSize : ℕ := 16

/-- `FILEDB_ESTDYN`. -/
def estdyn : ℕ := 50

/-- The bytes of a header. -/
def Header.bytes (h : Header) : Bytes :=
  le 8 h.uploaded.toNat ++ le 4 h.size.toNat ++ le 2 h.stat.toNat ++ le 2 h.gots.toNat ++
    le 2 h.len.filename.toNat ++ le 2 h.len.desc.toNat ++ le 2 h.len.sharelink.toNat ++
    le 2 h.len.chan.toNat ++ le 2 h.len.uploader.toNat ++ le 2 h.len.flags_req.toNat ++
    le 2 h.buffer_len.toNat ++ le 2 h.pad.toNat

/-- The number in `k` bytes from `off`. -/
def numAt (off k : ℕ) (d : Bytes) : ℕ := leNat ((d.drop off).take k)

def u16At (off : ℕ) (d : Bytes) : UInt16 := UInt16.ofNat (numAt off 2 d)

/-- The header in 32 bytes. -/
def Header.ofBytes (d : Bytes) : Header where
  uploaded := UInt64.ofNat (numAt 0 8 d)
  size := UInt32.ofNat (numAt 8 4 d)
  stat := u16At 12 d
  gots := u16At 14 d
  len := ⟨u16At 16 d, u16At 18 d, u16At 22 d, u16At 24 d, u16At 26 d, u16At 20 d⟩
  buffer_len := u16At 28 d
  pad := u16At 30 d

def freadHeader (pos : ℕ) (bytes : Bytes) : Option Header :=
  (fread headerSize pos bytes).map Header.ofBytes

/-- `filedb_tot_dynspace`. -/
def totDynspace (len : Fields UInt16) : ℕ := (len.toList.map UInt16.toNat).sum

/-- The length of a string with its NUL, in the type of a header; 0 if there is none. -/
def strLen : Option Text → UInt16
  | none => 0
  | some s => UInt16.ofNat (s.1.length + 1)

/-- A string with its NUL. -/
def textBytes : Option Text → Bytes
  | none => []
  | some s => s.1 ++ [0]

/-- The string in a buffer. -/
def cstr (d : Bytes) : Text :=
  ⟨d.takeWhile (· ≠ 0), fun h => by simpa using mem_takeWhile_imp h⟩

/-! ### Reading -/

/-- What `filedb_getfile` is to read. -/
inductive Get
  | header
  | filename
  | full
deriving DecidableEq

/-- `filedb_read`, and the position after it. -/
def filedbRead (len : UInt16) (pos : ℕ) (bytes : Bytes) : Option (Option Text × ℕ) :=
  if len = 0 then some (none, pos)
  else (fread len.toNat pos bytes).map fun d => (some (cstr d), pos + len.toNat)

/-- The strings that `filedb_getfile` reads, from the position after the header. -/
def readFields (get : Get) (fdh : Header) (pos : ℕ) (bytes : Bytes) :
    Option (Fields (Option Text)) := do
  if get = .header then some (.all none)
  else
    let (filename, pos) ← filedbRead fdh.len.filename pos bytes
    if get ≠ .full ∨ unused fdh.stat then some { Fields.all none with filename := filename }
    else
      let (desc, pos) ← filedbRead fdh.len.desc pos bytes
      let (chan, pos) ← filedbRead fdh.len.chan pos bytes
      let (uploader, pos) ← filedbRead fdh.len.uploader pos bytes
      let (flags_req, pos) ← filedbRead fdh.len.flags_req pos bytes
      let (sharelink, _) ← filedbRead fdh.len.sharelink pos bytes
      some ⟨filename, desc, chan, uploader, flags_req, sharelink⟩

/-- `filedb_getfile`, and the position after the entry. -/
def getfile (get : Get) (pos : ℕ) (bytes : Bytes) : Option (Fdbe × ℕ) := do
  let fdh ← freadHeader pos bytes
  let str ← readFields get fdh (pos + headerSize) bytes
  some (
    { uploaded := fdh.uploaded, size := fdh.size
      stat := linkStat fdh.stat (0 < fdh.len.sharelink), gots := fdh.gots, str := str
      exist := true, pos := pos, dyn_len := UInt16.ofNat (totDynspace fdh.len)
      buf_len := fdh.buffer_len },
    pos + headerSize + totDynspace fdh.len + fdh.buffer_len.toNat)

/-- The loop of `filedb_matchfile`; `fuel` is for the entries that are left. -/
def matchLoop (matches_ : Option Text → Bool) : ℕ → ℕ → Bytes → Option (Fdbe × ℕ)
  | 0, _, _ => none
  | fuel + 1, pos, bytes =>
    match getfile .filename pos bytes with
    | none => none
    | some (fdbe, next) =>
      if !unused fdbe.stat && matches_ fdbe.str.filename then getfile .full pos bytes
      else matchLoop matches_ fuel next bytes

/-- `filedb_matchfile` from a position; `matches_` is `wild_match_file` with the mask. -/
def matchfile (matches_ : Option Text → Bool) (pos : ℕ) (bytes : Bytes) : Option (Fdbe × ℕ) :=
  matchLoop matches_ bytes.length pos bytes

/-- The match after `n` others, as the loops of the commands find it. -/
def matchNth (matches_ : Option Text → Bool) : ℕ → ℕ → Bytes → Option (Fdbe × ℕ)
  | 0, pos, bytes => matchfile matches_ pos bytes
  | n + 1, pos, bytes =>
    match matchfile matches_ pos bytes with
    | none => none
    | some (_, next) => matchNth matches_ n next bytes

/-! ### Writing -/

/-- `filedb_delfile`. -/
def delfile (pos : ℕ) (bytes : Bytes) : Bytes :=
  match freadHeader pos bytes with
  | none => bytes
  | some fdh =>
    let fdh :=
      { fdh with
        stat := 1, len := .all 0
        buffer_len := UInt16.ofNat (fdh.buffer_len.toNat + totDynspace fdh.len) }
    fwrite pos fdh.bytes bytes

inductive Update
  | header
  | size
  | all
deriving DecidableEq

/-- The end of `_filedb_updatefile`: the header and the strings are written.  The lengths are those
of the strings, and the position comes after the data and the buffer. -/
def place (pos : ℕ) (update : Update) (ndyntot nbuftot : ℕ) (fdbe : Fdbe) (bytes : Bytes) :
    Bytes × ℕ :=
  let fdh : Header :=
    ⟨fdbe.uploaded, fdbe.size, fdbe.stat, fdbe.gots, fdbe.str.map strLen, UInt16.ofNat nbuftot, 0⟩
  let data := fdbe.str.toList.flatMap fun s => (textBytes s).take (strLen s).toNat
  let bytes := fwrite pos (if update = .all then fdh.bytes ++ data else fdh.bytes) bytes
  (bytes, pos + headerSize + ndyntot + nbuftot)

/-- `_filedb_updatefile` of an existing entry with `UPDATE_ALL` that stays where it is. -/
def placeHere (pos : ℕ) (fdbe : Fdbe) (bytes : Bytes) : Bytes × ℕ :=
  let ndyntot := totDynspace (fdbe.str.map strLen)
  place pos .all ndyntot (fdbe.dyn_len.toNat + fdbe.buf_len.toNat - ndyntot) fdbe bytes

/-- The loop of `filedb_findempty`: a position, the space there, and the file. -/
def findLoop (tot : ℕ) : ℕ → ℕ → Bytes → ℕ × ℕ × Bytes
  | 0, _, bytes => (bytes.length, 0, bytes)
  | fuel + 1, pos, bytes =>
    match getfile .header pos bytes with
    | none => (bytes.length, 0, bytes)
    | some (fdbe, next) =>
      if unused fdbe.stat ∧ tot ≤ fdbe.buf_len.toNat then
        if tot + headerSize + estdyn < fdbe.buf_len.toNat then
          -- the rest is an empty entry without data: it is written where it is
          let fdbe_oe : Fdbe :=
            { uploaded := 0, size := 0, stat := 1, gots := 0, str := .all none, exist := true
              pos := fdbe.pos + headerSize + tot, dyn_len := 0
              buf_len := UInt16.ofNat (fdbe.buf_len.toNat - tot - headerSize) }
          (fdbe.pos, tot, (placeHere fdbe_oe.pos fdbe_oe bytes).1)
        else (fdbe.pos, fdbe.buf_len.toNat, bytes)
      else findLoop tot fuel next bytes

/-- `filedb_findempty`. -/
def findempty (tot : ℕ) (bytes : Bytes) : ℕ × ℕ × Bytes := findLoop tot bytes.length topSize bytes

/-- The part of `_filedb_updatefile` that looks for a new home. -/
def reposition (update : Update) (fdbe : Fdbe) (bytes : Bytes) : Bytes × ℕ :=
  let ndyntot := totDynspace (fdbe.str.map strLen)
  let (pos, buf_len, bytes) := findempty ndyntot bytes
  place pos update ndyntot (if 0 < buf_len then buf_len - ndyntot else 0) fdbe bytes

/-- `_filedb_updatefile`; `POS_NEW` is 0. -/
def updatefile (pos : ℕ) (fdbe : Fdbe) (update : Update) (bytes : Bytes) : Bytes × ℕ :=
  let ndyntot := totDynspace (fdbe.str.map strLen)
  if fdbe.exist then
    match update with
    | .header => place pos update fdbe.dyn_len.toNat fdbe.buf_len.toNat fdbe bytes
    | .size => place pos update ndyntot fdbe.buf_len.toNat fdbe bytes
    | .all =>
      if pos ≠ 0 ∧ ndyntot ≤ fdbe.dyn_len.toNat + fdbe.buf_len.toNat then placeHere pos fdbe bytes
      else reposition update fdbe (if pos ≠ 0 then delfile pos bytes else bytes)
  else reposition update fdbe bytes

/-- `_filedb_movefile`. -/
def movefile (pos : ℕ) (fdbe : Fdbe) (bytes : Bytes) : Bytes × ℕ :=
  updatefile pos { fdbe with exist := true } .all bytes

/-- `_filedb_addfile`. -/
def addfile (e : Entry) (bytes : Bytes) : Bytes :=
  (updatefile 0 { e with exist := false, pos := 0, dyn_len := 0, buf_len := 0 } .all bytes).1

/-! ### Compaction -/

/-- The inner loop of `filedb_mergeempty` with the space so far: the space, whether entries were
joined, and where the next entry is and what comes after it; `none` at the end of the file. -/
def mergeInner : ℕ → ℕ → UInt16 → Bool → Bytes → UInt16 × Bool × Option ℕ
  | 0, _, buf_len, modified, _ => (buf_len, modified, none)
  | fuel + 1, pos, buf_len, modified, bytes =>
    match getfile .header pos bytes with
    | none => (buf_len, modified, none)
    | some (fdbe_i, next) =>
      if unused fdbe_i.stat then
        mergeInner fuel next
          (UInt16.ofNat (buf_len.toNat + (headerSize + fdbe_i.buf_len.toNat))) true bytes
      else (buf_len, modified, some next)

/-- The loop of `filedb_mergeempty`. -/
def mergeLoop : ℕ → ℕ → Bytes → Bytes
  | 0, _, bytes => bytes
  | fuel + 1, pos, bytes =>
    match getfile .header pos bytes with
    | none => bytes
    | some (fdbe_t, next) =>
      if unused fdbe_t.stat then
        match mergeInner bytes.length next fdbe_t.buf_len false bytes with
        | (_, _, none) => ftruncate fdbe_t.pos bytes
        | (buf_len, true, some _) =>
          let (bytes, pos) := updatefile fdbe_t.pos { fdbe_t with buf_len := buf_len } .size bytes
          mergeLoop fuel pos bytes
        | (_, false, some next) => mergeLoop fuel next bytes
      else mergeLoop fuel next bytes

/-- `filedb_mergeempty`. -/
def mergeempty (bytes : Bytes) : Bytes := mergeLoop bytes.length topSize bytes

/-- The inner loop of `filedb_cleanup`: live entries are moved to `oldpos`. -/
def cleanInner : ℕ → ℕ → ℕ → Bytes → ℕ × Bytes
  | 0, oldpos, _, bytes => (oldpos, bytes)
  | fuel + 1, oldpos, newpos, bytes =>
    match getfile .full newpos bytes with
    | none => (oldpos, bytes)
    | some (fdbe, next) =>
      if !unused fdbe.stat then
        let (bytes, oldpos) := movefile oldpos fdbe bytes
        cleanInner fuel oldpos next bytes
      else cleanInner fuel oldpos next bytes

/-- The loop has no end. -/
inductive Fault
  | loops
deriving DecidableEq

/-- The loop of `filedb_cleanup`.  When a round has moved nothing, the next one does the same. -/
def cleanLoop : ℕ → ℕ → Bytes → Except Fault Bytes
  | 0, _, _ => .error .loops
  | fuel + 1, oldpos, bytes =>
    match getfile .header oldpos bytes with
    | none => .ok (ftruncate oldpos bytes)
    | some (fdbe, next) =>
      if unused fdbe.stat then
        let (newpos, bytes) := cleanInner bytes.length oldpos next bytes
        if newpos = oldpos then .error .loops else cleanLoop fuel newpos bytes
      else cleanLoop fuel next bytes

/-- `filedb_cleanup`. -/
def cleanup (bytes : Bytes) : Except Fault Bytes := cleanLoop (bytes.length + 1) topSize bytes

/-! ### Operations -/

/-- What the commands do; an entry is found with a mask, after `n` other matches. -/
inductive Op
  | add (e : Entry)
  /-- an entry gets new contents -/
  | update (matches_ : Option Text → Bool) (n : ℕ) (f : Entry → Entry)
  /-- an entry gets new numbers -/
  | header (matches_ : Option Text → Bool) (n : ℕ) (f : Entry → Entry)
  | delete (matches_ : Option Text → Bool) (n : ℕ)
  /-- a new entry takes the place of one -/
  | move (matches_ : Option Text → Bool) (n : ℕ) (f : Entry → Entry)
  | mergeempty
  | cleanup

/-- The new numbers of an entry. -/
def withStr (f : Entry → Entry) (e : Entry) : Entry := { f e with str := e.str }

/-- The file after an operation, and the entry that it was for. -/
def runOp (op : Op) (bytes : Bytes) : Except Fault (Bytes × Option Entry) :=
  match op with
  | .add e => .ok (addfile e bytes, none)
  | .update m n f =>
    match matchNth m n topSize bytes with
    | none => .ok (bytes, none)
    | some (fdbe, _) =>
      .ok ((updatefile fdbe.pos { fdbe with toEntry := f fdbe.toEntry } .all bytes).1,
        some fdbe.toEntry)
  | .header m n f =>
    match matchNth m n topSize bytes with
    | none => .ok (bytes, none)
    | some (fdbe, _) =>
      .ok ((updatefile fdbe.pos { fdbe with toEntry := withStr f fdbe.toEntry } .header bytes).1,
        some fdbe.toEntry)
  | .delete m n =>
    match matchNth m n topSize bytes with
    | none => .ok (bytes, none)
    | some (fdbe, _) => .ok (delfile fdbe.pos bytes, some fdbe.toEntry)
  | .move m n f =>
    match matchNth m n topSize bytes with
    | none => .ok (bytes, none)
    | some (fdbe, _) =>
      .ok (delfile fdbe.pos (addfile (f fdbe.toEntry) bytes), some fdbe.toEntry)
  | .mergeempty => .ok (mergeempty bytes, none)
  | .cleanup => do
    let bytes ← cleanup bytes
    .ok (bytes, none)

end Eggdrop.Files.Filedb
