import Eggdrop.Files.Filedb
import Mathlib.Data.List.Perm.Basic

/-!
# FiledbLayout — the entries in the file (filesys.mod/filedb3.c)

A well-formed file is the top header and then blocks: a header, the strings of an entry and spare space.
Reading and writing at a block are described in terms of blocks.

* `getfile_block`: an entry is read as it was written.
* `delfile_block`, `place_over`, `place_end`: what writing does to the blocks.
-/

open List

namespace Eggdrop.Files.Filedb

open ByteFile

/-! ### Headers -/

theorem numAt_le {k n : ℕ} (h : n < 256 ^ k) (post : Bytes) : numAt 0 k (le k n ++ post) = n := by
  rw [numAt, drop_zero, take_left' (length_le k n), leNat_le h]

theorem numAt_skip {k n off j : ℕ} (h : k ≤ off) (post : Bytes) :
    numAt off j (le k n ++ post) = numAt (off - k) j post := by
  rw [numAt, numAt]
  congr 2
  obtain ⟨d, rfl⟩ : ∃ d, off = k + d := ⟨off - k, by omega⟩
  have hlen := length_le k n
  rw [Nat.add_sub_cancel_left, ← drop_drop, drop_left' hlen]

@[simp] theorem Header.length_bytes (h : Header) : h.bytes.length = headerSize := by
  simp [Header.bytes, headerSize]

theorem Header.ofBytes_bytes (h : Header) : Header.ofBytes h.bytes = h := by
  have h16 (n : UInt16) : n.toNat < 256 ^ 2 := n.toNat_lt
  have h32 : h.size.toNat < 256 ^ 4 := h.size.toNat_lt
  have h64 : h.uploaded.toNat < 256 ^ 8 := h.uploaded.toNat_lt
  have hlast : h.pad.toNat = numAt 0 2 (le 2 h.pad.toNat) := by
    rw [← append_nil (le 2 _), numAt_le (h16 _)]
  rw [Header.ofBytes, Header.bytes]
  simp only [append_assoc, u16At]
  simp [numAt_skip, numAt_le h64, numAt_le h32, numAt_le (h16 _), ← hlast]

/-! ### Blocks -/

/-- The strings of an entry in the file. -/
def Entry.data (e : Entry) : Bytes := e.str.toList.flatMap textBytes

/-- An entry as it is read: the flag for links follows the share link. -/
def Entry.norm (e : Entry) : Entry := { e with stat := linkStat e.stat e.str.sharelink.isSome }

/-- An entry in the file with the space after it. -/
structure Block where
  entry : Entry
  pad : UInt16
  buf : Bytes

namespace Block

def header (b : Block) : Header :=
  ⟨b.entry.uploaded, b.entry.size, b.entry.stat, b.entry.gots, b.entry.str.map strLen,
    UInt16.ofNat b.buf.length, b.pad⟩

def bytes (b : Block) : Bytes := b.header.bytes ++ (b.entry.data ++ b.buf)

def size (b : Block) : ℕ := headerSize + b.entry.data.length + b.buf.length

/-- The space is counted in 16 bits, and an unused entry has no data. -/
structure Ok (b : Block) : Prop where
  space : b.entry.data.length + b.buf.length ≤ 65535
  empty : unused b.entry.stat = true → b.entry.str = .all none

@[simp] theorem length_bytes (b : Block) : b.bytes.length = b.size := by
  rw [bytes, size, length_append, length_append, Header.length_bytes, Nat.add_assoc]

/-- The strings that are read of a block. -/
def strOf (b : Block) : Get → Fields (Option Text)
  | .header => .all none
  | .filename => { Fields.all none with filename := b.entry.str.filename }
  | .full => b.entry.str

/-- What `filedb_getfile` makes of a block. -/
def fdbe (b : Block) (get : Get) (pos : ℕ) : Fdbe :=
  { b.entry.norm with
    str := b.strOf get, exist := true, pos := pos
    dyn_len := UInt16.ofNat b.entry.data.length, buf_len := UInt16.ofNat b.buf.length }

end Block

/-- The live entries. -/
def entries (bs : List Block) : List Entry :=
  (bs.filter fun b => !unused b.entry.stat).map fun b => b.entry.norm

/-- The file is the top header and then the blocks. -/
structure Laid (file : Bytes) (bs : List Block) : Prop where
  bytes : ∃ top, top.length = topSize ∧ file = top ++ bs.flatMap Block.bytes
  ok : ∀ b ∈ bs, b.Ok

/-! ### Strings -/

@[simp] theorem unused_linkStat (stat : UInt16) (link : Bool) :
    unused (linkStat stat link) = unused stat := by
  rw [unused, unused, linkStat]
  split
  · rw [UInt16.toNat_or, Nat.testBit_or]
    exact Bool.or_false _
  · rw [UInt16.toNat_and, Nat.testBit_and]
    exact Bool.and_true _

theorem strLen_toNat {s : Option Text} (h : (textBytes s).length ≤ 65535) :
    (strLen s).toNat = (textBytes s).length := by
  rcases s with _ | s
  · rfl
  · rw [textBytes, length_append, length_singleton] at h ⊢
    rw [strLen, UInt16.toNat_ofNat']
    exact Nat.mod_eq_of_lt (by omega)

theorem toNat_ofNat {n : ℕ} (h : n ≤ 65535) : (UInt16.ofNat n).toNat = n := by
  rw [UInt16.toNat_ofNat']
  exact Nat.mod_eq_of_lt (by omega)

theorem textBytes_le {e : Entry} {s : Option Text} (hs : s ∈ e.str.toList) :
    (textBytes s).length ≤ e.data.length := by
  rw [Entry.data, flatMap_def]
  exact (sublist_flatten_of_mem (mem_map_of_mem hs)).length_le

theorem totDynspace_eq {e : Entry} (h : e.data.length ≤ 65535) :
    totDynspace (e.str.map strLen) = e.data.length := by
  have hlen {s : Option Text} (hs : s ∈ e.str.toList) :
      (strLen s).toNat = (textBytes s).length := strLen_toNat ((textBytes_le hs).trans h)
  rw [Entry.data, length_flatMap, totDynspace]
  show ((e.str.toList.map strLen).map UInt16.toNat).sum = _
  rw [map_map]
  exact congrArg List.sum (map_congr_left fun s hs => hlen hs)

theorem written_eq {e : Entry} (h : e.data.length ≤ 65535) :
    (e.str.toList.flatMap fun s => (textBytes s).take (strLen s).toNat) = e.data := by
  rw [Entry.data, flatMap_def, flatMap_def]
  refine congrArg flatten (map_congr_left fun s hs => ?_)
  rw [strLen_toNat ((textBytes_le hs).trans h), take_length]

theorem cstr_append (s : Text) : cstr (s.1 ++ [0]) = s := by
  refine Subtype.ext ?_
  show (s.1 ++ [0]).takeWhile (· ≠ 0) = s.1
  rw [takeWhile_append_of_pos]
  · exact append_nil _
  · intro c hc
    exact decide_eq_true fun h0 => s.2 (h0 ▸ hc)

theorem filedbRead_append {s : Option Text} (h : (textBytes s).length ≤ 65535) {pos : ℕ}
    {pre post : Bytes} (hpos : pos = pre.length) :
    filedbRead (strLen s) pos (pre ++ textBytes s ++ post) =
      some (s, pos + (textBytes s).length) := by
  have hlen := strLen_toNat h
  rcases s with _ | s
  · rfl
  · have hne : strLen (some s) ≠ 0 := by
      intro h0
      rw [h0, textBytes, length_append, length_singleton] at hlen
      exact absurd hlen (by simp)
    rw [filedbRead, if_neg hne, hlen, fread_append hpos rfl, Option.map_some, textBytes,
      cstr_append]

/-! ### Reading a block -/

theorem readFields_append {e : Entry} (h : e.data.length ≤ 65535) {fdh : Header}
    (hlen : fdh.len = e.str.map strLen) (hstat : fdh.stat = e.stat)
    (hempty : unused e.stat = true → e.str = .all none) {pos : ℕ} {pre post : Bytes}
    (hpos : pos = pre.length) (get : Get) (pad : UInt16) (buf : Bytes) :
    readFields get fdh pos (pre ++ e.data ++ post) = some (Block.strOf ⟨e, pad, buf⟩ get) := by
  subst hpos
  have hle (s : Option Text) (hs : s ∈ e.str.toList) : (textBytes s).length ≤ 65535 :=
    (textBytes_le hs).trans h
  rcases hstr : e.str with ⟨filename, desc, chan, uploader, flags_req, sharelink⟩
  rw [hstr] at hlen hle hempty
  have hdata : e.data = textBytes filename ++ (textBytes desc ++ (textBytes chan ++
      (textBytes uploader ++ (textBytes flags_req ++ textBytes sharelink)))) := by
    rw [Entry.data, hstr]
    simp [Fields.toList]
  generalize hfile : pre ++ e.data ++ post = file
  rw [hdata] at hfile
  -- from where one string is read, and where it ends
  have hread {s : Option Text} (hs : s ∈ [filename, desc, chan, uploader, flags_req, sharelink])
      (p : Bytes) {p' : Bytes} (hp : p' = p ++ textBytes s) (hsplit : ∃ r, p' ++ r = file) :
      filedbRead (strLen s) p.length file = some (s, p'.length) ∧ ∃ r, p ++ r = file := by
    obtain ⟨r, rfl⟩ := hsplit
    subst hp
    refine ⟨?_, textBytes s ++ r, (append_assoc _ _ _).symm⟩
    rw [filedbRead_append (hle s hs) rfl, length_append]
  obtain ⟨p1, hp1⟩ : ∃ p, p = pre ++ textBytes filename := ⟨_, rfl⟩
  obtain ⟨p2, hp2⟩ : ∃ p, p = p1 ++ textBytes desc := ⟨_, rfl⟩
  obtain ⟨p3, hp3⟩ : ∃ p, p = p2 ++ textBytes chan := ⟨_, rfl⟩
  obtain ⟨p4, hp4⟩ : ∃ p, p = p3 ++ textBytes uploader := ⟨_, rfl⟩
  obtain ⟨p5, hp5⟩ : ∃ p, p = p4 ++ textBytes flags_req := ⟨_, rfl⟩
  obtain ⟨p6, hp6⟩ : ∃ p, p = p5 ++ textBytes sharelink := ⟨_, rfl⟩
  have hall : p6 ++ post = file := by
    rw [← hfile, hp6, hp5, hp4, hp3, hp2, hp1]
    simp only [append_assoc]
  obtain ⟨h6, hs5⟩ := hread (by simp) p5 hp6 ⟨post, hall⟩
  obtain ⟨h5, hs4⟩ := hread (by simp) p4 hp5 hs5
  obtain ⟨h4, hs3⟩ := hread (by simp) p3 hp4 hs4
  obtain ⟨h3, hs2⟩ := hread (by simp) p2 hp3 hs3
  obtain ⟨h2, hs1⟩ := hread (by simp) p1 hp2 hs2
  obtain ⟨h1, -⟩ := hread (by simp) pre hp1 hs1
  rw [readFields]
  cases get with
  | header => rfl
  | filename =>
    rw [if_neg (by decide), hlen]
    show (filedbRead (strLen filename) _ file >>= _) = _
    rw [h1]
    show some _ = some { Fields.all none with filename := e.str.filename }
    rw [hstr]
  | full =>
    show _ = some e.str
    rw [if_neg (by decide), hstat, hlen]
    show (filedbRead (strLen filename) _ file >>= _) = _
    rw [h1]
    show (if (Get.full ≠ .full ∨ unused e.stat = true) then _ else _) = _
    by_cases hunused : unused e.stat = true
    · rw [if_pos (.inr hunused)]
      have hnone := hempty hunused
      simp only [Fields.all, Fields.mk.injEq] at hnone
      obtain ⟨rfl, rfl, rfl, rfl, rfl, rfl⟩ := hnone
      rw [hstr]
      rfl
    · rw [if_neg (not_or.2 ⟨fun hne => hne rfl, hunused⟩), hstr]
      show (filedbRead (strLen desc) _ file >>= _) = _
      rw [h2]
      show (filedbRead (strLen chan) _ file >>= _) = _
      rw [h3]
      show (filedbRead (strLen uploader) _ file >>= _) = _
      rw [h4]
      show (filedbRead (strLen flags_req) _ file >>= _) = _
      rw [h5]
      show (filedbRead (strLen sharelink) _ file >>= _) = _
      rw [h6]
      rfl

theorem getfile_block {b : Block} (h : b.Ok) {pre post : Bytes} (get : Get) {pos : ℕ}
    (hpos : pos = pre.length) :
    getfile get pos (pre ++ b.bytes ++ post) = some (b.fdbe get pos, pos + b.size) := by
  subst hpos
  have hdata : b.entry.data.length ≤ 65535 := (Nat.le_add_right _ _).trans h.space
  have hbuf : b.buf.length ≤ 65535 := (Nat.le_add_left _ _).trans h.space
  have hread : freadHeader pre.length (pre ++ b.bytes ++ post) = some b.header := by
    have hsplit : pre ++ b.bytes ++ post = pre ++ b.header.bytes ++ (b.entry.data ++ b.buf ++ post) := by
      simp only [Block.bytes, append_assoc]
    rw [freadHeader, hsplit, fread_append rfl (by rw [Header.length_bytes]), Option.map_some,
      Header.ofBytes_bytes]
  have hstrs : readFields get b.header (pre.length + headerSize) (pre ++ b.bytes ++ post) =
      some (b.strOf get) := by
    have hsplit : pre ++ b.bytes ++ post =
        (pre ++ b.header.bytes) ++ b.entry.data ++ (b.buf ++ post) := by
      simp only [Block.bytes, append_assoc]
    rw [hsplit]
    exact readFields_append hdata rfl rfl h.empty
      (by rw [length_append, Header.length_bytes]) get b.pad b.buf
  have hlink : decide (0 < b.header.len.sharelink) = b.entry.str.sharelink.isSome := by
    have hlen : (strLen b.entry.str.sharelink).toNat = (textBytes b.entry.str.sharelink).length :=
      strLen_toNat ((textBytes_le (by simp [Fields.toList])).trans hdata)
    show decide (0 < strLen b.entry.str.sharelink) = _
    generalize b.entry.str.sharelink = link at hlen ⊢
    rcases link with _ | link
    · rfl
    · refine decide_eq_true ?_
      rw [UInt16.lt_iff_toNat_lt, hlen, textBytes, length_append]
      exact Nat.succ_pos _
  rw [getfile, hread]
  show (readFields get b.header _ _ >>= _) = _
  rw [hstrs]
  show some _ = some _
  rw [hlink]
  have htot : totDynspace b.header.len = b.entry.data.length := totDynspace_eq hdata
  rw [htot]
  have hbuffer : b.header.buffer_len.toNat = b.buf.length := toNat_ofNat hbuf
  rw [hbuffer, Block.size, ← Nat.add_assoc, ← Nat.add_assoc]
  rfl

theorem getfile_eof (get : Get) {pos : ℕ} {bytes : Bytes} (hpos : pos = bytes.length) :
    getfile get pos bytes = none := by
  rw [getfile, freadHeader, fread_eof hpos (by decide)]
  rfl

/-! ### Writing at a block -/

/-- A deleted block: the data is spare space now. -/
def Block.deleted (b : Block) : Block :=
  ⟨{ b.entry with stat := 1, str := .all none }, b.pad, b.entry.data ++ b.buf⟩

theorem data_none {e : Entry} (h : e.str = .all none) : e.data = [] := by
  rw [Entry.data, h]
  rfl

theorem Block.deleted_ok {b : Block} (h : b.Ok) : b.deleted.Ok where
  space := by
    have hdata : b.deleted.entry.data = [] := data_none rfl
    rw [hdata]
    show 0 + (b.entry.data ++ b.buf).length ≤ 65535
    rw [length_append, Nat.zero_add]
    exact h.space
  empty _ := rfl

theorem delfile_block {b : Block} (h : b.Ok) {pre post : Bytes} {pos : ℕ}
    (hpos : pos = pre.length) :
    delfile pos (pre ++ b.bytes ++ post) = pre ++ b.deleted.bytes ++ post := by
  have hdata : b.entry.data.length ≤ 65535 := (Nat.le_add_right _ _).trans h.space
  have hbuf : b.buf.length ≤ 65535 := (Nat.le_add_left _ _).trans h.space
  have hsplit : pre ++ b.bytes ++ post = pre ++ b.header.bytes ++ (b.entry.data ++ b.buf ++ post) := by
    simp only [Block.bytes, append_assoc]
  have hread : freadHeader pos (pre ++ b.bytes ++ post) = some b.header := by
    rw [freadHeader, hsplit, fread_append hpos (by rw [Header.length_bytes]), Option.map_some,
      Header.ofBytes_bytes]
  have hlen : b.header.buffer_len.toNat + totDynspace b.header.len =
      (b.entry.data ++ b.buf).length := by
    rw [length_append, Nat.add_comm]
    exact congrArg₂ (· + ·) (totDynspace_eq hdata) (toNat_ofNat hbuf)
  rw [delfile, hread]
  dsimp only
  rw [hlen, hsplit, fwrite_append hpos (by rw [Header.length_bytes, Header.length_bytes])]
  have hnone : b.deleted.entry.data = [] := data_none rfl
  have hbuffer : b.deleted.buf = b.entry.data ++ b.buf := rfl
  rw [Block.bytes, hnone, hbuffer]
  simp only [append_assoc, nil_append]
  rfl

/-- An entry with the space after it, as `place` writes it. -/
def placed (e : Entry) (buf : Bytes) : Block := ⟨e, 0, buf⟩

/-- An entry is written over the first bytes of a part of the file, the rest of which it gets as its
space. -/
theorem place_over {fdbe : Fdbe} (hdata : fdbe.toEntry.data.length ≤ 65535) {pre mid post : Bytes}
    {pos ndyntot nbuftot : ℕ} (hpos : pos = pre.length) (hndyn : ndyntot = fdbe.toEntry.data.length)
    (hmid : mid.length = headerSize + ndyntot + nbuftot) :
    place pos .all ndyntot nbuftot fdbe (pre ++ mid ++ post) =
      (pre ++ (placed fdbe.toEntry (mid.drop (headerSize + ndyntot))).bytes ++ post,
        pos + mid.length) := by
  have hrest : (mid.drop (headerSize + ndyntot)).length = nbuftot := by
    rw [length_drop, hmid]
    omega
  have hwritten : (fdbe.str.toList.flatMap fun s => (textBytes s).take (strLen s).toNat) =
      fdbe.toEntry.data := written_eq hdata
  rw [place, if_pos rfl, hwritten]
  refine Prod.ext ?_ (by rw [hmid]; omega)
  rw [fwrite_head hpos (by rw [length_append, Header.length_bytes, hmid]; omega), length_append,
    Header.length_bytes, ← hndyn, Block.bytes]
  show pre ++ (_ ++ _ ++ _) ++ post = pre ++ (Header.bytes ⟨_, _, _, _, _, UInt16.ofNat _, 0⟩ ++ _) ++ post
  rw [placed]
  dsimp only
  rw [hrest, append_assoc _ fdbe.toEntry.data]

theorem place_end {fdbe : Fdbe} (hdata : fdbe.toEntry.data.length ≤ 65535) {pre : Bytes}
    {pos ndyntot : ℕ} (hpos : pos = pre.length) :
    (place pos .all ndyntot 0 fdbe pre).1 = pre ++ (placed fdbe.toEntry []).bytes := by
  have hwritten : (fdbe.str.toList.flatMap fun s => (textBytes s).take (strLen s).toNat) =
      fdbe.toEntry.data := written_eq hdata
  rw [place, if_pos rfl, hwritten]
  dsimp only
  rw [fwrite_end hpos, Block.bytes, placed, append_nil]
  rfl

theorem place_header {update : Update} (hupdate : update ≠ .all) {fdbe : Fdbe}
    {pre head buf post : Bytes} {pos ndyntot nbuftot : ℕ} (hpos : pos = pre.length)
    (hhead : head.length = headerSize) (hndyn : ndyntot = fdbe.toEntry.data.length)
    (hnbuf : nbuftot = buf.length) :
    place pos update ndyntot nbuftot fdbe (pre ++ (head ++ (fdbe.toEntry.data ++ buf)) ++ post) =
      (pre ++ (placed fdbe.toEntry buf).bytes ++ post, pos + (placed fdbe.toEntry buf).size) := by
  have hsplit : pre ++ (head ++ (fdbe.toEntry.data ++ buf)) ++ post =
      pre ++ head ++ (fdbe.toEntry.data ++ buf ++ post) := by
    simp only [append_assoc]
  rw [place, if_neg hupdate, hsplit, fwrite_append hpos (by rw [Header.length_bytes, hhead])]
  refine Prod.ext ?_ (by rw [hndyn, hnbuf, Block.size, placed]; dsimp only; omega)
  rw [Block.bytes, hnbuf]
  simp only [append_assoc]
  rfl

/-! ### Files of blocks -/

/-- The bytes of blocks one after the other. -/
def flat (bs : List Block) : Bytes := bs.flatMap Block.bytes

@[simp] theorem flat_nil : flat [] = [] := rfl

@[simp] theorem flat_cons (b : Block) (bs : List Block) : flat (b :: bs) = b.bytes ++ flat bs := rfl

@[simp] theorem flat_append (l r : List Block) : flat (l ++ r) = flat l ++ flat r := flatMap_append

theorem length_flat (bs : List Block) : bs.length ≤ (flat bs).length := by
  induction bs with
  | nil => exact Nat.le_refl _
  | cons b bs ih =>
    rw [flat_cons, length_append, Block.length_bytes, Block.size, headerSize, length_cons]
    omega

@[simp] theorem entries_append (l r : List Block) : entries (l ++ r) = entries l ++ entries r := by
  rw [entries, entries, entries, filter_append, map_append]

theorem entries_used {b : Block} (h : unused b.entry.stat = false) (bs : List Block) :
    entries (b :: bs) = b.entry.norm :: entries bs := by
  rw [entries, filter_cons_of_pos (by rw [h]; rfl)]
  rfl

theorem entries_unused {b : Block} (h : unused b.entry.stat = true) (bs : List Block) :
    entries (b :: bs) = entries bs := by
  rw [entries, filter_cons_of_neg (by rw [h]; exact Bool.false_ne_true)]
  rfl

theorem getfile_cons {b : Block} (h : b.Ok) {pre : Bytes} {bs : List Block} (get : Get) {pos : ℕ}
    (hpos : pos = pre.length) :
    getfile get pos (pre ++ flat (b :: bs)) = some (b.fdbe get pos, (pre ++ b.bytes).length) := by
  rw [flat_cons, ← append_assoc, getfile_block h get hpos, length_append, Block.length_bytes, hpos]

/-- The entries of a file from a position. -/
def scan : ℕ → ℕ → Bytes → List Fdbe
  | 0, _, _ => []
  | fuel + 1, pos, bytes =>
    match getfile .full pos bytes with
    | none => []
    | some (fdbe, next) => fdbe :: scan fuel next bytes

/-- All entries of a file, and the live ones. -/
def scanFile (file : Bytes) : List Fdbe := scan file.length topSize file

def liveOf (file : Bytes) : List Entry :=
  ((scanFile file).filter fun f => !unused f.stat).map Fdbe.toEntry

theorem scan_eq {bs : List Block} (h : ∀ b ∈ bs, b.Ok) {fuel : ℕ} (hfuel : bs.length < fuel)
    (pre : Bytes) :
    ∃ fs, scan fuel pre.length (pre ++ flat bs) = fs ∧
      Forall₂ (fun b f => ∃ pos, f = Block.fdbe b .full pos) bs fs := by
  induction bs generalizing fuel pre with
  | nil =>
    obtain ⟨fuel, rfl⟩ : ∃ k, fuel = k + 1 := ⟨fuel - 1, by rw [length_nil] at hfuel; omega⟩
    refine ⟨[], ?_, .nil⟩
    rw [flat_nil, append_nil, scan, getfile_eof .full rfl]
  | cons b bs ih =>
    obtain ⟨fuel, rfl⟩ : ∃ k, fuel = k + 1 := ⟨fuel - 1, by rw [length_cons] at hfuel; omega⟩
    obtain ⟨hb, hbs⟩ := forall_mem_cons.1 h
    obtain ⟨fs, hfs, hforall⟩ := ih hbs (Nat.lt_of_succ_lt_succ hfuel) (pre ++ b.bytes)
    refine ⟨b.fdbe .full pre.length :: fs, ?_, .cons ⟨_, rfl⟩ hforall⟩
    rw [scan, getfile_cons hb .full rfl]
    dsimp only
    rw [flat_cons, ← append_assoc, hfs]

theorem Laid.scan_eq {file : Bytes} {bs : List Block} (h : Laid file bs) :
    Forall₂ (fun b f => ∃ pos, f = Block.fdbe b .full pos) bs (scanFile file) := by
  obtain ⟨⟨top, htop, hfile⟩, hok⟩ := h
  have hfuel : bs.length < file.length := by
    have hlen := length_flat bs
    rw [hfile, length_append, htop, topSize]
    exact Nat.lt_of_le_of_lt hlen (by rw [flat]; omega)
  obtain ⟨fs, hfs, hforall⟩ := Filedb.scan_eq hok hfuel top
  rw [htop] at hfs
  rw [scanFile, hfile]
  rw [hfile] at hfs
  exact hfs ▸ hforall

theorem Laid.liveOf_eq {file : Bytes} {bs : List Block} (h : Laid file bs) :
    liveOf file = entries bs := by
  have hforall := h.scan_eq
  rw [liveOf]
  generalize scanFile file = fs at hforall
  clear h
  induction hforall with
  | nil => rfl
  | @cons b f bs fs hbf _ ih =>
    obtain ⟨pos, rfl⟩ := hbf
    have hstat : unused (b.fdbe .full pos).stat = unused b.entry.stat := unused_linkStat _ _
    by_cases hunused : unused b.entry.stat = true
    · rw [filter_cons_of_neg (by rw [hstat, hunused]; exact Bool.false_ne_true),
        entries_unused hunused, ih]
    · have hused := eq_false_of_ne_true hunused
      rw [filter_cons_of_pos (by rw [hstat, hused]; rfl), entries_used hused, map_cons, ih]
      rfl

end Eggdrop.Files.Filedb
