import Eggdrop.Files.FiledbPlace
import Eggdrop.Lib.Run

/-!
# FiledbRuns — whole runs of a file database (filesys.mod/filedb3.c)

* `merge_spec`, `clean_spec`: what compaction does to the live entries.
* `stored_step`, `stored_throughout`: no entry is lost, doubled or altered in runs where the space
  that is joined can be counted and nothing is unused when the file is cleaned up.
-/

open List

namespace Eggdrop.Files.Filedb

open ByteFile Machine

/-! ### Joining empty entries -/

/-- Whether a block is unused, and its space. -/
def Block.space (b : Block) : Bool × ℕ := (unused b.entry.stat, b.buf.length)

/-- The room that entries take which have no data. -/
def room (us : List (Bool × ℕ)) : ℕ := (us.map fun u => headerSize + u.2).sum

/-- Unused entries that are joined have no more space than can be counted. -/
def Joinable (spaces : List (Bool × ℕ)) : Prop :=
  ∀ l us c r, spaces = l ++ (us ++ c :: r) → (∀ u ∈ us, u.1 = true) → c.1 = false →
    room us ≤ headerSize + 65535

theorem length_flat_unused {us : List Block} (h : ∀ u ∈ us, u.Ok)
    (hunused : ∀ u ∈ us, unused u.entry.stat = true) :
    (flat us).length = room (us.map Block.space) := by
  induction us with
  | nil => rfl
  | cons u us ih =>
    obtain ⟨hu, hus⟩ := forall_mem_cons.1 h
    obtain ⟨hun, huns⟩ := forall_mem_cons.1 hunused
    rw [flat_cons, length_append, ih hus huns, Block.length_bytes, Block.size,
      data_none (hu.empty hun)]
    rfl

theorem ofNat_toNat_add (a n : ℕ) :
    UInt16.ofNat ((UInt16.ofNat a).toNat + n) = UInt16.ofNat (a + n) := by
  refine UInt16.toNat_inj.1 ?_
  rw [UInt16.toNat_ofNat', UInt16.toNat_ofNat', UInt16.toNat_ofNat', Nat.mod_add_mod]

theorem mergeInner_spec {us rest : List Block} (hus : ∀ u ∈ us, u.Ok)
    (hunused : ∀ u ∈ us, unused u.entry.stat = true) (hrest : ∀ c ∈ rest, c.Ok)
    (hused : ∀ c ∈ rest.head?, unused c.entry.stat = false) {fuel : ℕ} (hfuel : us.length < fuel)
    (pre : Bytes) (n : ℕ) (modified : Bool) :
    mergeInner fuel pre.length (UInt16.ofNat n) modified (pre ++ flat (us ++ rest)) =
      (UInt16.ofNat (n + (flat us).length), modified || !us.isEmpty,
        rest.head?.map fun c => (pre ++ flat us ++ c.bytes).length) := by
  induction us generalizing fuel pre n modified with
  | nil =>
    obtain ⟨fuel, rfl⟩ : ∃ k, fuel = k + 1 := ⟨fuel - 1, by rw [length_nil] at hfuel; omega⟩
    rw [nil_append, mergeInner]
    rcases rest with _ | ⟨c, r⟩
    · rw [flat_nil, append_nil, getfile_eof .header rfl, isEmpty_nil, Bool.not_true, Bool.or_false]
      rfl
    · have hc := hrest c mem_cons_self
      have hstat : unused (c.fdbe .header pre.length).stat = false :=
        (unused_linkStat _ _).trans (hused c rfl)
      rw [getfile_cons hc .header rfl]
      dsimp only
      rw [hstat, if_neg Bool.false_ne_true, isEmpty_nil, Bool.not_true, Bool.or_false, flat_nil,
        append_nil]
      rfl
  | cons u us ih =>
    obtain ⟨fuel, rfl⟩ : ∃ k, fuel = k + 1 := ⟨fuel - 1, by rw [length_cons] at hfuel; omega⟩
    obtain ⟨hu, hus⟩ := forall_mem_cons.1 hus
    obtain ⟨hun, huns⟩ := forall_mem_cons.1 hunused
    have hstat : unused (u.fdbe .header pre.length).stat = true :=
      (unused_linkStat _ _).trans hun
    have hbuf : (u.fdbe .header pre.length).buf_len.toNat = u.buf.length :=
      toNat_ofNat ((Nat.le_add_left _ _).trans hu.space)
    have hsize : u.size = headerSize + u.buf.length := by
      rw [Block.size, data_none (hu.empty hun), length_nil, Nat.add_zero]
    rw [mergeInner, cons_append, getfile_cons hu .header rfl]
    dsimp only
    rw [hstat, if_pos rfl, hbuf, ofNat_toNat_add, ← hsize]
    have hnext := ih hus huns (Nat.lt_of_succ_lt_succ hfuel) (pre ++ u.bytes) (n + u.size) true
    rw [append_assoc, ← flat_cons] at hnext
    rw [hnext, flat_cons, length_append, Block.length_bytes, Nat.add_assoc, Bool.true_or,
      isEmpty_cons, Bool.not_false, Bool.or_true]
    simp only [append_assoc]

theorem exists_unused_prefix (bs : List Block) :
    ∃ us rest, bs = us ++ rest ∧ (∀ u ∈ us, unused u.entry.stat = true) ∧
      ∀ c ∈ rest.head?, unused c.entry.stat = false := by
  induction bs with
  | nil => exact ⟨[], [], rfl, fun u hu => absurd hu not_mem_nil, fun c hc => nomatch hc⟩
  | cons b bs ih =>
    obtain ⟨us, rest, rfl, hus, hrest⟩ := ih
    by_cases hb : unused b.entry.stat = true
    · exact ⟨b :: us, rest, rfl, forall_mem_cons.2 ⟨hb, hus⟩, hrest⟩
    · refine ⟨[], b :: (us ++ rest), rfl, fun u hu => absurd hu not_mem_nil, fun c hc => ?_⟩
      rw [head?_cons, Option.mem_some] at hc
      exact hc ▸ eq_false_of_ne_true hb

theorem entries_all_unused {us : List Block} (h : ∀ u ∈ us, unused u.entry.stat = true) :
    entries us = [] := by
  rw [entries, filter_eq_nil_iff.2 fun u hu => by rw [h u hu]; exact Bool.false_ne_true, map_nil]

theorem Joinable.tail {l r : List (Bool × ℕ)} (h : Joinable (l ++ r)) : Joinable r := by
  rintro l' us c r' rfl
  exact h (l ++ l') us c r' (append_assoc _ _ _).symm

/-- An unused entry gets the room of those after it. -/
theorem join_spec {b : Block} {us : List Block} (hb : b.Ok) (hunused : unused b.entry.stat = true)
    (hus : ∀ u ∈ us, u.Ok) (huns : ∀ u ∈ us, unused u.entry.stat = true)
    (hroom : room ((b :: us).map Block.space) ≤ headerSize + 65535) (pre post : Bytes) :
    ∃ c : Block, c.Ok ∧ unused c.entry.stat = true ∧
      updatefile pre.length
          { b.fdbe .header pre.length with buf_len := UInt16.ofNat (b.buf.length + (flat us).length) }
          .size (pre ++ (b.bytes ++ flat us) ++ post) =
        (pre ++ c.bytes ++ post, (pre ++ c.bytes).length) := by
  have hlen : b.buf.length + (flat us).length ≤ 65535 := by
    rw [length_flat_unused hus huns]
    rw [map_cons, room, map_cons, sum_cons] at hroom
    simp only [Block.space, room] at hroom ⊢
    omega
  let f : Fdbe :=
    { b.fdbe .header pre.length with buf_len := UInt16.ofNat (b.buf.length + (flat us).length) }
  have hnbuf : f.buf_len.toNat = (b.buf ++ flat us).length := by
    rw [length_append]
    exact toNat_ofNat hlen
  have hndyn : totDynspace (f.str.map strLen) = f.toEntry.data.length := totDynspace_eq (Nat.zero_le _)
  refine ⟨placed f.toEntry (b.buf ++ flat us), ⟨?_, fun _ => rfl⟩, (unused_linkStat _ _).trans hunused,
    ?_⟩
  · show 0 + (b.buf ++ flat us).length ≤ 65535
    rw [length_append]
    omega
  · have hfile : pre ++ (b.bytes ++ flat us) ++ post =
        pre ++ (b.header.bytes ++ (f.toEntry.data ++ (b.buf ++ flat us))) ++ post := by
      rw [bytes_of_unused hb hunused, @data_none f.toEntry rfl]
      simp only [append_assoc, nil_append]
    have hplace := @place_header .size (by decide) f pre b.header.bytes (b.buf ++ flat us) post
      pre.length _ _ rfl (Header.length_bytes b.header) hndyn hnbuf
    show place pre.length .size (totDynspace (f.str.map strLen)) f.buf_len.toNat f _ = _
    rw [hfile, hplace, length_append, Block.length_bytes]

theorem mergeLoop_spec (n : ℕ) {bs : List Block} (hn : bs.length ≤ n) (h : ∀ b ∈ bs, b.Ok)
    (hjoin : Joinable (bs.map Block.space)) {fuel : ℕ} (hfuel : bs.length < fuel) {pre : Bytes}
    (hpre : 0 < pre.length) :
    ∃ bs', mergeLoop fuel pre.length (pre ++ flat bs) = pre ++ flat bs' ∧ (∀ b ∈ bs', b.Ok) ∧
      entries bs' = entries bs := by
  induction n generalizing bs fuel pre with
  | zero =>
    obtain rfl : bs = [] := length_eq_zero_iff.1 (Nat.le_zero.1 hn)
    obtain ⟨fuel, rfl⟩ : ∃ k, fuel = k + 1 := ⟨fuel - 1, by rw [length_nil] at hfuel; omega⟩
    refine ⟨[], ?_, h, rfl⟩
    rw [flat_nil, append_nil, mergeLoop, getfile_eof .header rfl]
  | succ n ih =>
    obtain ⟨fuel, rfl⟩ : ∃ k, fuel = k + 1 := ⟨fuel - 1, by omega⟩
    rcases bs with _ | ⟨b, bs⟩
    · refine ⟨[], ?_, h, rfl⟩
      rw [flat_nil, append_nil, mergeLoop, getfile_eof .header rfl]
    obtain ⟨hb, hbs⟩ := forall_mem_cons.1 h
    rw [length_cons] at hn hfuel
    have hstat : unused (b.fdbe .header pre.length).stat = unused b.entry.stat :=
      unused_linkStat _ _
    -- the loop goes on with `bs'` after what is in front of it
    have hrec {bs' : List Block} (front : Bytes) (hlen : bs'.length ≤ bs.length)
        (hok : ∀ c ∈ bs', c.Ok) (hjoin' : Joinable (bs'.map Block.space)) :
        ∃ bs'', mergeLoop fuel (pre ++ front).length (pre ++ front ++ flat bs') =
          pre ++ front ++ flat bs'' ∧ (∀ b ∈ bs'', b.Ok) ∧ entries bs'' = entries bs' := by
      refine ih (by omega) hok hjoin' (by omega) ?_
      rw [length_append]
      omega
    rw [mergeLoop, getfile_cons hb .header rfl]
    dsimp only
    rw [hstat]
    by_cases hunused : unused b.entry.stat = true
    · rw [if_pos hunused]
      obtain ⟨us, rest, rfl, hus, hrest⟩ := exists_unused_prefix bs
      obtain ⟨husok, hrestok⟩ := forall_mem_append.1 hbs
      have hfuel' : us.length < (pre ++ flat (b :: (us ++ rest))).length := by
        have hlen := flat_fuel hpre (b :: (us ++ rest))
        rw [length_cons, length_append] at hlen
        omega
      have hinner := mergeInner_spec husok hus hrestok hrest hfuel' (pre ++ b.bytes) b.buf.length
        false
      rw [append_assoc, ← flat_cons, Bool.false_or] at hinner
      have hspace : (b.fdbe .header pre.length).buf_len = UInt16.ofNat b.buf.length := rfl
      rw [hspace, hinner, entries_unused hunused, entries_append, entries_all_unused hus, nil_append]
      rcases rest with _ | ⟨c, r⟩
      · -- nothing but unused entries is left
        refine ⟨[], ?_, fun c hc => absurd hc not_mem_nil, rfl⟩
        show ftruncate pre.length _ = _
        rw [ftruncate_append rfl, flat_nil, append_nil]
      have hc : unused c.entry.stat = false := hrest c rfl
      rcases us with _ | ⟨u, us⟩
      · -- a single one stays as it is
        obtain ⟨bs', hfile, hok, hentries⟩ := hrec (b.bytes ++ c.bytes)
          (by rw [nil_append, length_cons]; omega) (forall_mem_cons.1 hrestok).2
          (@Joinable.tail [_, _] _ hjoin)
        refine ⟨b :: c :: bs', ?_, forall_mem_cons.2 ⟨hb, forall_mem_cons.2
          ⟨hrestok c mem_cons_self, hok⟩⟩, ?_⟩
        · show mergeLoop fuel (pre ++ b.bytes ++ [] ++ c.bytes).length _ = _
          simpa only [flat_cons, append_assoc, nil_append] using hfile
        · rw [entries_unused hunused, entries_used hc, entries_used hc, hentries]
      · -- the first one gets the space of those after it
        have hroom : room ((b :: u :: us).map Block.space) ≤ headerSize + 65535 := by
          refine hjoin [] _ c.space (r.map Block.space) (by simp) (fun v hv => ?_) hc
          obtain ⟨w, hw, rfl⟩ := mem_map.1 hv
          rcases mem_cons.1 hw with rfl | hw
          · exact hunused
          · exact hus w hw
        obtain ⟨d, hdok, hdunused, hjoined⟩ :=
          join_spec hb hunused husok hus hroom pre (flat (c :: r))
        have hfile : pre ++ flat (b :: (u :: us ++ c :: r)) =
            pre ++ (b.bytes ++ flat (u :: us)) ++ flat (c :: r) := by
          rw [flat_cons, flat_append]
          simp only [append_assoc]
        have htail : Joinable ((c :: r).map Block.space) := by
          refine @Joinable.tail ((b :: u :: us).map Block.space) _ ?_
          rw [← map_append]
          exact hjoin
        obtain ⟨bs', hloop, hok, hentries⟩ := hrec d.bytes
          (by rw [length_append, length_cons]; omega) hrestok htail
        refine ⟨d :: bs', ?_, forall_mem_cons.2 ⟨hdok, hok⟩, ?_⟩
        · show mergeLoop fuel (updatefile pre.length _ .size _).2 (updatefile pre.length _ .size _).1 = _
          rw [hfile, hjoined]
          dsimp only
          rw [hloop, flat_cons, append_assoc]
        · rw [entries_unused hdunused, hentries]
    · rw [if_neg hunused]
      obtain ⟨bs', hfile, hok, hentries⟩ := hrec b.bytes (Nat.le_refl _) hbs (@Joinable.tail [_] _ hjoin)
      refine ⟨b :: bs', ?_, forall_mem_cons.2 ⟨hb, hok⟩, ?_⟩
      · rw [flat_cons, flat_cons, ← append_assoc, ← append_assoc, hfile]
      · have hused := eq_false_of_ne_true hunused
        rw [entries_used hused, entries_used hused, hentries]

theorem merge_spec {bs : List Block} (h : ∀ b ∈ bs, b.Ok) (hjoin : Joinable (bs.map Block.space))
    {top : Bytes} (htop : top.length = topSize) :
    ∃ bs', mergeempty (top ++ flat bs) = top ++ flat bs' ∧ (∀ b ∈ bs', b.Ok) ∧
      entries bs' = entries bs := by
  have hpre : 0 < top.length := by rw [htop]; decide
  rw [mergeempty, ← htop]
  exact mergeLoop_spec bs.length (Nat.le_refl _) h hjoin (flat_fuel hpre bs) hpre

/-! ### Cleaning up -/

/-- Nothing is moved when nothing is unused. -/
theorem cleanLoop_spec {bs : List Block} (h : ∀ b ∈ bs, b.Ok)
    (hused : ∀ b ∈ bs, unused b.entry.stat = false) {fuel : ℕ} (hfuel : bs.length < fuel)
    (pre : Bytes) : cleanLoop fuel pre.length (pre ++ flat bs) = .ok (pre ++ flat bs) := by
  induction bs generalizing fuel pre with
  | nil =>
    obtain ⟨fuel, rfl⟩ : ∃ k, fuel = k + 1 := ⟨fuel - 1, by rw [length_nil] at hfuel; omega⟩
    rw [cleanLoop, flat_nil, getfile_eof .header (by rw [append_nil])]
    dsimp only
    rw [ftruncate_append rfl, append_nil]
  | cons b bs ih =>
    obtain ⟨fuel, rfl⟩ : ∃ k, fuel = k + 1 := ⟨fuel - 1, by rw [length_cons] at hfuel; omega⟩
    obtain ⟨hb, hbs⟩ := forall_mem_cons.1 h
    obtain ⟨hbused, hbsused⟩ := forall_mem_cons.1 hused
    have hstat : unused (b.fdbe .header pre.length).stat = false :=
      (unused_linkStat _ _).trans hbused
    rw [cleanLoop, getfile_cons hb .header rfl]
    dsimp only
    rw [hstat, if_neg Bool.false_ne_true, flat_cons, ← append_assoc]
    exact ih hbs hbsused (Nat.lt_of_succ_lt_succ hfuel) (pre ++ b.bytes)

theorem clean_spec {bs : List Block} (h : ∀ b ∈ bs, b.Ok)
    (hused : ∀ b ∈ bs, unused b.entry.stat = false) {top : Bytes} (htop : top.length = topSize) :
    cleanup (top ++ flat bs) = .ok (top ++ flat bs) := by
  have hlen := flat_fuel (by rw [htop]; decide) bs
  rw [cleanup, ← htop]
  exact cleanLoop_spec h hused (Nat.lt_succ_of_lt hlen) top

theorem cleanInner_unused {bs : List Block} (h : ∀ b ∈ bs, b.Ok)
    (hunused : ∀ b ∈ bs, unused b.entry.stat = true) {fuel : ℕ} (hfuel : bs.length < fuel)
    (oldpos : ℕ) (pre : Bytes) :
    cleanInner fuel oldpos pre.length (pre ++ flat bs) = (oldpos, pre ++ flat bs) := by
  induction bs generalizing fuel pre with
  | nil =>
    obtain ⟨fuel, rfl⟩ : ∃ k, fuel = k + 1 := ⟨fuel - 1, by rw [length_nil] at hfuel; omega⟩
    rw [cleanInner, flat_nil, getfile_eof .full (by rw [append_nil])]
  | cons b bs ih =>
    obtain ⟨fuel, rfl⟩ : ∃ k, fuel = k + 1 := ⟨fuel - 1, by rw [length_cons] at hfuel; omega⟩
    obtain ⟨hb, hbs⟩ := forall_mem_cons.1 h
    obtain ⟨hbunused, hbsunused⟩ := forall_mem_cons.1 hunused
    have hstat : unused (b.fdbe .full pre.length).stat = true :=
      (unused_linkStat _ _).trans hbunused
    rw [cleanInner, getfile_cons hb .full rfl]
    dsimp only
    rw [hstat, if_neg (by decide), flat_cons, ← append_assoc]
    exact ih hbs hbsunused (Nat.lt_of_succ_lt_succ hfuel) (pre ++ b.bytes)

theorem cleanLoop_loops {l r : List Block} {u : Block} (h : ∀ b ∈ l ++ u :: r, b.Ok)
    (hl : ∀ b ∈ l, unused b.entry.stat = false) (hunused : ∀ b ∈ u :: r, unused b.entry.stat = true)
    {fuel : ℕ} (hfuel : l.length < fuel) (pre : Bytes) :
    cleanLoop fuel pre.length (pre ++ flat (l ++ u :: r)) = .error .loops := by
  induction l generalizing fuel pre with
  | nil =>
    obtain ⟨fuel, rfl⟩ : ∃ k, fuel = k + 1 := ⟨fuel - 1, by rw [length_nil] at hfuel; omega⟩
    rw [nil_append] at h ⊢
    obtain ⟨hu, hr⟩ := forall_mem_cons.1 h
    obtain ⟨huunused, hrunused⟩ := forall_mem_cons.1 hunused
    have hstat : unused (u.fdbe .header pre.length).stat = true :=
      (unused_linkStat _ _).trans huunused
    have hlen : r.length < (pre ++ u.bytes ++ flat r).length := by
      have := length_flat r
      rw [length_append, length_append, Block.length_bytes, Block.size, headerSize]
      omega
    rw [cleanLoop, getfile_cons hu .header rfl]
    dsimp only
    rw [hstat, if_pos rfl, flat_cons, ← append_assoc,
      cleanInner_unused hr hrunused hlen pre.length (pre ++ u.bytes)]
    exact if_pos rfl
  | cons b l ih =>
    obtain ⟨fuel, rfl⟩ : ∃ k, fuel = k + 1 := ⟨fuel - 1, by rw [length_cons] at hfuel; omega⟩
    rw [cons_append] at h ⊢
    obtain ⟨hb, hrest⟩ := forall_mem_cons.1 h
    obtain ⟨hbused, hlused⟩ := forall_mem_cons.1 hl
    have hstat : unused (b.fdbe .header pre.length).stat = false :=
      (unused_linkStat _ _).trans hbused
    rw [cleanLoop, getfile_cons hb .header rfl]
    dsimp only
    rw [hstat, if_neg Bool.false_ne_true, flat_cons, ← append_assoc]
    exact ih hrest hlused (Nat.lt_of_succ_lt_succ hfuel) (pre ++ b.bytes)

theorem clean_loops {l r : List Block} {u : Block} (h : ∀ b ∈ l ++ u :: r, b.Ok)
    (hl : ∀ b ∈ l, unused b.entry.stat = false) (hunused : ∀ b ∈ u :: r, unused b.entry.stat = true)
    {top : Bytes} (htop : top.length = topSize) :
    cleanup (top ++ flat (l ++ u :: r)) = .error .loops := by
  have hlen := flat_fuel (by rw [htop]; decide) (l ++ u :: r)
  rw [length_append] at hlen
  rw [cleanup, ← htop]
  exact cleanLoop_loops h hl hunused (by omega) top

/-! ### Runs -/

/-- A file, and the entries that the operations say it has. -/
structure Db where
  file : Bytes
  live : List Entry

/-- What an operation that was for an entry says of the live ones. -/
def told (op : Op) (e : Option Entry) (live : List Entry) : List Entry :=
  match op, e with
  | .add e, _ => e.norm :: live
  | .update _ _ f, some e => (f e).norm :: live.erase e
  | .header _ _ f, some e => (withStr f e).norm :: live.erase e
  | .delete _ _, some e => live.erase e
  | .move _ _ f, some e => (f e).norm :: live.erase e
  | _, _ => live

def step (s : Db) (op : Op) : Except Fault Db := do
  let (file, e) ← runOp op s.file
  .ok ⟨file, told op e s.live⟩

/-- The file is well-formed, and the live entries that are read from it are those it should have. -/
structure Stored (s : Db) : Prop where
  laid : ∃ bs, Laid s.file bs
  live : (liveOf s.file).Perm s.live

/-- An operation is for an entry that it asks for. -/
def Answered (live : List Entry) (e : Option Entry) : Op → Prop
  | .update m n _ | .header m n _ | .delete m n | .move m n _ => Answers m n live e
  | _ => True

def Found (s : Db) (op : Op) : Prop :=
  ∀ file e, runOp op s.file = .ok (file, e) → Answered s.live e op

/-- A live entry whose data can be counted. -/
def Storable (e : Entry) : Prop := e.data.length ≤ 65535 ∧ unused e.stat = false

/-- The entry that an operation is for is given storable contents. -/
def StoresNth (m : Option Text → Bool) (n : ℕ) (f : Entry → Entry) (file : Bytes) : Prop :=
  ∀ r, matchNth m n topSize file = some r → Storable (f r.1.toEntry)

/-- Whether an entry is unused, and its space. -/
def Fdbe.space (f : Fdbe) : Bool × ℕ := (unused f.stat, f.buf_len.toNat)

/-- What is put into the file can be counted, and it is only cleaned up when nothing is unused. -/
def Fine (s : Db) : Op → Prop
  | .add e => Storable e
  | .update m n f | .move m n f => StoresNth m n f s.file
  | .header m n f => StoresNth m n (withStr f) s.file
  | .delete _ _ => True
  | .mergeempty => Joinable ((scanFile s.file).map Fdbe.space)
  | .cleanup => ∀ f ∈ scanFile s.file, unused f.stat = false

theorem Laid.spaces_eq {file : Bytes} {bs : List Block} (h : Laid file bs) :
    (scanFile file).map Fdbe.space = bs.map Block.space := by
  have hforall := h.scan_eq
  have hok := h.ok
  generalize scanFile file = fs at hforall
  clear h
  induction hforall with
  | nil => rfl
  | @cons b f bs fs hbf _ ih =>
    obtain ⟨pos, rfl⟩ := hbf
    obtain ⟨hb, hbs⟩ := forall_mem_cons.1 hok
    have hbuf : (b.fdbe .full pos).buf_len.toNat = b.buf.length :=
      toNat_ofNat ((Nat.le_add_left _ _).trans hb.space)
    have hstat : unused (b.fdbe .full pos).stat = unused b.entry.stat := unused_linkStat _ _
    rw [map_cons, map_cons, ih hbs, Fdbe.space, hbuf, hstat]
    rfl

theorem stored_flat {bs : List Block} (h : ∀ b ∈ bs, b.Ok) {top : Bytes}
    (htop : top.length = topSize) {live : List Entry} (hlive : (entries bs).Perm live) :
    Stored ⟨top ++ flat bs, live⟩ := by
  have hlaid : Laid (top ++ flat bs) bs := ⟨⟨top, htop, rfl⟩, h⟩
  refine ⟨⟨bs, hlaid⟩, ?_⟩
  rw [hlaid.liveOf_eq]
  exact hlive

theorem Stored.flat {s : Db} (h : Stored s) :
    ∃ top bs, s.file = top ++ flat bs ∧ top.length = topSize ∧ (∀ b ∈ bs, b.Ok) ∧
      (entries bs).Perm s.live ∧ Laid s.file bs := by
  obtain ⟨⟨bs, hlaid⟩, hlive⟩ := h
  rw [hlaid.liveOf_eq] at hlive
  obtain ⟨top, htop, hfile⟩ := hlaid.bytes
  exact ⟨top, bs, hfile, htop, hlaid.ok, hlive, hlaid⟩

theorem Stored.search {s : Db} (h : Stored s) (m : Option Text → Bool) (n : ℕ) :
    (matchNth m n topSize s.file = none ∧ Answers m n s.live none) ∨
    ∃ top l b r next, top.length = topSize ∧ s.file = top ++ Filedb.flat (l ++ b :: r) ∧
      (∀ c ∈ l ++ b :: r, c.Ok) ∧ unused b.entry.stat = false ∧
      matchNth m n topSize s.file = some (b.fdbe .full (top ++ Filedb.flat l).length, next) ∧
      Answers m n s.live (some b.entry.norm) ∧
      (s.live.erase b.entry.norm).Perm (entries (l ++ r)) := by
  obtain ⟨top, bs, hfile, htop, hok, hlive, -⟩ := h.flat
  have hpre : 0 < top.length := by rw [htop]; decide
  rw [hfile, ← htop]
  rcases matchNth_spec (m := m) (n := n) hok hpre with
    ⟨hnone, hle⟩ | ⟨l, b, r, rfl, hused, hm, next, hsome⟩
  · refine .inl ⟨hnone, ?_⟩
    show (s.live.filter _).length ≤ n
    rw [← (hlive.filter _).length_eq]
    exact hle
  · have hperm := hlive.symm.trans (entries_cons_append l hused r)
    refine .inr ⟨top, l, b, r, next, htop ▸ rfl, rfl, hok, hused, hsome, ⟨?_, hm⟩, ?_⟩
    · exact hperm.mem_iff.2 mem_cons_self
    · have herase := hperm.erase b.entry.norm
      rwa [erase_cons_head] at herase

/-- An operation on the entry that is found leaves the others, and `new` comes to them. -/
theorem found_spec {s : Db} (hs : Stored s) {op : Op} {m : Option Text → Bool} {n : ℕ}
    {g : Fdbe → Bytes}
    (hop : runOp op s.file =
      match matchNth m n topSize s.file with
      | none => .ok (s.file, none)
      | some (fdbe, _) => .ok (g fdbe, some fdbe.toEntry))
    (hans : ∀ e, Answers m n s.live e → Answered s.live e op)
    (hnone : told op none s.live = s.live)
    (hg : ∀ (top : Bytes) (l : List Block) (b : Block) (r : List Block) (next : ℕ),
      top.length = topSize → s.file = top ++ flat (l ++ b :: r) → (∀ c ∈ l ++ b :: r, c.Ok) →
      unused b.entry.stat = false →
      matchNth m n topSize s.file = some (b.fdbe .full (top ++ flat l).length, next) →
      ∃ bs' new, g (b.fdbe .full (top ++ flat l).length) = top ++ flat bs' ∧ (∀ c ∈ bs', c.Ok) ∧
        (entries bs').Perm (new ++ entries (l ++ r)) ∧
        told op (some b.entry.norm) s.live = new ++ s.live.erase b.entry.norm) :
    ∃ file e, runOp op s.file = .ok (file, e) ∧ Answered s.live e op ∧
      Stored ⟨file, told op e s.live⟩ := by
  rw [hop]
  rcases hs.search m n with
    ⟨hmatch, hanswer⟩ | ⟨top, l, b, r, next, htop, hfile, hok, hused, hmatch, hanswer, herase⟩
  · rw [hmatch]
    refine ⟨_, _, rfl, hans _ hanswer, ?_⟩
    rw [hnone]
    exact hs
  · obtain ⟨bs', new, hfile', hok', hperm, htold⟩ := hg top l b r next htop hfile hok hused hmatch
    rw [hmatch]
    refine ⟨_, _, rfl, hans _ hanswer, ?_⟩
    have hentry : (b.fdbe .full (top ++ flat l).length).toEntry = b.entry.norm := rfl
    rw [hfile', hentry, htold]
    exact stored_flat hok' htop (hperm.trans (herase.symm.append_left new))

/-- What an operation leaves behind. -/
theorem runOp_spec {s : Db} (hs : Stored s) {op : Op} (hfine : Fine s op) :
    ∃ file e, runOp op s.file = .ok (file, e) ∧ Answered s.live e op ∧
      Stored ⟨file, told op e s.live⟩ := by
  -- the lengths of the entry that is found
  have hlens {l r : List Block} {b : Block} (hok : ∀ c ∈ l ++ b :: r, c.Ok) (pos : ℕ) :
      (b.fdbe .full pos).dyn_len.toNat = b.entry.data.length ∧
        (b.fdbe .full pos).buf_len.toNat = b.buf.length := by
    have hspace := (hok b (mem_append_right _ mem_cons_self)).space
    exact ⟨toNat_ofNat (by omega), toNat_ofNat (by omega)⟩
  cases op with
  | add e =>
    obtain ⟨top, bs, hfile, htop, hok, hlive, -⟩ := hs.flat
    obtain ⟨bs', hadd, hok', hperm, -⟩ := add_spec hfine.1 hfine.2 hok htop
    refine ⟨_, _, rfl, trivial, ?_⟩
    rw [hfile, hadd]
    exact stored_flat hok' htop (hperm.trans (hlive.cons _))
  | update m n f =>
    refine found_spec hs rfl (fun _ h => h) rfl fun top l b r next htop hfile hok _ hmatch => ?_
    have hput : Storable (f b.entry.norm) := hfine _ hmatch
    obtain ⟨hdyn, hbuf⟩ := hlens hok (top ++ flat l).length
    obtain ⟨bs', hup, hok', hperm⟩ := @update_spec l r b hok
      { b.fdbe .full (top ++ flat l).length with toEntry := f b.entry.norm } rfl hdyn hbuf
      hput.1 hput.2 top htop
    refine ⟨bs', [(f b.entry.norm).norm], ?_, hok', hperm, rfl⟩
    rw [hfile]
    exact hup
  | header m n f =>
    refine found_spec hs rfl (fun _ h => h) rfl fun top l b r next htop hfile hok _ hmatch => ?_
    have hput : Storable (withStr f b.entry.norm) := hfine _ hmatch
    obtain ⟨hdyn, hbuf⟩ := hlens hok (top ++ flat l).length
    obtain ⟨bs', hup, hok', hperm⟩ := @header_spec l r b hok
      { b.fdbe .full (top ++ flat l).length with toEntry := withStr f b.entry.norm } rfl hdyn hbuf
      rfl hput.2 top
    refine ⟨bs', [(withStr f b.entry.norm).norm], ?_, hok', hperm, rfl⟩
    rw [hfile]
    exact hup
  | delete m n =>
    refine found_spec hs rfl (fun _ h => h) rfl fun top l b r next htop hfile hok _ hmatch => ?_
    obtain ⟨hdel, hok', hentries⟩ := delete_spec hok top
    refine ⟨_, [], ?_, hok', by rw [hentries]; exact .refl _, rfl⟩
    rw [hfile]
    exact hdel
  | move m n f =>
    refine found_spec hs rfl (fun _ h => h) rfl
      fun top l b r next htop hfile hok hused hmatch => ?_
    have hput : Storable (f b.entry.norm) := hfine _ hmatch
    obtain ⟨bs', hmove, hok', hperm⟩ := move_spec hok hused hput.1 hput.2 htop
    refine ⟨bs', [(f b.entry.norm).norm], ?_, hok', hperm, rfl⟩
    rw [hfile]
    exact hmove
  | mergeempty =>
    obtain ⟨top, bs, hfile, htop, hok, hlive, hlaid⟩ := hs.flat
    rw [Fine, hlaid.spaces_eq] at hfine
    obtain ⟨bs', hmerge, hok', hentries⟩ := merge_spec hok hfine htop
    refine ⟨_, _, rfl, trivial, ?_⟩
    rw [hfile, hmerge]
    exact stored_flat hok' htop (hentries ▸ hlive)
  | cleanup =>
    obtain ⟨top, bs, hfile, htop, hok, hlive, hlaid⟩ := hs.flat
    have hused (b : Block) (hb : b ∈ bs) : unused b.entry.stat = false := by
      have hmem : b.space ∈ (scanFile s.file).map Fdbe.space := by
        rw [hlaid.spaces_eq]
        exact mem_map_of_mem hb
      obtain ⟨f, hf, hspace⟩ := mem_map.1 hmem
      rw [← hfine f hf]
      exact (congrArg Prod.fst hspace).symm
    refine ⟨s.file, none, ?_, trivial, hs⟩
    rw [runOp, hfile, clean_spec hok hused htop]
    rfl

theorem stored_step {s : Db} (hs : Stored s) {op : Op} (hfine : Fine s op) :
    Found s op ∧ ∃ s', step s op = .ok s' ∧ Stored s' := by
  obtain ⟨file, e, hrun, hans, hstored⟩ := runOp_spec hs hfine
  refine ⟨fun file' e' hrun' => ?_, ⟨file, told op e s.live⟩, ?_, hstored⟩
  · rw [hrun] at hrun'
    cases hrun'
    exact hans
  · rw [step, hrun]
    rfl

/-- In a run whose operations are all fine no entry is lost, doubled or altered. -/
theorem stored_throughout {s : Db} (hs : Stored s) {ops : List Op} (hfine : Along step Fine s ops) :
    (∃ s', run step s ops = .ok s') ∧ Throughout step Stored s ops ∧ Along step Found s ops := by
  have hstored (s : Db) (op : Op) (s' : Db) (hs : Stored s) (hfine : Fine s op)
      (h : step s op = .ok s') : Stored s' := by
    obtain ⟨-, t, ht, hst⟩ := stored_step hs hfine
    rw [ht] at h
    cases h
    exact hst
  refine ⟨?_, throughout_of_along hstored hs hfine, ?_⟩
  · obtain ⟨s', hrun, -⟩ := run_ok_of_along (fun s op hs hf => (stored_step hs hf).2) hs hfine
    exact ⟨s', hrun⟩
  · exact Along.of_inv hstored (fun s op hs hf => (stored_step hs hf).1) hs hfine

/-- A database without entries. -/
def emptyDb : Db := ⟨replicate topSize 0, []⟩

theorem emptyDb_stored : Stored emptyDb := by
  have h := @stored_flat [] (fun b hb => absurd hb not_mem_nil) (replicate topSize 0) rfl [] (.refl _)
  rwa [flat_nil, append_nil] at h

/-- An entry of a file with a name of one letter. -/
def letterEntry (c : UInt8) (h : c ≠ 0) (desc : Option Text) : Entry :=
  ⟨1700000000, 10, 0, 0,
    { Fields.all none with
      filename := some ⟨[c], fun h0 => h (mem_singleton.1 h0).symm⟩, desc := desc }⟩

def fileA : Entry := letterEntry 97 (by decide) none

def fileB : Entry := letterEntry 98 (by decide) none

/-- The first file with a description. -/
def fileA' : Entry := letterEntry 97 (by decide) (some ⟨[120, 121, 122], by decide⟩)

/-- The mask that only one name matches. -/
def named (e : Entry) (s : Option Text) : Bool := s = e.str.filename

/-- Files are added, one gets a description that needs a new place, and is deleted. -/
def someOps : List Op :=
  [.add fileA, .add fileB, .update (named fileA) 0 fun _ => fileA', .delete (named fileA) 0]

theorem stored_someOps :
    (∃ s', run step emptyDb someOps = .ok s') ∧ Throughout step Stored emptyDb someOps ∧
      Along step Found emptyDb someOps := by
  have hA : Storable fileA := ⟨by decide, by decide⟩
  have hB : Storable fileB := ⟨by decide, by decide⟩
  have hA' : Storable fileA' := ⟨by decide, by decide⟩
  refine stored_throughout emptyDb_stored ⟨hA, fun _ _ => ⟨hB, fun _ _ => ⟨fun _ _ => hA', ?_⟩⟩⟩
  exact fun _ _ => ⟨trivial, fun _ _ => trivial⟩

/-- The first of two files is deleted, and the file is cleaned up. -/
def cleanedOps : List Op :=
  [.add fileA, .add fileB, .delete (named fileA) 0, .cleanup]

/-- The other one is there twice then. -/
theorem not_stored :
    ¬ ∀ s ops, Stored s → (∃ s', run step s ops = .ok s') ∧ Throughout step Stored s ops := by
  intro h
  obtain ⟨⟨s', hrun⟩, hstored⟩ := h emptyDb cleanedOps emptyDb_stored
  have htwice : ∀ s', run step emptyDb cleanedOps = .ok s' →
      (liveOf s'.file).length ≠ s'.live.length := by decide +kernel
  exact htwice s' hrun (hstored.last hrun).live.length_eq

end Eggdrop.Files.Filedb
