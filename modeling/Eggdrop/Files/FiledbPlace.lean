import Eggdrop.Files.FiledbLayout
import Mathlib.Data.List.Perm.Basic

/-!
# FiledbPlace — changes of the entries (filesys.mod/filedb3.c)

* `matchNth_spec`: what a search finds.
* `reposition_spec`: where an entry goes, into free space or to the end.
* `delete_spec`, `update_spec`, `header_spec`, `add_spec`, `move_spec`: what a change does to the live
  entries.
-/

open List

namespace Eggdrop.Files.Filedb

open ByteFile

/-! ### Finding -/

theorem matchLoop_spec {m : Option Text → Bool} {bs : List Block} (h : ∀ b ∈ bs, b.Ok) {fuel : ℕ}
    (hfuel : bs.length < fuel) (pre : Bytes) :
    (matchLoop m fuel pre.length (pre ++ flat bs) = none ∧
      ∀ e ∈ entries bs, m e.str.filename = false) ∨
    ∃ l b r, bs = l ++ b :: r ∧ unused b.entry.stat = false ∧ m b.entry.str.filename = true ∧
      (∀ e ∈ entries l, m e.str.filename = false) ∧
      matchLoop m fuel pre.length (pre ++ flat bs) =
        some (b.fdbe .full (pre ++ flat l).length, (pre ++ flat l ++ b.bytes).length) := by
  induction bs generalizing fuel pre with
  | nil =>
    obtain ⟨fuel, rfl⟩ : ∃ k, fuel = k + 1 := ⟨fuel - 1, by rw [length_nil] at hfuel; omega⟩
    refine .inl ⟨?_, fun e he => absurd he not_mem_nil⟩
    rw [flat_nil, append_nil, matchLoop, getfile_eof .filename rfl]
  | cons b bs ih =>
    obtain ⟨fuel, rfl⟩ : ∃ k, fuel = k + 1 := ⟨fuel - 1, by rw [length_cons] at hfuel; omega⟩
    obtain ⟨hb, hbs⟩ := forall_mem_cons.1 h
    have hstat : unused (b.fdbe .filename pre.length).stat = unused b.entry.stat :=
      unused_linkStat _ _
    have hname : (b.fdbe .filename pre.length).str.filename = b.entry.str.filename := rfl
    rw [matchLoop, getfile_cons hb .filename rfl]
    dsimp only
    rw [hstat, hname]
    split
    · next hfound =>
      rw [Bool.and_eq_true, Bool.not_eq_true'] at hfound
      refine .inr ⟨[], b, bs, rfl, hfound.1, hfound.2, fun e he => absurd he not_mem_nil, ?_⟩
      rw [getfile_cons hb .full rfl, flat_nil, append_nil]
    · next hskip =>
      rw [Bool.and_eq_true, Bool.not_eq_true'] at hskip
      have hno {bs' : List Block} (h' : ∀ e ∈ entries bs', m e.str.filename = false) :
          ∀ e ∈ entries (b :: bs'), m e.str.filename = false := by
        by_cases hunused : unused b.entry.stat = true
        · rw [entries_unused hunused]
          exact h'
        · have hused := eq_false_of_ne_true hunused
          rw [entries_used hused]
          refine forall_mem_cons.2 ⟨?_, h'⟩
          exact eq_false_of_ne_true fun hm => hskip ⟨hused, hm⟩
      have hnext := ih hbs (Nat.lt_of_succ_lt_succ hfuel) (pre ++ b.bytes)
      rw [append_assoc, ← flat_cons] at hnext
      rcases hnext with ⟨hnone, hall⟩ | ⟨l, c, r, rfl, hused, hm, hl, hsome⟩
      · exact .inl ⟨hnone, hno hall⟩
      · refine .inr ⟨b :: l, c, r, rfl, hused, hm, hno hl, ?_⟩
        rw [hsome, flat_cons]
        simp only [append_assoc]

theorem flat_fuel {pre : Bytes} (hpre : 0 < pre.length) (bs : List Block) :
    bs.length < (pre ++ flat bs).length := by
  have hlen := length_flat bs
  rw [length_append]
  omega

theorem entries_cons_append (l : List Block) {b : Block} (hb : unused b.entry.stat = false)
    (r : List Block) : (entries (l ++ b :: r)).Perm (b.entry.norm :: entries (l ++ r)) := by
  rw [entries_append, entries_append, entries_used hb]
  exact perm_middle

/-- Whether an entry, or none, is an answer to the search for the match after `n` others. -/
def Answers (m : Option Text → Bool) (n : ℕ) (live : List Entry) : Option Entry → Prop
  | none => (live.filter fun e => m e.str.filename).length ≤ n
  | some e => e ∈ live ∧ m e.str.filename = true

theorem matchNth_spec {m : Option Text → Bool} {n : ℕ} {bs : List Block} (h : ∀ b ∈ bs, b.Ok)
    {pre : Bytes} (hpre : 0 < pre.length) :
    (matchNth m n pre.length (pre ++ flat bs) = none ∧
      ((entries bs).filter fun e => m e.str.filename).length ≤ n) ∨
    ∃ l b r, bs = l ++ b :: r ∧ unused b.entry.stat = false ∧ m b.entry.str.filename = true ∧
      ∃ next, matchNth m n pre.length (pre ++ flat bs) =
        some (b.fdbe .full (pre ++ flat l).length, next) := by
  induction n generalizing bs pre with
  | zero =>
    rw [matchNth, matchfile]
    rcases matchLoop_spec (m := m) h (flat_fuel hpre bs) pre with
      ⟨hnone, hall⟩ | ⟨l, b, r, hsplit, hused, hm, -, hsome⟩
    · refine .inl ⟨hnone, ?_⟩
      rw [filter_eq_nil_iff.2 fun e he => by rw [hall e he]; exact Bool.false_ne_true]
      exact Nat.le_refl _
    · exact .inr ⟨l, b, r, hsplit, hused, hm, _, hsome⟩
  | succ n ih =>
    rw [matchNth, matchfile]
    rcases matchLoop_spec (m := m) h (flat_fuel hpre bs) pre with
      ⟨hnone, hall⟩ | ⟨l, b, r, rfl, hused, hm, hl, hsome⟩
    · rw [hnone]
      refine .inl ⟨rfl, ?_⟩
      rw [filter_eq_nil_iff.2 fun e he => by rw [hall e he]; exact Bool.false_ne_true]
      exact Nat.zero_le _
    · rw [hsome]
      dsimp only
      have hr : ∀ c ∈ r, c.Ok := fun c hc => h c (mem_append_right _ (mem_cons_of_mem _ hc))
      have hnext := @ih r hr (pre ++ flat l ++ b.bytes) (by
        rw [length_append, length_append]
        omega)
      have hfile : pre ++ flat l ++ b.bytes ++ flat r = pre ++ flat (l ++ b :: r) := by
        rw [flat_append, flat_cons]
        simp only [append_assoc]
      rw [hfile] at hnext
      rcases hnext with ⟨hnone, hle⟩ | ⟨l', c, r', rfl, hused', hm', next, hsome'⟩
      · refine .inl ⟨hnone, ?_⟩
        rw [entries_append, entries_used hused, filter_append, length_append,
          filter_eq_nil_iff.2 fun e he => by rw [hl e he]; exact Bool.false_ne_true,
          filter_cons_of_pos (by exact hm), length_nil, length_cons]
        omega
      · refine .inr ⟨l ++ b :: l', c, r', by simp, hused', hm', next, ?_⟩
        rw [hsome', flat_append, flat_cons]
        simp only [append_assoc]

/-! ### A place for an entry -/

/-- An empty entry without data. -/
def emptyEntry : Entry := ⟨0, 0, 1, 0, .all none⟩

theorem unused_one : unused 1 = true := by decide

theorem bytes_of_unused {b : Block} (h : b.Ok) (hunused : unused b.entry.stat = true) :
    b.bytes = b.header.bytes ++ b.buf := by
  rw [Block.bytes, data_none (h.empty hunused), nil_append]

theorem findLoop_spec (tot : ℕ) {bs : List Block} (h : ∀ b ∈ bs, b.Ok) {fuel : ℕ}
    (hfuel : bs.length < fuel) (pre : Bytes) :
    findLoop tot fuel pre.length (pre ++ flat bs) =
      ((pre ++ flat bs).length, 0, pre ++ flat bs) ∨
    ∃ l b r, bs = l ++ b :: r ∧ unused b.entry.stat = true ∧ tot ≤ b.buf.length ∧
      (findLoop tot fuel pre.length (pre ++ flat bs) =
        ((pre ++ flat l).length, b.buf.length, pre ++ flat bs) ∨
      tot + headerSize ≤ b.buf.length ∧
      findLoop tot fuel pre.length (pre ++ flat bs) =
        ((pre ++ flat l).length, tot, pre ++ flat l ++ (b.header.bytes ++ b.buf.take tot) ++
          flat (placed emptyEntry (b.buf.drop (tot + headerSize)) :: r))) := by
  induction bs generalizing fuel pre with
  | nil =>
    obtain ⟨fuel, rfl⟩ : ∃ k, fuel = k + 1 := ⟨fuel - 1, by rw [length_nil] at hfuel; omega⟩
    refine .inl ?_
    rw [flat_nil, append_nil, findLoop, getfile_eof .header rfl]
  | cons b bs ih =>
    obtain ⟨fuel, rfl⟩ : ∃ k, fuel = k + 1 := ⟨fuel - 1, by rw [length_cons] at hfuel; omega⟩
    obtain ⟨hb, hbs⟩ := forall_mem_cons.1 h
    have hstat : unused (b.fdbe .header pre.length).stat = unused b.entry.stat :=
      unused_linkStat _ _
    have hbuf : (b.fdbe .header pre.length).buf_len.toNat = b.buf.length :=
      toNat_ofNat ((Nat.le_add_left _ _).trans hb.space)
    have hpos : (b.fdbe .header pre.length).pos = pre.length := rfl
    rw [findLoop, getfile_cons hb .header rfl]
    dsimp only
    rw [hstat, hbuf, hpos]
    split
    · next hfound =>
      obtain ⟨hunused, hle⟩ := hfound
      refine .inr ⟨[], b, bs, rfl, hunused, hle, ?_⟩
      rw [flat_nil, append_nil]
      split
      · next hsplit =>
        refine .inr ⟨by omega, ?_⟩
        have hoe : (UInt16.ofNat (b.buf.length - tot - headerSize)).toNat =
            b.buf.length - tot - headerSize := by
          have hspace := hb.space
          exact toNat_ofNat (by omega)
        -- the file at the place of the new header
        have hfile : pre ++ flat (b :: bs) =
            (pre ++ (b.header.bytes ++ b.buf.take tot)) ++ b.buf.drop tot ++ flat bs := by
          rw [flat_cons, bytes_of_unused hb hunused]
          simp only [append_assoc]
          rw [← append_assoc (b.buf.take tot), take_append_drop]
        have htake : (b.buf.take tot).length = tot := length_take_of_le hle
        refine Prod.ext rfl (Prod.ext rfl ?_)
        let oe : Fdbe :=
          { emptyEntry with
            exist := true, pos := pre.length + headerSize + tot, dyn_len := 0
            buf_len := UInt16.ofNat (b.buf.length - tot - headerSize) }
        have hpre : pre.length + headerSize + tot =
            (pre ++ (b.header.bytes ++ b.buf.take tot)).length := by
          rw [length_append, length_append, Header.length_bytes, htake, Nat.add_assoc]
        have hmid : (b.buf.drop tot).length =
            headerSize + 0 + (b.buf.length - tot - headerSize) := by
          rw [length_drop]
          omega
        have hplace := @place_over oe (Nat.zero_le _) (pre ++ (b.header.bytes ++ b.buf.take tot))
          (b.buf.drop tot) (flat bs) _ 0 _ hpre rfl hmid
        rw [placeHere, hfile]
        show (place _ .all 0 (0 + (UInt16.ofNat _).toNat - 0) oe _).1 = _
        rw [hoe, Nat.zero_add, Nat.sub_zero, hplace]
        dsimp only
        rw [drop_drop, Nat.add_zero, flat_cons, append_assoc _ _ (flat bs)]
      · exact .inl rfl
    · have hnext := ih hbs (Nat.lt_of_succ_lt_succ hfuel) (pre ++ b.bytes)
      rw [append_assoc, ← flat_cons] at hnext
      rcases hnext with hend | ⟨l, c, r, rfl, hunused, hle, hfound⟩
      · exact .inl hend
      · refine .inr ⟨b :: l, c, r, rfl, hunused, hle, ?_⟩
        rw [flat_cons b l, ← append_assoc pre]
        exact hfound

/-- Every live block is still where it was. -/
def Keeps (bs bs' : List Block) : Prop :=
  ∀ l b r, bs = l ++ b :: r → unused b.entry.stat = false →
    ∃ l' r', bs' = l' ++ b :: r' ∧ (flat l').length = (flat l).length

theorem keeps_replace {l r cs : List Block} {c : Block} (hc : unused c.entry.stat = true)
    (hsize : (flat cs).length = c.size) : Keeps (l ++ c :: r) (l ++ (cs ++ r)) := by
  intro l₁ b r₁ heq hb
  have hne : b ≠ c := by
    rintro rfl
    rw [hc] at hb
    cases hb
  rcases append_eq_append_iff.1 heq with ⟨d, rfl, hd⟩ | ⟨d, rfl, hd⟩
  · rcases cons_eq_append_iff.1 hd with ⟨rfl, hd⟩ | ⟨d, rfl, rfl⟩
    · cases hd
      exact absurd rfl hne
    · refine ⟨l ++ (cs ++ d), r₁, by simp only [append_assoc], ?_⟩
      rw [flat_append, flat_append, flat_append, flat_cons, length_append, length_append,
        length_append, length_append, hsize, Block.length_bytes]
  · rcases cons_eq_append_iff.1 hd with ⟨rfl, hd⟩ | ⟨d, rfl, rfl⟩
    · cases hd
      exact absurd rfl hne
    · exact ⟨l₁, d ++ (cs ++ r), by simp only [append_assoc, cons_append], rfl⟩

theorem keeps_append (bs cs : List Block) : Keeps bs (bs ++ cs) := by
  rintro l b r rfl -
  exact ⟨l, r ++ cs, by simp only [append_assoc, cons_append], rfl⟩

theorem ok_append {l r : List Block} {c : Block} (h : ∀ b ∈ l ++ c :: r, b.Ok) {cs : List Block}
    (hcs : ∀ b ∈ cs, b.Ok) : ∀ b ∈ l ++ (cs ++ r), b.Ok := by
  obtain ⟨hl, hr⟩ := forall_mem_append.1 h
  exact forall_mem_append.2 ⟨hl, forall_mem_append.2 ⟨hcs, (forall_mem_cons.1 hr).2⟩⟩

theorem placed_ok {e : Entry} {buf : Bytes} (hspace : e.data.length + buf.length ≤ 65535)
    (hused : unused e.stat = false) : (placed e buf).Ok where
  space := hspace
  empty hunused := by
    have hstat : unused e.stat = true := hunused
    rw [hused] at hstat
    cases hstat

theorem entries_replace {l r cs : List Block} {c : Block} (hc : unused c.entry.stat = true)
    {e : Entry} (hcs : entries cs = [e]) :
    (entries (l ++ (cs ++ r))).Perm (e :: entries (l ++ c :: r)) := by
  rw [entries_append, entries_append, entries_append, entries_unused hc, hcs]
  exact perm_middle

/-- An entry is added where there is room, or at the end. -/
theorem reposition_spec {fdbe : Fdbe} (hdata : fdbe.toEntry.data.length ≤ 65535)
    (hused : unused fdbe.stat = false) {bs : List Block} (h : ∀ b ∈ bs, b.Ok) {top : Bytes}
    (htop : top.length = topSize) :
    ∃ bs', (reposition .all fdbe (top ++ flat bs)).1 = top ++ flat bs' ∧ (∀ b ∈ bs', b.Ok) ∧
      (entries bs').Perm (fdbe.toEntry.norm :: entries bs) ∧ Keeps bs bs' := by
  have htot : totDynspace (fdbe.str.map strLen) = fdbe.toEntry.data.length := totDynspace_eq hdata
  have hnew (buf : Bytes) : entries [placed fdbe.toEntry buf] = [fdbe.toEntry.norm] := by
    rw [entries_used hused]
    rfl
  have hfuel : bs.length < (top ++ flat bs).length :=
    flat_fuel (by rw [htop]; decide) bs
  generalize htotal : fdbe.toEntry.data.length = tot at hdata htot
  rw [reposition, htot, findempty, ← htop]
  dsimp only
  rcases findLoop_spec tot h hfuel top with
    hend | ⟨l, b, r, rfl, hunused, hle, hwhole | ⟨hroom, hcut⟩⟩
  · refine ⟨bs ++ [placed fdbe.toEntry []], ?_, ?_, ?_, keeps_append _ _⟩
    · rw [hend]
      dsimp only
      rw [if_neg (Nat.lt_irrefl _), place_end (by omega) rfl, flat_append, flat_cons, flat_nil,
        append_nil, append_assoc]
    · refine forall_mem_append.2 ⟨h, fun b hb => ?_⟩
      rw [mem_singleton.1 hb]
      exact placed_ok (by rw [length_nil]; omega) hused
    · rw [entries_append, hnew]
      exact perm_append_singleton _ _
  · -- the whole space of an unused entry
    have hb := h b (mem_append_right _ mem_cons_self)
    have hspace : b.buf.length ≤ 65535 := (Nat.le_add_left _ _).trans hb.space
    have hsize : b.size = headerSize + tot + (b.buf.length - tot) := by
      rw [Block.size, data_none (hb.empty hunused), length_nil]
      omega
    refine ⟨l ++ ([placed fdbe.toEntry (b.bytes.drop (headerSize + tot))] ++ r), ?_, ?_,
      entries_replace hunused (hnew _), keeps_replace hunused ?_⟩
    · rw [hwhole]
      dsimp only
      have hnbuf : (if 0 < b.buf.length then b.buf.length - tot else 0) = b.buf.length - tot := by
        split <;> omega
      have hfile : top ++ flat (l ++ b :: r) = top ++ flat l ++ b.bytes ++ flat r := by
        rw [flat_append, flat_cons]
        simp only [append_assoc]
      rw [hnbuf, hfile, place_over (by omega) rfl htotal.symm (by rw [Block.length_bytes, hsize])]
      simp only [flat_append, flat_cons, flat_nil, append_nil, append_assoc]
    · refine ok_append h fun c hc => ?_
      rw [mem_singleton.1 hc]
      refine placed_ok ?_ hused
      rw [length_drop, Block.length_bytes, hsize]
      omega
    · rw [flat_cons, flat_nil, append_nil, Block.length_bytes, Block.size, placed]
      dsimp only
      rw [length_drop, Block.length_bytes, hsize]
      omega
  · -- a part of it
    have hb := h b (mem_append_right _ mem_cons_self)
    have hspace : b.buf.length ≤ 65535 := (Nat.le_add_left _ _).trans hb.space
    have hsize : b.size = headerSize + b.buf.length := by
      rw [Block.size, data_none (hb.empty hunused), length_nil, Nat.add_zero]
    have htake : (b.header.bytes ++ b.buf.take tot).length = headerSize + tot := by
      rw [length_append, Header.length_bytes, length_take_of_le hle]
    let rest := placed emptyEntry (b.buf.drop (tot + headerSize))
    refine ⟨l ++ ([placed fdbe.toEntry [], rest] ++ r), ?_, ?_, ?_, keeps_replace hunused ?_⟩
    · rw [hcut]
      dsimp only
      have hnbuf : (if 0 < tot then tot - tot else 0) = 0 := by
        split <;> omega
      rw [hnbuf, place_over (by omega) rfl htotal.symm (by rw [htake, Nat.add_zero]),
        drop_of_length_le (by rw [htake])]
      simp only [flat_append, flat_cons, flat_nil, append_nil, append_assoc, rest]
    · refine ok_append h (forall_mem_cons.2 ⟨?_, fun c hc => ?_⟩)
      · exact placed_ok (by rw [length_nil]; omega) hused
      · rw [mem_singleton.1 hc]
        refine ⟨?_, fun _ => rfl⟩
        show 0 + (b.buf.drop _).length ≤ 65535
        rw [length_drop]
        omega
    · refine entries_replace hunused ?_
      rw [entries_used hused, entries_unused unused_one]
      rfl
    · rw [flat_cons, flat_cons, flat_nil, append_nil, length_append, Block.length_bytes,
        Block.length_bytes, Block.size, Block.size, hsize]
      show headerSize + fdbe.toEntry.data.length + 0 + (headerSize + 0 + (b.buf.drop _).length) = _
      rw [length_drop, htotal]
      omega

/-! ### Changes of one entry -/

theorem flat_split (top : Bytes) (l : List Block) (b : Block) (r : List Block) :
    top ++ flat (l ++ b :: r) = top ++ flat l ++ b.bytes ++ flat r := by
  rw [flat_append, flat_cons]
  simp only [append_assoc]

theorem delete_spec {l r : List Block} {b : Block} (h : ∀ c ∈ l ++ b :: r, c.Ok)
    (top : Bytes) :
    delfile (top ++ flat l).length (top ++ flat (l ++ b :: r)) =
        top ++ flat (l ++ b.deleted :: r) ∧
      (∀ c ∈ l ++ b.deleted :: r, c.Ok) ∧ entries (l ++ b.deleted :: r) = entries (l ++ r) := by
  have hb := h b (mem_append_right _ mem_cons_self)
  refine ⟨?_, @ok_append l r b h [b.deleted] fun c hc => ?_, ?_⟩
  · rw [flat_split, delfile_block hb rfl, flat_split]
  · rw [mem_singleton.1 hc]
    exact b.deleted_ok hb
  · rw [entries_append, entries_append, entries_unused unused_one]

/-- An entry gets new contents. -/
theorem update_spec {l r : List Block} {b : Block} (h : ∀ c ∈ l ++ b :: r, c.Ok) {f : Fdbe}
    (hexist : f.exist = true) (hodyn : f.dyn_len.toNat = b.entry.data.length)
    (hobuf : f.buf_len.toNat = b.buf.length) (hdata : f.toEntry.data.length ≤ 65535)
    (hused : unused f.stat = false) {top : Bytes} (htop : top.length = topSize) :
    ∃ bs', (updatefile (top ++ flat l).length f .all (top ++ flat (l ++ b :: r))).1 =
        top ++ flat bs' ∧ (∀ c ∈ bs', c.Ok) ∧
      (entries bs').Perm (f.toEntry.norm :: entries (l ++ r)) := by
  have hspace := (h b (mem_append_right _ mem_cons_self)).space
  have htot : totDynspace (f.str.map strLen) = f.toEntry.data.length := totDynspace_eq hdata
  have hpos : (top ++ flat l).length ≠ 0 := by
    rw [length_append, htop, topSize]
    omega
  rw [updatefile, if_pos hexist, htot, hodyn, hobuf]
  by_cases hfits : f.toEntry.data.length ≤ b.entry.data.length + b.buf.length
  · -- in its old place
    rw [if_pos ⟨hpos, hfits⟩, placeHere, htot, hodyn, hobuf]
    refine ⟨l ++ ([placed f.toEntry (b.bytes.drop (headerSize + f.toEntry.data.length))] ++ r),
      ?_, ?_, ?_⟩
    · rw [flat_split, place_over hdata rfl rfl (by rw [Block.length_bytes, Block.size]; omega)]
      simp only [flat_append, flat_cons, flat_nil, append_nil, append_assoc]
    · refine ok_append h fun c hc => ?_
      rw [mem_singleton.1 hc]
      refine placed_ok ?_ hused
      rw [length_drop, Block.length_bytes, Block.size]
      omega
    · rw [entries_append, entries_append, entries_append,
        entries_used (b := placed f.toEntry _) hused]
      exact perm_middle
  · rw [if_neg fun hboth => hfits hboth.2, if_pos hpos]
    obtain ⟨hdel, hok, hentries⟩ := delete_spec h top
    rw [hdel, ← hentries]
    obtain ⟨bs', hfile, hok', hperm, -⟩ := reposition_spec hdata hused hok htop
    exact ⟨bs', hfile, hok', hperm⟩

/-- An entry gets new numbers. -/
theorem header_spec {l r : List Block} {b : Block} (h : ∀ c ∈ l ++ b :: r, c.Ok) {f : Fdbe}
    (hexist : f.exist = true) (hodyn : f.dyn_len.toNat = b.entry.data.length)
    (hobuf : f.buf_len.toNat = b.buf.length) (hstr : f.str = b.entry.str)
    (hused : unused f.stat = false) (top : Bytes) :
    ∃ bs', (updatefile (top ++ flat l).length f .header (top ++ flat (l ++ b :: r))).1 =
        top ++ flat bs' ∧ (∀ c ∈ bs', c.Ok) ∧
      (entries bs').Perm (f.toEntry.norm :: entries (l ++ r)) := by
  have hspace := (h b (mem_append_right _ mem_cons_self)).space
  have hsame : f.toEntry.data = b.entry.data := by
    rw [Entry.data, Entry.data, hstr]
  refine ⟨l ++ ([placed f.toEntry b.buf] ++ r), ?_, ok_append h fun c hc => ?_, ?_⟩
  · rw [updatefile, if_pos hexist, hodyn, hobuf, flat_split, Block.bytes, ← hsame,
      place_header (by decide) rfl (by rw [Header.length_bytes]) rfl rfl]
    simp only [flat_append, flat_cons, flat_nil, append_nil, append_assoc]
  · rw [mem_singleton.1 hc]
    exact placed_ok (by rw [hsame]; exact hspace) hused
  · rw [entries_append, entries_append, entries_append,
      entries_used (b := placed f.toEntry _) hused]
    exact perm_middle

/-- A new entry. -/
theorem add_spec {e : Entry} (hdata : e.data.length ≤ 65535) (hused : unused e.stat = false)
    {bs : List Block} (h : ∀ b ∈ bs, b.Ok) {top : Bytes} (htop : top.length = topSize) :
    ∃ bs', addfile e (top ++ flat bs) = top ++ flat bs' ∧ (∀ b ∈ bs', b.Ok) ∧
      (entries bs').Perm (e.norm :: entries bs) ∧ Keeps bs bs' :=
  @reposition_spec { e with exist := false, pos := 0, dyn_len := 0, buf_len := 0 } hdata hused bs h
    top htop

/-- A new entry in the place of one. -/
theorem move_spec {l r : List Block} {b : Block} (h : ∀ c ∈ l ++ b :: r, c.Ok)
    (hb : unused b.entry.stat = false) {e : Entry} (hdata : e.data.length ≤ 65535)
    (hused : unused e.stat = false) {top : Bytes} (htop : top.length = topSize) :
    ∃ bs', delfile (top ++ flat l).length (addfile e (top ++ flat (l ++ b :: r))) = top ++ flat bs' ∧
      (∀ c ∈ bs', c.Ok) ∧ (entries bs').Perm (e.norm :: entries (l ++ r)) := by
  obtain ⟨bs₁, hadd, hok, hperm, hkeeps⟩ := add_spec hdata hused h htop
  obtain ⟨l', r', rfl, hlen⟩ := hkeeps l b r rfl hb
  obtain ⟨hdel, hok', hentries⟩ := delete_spec hok top
  refine ⟨l' ++ b.deleted :: r', ?_, hok', ?_⟩
  · rw [hadd, length_append, ← hlen, ← length_append, hdel]
  · rw [hentries]
    -- both sides have the old entry as well
    have hold := (entries_cons_append l hb r).cons e.norm
    have hnew := (entries_cons_append l' hb r').symm.trans (hperm.trans hold)
    exact (perm_cons b.entry.norm).1 (hnew.trans (.swap _ _ _))

end Eggdrop.Files.Filedb
