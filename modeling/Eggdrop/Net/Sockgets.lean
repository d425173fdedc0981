import Eggdrop.Lib.Lines
import Eggdrop.Net.Tputs
import Mathlib.Data.List.DropRight

/-!
# Sockgets — lines from a text socket (linebuf.c, net.c)

What is read from a text socket goes through a line buffer: a list of lines of which the last may
still be under way.  A line is content and the run of CR and LF behind it, bare runs are no lines,
and a line has room for 4606 bytes.

* `sockgets_spec`: one call returns the next line that the buffer and the reads to come will give.
* `outputs_iff`: when the lines given for some pieces are those of the text, cut to the limit.
* `returned_iff`: the same for all the calls of `sockgets`.
-/

open List

namespace Eggdrop.Net

open Lines

/-! ### The line buffer -/

/-- `LINEBUF_SIZE`. -/
def linebufSize : ℕ := 4096 + 510

/-- `READMAX`. -/
def readMax : ℕ := 16384

/-- `buf_line_t`. -/
structure BufLine where
  buf : Bytes
  terminated : Bool
  raw : Bool
  deriving DecidableEq

def isCrlf (c : UInt8) : Bool := c == 0x0d || c == 0x0a

def linebufSkipCrlf (ch : Bytes) : ℕ :=
  let rest := ch.dropWhile fun c => !isCrlf c
  (ch.takeWhile fun c => !isCrlf c).length + (rest.takeWhile isCrlf).length

/-- Overwrite the CR and LF at the end with NUL. -/
def blankCrlf (s : Bytes) : Bytes :=
  s.rdropWhile isCrlf ++ replicate (s.length - (s.rdropWhile isCrlf).length) 0

def linebufCopy (raw : Bool) (bufline : BufLine) (data : Bytes) : BufLine × ℕ :=
  if bufline.terminated then (bufline, 0)
  else
    let consumed := linebufSkipCrlf data
    let avail := linebufSize - bufline.buf.length
    if avail < consumed then
      -- the line is full, and its length is counted as the full size
      let new := data.take avail
      (⟨bufline.buf ++ if raw then new else blankCrlf new, true, raw⟩, consumed)
    else
      let new := data.take consumed
      if new.getLast?.any isCrlf then
        (⟨bufline.buf ++ if raw then new else new.rdropWhile isCrlf, true, raw⟩, consumed)
      else (⟨bufline.buf ++ new, false, raw⟩, consumed)

theorem linebufSkipCrlf_pos {data : Bytes} (h : data ≠ []) : 0 < linebufSkipCrlf data := by
  obtain ⟨b, s, rfl⟩ := exists_cons_of_ne_nil h
  rw [linebufSkipCrlf]
  by_cases hb : isCrlf b = true
  · simp [hb]
  · rw [takeWhile_cons_of_pos (by simpa using hb), length_cons]
    omega

theorem linebufCopy_snd (raw : Bool) {bufline : BufLine} (h : bufline.terminated = false)
    (data : Bytes) : (linebufCopy raw bufline data).2 = linebufSkipCrlf data := by
  rw [linebufCopy, if_neg (by simp [h])]
  dsimp only
  repeat' split
  all_goals rfl

/-- The loop of `op_linebuf_parse`: each line gets a new `buf_line_t`. -/
def newLines (raw : Bool) (data : Bytes) : List BufLine :=
  if data = [] then []
  else
    let r := linebufCopy raw ⟨[], false, raw⟩ data
    r.1 :: newLines raw (data.drop r.2)
termination_by data.length
decreasing_by
  next h =>
  have hpos := linebufSkipCrlf_pos h
  rw [linebufCopy_snd raw rfl, length_drop]
  have := length_pos_iff.2 h
  omega

/-- `op_linebuf_parse`: the last line is filled up first if it is still under way. -/
def opLinebufParse (raw : Bool) (bufhead : List BufLine) (data : Bytes) : List BufLine :=
  if data = [] then bufhead
  else
    match bufhead.getLast? with
    | none => newLines raw data
    | some tail =>
      let r := linebufCopy raw tail data
      bufhead.dropLast ++ r.1 :: newLines raw (data.drop r.2)

/-- `op_linebuf_get`. -/
def opLinebufGet (buflen : ℕ) (unfinished raw : Bool) : List BufLine → Option Bytes × List BufLine
  | [] => (none, [])
  | bufline :: rest =>
    if !(unfinished || bufline.terminated) || buflen == 0 then (none, bufline :: rest)
    else
      let s := bufline.buf.take (buflen - 1)
      let s := if bufline.raw && !raw then (s.dropWhile isCrlf).rdropWhile isCrlf else s
      -- bare CRLF lines are discarded
      if s = [] then opLinebufGet buflen unfinished raw rest else (some s, rest)

def opLinebufLen (bufhead : List BufLine) : ℕ := (bufhead.map fun l => l.buf.length).sum

/-- A connected text socket and what its reads are going to give. -/
structure TextSock where
  recvbuf : List BufLine
  reads : List Bytes
  deriving DecidableEq

/-- What is read is fed to the buffer, and a line is looked for. -/
def feed (recvbuf : List BufLine) (xx : Bytes) : Option Bytes × List BufLine :=
  let r := opLinebufGet (readMax + 1) false false (opLinebufParse false recvbuf xx)
  -- an overlong line that is still under way is flushed
  if r.1 = none ∧ readMax ≤ opLinebufLen r.2 then opLinebufGet (readMax + 1) true false r.2 else r

/-- One call of `sockgets` where this socket is the only one with input. -/
def sockgets (k : TextSock) : Option Bytes × TextSock :=
  let r :=
    if 0 < opLinebufLen k.recvbuf then opLinebufGet (readMax + 1) false false k.recvbuf
    else (none, k.recvbuf)
  match r.1 with
  | some line => (some line, { k with recvbuf := r.2 })
  | none =>
    match k.reads with
    | [] => (none, { k with recvbuf := r.2 })
    | xx :: reads =>
      let r := feed r.2 xx
      (r.1, ⟨r.2, reads⟩)

/-- What `n` calls return. -/
def returned : ℕ → TextSock → List Bytes
  | 0, _ => []
  | n + 1, k => (sockgets k).1.toList ++ returned n (sockgets k).2

/-! ### What is asked of the calls -/

/-- The lines that end in a text, each cut to the limit. -/
def textLines (stream : Bytes) : List Bytes :=
  (scan isCrlf [] stream).map (take linebufSize)

/-- The condition on the pieces of the reads, with `t` under way before them: a read ends within a
line behind its limit only where the line's end comes next, and no run of CR and LF takes a shorter
line over the limit. -/
def Parted (t : Bytes) : List (Bytes × Bytes) → Prop
  | [] => t.length ≤ linebufSize
  | (c, w) :: ps =>
    if t.length ≤ linebufSize then
      if w = [] then Parted (t ++ c) ps
      else ((t ++ c).length < linebufSize → (t ++ c).length + w.length ≤ linebufSize) ∧
        Parted [] ps
    else c = [] ∧ w.length ≤ linebufSize ∧ Parted [] ps

/-! ### The lines from some pieces -/

/-- A line that has used up its room. -/
def filled (t : Bytes) : Bytes := t.take linebufSize ++ replicate (linebufSize - t.length) 0

/-- The lines that are given for some pieces, with `p` in the line under way. -/
def outputs (p : Bytes) : List (Bytes × Bytes) → List Bytes
  | [] => []
  | (c, w) :: ps =>
    if linebufSize < (p ++ c).length + w.length then filled (p ++ c) :: outputs [] ps
    else if w = [] then outputs (p ++ c) ps
    else whole (p ++ c) ++ outputs [] ps

theorem linebufSize_pos : 0 < linebufSize := by decide

theorem filled_of_le {t : Bytes} (h : linebufSize ≤ t.length) : filled t = t.take linebufSize := by
  rw [filled, Nat.sub_eq_zero_of_le h, replicate_zero, append_nil]

theorem length_filled (t : Bytes) : (filled t).length = linebufSize := by
  rw [filled, length_append, length_take, length_replicate]
  omega

theorem length_ended_le (ps : List (Bytes × Bytes)) (hps : ∀ p ∈ ps, p.1 ≠ [] ∨ p.2 ≠ []) :
    (∀ t p : Bytes, p ≠ [] → (ended t ps).length ≤ (outputs p ps).length) ∧
      (∀ t : Bytes, (ended t ps).length ≤ (outputs [] ps).length + 1) ∧
      (ended ([] : Bytes) ps).length ≤ (outputs [] ps).length := by
  induction ps with
  | nil => simp [ended]
  | cons q ps ih =>
    obtain ⟨c, w⟩ := q
    obtain ⟨ih₁, ih₂, ih₃⟩ := ih fun p hp => hps p (mem_cons_of_mem _ hp)
    have hne := hps (c, w) mem_cons_self
    have hone (t : Bytes) := length_whole_le t
    refine ⟨fun t p hp => ?_, fun t => ?_, ?_⟩
    · have hpc : p ++ c ≠ [] := by simp [hp]
      rw [ended, outputs]
      by_cases hfull : linebufSize < (p ++ c).length + w.length
      · rw [if_pos hfull, length_cons]
        split
        · exact ih₂ _
        · rw [length_append]
          have := hone (t ++ c)
          omega
      · rw [if_neg hfull]
        split
        · exact ih₁ _ _ hpc
        · rw [length_append, length_append, whole_of_ne_nil hpc, length_singleton]
          have := hone (t ++ c)
          omega
    · rw [ended, outputs]
      by_cases hfull : linebufSize < ([] ++ c).length + w.length
      · rw [if_pos hfull, length_cons]
        split
        · have := ih₂ (t ++ c)
          omega
        · rw [length_append]
          have := hone (t ++ c)
          omega
      · rw [if_neg hfull]
        split
        · next hw =>
          have hc : [] ++ c ≠ [] := hne.resolve_right (not_not.2 hw)
          exact Nat.le_succ_of_le (ih₁ _ _ hc)
        · rw [length_append, length_append]
          have := hone (t ++ c)
          omega
    · rw [ended, outputs]
      by_cases hfull : linebufSize < ([] ++ c).length + w.length
      · rw [if_pos hfull, length_cons]
        split
        · exact ih₂ _
        · rw [length_append]
          have := hone ([] ++ c)
          omega
      · rw [if_neg hfull]
        split
        · next hw =>
          have hc : [] ++ c ≠ [] := hne.resolve_right (not_not.2 hw)
          exact ih₁ _ _ hc
        · rw [length_append, length_append]
          omega

/-- When the lines given are those that end, cut to the limit: with nothing but the line under way in
the buffer, and with that line given already. -/
theorem outputs_iff (ps : List (Bytes × Bytes)) (hps : ∀ p ∈ ps, p.1 ≠ [] ∨ p.2 ≠ []) :
    ∀ t : Bytes,
      (t.length ≤ linebufSize →
        (outputs t ps = (ended t ps).map (take linebufSize) ↔ Parted t ps)) ∧
      (linebufSize < t.length →
        (t.take linebufSize :: outputs [] ps = (ended t ps).map (take linebufSize) ↔
          Parted t ps)) := by
  induction ps with
  | nil =>
    refine fun t => ⟨fun h => iff_of_true rfl h, fun h => iff_of_false (by simp [ended]) ?_⟩
    rw [Parted]
    omega
  | cons q ps ih =>
    obtain ⟨c, w⟩ := q
    have hps' : ∀ p ∈ ps, p.1 ≠ [] ∨ p.2 ≠ [] := fun p hp => hps p (mem_cons_of_mem _ hp)
    have ih := ih hps'
    have hne := hps (c, w) mem_cons_self
    obtain ⟨hcount, hcount₁, hcount₀⟩ := length_ended_le ps hps'
    have hpos := linebufSize_pos
    have ihnil := (ih []).1 (Nat.zero_le _)
    refine fun t => ⟨fun ht => ?_, fun ht => ?_⟩
    · rw [outputs, ended, Parted, if_pos ht]
      by_cases hfull : linebufSize < (t ++ c).length + w.length
      · rw [if_pos hfull]
        by_cases hw : w = []
        · rw [if_pos hw, if_pos hw]
          have hlong : linebufSize < (t ++ c).length := by simpa [hw] using hfull
          rw [filled_of_le (Nat.le_of_lt hlong)]
          exact (ih (t ++ c)).2 hlong
        · rw [if_neg hw, if_neg hw, map_append]
          by_cases hshort : (t ++ c).length < linebufSize
          · refine iff_of_false (fun h => ?_) fun h => by
              have := h.1 hshort
              omega
            by_cases htc : t ++ c = []
            · -- a run that is taken for a line
              rw [htc] at h
              have := congrArg length h
              rw [length_cons, length_append, length_map, length_map] at this
              have hnil : (whole ([] : Bytes)).length = 0 := rfl
              omega
            · rw [whole_of_ne_nil htc] at h
              have := congrArg length (cons.inj h).1
              rw [length_filled, length_take] at this
              omega
          · have htc : t ++ c ≠ [] := by
              intro h
              rw [h, length_nil] at hshort
              omega
            rw [whole_of_ne_nil htc, filled_of_le (by omega), map_cons, map_nil, singleton_append,
              cons_inj_right, ihnil]
            exact (and_iff_right fun h => absurd h hshort).symm
      · rw [if_neg hfull]
        by_cases hw : w = []
        · rw [if_pos hw, if_pos hw, if_pos hw]
          exact (ih (t ++ c)).1 (by omega)
        · rw [if_neg hw, if_neg hw, if_neg hw, map_append]
          have hwhole : (whole (t ++ c)).map (take linebufSize) = whole (t ++ c) := by
            rw [whole]
            split
            · rfl
            · rw [map_cons, take_of_length_le (by omega)]
              rfl
          rw [hwhole, append_right_inj, ihnil]
          exact (and_iff_right fun _ => by omega).symm
    · rw [Parted, if_neg (by omega)]
      by_cases hc : c = []
      · have hw : w ≠ [] := hne.resolve_left (not_not.2 hc)
        have htc : t ++ c ≠ [] := by
          intro h
          rw [append_eq_nil_iff.1 h |>.1, length_nil] at ht
          omega
        subst hc
        rw [append_nil] at htc
        rw [outputs, ended, if_neg hw, if_neg hw, append_nil, append_nil, whole_of_ne_nil htc,
          map_append, map_cons, map_nil, singleton_append, cons_inj_right, length_nil, Nat.zero_add]
        by_cases hfull : linebufSize < w.length
        · rw [if_pos hfull]
          refine iff_of_false (fun h => ?_) fun h => by omega
          have := congrArg length h
          rw [length_cons, length_map] at this
          omega
        · rw [if_neg hfull]
          refine ihnil.trans ?_
          rw [and_iff_right rfl, and_iff_right (by omega)]
      · refine iff_of_false (fun h => ?_) fun h => hc h.1
        have hgiven := congrArg length h
        rw [length_cons, length_map, outputs, ended, nil_append] at hgiven
        have hone := length_whole_le (t ++ c)
        by_cases hfull : linebufSize < c.length + w.length
        · rw [if_pos hfull, length_cons] at hgiven
          split at hgiven
          · have := hcount₁ (t ++ c)
            omega
          · rw [length_append] at hgiven
            omega
        · rw [if_neg hfull] at hgiven
          split at hgiven
          · have := hcount (t ++ c) c hc
            omega
          · rw [length_append, length_append, whole_of_ne_nil hc, length_singleton] at hgiven
            omega

/-! ### The buffer and the pieces -/

/-- The lines that the buffer has ready. -/
def pentUp (bufhead : List BufLine) : List Bytes :=
  bufhead.flatMap fun l => if l.terminated then whole l.buf else []

/-- The line that is under way. -/
def underWay (bufhead : List BufLine) : Bytes :=
  match bufhead.getLast? with
  | none => []
  | some l => if l.terminated then [] else l.buf

/-- Only the last line may be under way. -/
structure Tidy (bufhead : List BufLine) : Prop where
  ended : bufhead.Pairwise fun l _ => l.terminated = true
  parsed : ∀ l ∈ bufhead, l.raw = false
  room : ∀ l ∈ bufhead, l.buf.length ≤ linebufSize

theorem tidy_nil : Tidy [] := ⟨.nil, by simp, by simp⟩

theorem tidy_cons {l : BufLine} {rest : List BufLine} :
    Tidy (l :: rest) ↔ (rest ≠ [] → l.terminated = true) ∧ l.raw = false ∧
      l.buf.length ≤ linebufSize ∧ Tidy rest := by
  constructor
  · rintro ⟨hended, hparsed, hroom⟩
    obtain ⟨hl, hrest⟩ := pairwise_cons.1 hended
    obtain ⟨hraw, hparsed⟩ := forall_mem_cons.1 hparsed
    obtain ⟨hlen, hroom⟩ := forall_mem_cons.1 hroom
    refine ⟨fun hne => ?_, hraw, hlen, hrest, hparsed, hroom⟩
    obtain ⟨l', rest', rfl⟩ := exists_cons_of_ne_nil hne
    exact hl l' mem_cons_self
  · rintro ⟨hl, hraw, hlen, hrest, hparsed, hroom⟩
    refine ⟨pairwise_cons.2 ⟨fun l' hl' => hl (ne_nil_of_mem hl'), hrest⟩,
      forall_mem_cons.2 ⟨hraw, hparsed⟩, forall_mem_cons.2 ⟨hlen, hroom⟩⟩

theorem tidy_append {ls ls' : List BufLine} (h : Tidy ls) (hls : ∀ l ∈ ls, l.terminated = true)
    (h' : Tidy ls') : Tidy (ls ++ ls') :=
  ⟨pairwise_append.2 ⟨h.ended, h'.ended, fun l hl _ _ => hls l hl⟩,
    forall_mem_append.2 ⟨h.parsed, h'.parsed⟩, forall_mem_append.2 ⟨h.room, h'.room⟩⟩

theorem underWay_append {ls ls' : List BufLine} (h : ls' ≠ []) :
    underWay (ls ++ ls') = underWay ls' := by
  rw [underWay, underWay, getLast?_append_of_ne_nil _ h]

section Copy

variable {c w : Bytes}

theorem rdropWhile_piece (hc : ∀ b ∈ c, isCrlf b = false) (hw : ∀ b ∈ w, isCrlf b = true) :
    (c ++ w).rdropWhile isCrlf = c := by
  induction w using reverseRecOn with
  | nil =>
    rw [append_nil, rdropWhile_eq_self_iff]
    intro hne
    simp [hc _ (getLast_mem hne)]
  | append_singleton w b ih =>
    rw [← append_assoc, rdropWhile_concat_pos _ _ _ (hw b (by simp))]
    exact ih fun b' hb' => hw b' (mem_append_left _ hb')

theorem getLast_piece (hc : ∀ b ∈ c, isCrlf b = false) (hw : ∀ b ∈ w, isCrlf b = true) :
    (c ++ w).getLast?.any isCrlf = true ↔ w ≠ [] := by
  rcases eq_nil_or_concat w with rfl | ⟨w, b, rfl⟩
  · rw [append_nil]
    refine iff_of_false (fun h => ?_) fun h => h rfl
    obtain ⟨b, hb, hcrlf⟩ := Option.any_eq_true _ _ |>.1 h
    rw [hc b (mem_of_getLast? hb)] at hcrlf
    cases hcrlf
  · rw [concat_eq_append] at hw ⊢
    refine iff_of_true ?_ (by simp)
    rw [← append_assoc, getLast?_concat]
    exact hw b (by simp)

/-- One line is copied: the first piece of the data goes into it. -/
theorem linebufCopy_spec (hc : ∀ b ∈ c, isCrlf b = false) (hw : ∀ b ∈ w, isCrlf b = true)
    {bufline : BufLine} (hopen : bufline.terminated = false)
    (hroom : bufline.buf.length ≤ linebufSize) {data rest : Bytes} (hdata : data = c ++ (w ++ rest))
    (hskip : linebufSkipCrlf data = c.length + w.length) :
    (linebufCopy false bufline data).1 =
      if linebufSize < (bufline.buf ++ c).length + w.length then
        ⟨filled (bufline.buf ++ c), true, false⟩
      else if w = [] then ⟨bufline.buf ++ c, false, false⟩
      else ⟨bufline.buf ++ c, true, false⟩ := by
  rw [linebufCopy, if_neg (by simp [hopen])]
  dsimp only
  rw [hskip, length_append]
  by_cases hfull : linebufSize < bufline.buf.length + c.length + w.length
  · rw [if_pos (by omega), if_pos hfull]
    generalize havail : linebufSize - bufline.buf.length = avail
    -- the piece as far as there is room for it
    have htake : data.take avail = c.take avail ++ w.take (avail - c.length) := by
      rw [hdata, ← append_assoc, take_append_of_le_length (by rw [length_append]; omega), take_append]
    have hstrip := rdropWhile_piece (c := c.take avail) (w := w.take (avail - c.length))
      (fun b hb => hc b (mem_of_mem_take hb)) (fun b hb => hw b (mem_of_mem_take hb))
    have hblank : (c.take avail ++ w.take (avail - c.length)).length - (c.take avail).length =
        linebufSize - (bufline.buf ++ c).length := by
      simp only [length_append, length_take]
      omega
    rw [if_neg (by simp), htake, blankCrlf, hstrip, hblank, filled, take_append, havail,
      take_of_length_le hroom, append_assoc]
  · rw [if_neg (by omega), if_neg hfull]
    have htake : data.take (c.length + w.length) = c ++ w := by
      rw [hdata, ← append_assoc, ← length_append, take_left]
    rw [htake]
    by_cases hend : w = []
    · rw [if_neg fun h => (getLast_piece hc hw).1 h hend, if_pos hend, hend, append_nil]
    · rw [if_pos ((getLast_piece hc hw).2 hend), if_neg hend, if_neg (by simp),
        rdropWhile_piece hc hw]

end Copy

theorem exists_piece {data : Bytes} (hne : data ≠ []) :
    ∃ c w rest, data = c ++ (w ++ rest) ∧ (∀ b ∈ c, isCrlf b = false) ∧ (∀ b ∈ w, isCrlf b = true) ∧
      linebufSkipCrlf data = c.length + w.length ∧
      pieces isCrlf data = (c, w) :: pieces isCrlf rest ∧ (w = [] → rest = []) := by
  refine ⟨data.takeWhile fun b => !isCrlf b, (data.dropWhile fun b => !isCrlf b).takeWhile isCrlf,
    (data.dropWhile fun b => !isCrlf b).dropWhile isCrlf, ?_, fun b hb => ?_, fun b hb => ?_, rfl,
    pieces_eq hne, fun hw => ?_⟩
  · rw [takeWhile_append_dropWhile, takeWhile_append_dropWhile]
  · simpa using mem_takeWhile_imp hb
  · exact mem_takeWhile_imp hb
  · rcases hrest : data.dropWhile fun b => !isCrlf b with _ | ⟨b, s⟩
    · rfl
    · have hb : isCrlf b = true := by
        have := head_dropWhile_not (fun b => !isCrlf b) (l := data) (by simp [hrest])
        simpa [hrest] using this
      rw [hrest, takeWhile_cons_of_pos hb] at hw
      cases hw

/-- What the buffer gives, with some pieces to come. -/
def given (bufhead : List BufLine) (ps : List (Bytes × Bytes)) : List Bytes :=
  pentUp bufhead ++ outputs (underWay bufhead) ps

theorem underWay_of_terminated {ls : List BufLine} (h : ∀ l ∈ ls, l.terminated = true) :
    underWay ls = [] := by
  rw [underWay]
  split
  · rfl
  · next l hl => rw [if_pos (h l (mem_of_getLast? hl))]

theorem given_append {ls : List BufLine} (h : ∀ l ∈ ls, l.terminated = true) (ls' : List BufLine)
    (ps : List (Bytes × Bytes)) : given (ls ++ ls') ps = pentUp ls ++ given ls' ps := by
  rw [given, given, pentUp, flatMap_append, append_assoc]
  by_cases hne : ls' = []
  · rw [hne, append_nil, underWay_of_terminated h]
    rfl
  · rw [underWay_append hne]
    rfl

theorem given_cons {l : BufLine} (h : l.terminated = true) (ls : List BufLine)
    (ps : List (Bytes × Bytes)) : given (l :: ls) ps = whole l.buf ++ given ls ps := by
  have happ := @given_append [l] (by simpa using h) ls ps
  rw [singleton_append] at happ
  rw [happ, pentUp, flatMap_singleton, if_pos h]

theorem given_open {l : BufLine} (h : l.terminated = false) (ps : List (Bytes × Bytes)) :
    given [l] ps = outputs l.buf ps := by
  rw [given, pentUp, flatMap_singleton, underWay, getLast?_singleton, if_neg (by simp [h])]
  dsimp only
  rw [if_neg (by simp [h]), nil_append]

/-- A line that has room takes the first piece, new lines take the others. -/
theorem fill_spec {bufline : BufLine} (hopen : bufline.terminated = false)
    (hroom : bufline.buf.length ≤ linebufSize) {data : Bytes} (hne : data ≠ [])
    (hrest : ∀ rest : Bytes, rest.length < data.length → Tidy (newLines false rest) ∧
      ∀ ps, given (newLines false rest) ps = outputs [] (pieces isCrlf rest ++ ps)) :
    let r := linebufCopy false bufline data
    Tidy (r.1 :: newLines false (data.drop r.2)) ∧
      ∀ ps, given (r.1 :: newLines false (data.drop r.2)) ps =
        outputs bufline.buf (pieces isCrlf data ++ ps) := by
  obtain ⟨c, w, rest, hdata, hc, hw, hskip, hpieces, hlast⟩ := exists_piece hne
  have hdrop : data.drop (linebufSkipCrlf data) = rest := by
    rw [hskip, hdata, ← append_assoc, ← length_append, drop_left]
  have hless : rest.length < data.length := by
    have := linebufSkipCrlf_pos hne
    rw [← hdrop, length_drop]
    have := length_pos_iff.2 hne
    omega
  obtain ⟨htidy, hgiven⟩ := hrest rest hless
  dsimp only
  rw [linebufCopy_snd false hopen, hdrop, linebufCopy_spec hc hw hopen hroom hdata hskip, hpieces]
  by_cases hfull : linebufSize < (bufline.buf ++ c).length + w.length
  · rw [if_pos hfull]
    refine ⟨tidy_cons.2 ⟨fun _ => rfl, rfl, (length_filled _).le, htidy⟩, fun ps => ?_⟩
    have hne : filled (bufline.buf ++ c) ≠ [] := by
      intro h
      have := length_filled (bufline.buf ++ c)
      rw [h] at this
      cases this
    rw [given_cons rfl, hgiven, cons_append, outputs, if_pos hfull, whole_of_ne_nil hne]
    rfl
  · rw [if_neg hfull]
    by_cases hend : w = []
    · -- the data ends within the line
      obtain rfl := hlast hend
      rw [if_pos hend, newLines, if_pos rfl]
      refine ⟨tidy_cons.2 ⟨fun h => absurd rfl h, rfl, by dsimp only; omega, tidy_nil⟩, fun ps => ?_⟩
      rw [given_open rfl, cons_append, outputs, if_neg hfull, if_pos hend]
      rfl
    · rw [if_neg hend]
      refine ⟨tidy_cons.2 ⟨fun _ => rfl, rfl, by dsimp only; omega, htidy⟩, fun ps => ?_⟩
      rw [given_cons rfl, hgiven, cons_append, outputs, if_neg hfull, if_neg hend]

theorem newLines_spec (data : Bytes) :
    Tidy (newLines false data) ∧
      ∀ ps, given (newLines false data) ps = outputs [] (pieces isCrlf data ++ ps) := by
  induction hlen : data.length using Nat.strong_induction_on generalizing data with
  | _ n ih =>
    by_cases hne : data = []
    · rw [hne, newLines, if_pos rfl]
      exact ⟨tidy_nil, fun ps => rfl⟩
    · rw [newLines, if_neg hne]
      exact fill_spec rfl (Nat.zero_le _) hne fun rest hrest => ih _ (hlen ▸ hrest) rest rfl

/-- What is read goes behind what the buffer has. -/
theorem opLinebufParse_spec {bufhead : List BufLine} (h : Tidy bufhead) (data : Bytes) :
    Tidy (opLinebufParse false bufhead data) ∧
      ∀ ps, given (opLinebufParse false bufhead data) ps =
        given bufhead (pieces isCrlf data ++ ps) := by
  rw [opLinebufParse]
  by_cases hne : data = []
  · rw [if_pos hne, hne]
    exact ⟨h, fun ps => rfl⟩
  rw [if_neg hne]
  obtain ⟨hnew, hgiven⟩ := newLines_spec data
  rcases eq_nil_or_concat bufhead with rfl | ⟨init, tail, rfl⟩
  · exact ⟨hnew, hgiven⟩
  rw [concat_eq_append] at h ⊢
  obtain ⟨hended, hparsed, hroom⟩ := h
  have hinit : ∀ l ∈ init, l.terminated = true :=
    fun l hl => (pairwise_append.1 hended).2.2 l hl tail mem_cons_self
  have hopened : Tidy init := ⟨(pairwise_append.1 hended).1, fun l hl => hparsed l (mem_append_left _ hl),
    fun l hl => hroom l (mem_append_left _ hl)⟩
  rw [getLast?_concat, dropLast_concat]
  dsimp only
  by_cases hopen : tail.terminated = false
  · obtain ⟨hfill, hfilled⟩ := fill_spec hopen (hroom tail (by simp)) hne
      fun rest _ => newLines_spec rest
    refine ⟨tidy_append hopened hinit hfill, fun ps => ?_⟩
    rw [given_append hinit, hfilled, given_append hinit, given_open hopen]
  · have hdone : linebufCopy false tail data = (tail, 0) := by
      rw [linebufCopy, if_pos (by simpa using hopen)]
    have hall : ∀ l ∈ init ++ [tail], l.terminated = true :=
      forall_mem_append.2 ⟨hinit, by simpa using hopen⟩
    have happ : init ++ tail :: newLines false data = (init ++ [tail]) ++ newLines false data := by
      rw [append_assoc, singleton_append]
    rw [hdone, drop_zero, happ]
    refine ⟨tidy_append ⟨hended, hparsed, hroom⟩ hall hnew, fun ps => ?_⟩
    rw [given_append hall, hgiven, given, underWay_of_terminated hall]

/-- The next line is taken from the buffer. -/
theorem opLinebufGet_spec {bufhead : List BufLine} (h : Tidy bufhead) :
    let r := opLinebufGet (readMax + 1) false false bufhead
    Tidy r.2 ∧ (∀ ps, given bufhead ps = r.1.toList ++ given r.2 ps) ∧
      (r.1 = none → pentUp r.2 = [] ∧ opLinebufLen r.2 ≤ linebufSize) := by
  induction bufhead with
  | nil => exact ⟨h, fun ps => rfl, fun _ => ⟨rfl, Nat.zero_le _⟩⟩
  | cons l rest ih =>
    obtain ⟨hlast, hraw, hroom, hrest⟩ := tidy_cons.1 h
    have hmax : linebufSize ≤ readMax + 1 - 1 := by decide
    have hbuflen : (readMax + 1 == 0) = false := rfl
    dsimp only
    rw [opLinebufGet]
    by_cases hterm : l.terminated = true
    · rw [if_neg (by simp [hterm, hbuflen]), hraw]
      dsimp only
      rw [Bool.false_and, if_neg Bool.false_ne_true, take_of_length_le (by omega)]
      by_cases hempty : l.buf = []
      · rw [if_pos hempty]
        obtain ⟨htidy, hgiven, hnone⟩ := ih hrest
        refine ⟨htidy, fun ps => ?_, hnone⟩
        rw [given_cons hterm, hempty, ← hgiven]
        rfl
      · rw [if_neg hempty]
        refine ⟨hrest, fun ps => ?_, fun hnone => nomatch hnone⟩
        rw [given_cons hterm, whole_of_ne_nil hempty]
        rfl
    · rw [if_pos (by simp [hterm])]
      have hone : rest = [] := by_contra fun hne => hterm (hlast hne)
      refine ⟨h, fun ps => rfl, fun _ => ?_⟩
      rw [hone, pentUp, flatMap_singleton, if_neg hterm, opLinebufLen]
      exact ⟨rfl, by simpa using hroom⟩

/-! ### Calls -/

/-- What is still to be returned. -/
def todo (k : TextSock) : List Bytes := given k.recvbuf (k.reads.flatMap (pieces isCrlf))

theorem pentUp_eq_nil {bufhead : List BufLine} (h : opLinebufLen bufhead = 0) :
    pentUp bufhead = [] := by
  rw [pentUp, flatMap_eq_nil_iff]
  intro l hl
  have hlen : l.buf = [] := by
    have := List.sum_eq_zero_iff_forall_eq_nat.1 h l.buf.length (mem_map_of_mem hl)
    exact length_eq_zero_iff.1 this
  rw [hlen]
  split <;> rfl

/-- The buffer is asked first. -/
theorem askFirst_spec {buf : List BufLine} (h : Tidy buf) :
    let r := if 0 < opLinebufLen buf then opLinebufGet (readMax + 1) false false buf else (none, buf)
    Tidy r.2 ∧ (∀ ps, given buf ps = r.1.toList ++ given r.2 ps) ∧ (r.1 = none → pentUp r.2 = []) := by
  by_cases hlen : 0 < opLinebufLen buf
  · obtain ⟨htidy, hgiven, hnone⟩ := opLinebufGet_spec h
    dsimp only
    rw [if_pos hlen]
    exact ⟨htidy, hgiven, fun hr => (hnone hr).1⟩
  · dsimp only
    rw [if_neg hlen]
    exact ⟨h, fun ps => rfl, fun _ => pentUp_eq_nil (Nat.eq_zero_of_not_pos hlen)⟩

/-- No line is flushed: one that is under way never gets as long as a read. -/
theorem feed_spec {buf : List BufLine} (h : Tidy buf) (xx : Bytes) :
    Tidy (feed buf xx).2 ∧
      ∀ ps, given buf (pieces isCrlf xx ++ ps) = (feed buf xx).1.toList ++ given (feed buf xx).2 ps := by
  obtain ⟨hparse, hparsed⟩ := opLinebufParse_spec h xx
  obtain ⟨htidy, hgiven, hnone⟩ := opLinebufGet_spec hparse
  have hmax : linebufSize < readMax := by decide
  rw [feed, if_neg fun hlong => by
    have := (hnone hlong.1).2
    omega]
  exact ⟨htidy, fun ps => (hparsed ps).symm.trans (hgiven ps)⟩

/-- One call returns the next line; without one it has taken a read, or nothing is left. -/
theorem sockgets_spec {k : TextSock} (h : Tidy k.recvbuf) :
    Tidy (sockgets k).2.recvbuf ∧ todo k = (sockgets k).1.toList ++ todo (sockgets k).2 ∧
      (sockgets k).2.reads.length ≤ k.reads.length ∧
      ((sockgets k).1 = none → k.reads = [] ∧ todo k = [] ∨
        (sockgets k).2.reads.length < k.reads.length) := by
  obtain ⟨htidy, hgiven, hnone⟩ := askFirst_spec h
  obtain ⟨recvbuf, reads⟩ := k
  rw [sockgets]
  dsimp only at htidy hgiven hnone ⊢
  generalize (if 0 < opLinebufLen recvbuf then opLinebufGet (readMax + 1) false false recvbuf
    else (none, recvbuf)) = r at *
  obtain ⟨o, buf⟩ := r
  rcases o with _ | line
  · rcases reads with _ | ⟨xx, reads⟩
    · refine ⟨htidy, hgiven _, le_refl 0, fun _ => .inl ⟨rfl, ?_⟩⟩
      rw [todo, hgiven, given, hnone rfl]
      rfl
    · obtain ⟨hfeed, hfed⟩ := feed_spec htidy xx
      refine ⟨hfeed, ?_, Nat.le_succ _, fun _ => .inr (Nat.lt_succ_self _)⟩
      rw [todo, hgiven, flatMap_cons, hfed]
      rfl
  · exact ⟨htidy, hgiven _, le_refl _, fun h => nomatch h⟩

theorem returned_eq {n : ℕ} {k : TextSock} (h : Tidy k.recvbuf)
    (hn : (todo k).length + k.reads.length ≤ n) : returned n k = todo k := by
  induction n generalizing k with
  | zero =>
    have : (todo k).length = 0 := by omega
    rw [length_eq_zero_iff.1 this]
    rfl
  | succ n ih =>
    obtain ⟨htidy, htodo, hreads, hnone⟩ := sockgets_spec h
    rw [returned, htodo]
    rcases hret : (sockgets k).1 with _ | line
    · rw [hret, Option.toList_none, nil_append] at htodo
      rw [Option.toList_none, nil_append, nil_append]
      refine ih htidy ?_
      rw [← htodo]
      rcases hnone hret with ⟨hreads', hdone⟩ | hless
      · rw [hdone, length_nil]
        rw [hreads', length_nil] at hreads
        omega
      · omega
    · rw [hret, Option.toList_some, singleton_append] at htodo
      rw [htodo, length_cons] at hn
      rw [ih htidy (by omega)]

/-- All lines that are ever returned. -/
theorem todo_iff (reads : List Bytes) :
    todo ⟨[], reads⟩ = textLines reads.flatten ↔ Parted [] (reads.flatMap (pieces isCrlf)) := by
  have hlines : textLines reads.flatten =
      (ended [] (reads.flatMap (pieces isCrlf))).map (take linebufSize) := by
    rw [textLines, ended_flatMap_pieces]
  have hpieces : ∀ p ∈ reads.flatMap (pieces isCrlf), p.1 ≠ [] ∨ p.2 ≠ [] := by
    intro p hp
    obtain ⟨r, -, hr⟩ := mem_flatMap.1 hp
    exact ne_nil_of_mem_pieces hr
  rw [hlines]
  exact (outputs_iff _ hpieces []).1 (Nat.zero_le _)

theorem eventually_returned_iff (k : TextSock) (h : Tidy k.recvbuf) (lines : List Bytes) :
    (∃ N, ∀ n ≥ N, returned n k = lines) ↔ todo k = lines := by
  constructor
  · rintro ⟨N, hN⟩
    rw [← hN _ (Nat.le_max_left N _)]
    exact (returned_eq h (Nat.le_max_right N _)).symm
  · intro heq
    exact ⟨_, fun n hn => (returned_eq h hn).trans heq⟩

/-- For every way to read a text: the calls of `sockgets` return its lines, each cut to the limit,
exactly when no read ends within a line behind its limit, but where the line's end comes next, and no
run of CR and LF takes a shorter line over the limit. -/
theorem returned_iff (reads : List Bytes) :
    (∃ N, ∀ n ≥ N, returned n ⟨[], reads⟩ = textLines reads.flatten) ↔
      Parted [] (reads.flatMap (pieces isCrlf)) :=
  (eventually_returned_iff _ tidy_nil _).trans (todo_iff reads)

theorem not_parted {n : ℕ} (hn : linebufSize < n) :
    ¬ Parted [] ([replicate n 0x61, [0x62, 0x0a]].flatMap (pieces isCrlf)) := by
  have hlong : pieces isCrlf (replicate n 0x61) = [(replicate n 0x61, [])] := by
    have hne : replicate n (0x61 : UInt8) ≠ [] := by
      rw [Ne, replicate_eq_nil_iff]
      omega
    have ha : (!isCrlf 0x61) = true := rfl
    rw [pieces_eq hne, takeWhile_replicate, dropWhile_replicate, if_pos ha, if_pos ha]
    rfl
  have hrest : pieces isCrlf [0x62, 0x0a] = [([0x62], [0x0a])] := rfl
  intro hparted
  rw [flatMap_cons, flatMap_cons, hlong, hrest, flatMap_nil, append_nil, singleton_append, Parted,
    if_pos (by decide), if_pos rfl, nil_append, Parted, length_replicate,
    if_neg (by omega)] at hparted
  exact absurd hparted.1 (cons_ne_nil _ _)

/-- A line of 4608 bytes whose last one comes with the next read. -/
theorem not_returned :
    ¬ ∃ N, ∀ n ≥ N, returned n ⟨[], [replicate 4607 0x61, [0x62, 0x0a]]⟩ =
      textLines [replicate 4607 0x61, [0x62, 0x0a]].flatten := by
  generalize hn : 4607 = n
  intro h
  have htodo := (eventually_returned_iff _ tidy_nil _).1 h
  exact not_parted (hn ▸ by decide) ((todo_iff _).1 htodo)

end Eggdrop.Net
