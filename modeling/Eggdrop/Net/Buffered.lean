import Eggdrop.Net.Sockgets

/-!
# Buffered — what comes while a socket is only buffered (net.c, linebuf.c)

While `SOCK_BUFFER` is set, `sockgets` puts what it reads into the line buffer as it is, separators
and all, and returns nothing.  Later the bytes are handed on: by `sockgets` one line at a time when
the socket is binary, or by `flush_inbuf` all at once.  But a line of the buffer has room for 4606
bytes, and of what does not fit in there only the beginning is kept.

* `flushed_iff`, `switched_iff`: when the bytes handed on are those that came.
-/

open List

namespace Eggdrop.Net

open Lines

/-! ### Calls -/

/-- One call of `sockgets` where this socket is the only one with input; the flags are `SOCK_BINARY`
and `SOCK_BUFFER`. -/
def sockgetsFlags (binary buffer : Bool) (k : TextSock) : Option Bytes × TextSock :=
  let r :=
    if !buffer && 0 < opLinebufLen k.recvbuf then
      if binary then opLinebufGet (readMax + 1) true true k.recvbuf
      else opLinebufGet (readMax + 1) false false k.recvbuf
    else (none, k.recvbuf)
  match r.1 with
  | some line => (some line, { k with recvbuf := r.2 })
  | none =>
    match k.reads with
    | [] => (none, { k with recvbuf := r.2 })
    | xx :: reads =>
      if binary then (some xx, ⟨r.2, reads⟩)
      else if buffer then (none, ⟨opLinebufParse true r.2 xx, reads⟩)
      else
        let r := feed r.2 xx
        (r.1, ⟨r.2, reads⟩)

/-- `n` calls while `SOCK_BUFFER` is set. -/
def bufferCalls : ℕ → TextSock → TextSock
  | 0, k => k
  | n + 1, k => bufferCalls n (sockgetsFlags false true k).2

/-- What `n` calls for a binary socket return. -/
def returnedBinary : ℕ → TextSock → List Bytes
  | 0, _ => []
  | n + 1, k => (sockgetsFlags true false k).1.toList ++ returnedBinary n (sockgetsFlags true false k).2

theorem opLinebufGet_length {buflen : ℕ} {unfinished raw : Bool} {bufhead : List BufLine} {s : Bytes}
    (h : (opLinebufGet buflen unfinished raw bufhead).1 = some s) :
    (opLinebufGet buflen unfinished raw bufhead).2.length < bufhead.length := by
  induction bufhead with
  | nil => cases h
  | cons l rest ih =>
    rw [opLinebufGet] at h ⊢
    split
    · next hstop =>
      rw [if_pos hstop] at h
      cases h
    · next hgo =>
      rw [if_neg hgo] at h
      dsimp only at h ⊢
      generalize (if (l.raw && !raw) = true then
        ((l.buf.take (buflen - 1)).dropWhile isCrlf).rdropWhile isCrlf
        else l.buf.take (buflen - 1)) = line at h ⊢
      split
      · next hempty =>
        rw [if_pos hempty] at h
        exact (ih h).trans (Nat.lt_succ_self _)
      · exact Nat.lt_succ_self _

/-- The loop of `flush_inbuf`, with `off` bytes taken of `total`. -/
def flushLoop (total off : ℕ) (bufhead : List BufLine) : Bytes :=
  match _h : (opLinebufGet (total - off + 1) true true bufhead).1 with
  | some s => s ++ flushLoop total (off + s.length) (opLinebufGet (total - off + 1) true true bufhead).2
  | none => []
termination_by bufhead.length
decreasing_by exact opLinebufGet_length _h

/-- `flush_inbuf`: what it hands to the activity handler. -/
def flushInbuf (bufhead : List BufLine) : Bytes :=
  if 0 < opLinebufLen bufhead then flushLoop (opLinebufLen bufhead) 0 bufhead else []

/-! ### What is asked of them -/

/-- After the reads `before`, all that came is flushed. -/
def Flushed (before : List Bytes) : Prop :=
  flushInbuf (bufferCalls before.length ⟨[], before⟩).recvbuf = before.flatten

/-- After the reads `before` the socket is made binary; what its calls return then, the reads `after`
with it, is what came, once there were calls enough. -/
def Switched (before after : List Bytes) : Prop :=
  ∀ n, (bufferCalls before.length ⟨[], before ++ after⟩).recvbuf.length + after.length ≤ n →
    (returnedBinary n (bufferCalls before.length ⟨[], before ++ after⟩)).flatten =
      before.flatten ++ after.flatten

/-- The condition on the pieces of the reads, with `n` bytes in the line under way: the bytes up to a
separator and the separators behind it that come in one read fit in a line. -/
def Fits (n : ℕ) : List (Bytes × Bytes) → Prop
  | [] => True
  | (c, w) :: ps =>
    n + c.length + w.length ≤ linebufSize ∧ Fits (if w = [] then n + c.length else 0) ps

instance decidableFits : ∀ (n : ℕ) (ps : List (Bytes × Bytes)), Decidable (Fits n ps)
  | _, [] => .isTrue trivial
  | n, (c, w) :: ps =>
    have := decidableFits (if w = [] then n + c.length else 0) ps
    inferInstanceAs (Decidable (_ ∧ _))

/-! ### What the buffer keeps -/

/-- What is kept of some pieces. -/
def kept (n : ℕ) : List (Bytes × Bytes) → Bytes
  | [] => []
  | (c, w) :: ps =>
    if linebufSize < n + c.length + w.length then (c ++ w).take (linebufSize - n) ++ kept 0 ps
    else c ++ w ++ kept (if w = [] then n + c.length else 0) ps

theorem length_kept_le (n : ℕ) (ps : List (Bytes × Bytes)) :
    (kept n ps).length ≤ (ps.flatMap fun p => p.1 ++ p.2).length := by
  induction ps generalizing n with
  | nil => exact Nat.le_refl _
  | cons p ps ih =>
    obtain ⟨c, w⟩ := p
    rw [kept, flatMap_cons, length_append]
    split
    · have := ih 0
      rw [length_append, length_take]
      dsimp only
      omega
    · have := ih (if w = [] then n + c.length else 0)
      rw [length_append]
      dsimp only
      omega

/-- All is kept exactly of pieces that fit. -/
theorem kept_eq_iff {n : ℕ} (hn : n ≤ linebufSize) (ps : List (Bytes × Bytes)) :
    (kept n ps = ps.flatMap fun p => p.1 ++ p.2) ↔ Fits n ps := by
  induction ps generalizing n with
  | nil => exact iff_of_true rfl trivial
  | cons p ps ih =>
    obtain ⟨c, w⟩ := p
    rw [kept, flatMap_cons, Fits]
    split
    · next hfull =>
      refine iff_of_false (fun h => ?_) fun h => absurd h.1 (Nat.not_le.2 hfull)
      have hlen := congrArg length h
      have hle := length_kept_le 0 ps
      rw [length_append, length_append, length_take, length_append] at hlen
      omega
    · next hroom =>
      rw [append_right_inj, ih (by split <;> omega)]
      exact (and_iff_right (Nat.not_lt.1 hroom)).symm

/-! ### The buffer and the pieces -/

/-- The bytes in the buffer. -/
def held (bufhead : List BufLine) : Bytes := bufhead.flatMap BufLine.buf

theorem length_held (bufhead : List BufLine) : (held bufhead).length = opLinebufLen bufhead := by
  rw [held, length_flatMap, opLinebufLen]

/-- Only the last line may be under way, and no line is over its room. -/
structure Roomy (bufhead : List BufLine) : Prop where
  ended : bufhead.Pairwise fun l _ => l.terminated = true
  room : ∀ l ∈ bufhead, l.buf.length ≤ linebufSize

/-- What the buffer holds, with some pieces to come. -/
def holds (bufhead : List BufLine) (ps : List (Bytes × Bytes)) : Bytes :=
  held bufhead ++ kept (underWay bufhead).length ps

theorem holds_append {ls : List BufLine} (h : ∀ l ∈ ls, l.terminated = true) (ls' : List BufLine)
    (ps : List (Bytes × Bytes)) : holds (ls ++ ls') ps = held ls ++ holds ls' ps := by
  rw [holds, holds, held, flatMap_append, append_assoc]
  by_cases hne : ls' = []
  · rw [hne, append_nil, underWay_of_terminated h]
    rfl
  · rw [underWay_append hne]
    rfl

theorem holds_cons {l : BufLine} (h : l.terminated = true) (ls : List BufLine)
    (ps : List (Bytes × Bytes)) : holds (l :: ls) ps = l.buf ++ holds ls ps := by
  have happ := @holds_append [l] (by simpa using h) ls ps
  rw [singleton_append] at happ
  rw [happ, held, flatMap_singleton]

theorem holds_open {l : BufLine} (h : l.terminated = false) (ps : List (Bytes × Bytes)) :
    holds [l] ps = l.buf ++ kept l.buf.length ps := by
  rw [holds, held, flatMap_singleton, underWay, getLast?_singleton]
  dsimp only
  rw [if_neg (by simp [h])]

theorem roomy_nil : Roomy [] := ⟨.nil, by simp⟩

theorem roomy_cons {l : BufLine} {rest : List BufLine} :
    Roomy (l :: rest) ↔
      (rest ≠ [] → l.terminated = true) ∧ l.buf.length ≤ linebufSize ∧ Roomy rest := by
  constructor
  · rintro ⟨hended, hroom⟩
    obtain ⟨hl, hrest⟩ := pairwise_cons.1 hended
    obtain ⟨hlen, hroom⟩ := forall_mem_cons.1 hroom
    refine ⟨fun hne => ?_, hlen, hrest, hroom⟩
    obtain ⟨l', rest', rfl⟩ := exists_cons_of_ne_nil hne
    exact hl l' mem_cons_self
  · rintro ⟨hl, hlen, hrest, hroom⟩
    exact ⟨pairwise_cons.2 ⟨fun l' hl' => hl (ne_nil_of_mem hl'), hrest⟩,
      forall_mem_cons.2 ⟨hlen, hroom⟩⟩

theorem linebufCopy_raw {c w : Bytes} (hc : ∀ b ∈ c, isCrlf b = false)
    (hw : ∀ b ∈ w, isCrlf b = true) {bufline : BufLine} (hopen : bufline.terminated = false)
    {data rest : Bytes} (hdata : data = c ++ (w ++ rest))
    (hskip : linebufSkipCrlf data = c.length + w.length)
    (hroom : bufline.buf.length ≤ linebufSize) :
    (linebufCopy true bufline data).1 =
      if linebufSize < bufline.buf.length + c.length + w.length then
        ⟨bufline.buf ++ (c ++ w).take (linebufSize - bufline.buf.length), true, true⟩
      else ⟨bufline.buf ++ (c ++ w), !(w == []), true⟩ := by
  rw [linebufCopy, if_neg (by simp [hopen])]
  dsimp only
  rw [hskip]
  have htake (k : ℕ) (hk : k ≤ (c ++ w).length) : data.take k = (c ++ w).take k := by
    rw [hdata, ← append_assoc, take_append_of_le_length hk]
  by_cases hfull : linebufSize < bufline.buf.length + c.length + w.length
  · rw [if_pos (by omega), if_pos hfull, htake _ (by rw [length_append]; omega)]
    rfl
  · rw [if_neg (by omega), if_neg hfull, htake _ (by rw [length_append]), ← length_append,
      take_length]
    by_cases hend : w = []
    · rw [if_neg fun h => (getLast_piece hc hw).1 h hend, hend]
      rfl
    · rw [if_pos ((getLast_piece hc hw).2 hend), beq_eq_false_iff_ne.2 hend]
      rfl

/-- A line that has room takes the first piece, new lines take the others. -/
theorem fillRaw_spec {bufline : BufLine} (hopen : bufline.terminated = false)
    (hroom : bufline.buf.length ≤ linebufSize) {data : Bytes} (hne : data ≠ [])
    (hrest : ∀ rest : Bytes, rest.length < data.length → Roomy (newLines true rest) ∧
      ∀ ps, holds (newLines true rest) ps = kept 0 (pieces isCrlf rest ++ ps)) :
    let r := linebufCopy true bufline data
    Roomy (r.1 :: newLines true (data.drop r.2)) ∧
      ∀ ps, holds (r.1 :: newLines true (data.drop r.2)) ps =
        bufline.buf ++ kept bufline.buf.length (pieces isCrlf data ++ ps) := by
  obtain ⟨c, w, rest, hdata, hc, hw, hskip, hpieces, hlast⟩ := exists_piece hne
  have hdrop : data.drop (linebufSkipCrlf data) = rest := by
    rw [hskip, hdata, ← append_assoc, ← length_append, drop_left]
  have hless : rest.length < data.length := by
    have := linebufSkipCrlf_pos hne
    rw [← hdrop, length_drop]
    have := length_pos_iff.2 hne
    omega
  obtain ⟨hroomy, hholds⟩ := hrest rest hless
  dsimp only
  rw [linebufCopy_snd true hopen, hdrop, linebufCopy_raw hc hw hopen hdata hskip hroom, hpieces]
  by_cases hfull : linebufSize < bufline.buf.length + c.length + w.length
  · rw [if_pos hfull]
    refine ⟨roomy_cons.2 ⟨fun _ => rfl, ?_, hroomy⟩, fun ps => ?_⟩
    · rw [length_append, length_take]
      omega
    · rw [holds_cons rfl, hholds, cons_append, kept, if_pos hfull, append_assoc]
  · rw [if_neg hfull]
    have hlen : (bufline.buf ++ (c ++ w)).length ≤ linebufSize := by
      rw [length_append, length_append]
      omega
    by_cases hend : w = []
    · -- the data ends within the line
      obtain rfl := hlast hend
      subst hend
      rw [newLines, if_pos rfl]
      refine ⟨roomy_cons.2 ⟨fun h => absurd rfl h, hlen, roomy_nil⟩, fun ps => ?_⟩
      rw [holds_open rfl, cons_append, kept, if_neg hfull, if_pos rfl]
      dsimp only
      rw [append_nil, length_append, append_assoc]
      rfl
    · rw [beq_eq_false_iff_ne.2 hend]
      refine ⟨roomy_cons.2 ⟨fun _ => rfl, hlen, hroomy⟩, fun ps => ?_⟩
      rw [holds_cons rfl, hholds, cons_append, kept, if_neg hfull, if_neg hend, append_assoc]

theorem newLines_raw (data : Bytes) :
    Roomy (newLines true data) ∧
      ∀ ps, holds (newLines true data) ps = kept 0 (pieces isCrlf data ++ ps) := by
  induction hlen : data.length using Nat.strong_induction_on generalizing data with
  | _ n ih =>
    by_cases hne : data = []
    · rw [hne, newLines, if_pos rfl]
      exact ⟨roomy_nil, fun ps => rfl⟩
    · rw [newLines, if_neg hne]
      exact fillRaw_spec rfl (Nat.zero_le _) hne fun rest hrest => ih _ (hlen ▸ hrest) rest rfl

theorem opLinebufParse_raw {bufhead : List BufLine} (h : Roomy bufhead) (data : Bytes) :
    Roomy (opLinebufParse true bufhead data) ∧
      ∀ ps, holds (opLinebufParse true bufhead data) ps =
        holds bufhead (pieces isCrlf data ++ ps) := by
  rw [opLinebufParse]
  by_cases hne : data = []
  · rw [if_pos hne, hne]
    exact ⟨h, fun ps => rfl⟩
  rw [if_neg hne]
  obtain ⟨hnew, hholds⟩ := newLines_raw data
  rcases eq_nil_or_concat bufhead with rfl | ⟨init, tail, rfl⟩
  · exact ⟨hnew, hholds⟩
  rw [concat_eq_append] at h ⊢
  obtain ⟨hended, hroom⟩ := h
  obtain ⟨hinits, -, hlast⟩ := pairwise_append.1 hended
  have hinit : ∀ l ∈ init, l.terminated = true := fun l hl => hlast l hl tail mem_cons_self
  have hjoin {ls ls' : List BufLine} (hls : ls.Pairwise fun l _ => l.terminated = true)
      (hroom : ∀ l ∈ ls, l.buf.length ≤ linebufSize) (hall : ∀ l ∈ ls, l.terminated = true)
      (h' : Roomy ls') : Roomy (ls ++ ls') :=
    ⟨pairwise_append.2 ⟨hls, h'.ended, fun l hl _ _ => hall l hl⟩,
      forall_mem_append.2 ⟨hroom, h'.room⟩⟩
  rw [getLast?_concat, dropLast_concat]
  dsimp only
  by_cases hopen : tail.terminated = false
  · obtain ⟨hfill, hfilled⟩ := fillRaw_spec hopen (hroom tail (by simp)) hne
      fun rest _ => newLines_raw rest
    refine ⟨hjoin hinits (fun l hl => hroom l (mem_append_left _ hl)) hinit hfill, fun ps => ?_⟩
    rw [holds_append hinit, hfilled, holds_append hinit, holds_open hopen]
  · have hdone : linebufCopy true tail data = (tail, 0) := by
      rw [linebufCopy, if_pos (by simpa using hopen)]
    have hall : ∀ l ∈ init ++ [tail], l.terminated = true :=
      forall_mem_append.2 ⟨hinit, by simpa using hopen⟩
    have happ : init ++ tail :: newLines true data = (init ++ [tail]) ++ newLines true data := by
      rw [append_assoc, singleton_append]
    rw [hdone, drop_zero, happ]
    refine ⟨hjoin hended hroom hall hnew, fun ps => ?_⟩
    rw [holds_append hall, hholds, holds, underWay_of_terminated hall]
    rfl

/-- The calls while the socket is buffered. -/
theorem bufferCalls_spec (before after : List Bytes) {bufhead : List BufLine} (h : Roomy bufhead) :
    ∃ bufhead', bufferCalls before.length ⟨bufhead, before ++ after⟩ = ⟨bufhead', after⟩ ∧
      Roomy bufhead' ∧ ∀ ps, holds bufhead' ps = holds bufhead (before.flatMap (pieces isCrlf) ++ ps) := by
  induction before generalizing bufhead with
  | nil => exact ⟨bufhead, rfl, h, fun ps => rfl⟩
  | cons xx before ih =>
    obtain ⟨hroomy, hparse⟩ := opLinebufParse_raw h xx
    obtain ⟨bufhead', hcalls, hroomy', hholds⟩ := ih hroomy
    refine ⟨bufhead', hcalls, hroomy', fun ps => ?_⟩
    rw [hholds, hparse, flatMap_cons, append_assoc]

/-! ### What is handed on -/

theorem opLinebufGet_raw {buflen : ℕ} (hpos : 0 < buflen) {bufhead : List BufLine}
    (hroom : ∀ l ∈ bufhead, l.buf.length ≤ buflen - 1) :
    held bufhead = ((opLinebufGet buflen true true bufhead).1.getD []) ++
        held (opLinebufGet buflen true true bufhead).2 ∧
      ((opLinebufGet buflen true true bufhead).1 = none → held bufhead = []) ∧
      (opLinebufGet buflen true true bufhead).2 <:+ bufhead := by
  induction bufhead with
  | nil => exact ⟨rfl, fun _ => rfl, suffix_rfl⟩
  | cons l rest ih =>
    obtain ⟨hl, hrest⟩ := forall_mem_cons.1 hroom
    have hbuflen : (buflen == 0) = false := beq_eq_false_iff_ne.2 (Nat.ne_of_gt hpos)
    rw [opLinebufGet, if_neg (by simp [hbuflen])]
    dsimp only
    rw [Bool.not_true, Bool.and_false, if_neg Bool.false_ne_true, take_of_length_le hl]
    obtain ⟨hheld, hnone, hsuffix⟩ := ih hrest
    by_cases hempty : l.buf = []
    · rw [if_pos hempty]
      have hcons : held (l :: rest) = held rest := by
        rw [held, flatMap_cons, hempty]
        rfl
      rw [hcons]
      exact ⟨hheld, hnone, hsuffix.trans (suffix_cons l rest)⟩
    · rw [if_neg hempty]
      exact ⟨rfl, fun h => absurd h (Option.some_ne_none _), suffix_cons l rest⟩

theorem length_le_opLinebufLen {bufhead : List BufLine} {l : BufLine} (h : l ∈ bufhead) :
    l.buf.length ≤ opLinebufLen bufhead := by
  obtain ⟨s, t, rfl⟩ := append_of_mem h
  rw [← length_held, held, flatMap_append, flatMap_cons, length_append, length_append]
  omega

theorem flushLoop_eq {total off : ℕ} {bufhead : List BufLine}
    (h : total = off + opLinebufLen bufhead) : flushLoop total off bufhead = held bufhead := by
  induction hlen : bufhead.length using Nat.strong_induction_on generalizing off bufhead with
  | _ n ih =>
    have hroom : ∀ l ∈ bufhead, l.buf.length ≤ total - off + 1 - 1 := by
      intro l hl
      have := length_le_opLinebufLen hl
      omega
    have hpos : 0 < total - off + 1 := Nat.succ_pos _
    obtain ⟨hheld, hnone, -⟩ := opLinebufGet_raw hpos hroom
    rw [flushLoop]
    split
    · next s hs =>
      rw [hs, Option.getD_some] at hheld
      have hsum := congrArg length hheld
      rw [length_append, length_held, length_held] at hsum
      rw [hheld, ih _ (hlen ▸ opLinebufGet_length hs) (by omega) rfl]
    · next hs => exact (hnone hs).symm

theorem flushInbuf_eq (bufhead : List BufLine) : flushInbuf bufhead = held bufhead := by
  rw [flushInbuf]
  split
  · exact flushLoop_eq (Nat.zero_add _).symm
  · next h =>
    rw [← length_held] at h
    exact (length_eq_zero_iff.1 (Nat.eq_zero_of_not_pos h)).symm

theorem returnedBinary_eq {k : TextSock} (hroom : ∀ l ∈ k.recvbuf, l.buf.length ≤ linebufSize) {n : ℕ}
    (hn : k.recvbuf.length + k.reads.length ≤ n) :
    (returnedBinary n k).flatten = held k.recvbuf ++ k.reads.flatten := by
  induction n generalizing k with
  | zero =>
    obtain ⟨recvbuf, reads⟩ := k
    have hbuf : recvbuf = [] := length_eq_zero_iff.1 (by dsimp only at hn; omega)
    have hreads : reads = [] := length_eq_zero_iff.1 (by dsimp only at hn; omega)
    rw [hbuf, hreads]
    rfl
  | succ n ih =>
    obtain ⟨recvbuf, reads⟩ := k
    dsimp only at hroom hn ⊢
    have hmax : ∀ l ∈ recvbuf, l.buf.length ≤ readMax + 1 - 1 := fun l hl =>
      (hroom l hl).trans (by decide)
    obtain ⟨hheld, hnone, hsuffix⟩ := opLinebufGet_raw (Nat.succ_pos readMax) hmax
    rw [returnedBinary, flatten_append]
    by_cases hlen : 0 < opLinebufLen recvbuf
    · rcases hget : (opLinebufGet (readMax + 1) true true recvbuf).1 with _ | s
      · rw [← length_held, hnone hget] at hlen
        cases hlen
      · have hcall : sockgetsFlags true false ⟨recvbuf, reads⟩ =
            (some s, ⟨(opLinebufGet (readMax + 1) true true recvbuf).2, reads⟩) := by
          rw [sockgetsFlags]
          dsimp only
          rw [if_pos (by simpa using hlen), if_pos rfl, hget]
        have hless := opLinebufGet_length hget
        rw [hcall, hheld, hget]
        dsimp only
        rw [ih (fun l hl => hroom l (hsuffix.subset hl)) (by dsimp only; omega)]
        simp
    · have hempty : held recvbuf = [] := by
        rw [← length_held] at hlen
        exact length_eq_zero_iff.1 (Nat.eq_zero_of_not_pos hlen)
      rcases reads with _ | ⟨xx, reads⟩
      · have hcall : sockgetsFlags true false ⟨recvbuf, []⟩ = (none, ⟨recvbuf, []⟩) := by
          rw [sockgetsFlags]
          dsimp only
          rw [if_neg (by simpa using hlen)]
        have hnothing : ∀ m, returnedBinary m ⟨recvbuf, []⟩ = [] := by
          intro m
          induction m with
          | zero => rfl
          | succ m ihm =>
            rw [returnedBinary, hcall, ihm]
            rfl
        rw [hcall, hnothing, hempty]
        rfl
      · have hcall : sockgetsFlags true false ⟨recvbuf, xx :: reads⟩ =
            (some xx, ⟨recvbuf, reads⟩) := by
          rw [sockgetsFlags]
          dsimp only
          rw [if_neg (by simpa using hlen)]
          rfl
        rw [length_cons] at hn
        rw [hcall, ih hroom (by dsimp only; omega), hempty]
        simp

/-- What came is what is kept, exactly where it fits. -/
theorem held_eq_iff (before : List Bytes) {bufhead : List BufLine}
    (h : ∀ ps, holds bufhead ps = kept 0 (before.flatMap (pieces isCrlf) ++ ps)) :
    held bufhead = before.flatten ↔ Fits 0 (before.flatMap (pieces isCrlf)) := by
  have hheld : held bufhead = kept 0 (before.flatMap (pieces isCrlf)) := by
    have hnil := h []
    rw [append_nil] at hnil
    rw [← hnil, holds, kept, append_nil]
  have hall : ((before.flatMap (pieces isCrlf)).flatMap fun p => p.1 ++ p.2) = before.flatten := by
    rw [flatMap_assoc]
    simp only [flatMap_pieces, flatMap_id']
  rw [hheld, ← hall]
  exact kept_eq_iff (Nat.zero_le _) _

theorem flushed_iff (before : List Bytes) :
    Flushed before ↔ Fits 0 (before.flatMap (pieces isCrlf)) := by
  obtain ⟨bufhead, hcalls, -, hholds⟩ := bufferCalls_spec before [] roomy_nil
  rw [append_nil] at hcalls
  rw [Flushed, hcalls, flushInbuf_eq]
  exact held_eq_iff before hholds

theorem switched_iff (before after : List Bytes) :
    Switched before after ↔ Fits 0 (before.flatMap (pieces isCrlf)) := by
  obtain ⟨bufhead, hcalls, hroomy, hholds⟩ := bufferCalls_spec before after roomy_nil
  have hreturned (n : ℕ) (hn : bufhead.length + after.length ≤ n) :
      (returnedBinary n ⟨bufhead, after⟩).flatten = held bufhead ++ after.flatten :=
    returnedBinary_eq hroomy.room hn
  rw [Switched, hcalls]
  constructor
  · intro h
    have hlast := h _ (Nat.le_refl _)
    rw [hreturned _ (Nat.le_refl _)] at hlast
    exact (held_eq_iff before hholds).1 (append_cancel_right hlast)
  · intro h n hn
    rw [hreturned n hn, (held_eq_iff before hholds).2 h]

/-- The bytes that come while a socket is buffered are handed on as they came, either way, exactly if
they fit in the lines of the buffer. -/
theorem delivered_iff (before after : List Bytes) :
    (Flushed before ↔ Fits 0 (before.flatMap (pieces isCrlf))) ∧
      (Switched before after ↔ Fits 0 (before.flatMap (pieces isCrlf))) :=
  ⟨flushed_iff before, switched_iff before after⟩

theorem not_flushed_of_long {c : Bytes} (hc : ∀ b ∈ c, isCrlf b = false)
    (hlong : linebufSize < c.length) : ¬ Flushed [c] := by
  have hne : c ≠ [] := by
    rintro rfl
    cases hlong
  have hself : c.takeWhile (fun b => !isCrlf b) = c := takeWhile_eq_self_iff.2 (by simpa using hc)
  rw [flushed_iff, flatMap_singleton, pieces_eq hne, hself, Fits]
  rintro ⟨hle, -⟩
  omega

theorem not_delivered :
    ¬ ∀ before after : List Bytes, Flushed before ∧ Switched before after := by
  intro h
  refine not_flushed_of_long (c := replicate 4607 0x61) (fun b hb => ?_) ?_ (h _ []).1
  · rw [eq_of_mem_replicate hb]
    decide
  · rw [length_replicate]
    decide

end Eggdrop.Net
