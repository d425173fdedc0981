import Eggdrop.Libop.Strbuf

/-!
# ModeReply — the modes of a channel, read from a reply and written

`got324` reads the modes of a channel from the answer of the server: a word of letters, then the
parameters of those letters that have one.  The loop goes over the whole text, parameters included,
and each `k` and `l` it meets takes the first parameter that is left, which is cut out of the text in
place.  `getchanmode` writes the modes in the same form.

* `cutParam_last`, `cutParam_more`: how a parameter is cut out.
* `loop_word`: in the mode word each `k` and `l` takes the next one.
* `foldl_readLetter_some`: what the mode word makes of the record.
* `readModes_left`, `readModes_left_limit`: what parameters that are left over do.
-/

namespace Eggdrop.ModeReply

/-! ### Modes -/

abbrev chanInv : BitVec 32 := 0x0001
abbrev chanPriv : BitVec 32 := 0x0002
abbrev chanSec : BitVec 32 := 0x0004
abbrev chanModer : BitVec 32 := 0x0008
abbrev chanTopic : BitVec 32 := 0x0010
abbrev chanNoMsg : BitVec 32 := 0x0020
abbrev chanKey : BitVec 32 := 0x0080
abbrev chanAnon : BitVec 32 := 0x0100
abbrev chanQuiet : BitVec 32 := 0x0200
abbrev chanNoClr : BitVec 32 := 0x0400
abbrev chanRegOn : BitVec 32 := 0x0800
abbrev chanModReg : BitVec 32 := 0x1000
abbrev chanNoCtcp : BitVec 32 := 0x2000
abbrev chanLOnly : BitVec 32 := 0x4000
abbrev chanDelJn : BitVec 32 := 0x8000
abbrev chanStrip : BitVec 32 := 0x10000
abbrev chanNoNotc : BitVec 32 := 0x20000
abbrev chanInvis : BitVec 32 := 0x40000
abbrev chanNoAmsg : BitVec 32 := 0x80000

/-- The bit of a letter.  `l` has none: the limit stands beside the modes. -/
def modeBit : Char → BitVec 32
  | 'i' => chanInv
  | 'p' => chanPriv
  | 's' => chanSec
  | 'm' => chanModer
  | 'c' => chanNoClr
  | 'C' => chanNoCtcp
  | 'R' => chanRegOn
  | 'M' => chanModReg
  | 'r' => chanLOnly
  | 'D' => chanDelJn
  | 'u' => chanStrip
  | 'N' => chanNoNotc
  | 'T' => chanNoAmsg
  | 'd' => chanInvis
  | 't' => chanTopic
  | 'n' => chanNoMsg
  | 'a' => chanAnon
  | 'q' => chanQuiet
  | 'k' => chanKey
  | _ => 0

/-- The bits of a word of letters. -/
def modeBits (letters : CStr) : BitVec 32 := letters.foldl (fun m c => m ||| modeBit c) 0#32

/-- What a channel record holds of the modes; `asked` is `CHAN_ASKEDMODES`. -/
structure Channel where
  mode : BitVec 32
  key : CStr
  maxmembers : Int
  asked : Bool
deriving DecidableEq, Repr

/-! ### The text in its buffer -/

/-- The characters of a message; `none` is a NUL. -/
abbrev Buf := List (Option Char)

/-- A text with its terminator. -/
def ofText (s : CStr) : Buf := s.map some ++ [none]

/-- The text that starts at `p`. -/
def strAt (buf : Buf) (p : Nat) : CStr := ((buf.drop p).takeWhile Option.isSome).reduceOption

/-- `strchr(p, ' ')`. -/
def blankAfter (buf : Buf) (p : Nat) : Option Nat :=
  if ' ' ∈ strAt buf p then some (p + (strAt buf p).idxOf ' ') else none

/-- Take the first parameter and cut it out: what comes after it is moved over it, and the last one is
made empty.  `none` without a blank. -/
def cutParam (buf : Buf) : Option (CStr × Buf) :=
  match blankAfter buf 0 with
  | none => none
  | some b =>
    let p := b + 1
    match blankAfter buf p with
    | some q =>
      let buf := buf.set q none
      let moved := ofText (strAt buf (q + 1))
      some (strAt buf p, buf.take p ++ moved ++ buf.drop (p + moved.length))
    | none => some (strAt buf p, buf.set p none)

/-! ### `got324` -/

/-- The key, where the letter at `i` is `k`; one that is not shown is asked for again. -/
def readKey (i : Nat) (chan : Channel) (buf : Buf) : Channel × Buf :=
  if buf[i]? = some (some 'k') then
    let (chan, buf) := match cutParam buf with
      | none => (chan, buf)
      | some (p, buf) => ({ chan with key := p }, buf)
    if chan.mode &&& chanKey ≠ 0 ∧ (chan.key = [] ∨ chan.key = ['*']) then
      ({ chan with asked := true }, buf)
    else (chan, buf)
  else (chan, buf)

/-- The limit, where the letter at `i` is `l`. -/
def readLimit (i : Nat) (chan : Channel) (buf : Buf) : Channel × Buf :=
  if buf[i]? = some (some 'l') then
    match cutParam buf with
    | none => (chan, buf)
    | some (p, buf) => ({ chan with maxmembers := eggAtoi p }, buf)
  else (chan, buf)

/-- One turn of the loop, at a letter.  The limit is looked for after the key was cut out. -/
def readMode (i : Nat) (c : Char) (chan : Channel) (buf : Buf) : Channel × Buf :=
  let (chan, buf) := readKey i { chan with mode := chan.mode ||| modeBit c } buf
  readLimit i chan buf

/-- The loop over the text from `i` on; `none` where it reads past the buffer. -/
def readModes : Nat → Nat → Channel → Buf → Option Channel
  | 0, _, _, _ => none
  | n + 1, i, chan, buf =>
    match buf[i]? with
    | none => none
    | some none => some chan
    | some (some c) => readModes n (i + 1) (readMode i c chan buf).1 (readMode i c chan buf).2

inductive Answer where
  /-- The bot is not on that channel and leaves it. -/
  | part (chname : CStr)
  /-- The record, and whether the modes are checked against those to enforce. -/
  | modes (chan : Channel) (recheck : Bool)
deriving DecidableEq, Repr

/-- `got324`; the first letter is taken for the sign. -/
def got324 (findchan : CStr → Option Channel) (msg : CStr) : Option Answer :=
  let msg := (newsplit msg).2
  let (chname, msg) := newsplit msg
  match findchan chname with
  | none => some (.part chname)
  | some chan =>
    let buf := ofText msg
    (readModes buf.length 1 { chan with mode := 0, asked := false } buf).map
      fun chan' => .modes chan' chan.asked

/-! ### `getchanmode` -/

/-- `int_to_base10`; `none` where the sign cannot be changed. -/
def intToBase10 (n : Int) : Option CStr := if n = -2 ^ 31 then none else some (showInt n)

/-- The letters that `getchanmode` knows, in its order. -/
def writtenModes : CStr := "ipsmcCRtMrDuNTdnak".toList

/-- `getchanmode` with its static builder; `none` where that has no text. -/
def getchanmode (s : Strbuf) (chan : Channel) : Option Strbuf := do
  let s ← s.clear
  let s := (s.append ['+']).append (writtenModes.filter fun c => chan.mode &&& modeBit c ≠ 0)
  let s := if chan.maxmembers ≠ 0 then s.append ['l'] else s
  let s ← if chan.key ≠ [] then s.appendf (' ' :: chan.key) else some s
  if chan.maxmembers ≠ 0 then s.appendf (' ' :: (← intToBase10 chan.maxmembers)) else some s

theorem getchanmode_zeroed (chan : Channel) : getchanmode .zeroed chan = none := rfl

/-! ### Cutting a parameter out -/

section Cut

variable {a j : Buf} {t w p s : CStr}

theorem strAt_append (a : Buf) (t : CStr) (j : Buf) :
    strAt (a ++ (t.map some ++ none :: j)) a.length = t := by
  have hall : ∀ x ∈ t.map some, Option.isSome x = true := by
    intro x hx
    obtain ⟨c, -, rfl⟩ := List.mem_map.1 hx
    rfl
  rw [strAt, List.drop_left, List.takeWhile_append_of_pos hall,
    List.takeWhile_cons_of_neg (by simp), List.append_nil]
  show (t.map some).filterMap id = t
  rw [List.filterMap_map]
  exact List.filterMap_some

theorem blankAfter_append (a : Buf) (t : CStr) (j : Buf) :
    blankAfter (a ++ (t.map some ++ none :: j)) a.length =
      if ' ' ∈ t then some (a.length + t.idxOf ' ') else none := by
  rw [blankAfter, strAt_append]

theorem idxOf_blank (hw : ' ' ∉ w) (s : CStr) : (w ++ ' ' :: s).idxOf ' ' = w.length := by
  rw [List.idxOf_append, if_neg hw, List.idxOf_cons_self, Nat.zero_add]

theorem cutParam_none (hw : ' ' ∉ w) (j : Buf) : cutParam (w.map some ++ none :: j) = none := by
  have hblank : blankAfter (w.map some ++ none :: j) 0 = none := by
    have := blankAfter_append [] w j
    rwa [if_neg hw] at this
  rw [cutParam, hblank]

theorem blankAfter_word (hw : ' ' ∉ w) (s : CStr) (j : Buf) :
    blankAfter ((w ++ ' ' :: s).map some ++ none :: j) 0 = some w.length ∧
      (w ++ ' ' :: s).map some ++ none :: j =
        (w ++ [' ']).map some ++ (s.map some ++ none :: j) := by
  constructor
  · have := blankAfter_append [] (w ++ ' ' :: s) j
    rw [if_pos (by simp), idxOf_blank hw] at this
    simpa using this
  · simp

theorem cutParam_last (hw : ' ' ∉ w) (hp : ' ' ∉ p) (j : Buf) :
    cutParam ((w ++ ' ' :: p).map some ++ none :: j) =
      some (p, (w ++ [' ']).map some ++ none :: (p.map some ++ none :: j).tail) := by
  obtain ⟨hblank, hsplit⟩ := blankAfter_word hw p j
  have hlength : ((w ++ [' ']).map some).length = w.length + 1 := by simp
  rw [cutParam, hblank, hsplit]
  dsimp only
  rw [← hlength, blankAfter_append, if_neg hp]
  dsimp only
  rw [strAt_append, List.set_append_right _ _ le_rfl, Nat.sub_self]
  cases p <;> rfl

theorem cutParam_more (hw : ' ' ∉ w) (hp : ' ' ∉ p) (s : CStr) (j : Buf) :
    ∃ j', cutParam ((w ++ ' ' :: (p ++ ' ' :: s)).map some ++ none :: j) =
      some (p, (w ++ ' ' :: s).map some ++ none :: j') := by
  obtain ⟨hblank, hsplit⟩ := blankAfter_word hw (p ++ ' ' :: s) j
  have hlength : ((w ++ [' ']).map some).length = w.length + 1 := by simp
  have hq : w.length + 1 + p.length = ((w ++ [' ']).map some ++ p.map some).length := by simp; omega
  have hset : ((w ++ [' ']).map some ++ ((p ++ ' ' :: s).map some ++ none :: j)).set
      (w.length + 1 + p.length) none =
      (w ++ [' ']).map some ++ (p.map some ++ none :: (s.map some ++ none :: j)) := by
    have hassoc : (w ++ [' ']).map some ++ ((p ++ ' ' :: s).map some ++ none :: j) =
        ((w ++ [' ']).map some ++ p.map some) ++ some ' ' :: (s.map some ++ none :: j) := by
      simp only [List.map_append, List.map_cons, List.append_assoc, List.cons_append]
    rw [hassoc, hq, List.set_append_right _ _ le_rfl, Nat.sub_self, List.set_cons_zero,
      List.append_assoc]
  have hs : strAt ((w ++ [' ']).map some ++ (p.map some ++ none :: (s.map some ++ none :: j)))
      (w.length + 1 + p.length + 1) = s := by
    have hassoc : (w ++ [' ']).map some ++ (p.map some ++ none :: (s.map some ++ none :: j)) =
        ((w ++ [' ']).map some ++ p.map some ++ [none]) ++ (s.map some ++ none :: j) := by
      simp only [List.append_assoc, List.cons_append, List.nil_append]
    have hend : w.length + 1 + p.length + 1 =
        ((w ++ [' ']).map some ++ p.map some ++ [none]).length := by
      rw [hq]
      simp
      omega
    rw [hassoc, hend, strAt_append]
  refine ⟨((w ++ [' ']).map some ++ (p.map some ++ none :: (s.map some ++ none :: j))).drop
    (w.length + 1 + (ofText s).length), ?_⟩
  rw [cutParam, hblank, hsplit]
  dsimp only
  rw [← hlength, blankAfter_append, if_pos (by simp), idxOf_blank hp, hlength]
  dsimp only
  rw [hset, hs, ← hlength, strAt_append, List.take_left]
  simp only [ofText, List.map_append, List.map_cons, List.map_nil, List.append_assoc,
    List.cons_append, List.nil_append]

end Cut

/-! ### The mode word -/

/-- The parameters that are left, each behind a blank; `none` where the text has no blank. -/
def tailText : Option (List CStr) → CStr
  | none => []
  | some [] => [' ']
  | some ps => ps.flatMap fun p => ' ' :: p

/-- The buffer holds the mode word and the parameters that are left. -/
def Holds (word : CStr) (ps : Option (List CStr)) (buf : Buf) : Prop :=
  ∃ j, buf = (word ++ tailText ps).map some ++ none :: j

/-- What a letter of the mode word does with the parameters that are left. -/
def readLetter (s : Channel × Option (List CStr)) (c : Char) : Channel × Option (List CStr) :=
  let chan := { s.1 with mode := s.1.mode ||| modeBit c }
  if c = 'k' then
    let chan := match s.2 with
      | none => chan
      | some ps => { chan with key := ps.head?.getD [] }
    (if chan.key = [] ∨ chan.key = ['*'] then { chan with asked := true } else chan,
      s.2.map List.tail)
  else if c = 'l' then
    (match s.2 with
      | none => chan
      | some ps => { chan with maxmembers := eggAtoi (ps.head?.getD []) }, s.2.map List.tail)
  else (chan, s.2)

section Word

variable {word w w₁ w₂ : CStr} {ps : Option (List CStr)} {buf : Buf} {chan : Channel} {c : Char}
  {i n : Nat} {s : Channel × Option (List CStr)}

theorem cutParam_holds_none (hw : ' ' ∉ word) (h : Holds word none buf) : cutParam buf = none := by
  obtain ⟨j, rfl⟩ := h
  rw [tailText, List.append_nil]
  exact cutParam_none hw j

theorem cutParam_holds_some {l : List CStr} (hw : ' ' ∉ word) (hl : ∀ p ∈ l, ' ' ∉ p)
    (h : Holds word (some l) buf) :
    ∃ buf', cutParam buf = some (l.head?.getD [], buf') ∧ Holds word (some l.tail) buf' := by
  obtain ⟨j, rfl⟩ := h
  match l with
  | [] =>
    exact ⟨_, cutParam_last hw List.not_mem_nil j, _, rfl⟩
  | [p] =>
    have htail : tailText (some [p]) = ' ' :: p := by simp [tailText]
    rw [htail]
    exact ⟨_, cutParam_last hw (hl p (by simp)) j, _, rfl⟩
  | p :: q :: l =>
    obtain ⟨j', hcut⟩ := cutParam_more hw (hl p (by simp)) (q ++ l.flatMap fun p => ' ' :: p) j
    have htail : tailText (some (p :: q :: l)) =
        ' ' :: (p ++ ' ' :: (q ++ l.flatMap fun p => ' ' :: p)) := by
      simp [tailText]
    rw [htail]
    refine ⟨_, hcut, j', ?_⟩
    simp [tailText]

theorem getElem?_holds (h : Holds word ps buf) (hi : i < word.length) :
    buf[i]? = some (word[i]?) := by
  obtain ⟨j, rfl⟩ := h
  have hlt : i < (word.map some).length := by simpa using hi
  rw [List.map_append, List.append_assoc, List.getElem?_append_left hlt, List.getElem?_map,
    List.getElem?_eq_getElem hi]
  rfl

theorem and_chanKey (m : BitVec 32) : (m ||| modeBit 'k') &&& chanKey ≠ 0 := by
  show (m ||| chanKey) &&& chanKey ≠ 0
  intro h
  have hbit := congrArg (fun b : BitVec 32 => b.getLsbD 7) h
  simp at hbit

theorem readMode_holds (chan : Channel) (hw : ' ' ∉ word) (hps : ∀ l, ps = some l → ∀ p ∈ l, ' ' ∉ p)
    (h : Holds word ps buf) (hc : word[i]? = some c) :
    ∃ buf', readMode i c chan buf = ((readLetter (chan, ps) c).1, buf') ∧
      Holds word (readLetter (chan, ps) c).2 buf' := by
  obtain ⟨hi, -⟩ := List.getElem?_eq_some_iff.1 hc
  have hbuf {ps' : Option (List CStr)} {b : Buf} (hb : Holds word ps' b) : b[i]? = some (some c) := by
    rw [getElem?_holds hb hi, hc]
  unfold readMode readLetter
  dsimp only
  by_cases hk : c = 'k'
  · subst hk
    have hlimit {ps' : Option (List CStr)} {b : Buf} (hb : Holds word ps' b) (ch : Channel) :
        readLimit i ch b = (ch, b) := by
      rw [readLimit, if_neg (by rw [hbuf hb]; decide)]
    rw [if_pos rfl, readKey, if_pos (hbuf h)]
    cases ps with
    | none =>
      rw [cutParam_holds_none hw h]
      refine ⟨buf, ?_, h⟩
      simp only [and_chanKey, not_false_eq_true, ne_eq, true_and]
      split <;> exact hlimit h _
    | some l =>
      obtain ⟨buf', hcut, h'⟩ := cutParam_holds_some hw (hps l rfl) h
      rw [hcut]
      refine ⟨buf', ?_, h'⟩
      simp only [and_chanKey, not_false_eq_true, ne_eq, true_and]
      split <;> exact hlimit h' _
  · have hkey (ch : Channel) : readKey i ch buf = (ch, buf) := by
      rw [readKey, if_neg (by rw [hbuf h]; simpa using hk)]
    rw [if_neg hk, hkey]
    dsimp only
    by_cases hl : c = 'l'
    · subst hl
      rw [if_pos rfl, readLimit, if_pos (hbuf h)]
      cases ps with
      | none =>
        rw [cutParam_holds_none hw h]
        exact ⟨buf, rfl, h⟩
      | some l =>
        obtain ⟨buf', hcut, h'⟩ := cutParam_holds_some hw (hps l rfl) h
        rw [hcut]
        exact ⟨buf', rfl, h'⟩
    · rw [if_neg hl, readLimit, if_neg (by rw [hbuf h]; simpa using hl)]
      exact ⟨buf, rfl, h⟩

theorem readLetter_params (s : Channel × Option (List CStr)) (c : Char) :
    (readLetter s c).2 = s.2 ∨ (readLetter s c).2 = s.2.map List.tail := by
  unfold readLetter
  split
  · exact .inr rfl
  · split
    · exact .inr rfl
    · exact .inl rfl

/-- In the mode word each `k` and `l` takes the next parameter. -/
theorem loop_word (n : Nat) (chan : Channel) (w₁ w₂ : CStr) (hw : ' ' ∉ word)
    (hps : ∀ l, ps = some l → ∀ p ∈ l, ' ' ∉ p) (h : Holds word ps buf) (hword : word = w₁ ++ w₂) :
    ∃ buf', readModes (n + w₂.length) w₁.length chan buf =
        readModes n word.length (w₂.foldl readLetter (chan, ps)).1 buf' ∧
      Holds word (w₂.foldl readLetter (chan, ps)).2 buf' := by
  induction w₂ generalizing w₁ ps buf chan with
  | nil =>
    rw [List.append_nil] at hword
    subst hword
    exact ⟨buf, rfl, h⟩
  | cons c w₂ ih =>
    have hc : word[w₁.length]? = some c := by simp [hword]
    obtain ⟨hi, -⟩ := List.getElem?_eq_some_iff.1 hc
    obtain ⟨buf₁, hread, h₁⟩ := readMode_holds chan hw hps h hc
    have hps₁ : ∀ l, (readLetter (chan, ps) c).2 = some l → ∀ p ∈ l, ' ' ∉ p := by
      intro l hl p hp
      obtain heq | heq := readLetter_params (chan, ps) c
      · exact hps l (heq.symm.trans hl) p hp
      · rw [heq] at hl
        obtain ⟨l₀, hl₀, rfl⟩ := Option.map_eq_some_iff.1 hl
        exact hps l₀ hl₀ p (List.mem_of_mem_tail hp)
    obtain ⟨buf₂, hrun, h₂⟩ := ih (readLetter (chan, ps) c).1 (w₁ ++ [c]) hps₁ h₁ (by rw [hword]; simp)
    refine ⟨buf₂, ?_, h₂⟩
    rw [List.length_cons, ← Nat.add_assoc, readModes, getElem?_holds h hi, hc]
    dsimp only
    rw [hread]
    rw [List.length_append, List.length_singleton] at hrun
    exact hrun

theorem loop_end (h : Holds word ps buf) (hps : ps = none ∨ ps = some []) :
    readModes (n + 2) word.length chan buf = some chan := by
  obtain ⟨j, rfl⟩ := h
  obtain rfl | rfl := hps
  · rw [readModes, tailText, List.append_nil, List.getElem?_append_right (by simp)]
    simp
  · have hblank : ((word ++ [' ']).map some ++ none :: j)[word.length]? = some (some ' ') := by
      simp
    have hstop : ((word ++ [' ']).map some ++ none :: j)[word.length + 1]? = some none := by
      rw [List.getElem?_append_right (by simp)]
      simp
    have hread : readMode word.length ' ' chan ((word ++ [' ']).map some ++ none :: j) =
        (chan, (word ++ [' ']).map some ++ none :: j) := by
      rw [readMode, readKey, if_neg (by rw [hblank]; decide)]
      dsimp only
      rw [readLimit, if_neg (by rw [hblank]; decide)]
      simp [modeBit]
    rw [readModes, tailText, hblank]
    dsimp only
    rw [hread, readModes, hstop]

end Word

/-! ### What the mode word leaves -/

/-- A letter that takes a parameter in `got324`. -/
def Takes (c : Char) : Prop := c = 'k' ∨ c = 'l'

instance (c : Char) : Decidable (Takes c) := inferInstanceAs (Decidable (_ ∨ _))

/-- The letters of a word that take a parameter. -/
def takers (w : CStr) : CStr := w.filter fun c => Takes c

section Fold

variable {w : CStr} {l : List CStr} {chan : Channel} {c : Char}
  {s : Channel × Option (List CStr)}

theorem readLetter_mode (s : Channel × Option (List CStr)) (c : Char) :
    (readLetter s c).1.mode = s.1.mode ||| modeBit c := by
  unfold readLetter
  dsimp only
  split
  · split <;> split <;> rfl
  · split
    · split <;> rfl
    · rfl

theorem foldl_or (a : BitVec 32) (w : CStr) :
    w.foldl (fun m c => m ||| modeBit c) a = a ||| modeBits w := by
  induction w generalizing a with
  | nil => exact BitVec.or_zero.symm
  | cons c w ih =>
    rw [modeBits, List.foldl_cons, List.foldl_cons, ih, ih (0#32 ||| modeBit c), BitVec.zero_or,
      BitVec.or_assoc]

theorem modeBits_cons (c : Char) (w : CStr) : modeBits (c :: w) = modeBit c ||| modeBits w := by
  rw [modeBits, List.foldl_cons, foldl_or, BitVec.zero_or]

theorem modeBits_filter (mode : BitVec 32) {w : CStr}
    (hw : ∀ c ∈ w, ∃ k : Fin 32, modeBit c = BitVec.twoPow 32 k) :
    modeBits (w.filter fun c => mode &&& modeBit c ≠ 0) = mode &&& modeBits w := by
  induction w with
  | nil => exact BitVec.and_zero.symm
  | cons c w ih =>
    have ih := ih fun c hc => hw c (List.mem_cons_of_mem _ hc)
    obtain ⟨k, hk⟩ := hw c List.mem_cons_self
    rw [modeBits_cons, BitVec.and_or_distrib_left, ← ih]
    by_cases h : mode &&& modeBit c ≠ 0
    · have hone : mode &&& modeBit c = modeBit c := by
        rw [hk, BitVec.and_twoPow] at h ⊢
        split at h
        · rename_i hbit
          rw [if_pos hbit]
        · exact absurd rfl h
      rw [List.filter_cons_of_pos (by simpa using h), modeBits_cons, hone]
    · rw [List.filter_cons_of_neg (by simpa using h), not_not.1 h]
      exact BitVec.zero_or.symm

theorem foldl_readLetter_mode (s : Channel × Option (List CStr)) (w : CStr) :
    (w.foldl readLetter s).1.mode = s.1.mode ||| modeBits w := by
  induction w generalizing s with
  | nil => exact BitVec.or_zero.symm
  | cons c w ih => rw [List.foldl_cons, ih, readLetter_mode, modeBits_cons, BitVec.or_assoc]

theorem foldl_readLetter_none (chan : Channel) (w : CStr) :
    (w.foldl readLetter (chan, none)).2 = none ∧
      (w.foldl readLetter (chan, none)).1.key = chan.key ∧
      (w.foldl readLetter (chan, none)).1.maxmembers = chan.maxmembers := by
  induction w generalizing chan with
  | nil => exact ⟨rfl, rfl, rfl⟩
  | cons c w ih =>
    have hread : ∃ chan', readLetter (chan, none) c = (chan', none) ∧ chan'.key = chan.key ∧
        chan'.maxmembers = chan.maxmembers := by
      unfold readLetter
      dsimp only
      split
      · split <;> exact ⟨_, rfl, rfl, rfl⟩
      · split <;> exact ⟨_, rfl, rfl, rfl⟩
    obtain ⟨chan', heq, hkey, hlimit⟩ := hread
    rw [List.foldl_cons, heq, ← hkey, ← hlimit]
    exact ih chan'

theorem takers_cons_of_pos (h : Takes c) : takers (c :: w) = c :: takers w :=
  List.filter_cons_of_pos (decide_eq_true h)

theorem takers_cons_of_neg (h : ¬ Takes c) : takers (c :: w) = takers w :=
  List.filter_cons_of_neg (by simpa using h)

theorem foldl_readLetter_some (hw : w.Nodup) (chan : Channel) (l : List CStr) :
    (w.foldl readLetter (chan, some l)).2 = some (l.drop (takers w).length) ∧
      (w.foldl readLetter (chan, some l)).1.key =
        (if 'k' ∈ w then l[(takers w).idxOf 'k']?.getD [] else chan.key) ∧
      (w.foldl readLetter (chan, some l)).1.maxmembers =
        (if 'l' ∈ w then eggAtoi (l[(takers w).idxOf 'l']?.getD []) else chan.maxmembers) := by
  induction w generalizing chan l with
  | nil => exact ⟨rfl, rfl, rfl⟩
  | cons c w ih =>
    obtain ⟨hc, hw'⟩ := List.nodup_cons.1 hw
    by_cases hk : c = 'k'
    · subst hk
      have hread : ∃ chan', readLetter (chan, some l) 'k' = (chan', some l.tail) ∧
          chan'.key = l.head?.getD [] ∧ chan'.maxmembers = chan.maxmembers := by
        unfold readLetter
        dsimp only
        rw [if_pos rfl]
        split <;> exact ⟨_, rfl, rfl, rfl⟩
      obtain ⟨chan', heq, hkey, hlimit⟩ := hread
      obtain ⟨hps, hkey', hlimit'⟩ := ih hw' chan' l.tail
      rw [List.foldl_cons, heq, hps, hkey', hlimit', if_neg hc, hkey, hlimit,
        takers_cons_of_pos (.inl rfl)]
      refine ⟨?_, ?_, ?_⟩
      · simp
      · simp [List.head?_eq_getElem?]
      · rw [List.idxOf_cons]
        simp
    · by_cases hl : c = 'l'
      · subst hl
        have hread : ∃ chan', readLetter (chan, some l) 'l' = (chan', some l.tail) ∧
            chan'.key = chan.key ∧ chan'.maxmembers = eggAtoi (l.head?.getD []) :=
          ⟨_, rfl, rfl, rfl⟩
        obtain ⟨chan', heq, hkey, hlimit⟩ := hread
        obtain ⟨hps, hkey', hlimit'⟩ := ih hw' chan' l.tail
        rw [List.foldl_cons, heq, hps, hkey', hlimit', if_neg hc, hkey, hlimit,
          takers_cons_of_pos (.inr rfl)]
        refine ⟨?_, ?_, ?_⟩
        · simp
        · rw [List.idxOf_cons]
          simp
        · simp [List.head?_eq_getElem?]
      · have hread : readLetter (chan, some l) c =
            ({ chan with mode := chan.mode ||| modeBit c }, some l) := by
          rw [readLetter, if_neg hk, if_neg hl]
        obtain ⟨hps, hkey', hlimit'⟩ := ih hw' { chan with mode := chan.mode ||| modeBit c } l
        rw [List.foldl_cons, hread, hps, hkey', hlimit',
          takers_cons_of_neg (by rintro (h | h) <;> contradiction)]
        refine ⟨rfl, ?_, ?_⟩
        · simp [Ne.symm hk]
        · simp [Ne.symm hl]

end Fold

/-! ### Parameters that are left -/

section Left

variable {n m i b p : Nat} {chan chan' : Channel} {buf buf' : Buf} {s : CStr} {c : Char}

theorem readMode_inert (hc : buf[i]? = some (some c)) (hbit : modeBit c = 0#32) (htakes : ¬ Takes c) :
    readMode i c chan buf = (chan, buf) := by
  have hkey : ¬ buf[i]? = some (some 'k') := by
    rw [hc]
    simpa using fun h : c = 'k' => htakes (.inl h)
  have hlimit : ¬ buf[i]? = some (some 'l') := by
    rw [hc]
    simpa using fun h : c = 'l' => htakes (.inr h)
  rw [readMode, readKey, if_neg hkey, hbit, BitVec.or_zero]
  dsimp only
  rw [readLimit, if_neg hlimit]

theorem getElem?_append_cons (a : Buf) (x : Option Char) (j : Buf) :
    (a ++ x :: j)[a.length]? = some x := by
  rw [List.getElem?_append_right le_rfl, Nat.sub_self]
  rfl

theorem readModes_inert {t : CStr} (a j : Buf) (hinert : ∀ c ∈ t, modeBit c = 0#32 ∧ ¬ Takes c)
    (h : readModes n a.length chan (a ++ (t.map some ++ none :: j)) = some chan') :
    chan' = chan := by
  induction t generalizing a n with
  | nil =>
    match n with
    | n + 1 =>
      have hc := getElem?_append_cons a none j
      rw [List.map_nil, List.nil_append, readModes, hc] at h
      exact (Option.some.inj h).symm
  | cons c t ih =>
    match n with
    | n + 1 =>
      have hc := getElem?_append_cons a (some c) (t.map some ++ none :: j)
      obtain ⟨hbit, htakes⟩ := hinert c List.mem_cons_self
      rw [List.map_cons, List.cons_append, readModes, hc] at h
      dsimp only at h
      rw [readMode_inert hc hbit htakes] at h
      refine ih (a ++ [some c]) (fun c hc => hinert c (List.mem_cons_of_mem _ hc)) (n := n) ?_
      rw [List.length_append, List.append_assoc]
      exact h

theorem inert_tailText {l : List CStr} (h : ∀ p ∈ l, ∀ c ∈ p, modeBit c = 0#32 ∧ ¬ Takes c) :
    ∀ c ∈ tailText (some l), modeBit c = 0#32 ∧ ¬ Takes c := by
  intro c hc
  have hblank : modeBit ' ' = 0#32 ∧ ¬ Takes ' ' := by decide
  match l with
  | [] =>
    obtain rfl := List.mem_singleton.1 hc
    exact hblank
  | p :: l =>
    obtain ⟨q, hq, hc⟩ := List.mem_flatMap.1 hc
    obtain rfl | hc := List.mem_cons.1 hc
    · exact hblank
    · exact h q hq c hc

theorem readModes_left {word : CStr} {l : List CStr} (hbuf : Holds word (some l) buf)
    (h : ∀ p ∈ l, ∀ c ∈ p, modeBit c = 0#32 ∧ ¬ Takes c)
    (hread : readModes n word.length chan buf = some chan') : chan' = chan := by
  obtain ⟨j, rfl⟩ := hbuf
  have hlength : (word.map some).length = word.length := List.length_map some
  rw [List.map_append, List.append_assoc, ← hlength] at hread
  exact readModes_inert _ j (inert_tailText h) hread

theorem readMode_limit (hc : buf[i]? = some (some 'l')) (hcut : cutParam buf = some (s, buf')) :
    readMode i 'l' chan buf = ({ chan with maxmembers := eggAtoi s }, buf') := by
  have hkey : ¬ buf[i]? = some (some 'k') := by
    rw [hc]
    decide
  have hbit : chan.mode ||| modeBit 'l' = chan.mode := BitVec.or_zero
  rw [readMode, readKey, if_neg hkey, hbit]
  dsimp only
  rw [readLimit, if_pos hc, hcut]

theorem readModes_blank_limit {word : CStr} {x : Buf} (hcut : cutParam (word.map some ++ some ' ' ::
      some 'l' :: x) = some (s, buf'))
    (hread : readModes n word.length chan (word.map some ++ some ' ' :: some 'l' :: x) = some chan') :
    ∃ n, readModes n (word.length + 2) { chan with maxmembers := eggAtoi s } buf' = some chan' := by
  have hlength : (word.map some).length = word.length := List.length_map some
  have hblank := getElem?_append_cons (word.map some) (some ' ') (some 'l' :: x)
  have hl : (word.map some ++ some ' ' :: some 'l' :: x)[word.length + 1]? = some (some 'l') := by
    rw [List.getElem?_append_right (by omega), hlength, Nat.add_sub_cancel_left]
    rfl
  rw [hlength] at hblank
  match n with
  | n + 1 =>
    rw [readModes, hblank] at hread
    dsimp only at hread
    rw [readMode_inert hblank rfl (by decide)] at hread
    match n with
    | n + 1 =>
      rw [readModes, hl] at hread
      dsimp only at hread
      rw [readMode_limit hl hcut] at hread
      exact ⟨n, hread⟩

/-- A limit is read from the first parameter that is left over, when that is an `l`. -/
theorem readModes_left_limit {word : CStr} {l : List CStr} (hw : ' ' ∉ word)
    (hbuf : Holds word (some (['l'] :: l)) buf) (hl : ∀ p ∈ l, p = ['3'])
    (hread : readModes n word.length chan buf = some chan') : chan'.maxmembers = 0 := by
  have hlimit : eggAtoi ['l'] = 0 := by decide
  obtain ⟨j, rfl⟩ := hbuf
  match l with
  | [] =>
    have htext : (word ++ tailText (some [['l']])).map some ++ none :: j =
        (word ++ ' ' :: ['l']).map some ++ none :: j := by
      simp [tailText]
    have hcut := cutParam_last (p := ['l']) hw (by decide) j
    rw [htext] at hread
    have hsplit : (word ++ ' ' :: ['l']).map some ++ none :: j =
        word.map some ++ some ' ' :: some 'l' :: none :: j := by
      simp
    rw [hsplit] at hread hcut
    obtain ⟨n, hread⟩ := readModes_blank_limit hcut hread
    have hend : ((word ++ [' ']).map some ++ none :: none :: j)[word.length + 2]? = some none := by
      rw [List.getElem?_append_right (by simp)]
      simp
    match n with
    | n + 1 =>
      rw [readModes] at hread
      change (match ((word ++ [' ']).map some ++ none :: none :: j)[word.length + 2]? with
        | none => none
        | some none => _
        | some (some c) => _) = _ at hread
      rw [hend] at hread
      obtain rfl := Option.some.inj hread
      exact hlimit
  | q :: l =>
    obtain rfl := hl q List.mem_cons_self
    have htext : (word ++ tailText (some (['l'] :: ['3'] :: l))).map some ++ none :: j =
        (word ++ ' ' :: (['l'] ++ ' ' :: ('3' :: l.flatMap fun p => ' ' :: p))).map some ++
          none :: j := by
      simp [tailText]
    obtain ⟨j', hcut⟩ := cutParam_more (p := ['l']) hw (by decide)
      ('3' :: l.flatMap fun p => ' ' :: p) j
    rw [htext] at hread
    have hsplit : (word ++ ' ' :: (['l'] ++ ' ' :: ('3' :: l.flatMap fun p => ' ' :: p))).map some ++
        none :: j = word.map some ++ some ' ' :: some 'l' ::
          (some ' ' :: some '3' :: (l.flatMap fun p => ' ' :: p).map some ++ none :: j) := by
      simp
    rw [hsplit] at hread hcut
    obtain ⟨n, hread⟩ := readModes_blank_limit hcut hread
    have hsplit' : (word ++ ' ' :: ('3' :: l.flatMap fun p => ' ' :: p)).map some ++ none :: j' =
        (word ++ [' ', '3']).map some ++ ((l.flatMap fun p => ' ' :: p).map some ++ none :: j') := by
      simp
    have hstart : word.length + 2 = ((word ++ [' ', '3']).map some).length := by simp
    rw [hsplit', hstart] at hread
    have hinert : ∀ c ∈ l.flatMap fun p => ' ' :: p, modeBit c = 0#32 ∧ ¬ Takes c := by
      intro c hc
      obtain ⟨p, hp, hc⟩ := List.mem_flatMap.1 hc
      rw [hl p (List.mem_cons_of_mem _ hp), List.mem_cons, List.mem_singleton] at hc
      obtain rfl | rfl := hc <;> decide
    rw [readModes_inert _ j' hinert hread]
    exact hlimit

end Left

end Eggdrop.ModeReply
