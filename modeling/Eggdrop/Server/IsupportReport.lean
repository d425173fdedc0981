import Eggdrop.Server.Isupport
import Mathlib.Data.List.Perm.Basic

/-!
# IsupportReport — the listing of the isupport table in isupport.c

The report gathers the settings on a line and prints the line where the next one does not fit.  It
then goes back to the length of the title, but leaves the text behind the title where it is, and
what is added is added to the end of the text.

* `stringify_fits`, `stale_tooLong`, `Stale.stringify`: what one setting does to the line.
* `oneLine_loop`: everything is listed once, or a word is listed twice.
* `isupportReport_iff`: the listing is right exactly where one line is enough.
-/

namespace Eggdrop.Isupport

/-! ### The report -/

def hexDigit (n : Nat) : Char := "0123456789abcdef".toList.getD n '0'

/-- A character as `isupport_encode` writes it. -/
def encodeChar (c : Char) : CStr :=
  if c.toNat < 33 ∨ 126 < c.toNat then
    ['\\', 'x', hexDigit (c.toNat / 16 % 16), hexDigit (c.toNat % 16)]
  else [c]

/-- The loop of `isupport_encode`, whose buffer has 512 characters. -/
def encodeLoop (buf : CStr) : CStr → CStr
  | [] => buf
  | c :: value => if buf.length < 507 then encodeLoop (buf ++ encodeChar c) value else buf

/-- `isupport_encode`. -/
def encode (value : CStr) : CStr := encodeLoop [] value

/-- A key and the value that is listed for it. -/
structure Entry where
  key : CStr
  value : Option CStr
deriving DecidableEq, Repr

namespace Entry

variable (e : Entry)

/-- The value as it is written; no value is written like an empty one. -/
def written : CStr := (e.value.map encode).getD []

def text : CStr := e.key ++ if e.written = [] then [] else '=' :: e.written

/-- `FITS_INTO`. -/
def FitsInto (room : Nat) : Prop := e.key.length + e.written.length + 2 < room

instance (room : Nat) : Decidable (e.FitsInto room) := inferInstanceAs (Decidable (_ < _))

end Entry

/-- The buffer, its length as the report keeps it, and what has been printed. -/
structure Report where
  buf : CStr
  len : Nat
  out : List CStr
deriving DecidableEq, Repr

/-- The notice for a setting that fits on no line. -/
def tooLong : CStr := "    isupport info too long to display.".toList

namespace Report

variable (r : Report)

/-- `op_strlcat(buf + len, src, bufsize - len)`. -/
def append (bufsize : Nat) (src : CStr) : Report :=
  { r with buf := r.buf.take r.len ++ strlcat (r.buf.drop r.len) src (bufsize - r.len) }

/-- The end of `isupport_stringify`. -/
def add (bufsize : Nat) (e : Entry) : Report :=
  let r := (r.append bufsize [' ']).append bufsize e.key
  let r := if e.written ≠ [] then (r.append bufsize ['=']).append bufsize e.written else r
  { r with len := r.buf.length }

/-- `isupport_stringify`. -/
def stringify (bufsize prefixlen : Nat) (e : Entry) : Report :=
  if e.FitsInto (bufsize - r.len) then r.add bufsize e
  else
    let r : Report := ⟨r.buf, prefixlen, r.out ++ [r.buf]⟩
    if e.FitsInto (bufsize - r.len) then r.add bufsize e
    else { r with out := r.out ++ [tooLong] }

end Report

/-- The title in a buffer of 450 characters. -/
def title (text : CStr) : CStr := text.take 449

/-- The loop over the table, from a buffer that holds the title. -/
def reportLoop (t : CStr) (entries : List Entry) : Report :=
  entries.foldl (fun r e => r.stringify 450 t.length e) ⟨t, t.length, []⟩

/-- The lines printed under one title. -/
def reportPart (t : CStr) (entries : List Entry) : List CStr :=
  let r := reportLoop t entries
  if t.length < r.len then r.out ++ [r.buf] else r.out

/-- The values in force. -/
def values (table : List Record) : List Entry := table.map fun r => ⟨r.key, r.get⟩

def defaults (table : List Record) : List Entry :=
  (table.filter fun r => r.defaultvalue.isSome).map fun r => ⟨r.key, r.defaultvalue⟩

def valuesTitle (pfx : CStr) : CStr := title (pfx ++ "isupport:".toList)

def defaultsTitle (pfx : CStr) : CStr := title (pfx ++ "isupport (default):".toList)

/-- `isupport_report`: the lines for the values, and those for the defaults. -/
def isupportReport (serverOnline : Bool) (pfx : CStr) (details : Bool) (table : List Record) :
    List CStr × List CStr :=
  if serverOnline then
    (reportPart (valuesTitle pfx) (values table),
      if details then reportPart (defaultsTitle pfx) (defaults table) else [])
  else ([], [])

/-! ### What a listing is -/

/-- The settings on a line: what stands behind the title, from blank to blank. -/
def lineWords (t line : CStr) : List CStr := ((line.drop t.length).splitOn ' ').tail

/-- The settings on all the lines. -/
def shown (t : CStr) (out : List CStr) : List CStr :=
  (out.filter fun line => line ≠ tooLong).flatMap (lineWords t)

/-- The lines show every setting for which there is room behind the title once, and there is a
notice for each of the others.  The text of one `dprintf` is a line. -/
structure Lists (t : CStr) (entries : List Entry) (out : List CStr) : Prop where
  lines : ∀ line ∈ out, line = tooLong ∨ (t <+: line ∧ line.length < 450)
  words : (shown t out).Perm
    ((entries.filter fun e => e.FitsInto (450 - t.length)).map Entry.text)
  notices : out.count tooLong = entries.countP fun e => ¬ e.FitsInto (450 - t.length)

/-- The settings fit on a line of which `n` characters are taken, the last of all apart, which may
be too long for any line. -/
def FitOn (t : CStr) : Nat → List Entry → Prop
  | _, [] => True
  | n, e :: es =>
    if e.FitsInto (450 - n) then FitOn t (n + 1 + e.text.length) es
    else ¬ e.FitsInto (450 - t.length) ∧ es = []

/-- One line is enough for the settings, once those are skipped that come first and are too long
for any line. -/
def OneLine (t : CStr) : List Entry → Prop
  | [] => True
  | e :: es =>
    if e.FitsInto (450 - t.length) then FitOn t t.length (e :: es) else OneLine t es

/-- A table as `isupport_parse` fills it: its keys end at the first blank or `=`. -/
structure Table where
  records : List Record
  distinct : (records.map (·.key)).Nodup
  plain : ∀ r ∈ records, ' ' ∉ r.key ∧ '=' ∉ r.key

/-! ### Texts -/

theorem hexDigit_not_mem (n : Nat) (h : n < 16) : hexDigit n ≠ ' ' := by
  have hall : ∀ i : Fin 16, hexDigit i ≠ ' ' := by decide
  exact hall ⟨n, h⟩

theorem blank_not_mem_encodeChar (c : Char) : ' ' ∉ encodeChar c := by
  unfold encodeChar
  split
  · have hhigh := hexDigit_not_mem (c.toNat / 16 % 16) (Nat.mod_lt _ (by decide))
    have hlow := hexDigit_not_mem (c.toNat % 16) (Nat.mod_lt _ (by decide))
    simp [hhigh.symm, hlow.symm]
  · rename_i hc
    rw [List.mem_singleton]
    rintro rfl
    exact hc (.inl (by decide))

theorem blank_not_mem_encodeLoop (value : CStr) {buf : CStr} (hbuf : ' ' ∉ buf) :
    ' ' ∉ encodeLoop buf value := by
  induction value generalizing buf with
  | nil => exact hbuf
  | cons c value ih =>
    rw [encodeLoop]
    split
    · refine ih fun hmem => ?_
      rcases List.mem_append.1 hmem with h | h
      · exact hbuf h
      · exact blank_not_mem_encodeChar c h
    · exact hbuf

theorem blank_not_mem_encode (value : CStr) : ' ' ∉ encode value :=
  blank_not_mem_encodeLoop value List.not_mem_nil

section Texts

variable {e : Entry} {n room : Nat}

theorem blank_not_mem_text (hkey : ' ' ∉ e.key) : ' ' ∉ e.text := by
  have hwritten : ' ' ∉ e.written := by
    unfold Entry.written
    cases e.value with
    | none => exact List.not_mem_nil
    | some value => exact blank_not_mem_encode value
  unfold Entry.text
  split <;> simp [hkey, hwritten]

/-- What is written up to the first `=` is the key. -/
theorem takeWhile_text (hkey : '=' ∉ e.key) : e.text.takeWhile (· ≠ '=') = e.key := by
  have hall : ∀ c ∈ e.key, (decide (c ≠ '=')) = true := by
    intro c hc
    rw [decide_eq_true_iff]
    rintro rfl
    exact hkey hc
  unfold Entry.text
  rw [List.takeWhile_append_of_pos hall]
  split <;> simp

theorem length_text_lt (h : e.FitsInto room) : e.text.length + 1 < room := by
  unfold Entry.FitsInto at h
  unfold Entry.text
  rw [List.length_append]
  split
  · rw [List.length_nil]
    omega
  · rw [List.length_cons]
    omega

theorem Entry.FitsInto.mono (h : e.FitsInto n) (hle : n ≤ room) : e.FitsInto room := by
  unfold Entry.FitsInto at *
  omega

theorem nodup_texts {entries : List Entry} (hkeys : (entries.map (·.key)).Nodup)
    (hplain : ∀ e ∈ entries, '=' ∉ e.key) : (entries.map Entry.text).Nodup := by
  have hback : entries.map ((fun s => s.takeWhile (· ≠ '=')) ∘ Entry.text) =
      entries.map (·.key) :=
    List.map_congr_left fun e he => takeWhile_text (hplain e he)
  refine List.Nodup.of_map (fun s => s.takeWhile (· ≠ '=')) ?_
  rw [List.map_map, hback]
  exact hkeys

end Texts

/-! ### What is added to the buffer -/

section Add

variable {r : Report} {e : Entry}

theorem take_append_take (n : Nat) (s t : CStr) : (s.take n ++ t).take n = (s ++ t).take n := by
  rw [List.take_append, List.take_append, List.take_take, Nat.min_self, List.length_take]
  congr 2
  omega

theorem append_eq (hlen : r.len ≤ r.buf.length) (hroom : r.buf.length < 450) (src : CStr) :
    r.append 450 src = { r with buf := (r.buf ++ src).take 449 } := by
  unfold Report.append strlcat
  rw [List.length_drop, if_neg (by omega), ← List.append_assoc, List.take_append_drop,
    List.take_append, List.take_of_length_le (by omega : r.buf.length ≤ 449)]
  congr 3
  omega

theorem add_eq (hlen : r.len ≤ r.buf.length) (hroom : r.buf.length < 450) (e : Entry) :
    r.add 450 e = ⟨(r.buf ++ ' ' :: e.text).take 449, ((r.buf ++ ' ' :: e.text).take 449).length,
      r.out⟩ := by
  have happend (s src : CStr) (hs : r.len ≤ ((r.buf ++ s).take 449).length) :
      Report.append ⟨(r.buf ++ s).take 449, r.len, r.out⟩ 450 src =
        ⟨(r.buf ++ (s ++ src)).take 449, r.len, r.out⟩ := by
    rw [append_eq hs (by rw [List.length_take]; omega)]
    show Report.mk _ _ _ = _
    rw [take_append_take, List.append_assoc]
  have hs (s : CStr) : r.len ≤ ((r.buf ++ s).take 449).length := by
    rw [List.length_take, List.length_append]
    omega
  unfold Report.add
  rw [append_eq hlen hroom, happend _ _ (hs _)]
  dsimp only
  by_cases hw : e.written = []
  · rw [if_neg (not_not_intro hw), Entry.text, if_pos hw, List.append_nil]
    rfl
  · rw [if_pos hw, happend _ _ (hs _), happend _ _ (hs _), Entry.text, if_neg hw]
    simp only [List.append_assoc, List.cons_append, List.nil_append]

end Add

/-! ### The words of a line -/

section Words

variable {t line : CStr}

theorem lineWords_self (t : CStr) : lineWords t t = [] := by
  rw [lineWords, List.drop_length]
  rfl

theorem lineWords_append (ht : t <+: line) (s : CStr) :
    lineWords t (line ++ ' ' :: s) = lineWords t line ++ s.splitOn ' ' := by
  rw [lineWords, List.drop_append_of_le_length ht.length_le, List.splitOn_append_cons_self,
    List.tail_append_of_ne_nil (List.splitOn_ne_nil ' ' _), lineWords]

theorem lineWords_append_text (ht : t <+: line) {s : CStr} (hs : ' ' ∉ s) :
    lineWords t (line ++ ' ' :: s) = lineWords t line ++ [s] := by
  rw [lineWords_append ht, List.splitOn_eq_singleton hs]

theorem length_lt_of_word (ht : t <+: line) {w : CStr} (hw : w ∈ lineWords t line) :
    t.length < line.length := by
  refine Nat.lt_of_le_of_ne ht.length_le fun hlen => ?_
  obtain rfl := ht.eq_of_length hlen
  rw [lineWords_self] at hw
  exact absurd hw List.not_mem_nil

theorem lineWords_prefix_take (ht : t <+: line) (n : Nat) (s : CStr) :
    lineWords t line <+: lineWords t (line ++ (' ' :: s).take n) := by
  cases n with
  | zero =>
    have hcut : line ++ (' ' :: s).take 0 = line := by
      rw [List.take_zero, List.append_nil]
    exact hcut.symm ▸ List.prefix_rfl
  | succ n =>
    rw [List.take_succ_cons, lineWords_append ht]
    exact List.prefix_append _ _

theorem shown_append (t : CStr) (out lines : List CStr) :
    shown t (out ++ lines) = shown t out ++ shown t lines := by
  rw [shown, List.filter_append, List.flatMap_append, shown, shown]

theorem shown_tooLong (t : CStr) : shown t [tooLong] = [] := by
  rw [shown, List.filter_cons_of_neg (by simp)]
  rfl

theorem shown_line (h : line ≠ tooLong) : shown t [line] = lineWords t line := by
  rw [shown, List.filter_cons_of_pos (by simpa using h), List.filter_nil, List.flatMap_singleton]

/-- A title that is in the buffer, and cannot be taken for the notice. -/
structure Titled (t : CStr) : Prop where
  room : t.length < 450
  notNotice : ¬ t <+: tooLong

theorem Titled.ne_tooLong (h : Titled t) (ht : t <+: line) : line ≠ tooLong := by
  rintro rfl
  exact h.notNotice ht

theorem titled_title {s : CStr} (hs : ':' ∈ s) : Titled (title s) := by
  have hlen : (title s).length = min 449 s.length := List.length_take
  refine ⟨by omega, fun hpre => ?_⟩
  have hnotice : tooLong.length = 38 := by decide
  have hle := hpre.length_le
  have hshort : s.length ≤ 449 := by omega
  rw [title, List.take_of_length_le hshort] at hpre
  exact absurd (hpre.subset hs) (by decide)

end Words

/-! ### One setting -/

/-- What holds of the buffer all along. -/
structure Held (t : CStr) (r : Report) : Prop where
  titled : t <+: r.buf
  room : r.buf.length < 450
  len : r.len = t.length ∨ r.len = r.buf.length

section One

variable {t w : CStr} {r : Report} {e : Entry} {done : List Entry}

theorem Held.len_le (h : Held t r) : r.len ≤ r.buf.length := by
  have := h.titled.length_le
  rcases h.len with hlen | hlen
  · omega
  · omega

theorem add_of_fits (h : Held t r) (hfits : e.FitsInto (450 - r.buf.length)) :
    r.add 450 e = ⟨r.buf ++ ' ' :: e.text, r.buf.length + 1 + e.text.length, r.out⟩ := by
  have hlen : (r.buf ++ ' ' :: e.text).length = r.buf.length + 1 + e.text.length := by
    rw [List.length_append, List.length_cons]
    omega
  have hroom := length_text_lt hfits
  rw [add_eq h.len_le h.room, List.take_of_length_le (by omega), hlen]

theorem add_held (h : Held t r) (e : Entry) :
    Held t (r.add 450 e) ∧ (r.add 450 e).len = (r.add 450 e).buf.length ∧
      (r.add 450 e).out = r.out ∧ lineWords t r.buf <+: lineWords t (r.add 450 e).buf := by
  have hbuf : r.buf.length ≤ 449 := by
    have := h.room
    omega
  have htake : (r.buf ++ ' ' :: e.text).take 449 =
      r.buf ++ (' ' :: e.text).take (449 - r.buf.length) := by
    rw [List.take_append, List.take_of_length_le hbuf]
  rw [add_eq h.len_le h.room, htake]
  refine ⟨⟨h.titled.trans (List.prefix_append _ _), ?_, .inr rfl⟩, rfl, rfl,
    lineWords_prefix_take h.titled _ _⟩
  show (r.buf ++ _).length < 450
  rw [List.length_append, List.length_take]
  omega

/-- Where the next setting does not fit, the line is printed and the length set back. -/
def Report.flush (r : Report) (prefixlen : Nat) : Report := ⟨r.buf, prefixlen, r.out ++ [r.buf]⟩

theorem Held.flush (h : Held t r) : Held t (r.flush t.length) := ⟨h.titled, h.room, .inl rfl⟩

theorem shown_flush (ht : Titled t) (h : Held t r) :
    shown t (r.flush t.length).out = shown t r.out ++ lineWords t r.buf := by
  rw [Report.flush, shown_append, shown_line (ht.ne_tooLong h.titled)]

/-- The three courses of `isupport_stringify`. -/
theorem stringify_cases (r : Report) (n : Nat) (e : Entry) :
    (e.FitsInto (450 - r.len) ∧ r.stringify 450 n e = r.add 450 e) ∨
    (¬ e.FitsInto (450 - r.len) ∧ e.FitsInto (450 - n) ∧
      r.stringify 450 n e = (r.flush n).add 450 e) ∨
    (¬ e.FitsInto (450 - r.len) ∧ ¬ e.FitsInto (450 - n) ∧
      r.stringify 450 n e = ⟨r.buf, n, (r.flush n).out ++ [tooLong]⟩) := by
  unfold Report.stringify
  by_cases hfits : e.FitsInto (450 - r.len)
  · exact .inl ⟨hfits, if_pos hfits⟩
  · refine .inr ?_
    rw [if_neg hfits]
    by_cases hn : e.FitsInto (450 - n)
    · exact .inl ⟨hfits, hn, if_pos hn⟩
    · exact .inr ⟨hfits, hn, if_neg hn⟩

/-- Each setting so far is shown once, on a printed line or on the one that is not printed yet. -/
structure Listed (t : CStr) (done : List Entry) (out : List CStr) (pending : List CStr) :
    Prop where
  lines : ∀ line ∈ out, line = tooLong ∨ (t <+: line ∧ line.length < 450)
  words : shown t out ++ pending =
    (done.filter fun e => e.FitsInto (450 - t.length)).map Entry.text
  notices : out.count tooLong = done.countP fun e => ¬ e.FitsInto (450 - t.length)

/-- The line holds what is not printed yet, and nothing else. -/
structure Fresh (t : CStr) (done : List Entry) (r : Report) : Prop extends Held t r where
  atEnd : r.len = r.buf.length
  listed : Listed t done r.out (lineWords t r.buf)
  any : r.buf = t ∨ lineWords t r.buf ≠ []

/-- All is printed, and the line still holds words of the line before. -/
structure Stale (t : CStr) (done : List Entry) (r : Report) : Prop extends Held t r where
  atTitle : r.len = t.length
  listed : Listed t done r.out []
  any : ∃ w ∈ lineWords t r.buf, w ∈ shown t r.out

/-- A word is on two printed lines, or on one and on the line that will be printed. -/
structure Twice (t w : CStr) (r : Report) : Prop extends Held t r where
  twice : 2 ≤ (shown t r.out).count w ∨
    (t.length < r.len ∧ w ∈ lineWords t r.buf ∧ w ∈ shown t r.out)

theorem Listed.skip {out pending : List CStr} (h : Listed t done out pending)
    (hlong : ¬ e.FitsInto (450 - t.length)) :
    Listed t (done ++ [e]) (out ++ [tooLong]) pending where
  lines := by
    intro line hline
    rcases List.mem_append.1 hline with hline | hline
    · exact h.lines line hline
    · exact .inl (List.mem_singleton.1 hline)
  words := by
    rw [shown_append, shown_tooLong, List.append_nil, h.words, List.filter_append,
      List.filter_cons_of_neg (by simpa using hlong), List.filter_nil, List.append_nil]
  notices := by
    rw [List.count_append, h.notices, List.countP_append, List.count_singleton_self,
      List.countP_singleton, if_pos (by simpa using hlong)]

theorem Listed.print {out : List CStr} {line : CStr} (ht : Titled t)
    (h : Listed t done out (lineWords t line)) (hline : t <+: line) (hroom : line.length < 450) :
    Listed t done (out ++ [line]) [] where
  lines := by
    intro l hl
    rcases List.mem_append.1 hl with hl | hl
    · exact h.lines l hl
    · obtain rfl := List.mem_singleton.1 hl
      exact .inr ⟨hline, hroom⟩
  words := by
    rw [shown_append, shown_line (ht.ne_tooLong hline), List.append_nil]
    exact h.words
  notices := by
    rw [List.count_append, h.notices,
      List.count_eq_zero_of_not_mem fun hmem =>
        ht.ne_tooLong hline (List.mem_singleton.1 hmem).symm, Nat.add_zero]

theorem Listed.more {out pending : List CStr} (h : Listed t done out pending)
    (hfits : e.FitsInto (450 - t.length)) : Listed t (done ++ [e]) out (pending ++ [e.text]) where
  lines := h.lines
  words := by
    rw [← List.append_assoc, h.words, List.filter_append,
      List.filter_cons_of_pos (by simpa using hfits), List.filter_nil, List.map_append]
    rfl
  notices := by
    rw [h.notices, List.countP_append, List.countP_singleton, if_neg (by simpa using hfits),
      Nat.add_zero]

theorem stringify_fits (h : Fresh t done r) (hkey : ' ' ∉ e.key)
    (hfits : e.FitsInto (450 - r.len)) :
    Fresh t (done ++ [e]) (r.stringify 450 t.length e) ∧
      (r.stringify 450 t.length e).len = r.len + 1 + e.text.length ∧
      (r.stringify 450 t.length e).buf ≠ t := by
  have hle := h.titled.length_le
  have hwords := lineWords_append_text h.titled (blank_not_mem_text hkey)
  have hstep : r.stringify 450 t.length e =
      ⟨r.buf ++ ' ' :: e.text, r.buf.length + 1 + e.text.length, r.out⟩ := by
    unfold Report.stringify
    rw [if_pos hfits]
    exact add_of_fits h.toHeld (h.atEnd ▸ hfits)
  have hroom := length_text_lt hfits
  have hatEnd := h.atEnd
  have hlen : (r.buf ++ ' ' :: e.text).length = r.buf.length + 1 + e.text.length := by
    rw [List.length_append, List.length_cons]
    omega
  rw [hstep]
  refine ⟨{ titled := h.titled.trans (List.prefix_append _ _), room := ?_, len := .inr hlen.symm,
            atEnd := hlen.symm, listed := ?_, any := .inr ?_ }, ?_, ?_⟩
  · show (r.buf ++ ' ' :: e.text).length < 450
    omega
  · show Listed t (done ++ [e]) r.out (lineWords t (r.buf ++ ' ' :: e.text))
    rw [hwords]
    exact h.listed.more (hfits.mono (by omega))
  · show lineWords t (r.buf ++ ' ' :: e.text) ≠ []
    rw [hwords]
    exact List.append_ne_nil_of_right_ne_nil _ (List.cons_ne_nil _ _)
  · show r.buf.length + 1 + e.text.length = r.len + 1 + e.text.length
    omega
  · intro heq
    have hlt : (r.buf ++ ' ' :: e.text).length = t.length := congrArg List.length heq
    omega

theorem stringify_tooLong (h : Held t r) (hlong : ¬ e.FitsInto (450 - t.length)) :
    r.stringify 450 t.length e = ⟨r.buf, t.length, (r.flush t.length).out ++ [tooLong]⟩ := by
  have hle : t.length ≤ r.len := by
    have := h.titled.length_le
    rcases h.len with hlen | hlen
    · omega
    · omega
  rcases stringify_cases r t.length e with ⟨hfits, -⟩ | ⟨-, hfits, -⟩ | ⟨-, -, hstep⟩
  · exact absurd (hfits.mono (by omega)) hlong
  · exact absurd hfits hlong
  · exact hstep

theorem fresh_tooLong (ht : Titled t) (h : Fresh t done r) (hlong : ¬ e.FitsInto (450 - t.length))
    (hbuf : r.buf = t) :
    Fresh t (done ++ [e]) (r.stringify 450 t.length e) ∧
      (r.stringify 450 t.length e).buf = t := by
  have hlisted := (h.listed.print ht h.titled h.room).skip hlong
  rw [stringify_tooLong h.toHeld hlong]
  refine ⟨{ titled := h.titled, room := h.room, len := .inl rfl, atEnd := ?_, listed := ?_,
            any := .inl hbuf }, hbuf⟩
  · show t.length = r.buf.length
    rw [hbuf]
  · show Listed t (done ++ [e]) _ (lineWords t r.buf)
    rw [hbuf, lineWords_self]
    rw [hbuf] at hlisted
    rw [Report.flush, hbuf]
    exact hlisted

theorem stale_tooLong (ht : Titled t) (h : Fresh t done r) (hlong : ¬ e.FitsInto (450 - t.length))
    (hbuf : r.buf ≠ t) : Stale t (done ++ [e]) (r.stringify 450 t.length e) := by
  obtain ⟨w, hw⟩ := List.exists_mem_of_ne_nil _ (h.any.resolve_left hbuf)
  rw [stringify_tooLong h.toHeld hlong]
  refine { titled := h.titled, room := h.room, len := .inl rfl, atTitle := rfl,
           listed := (h.listed.print ht h.titled h.room).skip hlong, any := ⟨w, hw, ?_⟩ }
  show w ∈ shown t ((r.flush t.length).out ++ [tooLong])
  rw [shown_append, shown_flush ht h.toHeld]
  exact List.mem_append_left _ (List.mem_append_right _ hw)

theorem twice_add (h : Held t r) (hw : w ∈ lineWords t r.buf) (hout : w ∈ shown t r.out)
    (e : Entry) : Twice t w (r.add 450 e) := by
  obtain ⟨hheld, hlen, hsame, hwords⟩ := add_held h e
  refine { toHeld := hheld, twice := .inr ⟨?_, hwords.subset hw, ?_⟩ }
  · rw [hlen]
    exact length_lt_of_word hheld.titled (hwords.subset hw)
  · rw [hsame]
    exact hout

theorem twice_flush (ht : Titled t) (h : Fresh t done r) (hno : ¬ e.FitsInto (450 - r.len))
    (hfits : e.FitsInto (450 - t.length)) : ∃ w, Twice t w (r.stringify 450 t.length e) := by
  have hbuf : r.buf ≠ t := by
    intro hbuf
    rw [h.atEnd, hbuf] at hno
    exact hno hfits
  obtain ⟨w, hw⟩ := List.exists_mem_of_ne_nil _ (h.any.resolve_left hbuf)
  rcases stringify_cases r t.length e with ⟨h', -⟩ | ⟨-, -, hstep⟩ | ⟨-, h', -⟩
  · exact absurd h' hno
  · refine ⟨w, ?_⟩
    rw [hstep]
    refine twice_add h.toHeld.flush hw ?_ e
    rw [shown_flush ht h.toHeld]
    exact List.mem_append_right _ hw
  · exact absurd hfits h'

theorem two_le_count_append {l m : List CStr} (hl : w ∈ l) (hm : w ∈ m) :
    2 ≤ (l ++ m).count w := by
  have := List.count_pos_iff.2 hl
  have := List.count_pos_iff.2 hm
  rw [List.count_append]
  omega

theorem Stale.stringify (ht : Titled t) (h : Stale t done r) (e : Entry) :
    ∃ w, Twice t w (r.stringify 450 t.length e) := by
  obtain ⟨w, hw, hout⟩ := h.any
  refine ⟨w, ?_⟩
  rcases stringify_cases r t.length e with ⟨-, hstep⟩ | ⟨hno, hfits, -⟩ | ⟨-, -, hstep⟩
  · rw [hstep]
    exact twice_add h.toHeld hw hout e
  · rw [h.atTitle] at hno
    exact absurd hfits hno
  · rw [hstep]
    refine { toHeld := ⟨h.titled, h.room, .inl rfl⟩, twice := .inl ?_ }
    show 2 ≤ (shown t ((r.flush t.length).out ++ [tooLong])).count w
    rw [shown_append, shown_tooLong, List.append_nil, shown_flush ht h.toHeld]
    exact two_le_count_append hout hw

theorem Twice.stringify (ht : Titled t) (h : Twice t w r) (e : Entry) :
    Twice t w (r.stringify 450 t.length e) := by
  -- once the line is printed, the word is on two printed lines
  have hprinted : 2 ≤ (shown t (r.flush t.length).out).count w := by
    rw [shown_flush ht h.toHeld]
    rcases h.twice with htwo | ⟨-, hw, hout⟩
    · rw [List.count_append]
      omega
    · exact two_le_count_append hout hw
  rcases stringify_cases r t.length e with ⟨-, hstep⟩ | ⟨-, -, hstep⟩ | ⟨-, -, hstep⟩
  · rw [hstep]
    rcases h.twice with htwo | ⟨-, hw, hout⟩
    · obtain ⟨hheld, -, hsame, -⟩ := add_held h.toHeld e
      exact { toHeld := hheld, twice := .inl (by rw [hsame]; exact htwo) }
    · exact twice_add h.toHeld hw hout e
  · rw [hstep]
    obtain ⟨hheld, -, hsame, -⟩ := add_held h.toHeld.flush e
    exact { toHeld := hheld, twice := .inl (by rw [hsame]; exact hprinted) }
  · rw [hstep]
    refine { toHeld := ⟨h.titled, h.room, .inl rfl⟩, twice := .inl ?_ }
    show 2 ≤ (shown t ((r.flush t.length).out ++ [tooLong])).count w
    rw [shown_append, shown_tooLong, List.append_nil]
    exact hprinted

end One

/-! ### The loop -/

section Loop

variable {t : CStr} {r : Report} {done entries : List Entry}

/-- The loop from a report on. -/
def Report.loop (t : CStr) (r : Report) (entries : List Entry) : Report :=
  entries.foldl (fun r e => r.stringify 450 t.length e) r

/-- All that has been dealt with is listed. -/
inductive Outcome (t : CStr) (done : List Entry) (r : Report) : Prop
  | fresh (h : Fresh t done r)
  | stale (h : Stale t done r)

theorem twice_loop (ht : Titled t) {w : CStr} (h : Twice t w r) (es : List Entry) :
    Twice t w (r.loop t es) := by
  induction es generalizing r with
  | nil => exact h
  | cons e es ih => exact ih (h.stringify ht e)

theorem fitOn_loop (ht : Titled t) (h : Fresh t done r) (hbuf : r.buf ≠ t) (es : List Entry)
    (hkeys : ∀ e ∈ es, ' ' ∉ e.key) :
    (FitOn t r.len es ∧ Outcome t (done ++ es) (r.loop t es)) ∨
      (¬ FitOn t r.len es ∧ ∃ w, Twice t w (r.loop t es)) := by
  induction es generalizing r done with
  | nil =>
    rw [List.append_nil]
    exact .inl ⟨trivial, .fresh h⟩
  | cons e es ih =>
    rw [List.forall_mem_cons] at hkeys
    rw [FitOn, show r.loop t (e :: es) = (r.stringify 450 t.length e).loop t es from rfl]
    by_cases hfits : e.FitsInto (450 - r.len)
    · obtain ⟨hfresh, hlen, hne⟩ := stringify_fits h hkeys.1 hfits
      rw [if_pos hfits, ← hlen, List.append_cons]
      exact ih hfresh hne hkeys.2
    rw [if_neg hfits]
    by_cases hline : e.FitsInto (450 - t.length)
    · obtain ⟨w, hw⟩ := twice_flush ht h hfits hline
      exact .inr ⟨fun hall => hall.1 hline, w, twice_loop ht hw es⟩
    · have hstale := stale_tooLong ht h hline hbuf
      cases es with
      | nil => exact .inl ⟨⟨hline, rfl⟩, .stale hstale⟩
      | cons e' es =>
        obtain ⟨w, hw⟩ := hstale.stringify ht e'
        refine .inr ⟨fun hall => ?_, w, twice_loop ht hw es⟩
        exact absurd hall.2 (List.cons_ne_nil _ _)

theorem oneLine_loop (ht : Titled t) (h : Fresh t done r) (hbuf : r.buf = t) (es : List Entry)
    (hkeys : ∀ e ∈ es, ' ' ∉ e.key) :
    (OneLine t es ∧ Outcome t (done ++ es) (r.loop t es)) ∨
      (¬ OneLine t es ∧ ∃ w, Twice t w (r.loop t es)) := by
  induction es generalizing r done with
  | nil =>
    rw [List.append_nil]
    exact .inl ⟨trivial, .fresh h⟩
  | cons e es ih =>
    have hlen : r.len = t.length := by rw [h.atEnd, hbuf]
    rw [List.forall_mem_cons] at hkeys
    rw [OneLine, show r.loop t (e :: es) = (r.stringify 450 t.length e).loop t es from rfl,
      List.append_cons]
    by_cases hfits : e.FitsInto (450 - t.length)
    · obtain ⟨hfresh, hlen', hne⟩ := stringify_fits h hkeys.1 (hlen ▸ hfits)
      have hstart : t.length + 1 + e.text.length = (r.stringify 450 t.length e).len := by
        rw [hlen', hlen]
      rw [if_pos hfits, FitOn, if_pos hfits, hstart]
      exact fitOn_loop ht hfresh hne es hkeys.2
    · obtain ⟨hfresh, hbuf'⟩ := fresh_tooLong ht h hfits hbuf
      rw [if_neg hfits]
      exact ih hfresh hbuf' hkeys.2

theorem Listed.lists {out : List CStr} (h : Listed t entries out []) : Lists t entries out where
  lines := h.lines
  words := by
    rw [← h.words, List.append_nil]
  notices := h.notices

theorem lists_of_outcome (ht : Titled t) (h : Outcome t entries (reportLoop t entries)) :
    Lists t entries (reportPart t entries) := by
  unfold reportPart
  dsimp only
  generalize reportLoop t entries = r at h ⊢
  rcases h with h | h
  · by_cases hlt : t.length < r.len
    · rw [if_pos hlt]
      exact (h.listed.print ht h.titled h.room).lists
    · -- nothing is left on the line
      have hbuf : t = r.buf := by
        refine h.titled.eq_of_length ?_
        have := h.titled.length_le
        have := h.atEnd
        omega
      have hlisted := h.listed
      rw [← hbuf, lineWords_self] at hlisted
      rw [if_neg hlt]
      exact hlisted.lists
  · rw [if_neg (by rw [h.atTitle]; exact Nat.lt_irrefl _)]
    exact h.listed.lists

theorem two_le_count_reportPart (ht : Titled t) {w : CStr}
    (h : Twice t w (reportLoop t entries)) : 2 ≤ (shown t (reportPart t entries)).count w := by
  unfold reportPart
  dsimp only
  generalize reportLoop t entries = r at h ⊢
  by_cases hlt : t.length < r.len
  · rw [if_pos hlt, shown_append, shown_line (ht.ne_tooLong h.titled)]
    rcases h.twice with htwo | ⟨-, hw, hout⟩
    · rw [List.count_append]
      omega
    · exact two_le_count_append hout hw
  · rw [if_neg hlt]
    rcases h.twice with htwo | ⟨hlen, -, -⟩
    · exact htwo
    · exact absurd hlen hlt

theorem Lists.count_le_one {out : List CStr} (h : Lists t entries out)
    (hkeys : (entries.map (·.key)).Nodup) (hplain : ∀ e ∈ entries, '=' ∉ e.key) (w : CStr) :
    (shown t out).count w ≤ 1 := by
  have hnodup : ((entries.filter fun e => e.FitsInto (450 - t.length)).map Entry.text).Nodup :=
    (nodup_texts hkeys hplain).sublist (List.filter_sublist.map _)
  rw [h.words.count_eq]
  exact List.nodup_iff_count_le_one.1 hnodup w

theorem fresh_start (ht : Titled t) : Fresh t [] ⟨t, t.length, []⟩ where
  titled := List.prefix_rfl
  room := ht.room
  len := .inl rfl
  atEnd := rfl
  any := .inl rfl
  listed := by
    show Listed t [] [] (lineWords t t)
    rw [lineWords_self]
    exact ⟨fun _ h => absurd h List.not_mem_nil, rfl, rfl⟩

theorem reportPart_iff (ht : Titled t) (hkeys : (entries.map (·.key)).Nodup)
    (hplain : ∀ e ∈ entries, ' ' ∉ e.key ∧ '=' ∉ e.key) :
    Lists t entries (reportPart t entries) ↔ OneLine t entries := by
  rcases oneLine_loop ht (fresh_start ht) rfl entries fun e he => (hplain e he).1 with
    ⟨hone, hall⟩ | ⟨hone, w, htwice⟩
  · exact iff_of_true (lists_of_outcome ht hall) hone
  · refine iff_of_false (fun hlists => ?_) hone
    have htwo := two_le_count_reportPart ht htwice
    have hle := hlists.count_le_one hkeys (fun e he => (hplain e he).2) w
    omega

end Loop

/-! ### The whole report -/

section Whole

variable (table : Table) (pfx : CStr) (details : Bool)

/-- Once a server is online, every key is listed with its value in force, and in detail with its
default. -/
structure Listing (serverOnline details : Bool) : Prop where
  values : serverOnline = true → Lists (valuesTitle pfx) (values table.records)
    (isupportReport serverOnline pfx details table.records).1
  defaults : serverOnline = true → details = true →
    Lists (defaultsTitle pfx) (defaults table.records)
      (isupportReport serverOnline pfx details table.records).2

theorem titled_valuesTitle : Titled (valuesTitle pfx) :=
  titled_title (List.mem_append_right _ (by decide))

theorem titled_defaultsTitle : Titled (defaultsTitle pfx) :=
  titled_title (List.mem_append_right _ (by decide))

theorem values_iff : Lists (valuesTitle pfx) (values table.records)
    (reportPart (valuesTitle pfx) (values table.records)) ↔
      OneLine (valuesTitle pfx) (values table.records) := by
  refine reportPart_iff (titled_valuesTitle pfx) ?_ ?_
  · rw [values, List.map_map]
    exact table.distinct
  · rintro e he
    obtain ⟨r, hr, rfl⟩ := List.mem_map.1 he
    exact table.plain r hr

theorem defaults_iff : Lists (defaultsTitle pfx) (defaults table.records)
    (reportPart (defaultsTitle pfx) (defaults table.records)) ↔
      OneLine (defaultsTitle pfx) (defaults table.records) := by
  refine reportPart_iff (titled_defaultsTitle pfx) ?_ ?_
  · rw [defaults, List.map_map]
    exact table.distinct.sublist (List.filter_sublist.map _)
  · rintro e he
    obtain ⟨r, hr, rfl⟩ := List.mem_map.1 he
    exact table.plain r (List.mem_filter.1 hr).1

/-- The listing is right exactly where one line is enough, for the values and for the defaults. -/
theorem isupportReport_iff (serverOnline details : Bool) :
    Listing table pfx serverOnline details ↔
      (serverOnline = true → OneLine (valuesTitle pfx) (values table.records)) ∧
        (serverOnline = true → details = true →
          OneLine (defaultsTitle pfx) (defaults table.records)) := by
  rw [← values_iff, ← defaults_iff]
  constructor
  · rintro ⟨hvalues, hdefaults⟩
    refine ⟨?_, ?_⟩
    · rintro rfl
      exact hvalues rfl
    · rintro rfl rfl
      exact hdefaults rfl rfl
  · rintro ⟨hvalues, hdefaults⟩
    refine ⟨?_, ?_⟩
    · rintro rfl
      exact hvalues rfl
    · rintro rfl rfl
      exact hdefaults rfl rfl

end Whole

/-- Two keys with long values: the second line of the report repeats the first. -/
def twoLong : Table where
  records := [⟨"A".toList, some (List.replicate 300 'x'), none⟩,
    ⟨"B".toList, some (List.replicate 300 'y'), none⟩]
  distinct := by decide
  plain := by decide

theorem not_isupportReport : ¬ Listing twoLong "    ".toList true false := by
  intro h
  have hlength := (h.values rfl).words.length_eq
  have hshown : (shown (valuesTitle "    ".toList)
      (isupportReport true "    ".toList false twoLong.records).1).length = 3 := by decide +kernel
  have hshort : (((values twoLong.records).filter fun e =>
      e.FitsInto (450 - (valuesTitle "    ".toList).length)).map Entry.text).length = 2 := by
    decide +kernel
  rw [hshown, hshort] at hlength
  exact absurd hlength (by decide)

end Eggdrop.Isupport
