import Eggdrop.Base.Utf8
import Eggdrop.Libop.Strbuf

/-!
# MsgTags — IRCv3 message tags

`encode_msgtags` and the part of `server_activity` that takes a line apart.

* `encodeMsgtags_zeroed`: no tag is ever written, as the builder of `encode_msgtag` is not set up.
* `valueBack_iff`: which values come back.  The encoder puts a backslash before the characters that it
  escapes, and leaves them as they are.
* `msgtags_round_trip_iff`: both of a dictionary and of a value.
-/

namespace Eggdrop.Server.Tags

open List

/-- `TOTALTAGMAX`. -/
def totaltagmax : ℕ := 8191

/-- A Tcl dictionary of strings, in the order in which the keys were put. -/
abbrev TagDict := List (CStr × CStr)

/-- `Tcl_DictObjPut`. -/
def dictPut (key value : CStr) : TagDict → TagDict
  | [] => [(key, value)]
  | kv :: d => if kv.1 = key then (key, value) :: d else kv :: dictPut key value d

/-- `Tcl_DictObjGet`. -/
def dictGet (key : CStr) (d : TagDict) : Option CStr := (d.find? fun kv => kv.1 = key).map Prod.snd

/-! ### Writing -/

/-- The characters that get a backslash in front. -/
def isSpecial (c : Char) : Bool :=
  c == ';' || c == ' ' || c == '\\' || c == '\r' || c == '\n'

/-- The loop of `encode_msgtag_value`; `written` characters are in the buffer. -/
def encodeLoop : ℕ → CStr → CStr
  | _, [] => []
  | written, c :: s =>
    if written < totaltagmax + 1 - 2 then
      if isSpecial c then '\\' :: c :: encodeLoop (written + 2) s else c :: encodeLoop (written + 1) s
    else []

/-- `encode_msgtag_value`. -/
def encodeMsgtagValue (value : CStr) : CStr := if value = [] then [] else '=' :: encodeLoop 1 value

/-- `isalnum` in the C locale. -/
def isAlnum (c : Char) : Bool :=
  ('A' ≤ c && c ≤ 'Z') || ('a' ≤ c && c ≤ 'z') || isDigit c

def keyChar (c : Char) : Bool := isAlnum c || c == '-' || c == '_' || c == '.' || c == '/'

/-- `msgtag_key_valid`. -/
def msgtagKeyValid (key : CStr) : Bool :=
  match key with
  | [] => false
  | '+' :: key => key.all keyChar
  | key => key.all keyChar

/-- `encode_msgtag` with its static builder; `none` where that has no text. -/
def encodeMsgtag (sb : Strbuf) (key value : CStr) : Option Strbuf := do
  let sb ← sb.clear
  if msgtagKeyValid key then sb.appendf (key ++ encodeMsgtagValue value) else some sb

/-- The loop of `encode_msgtags`; `ds` is the text so far. -/
def appendMsgtags (sb : Strbuf) (ds : CStr) : TagDict → Option (Strbuf × CStr)
  | [] => some (sb, ds)
  | kv :: d => do
    let sb ← encodeMsgtag sb kv.1 kv.2
    let encoded ← sb.text
    -- a key that is not valid gives no text
    let ds := if encoded = [] then ds else if ds = [] then encoded else ds ++ ';' :: encoded
    appendMsgtags sb ds d

/-- `encode_msgtags`. -/
def encodeMsgtags (sb : Strbuf) (d : TagDict) : Option (Strbuf × CStr) := appendMsgtags sb [] d

/-! ### Reading -/

/-- What an escaped character stands for. -/
def unescapeTag (c : Char) : Char :=
  if c = ':' then ';'
  else if c = 'n' then '\n'
  else if c = 'r' then '\r'
  else if c = 's' then ' '
  else c

/-- The loop of `decode_msgtag_value`, with room for so many characters: the text, and the rest. -/
def decodeLoop : Bool → ℕ → CStr → CStr × CStr
  | _, _, [] => ([], [])
  | _, 0, s => ([], s)
  | escaped, room + 1, c :: s =>
    if c = ';' ∨ c = ' ' then ([], c :: s)
    else if !escaped && c == '\\' then decodeLoop true (room + 1) s
    else
      let (text, rest) := decodeLoop false room s
      ((if escaped then unescapeTag c else c) :: text, rest)

/-- `decode_msgtag_value`. -/
def decodeMsgtagValue (value : CStr) : CStr × CStr := decodeLoop false totaltagmax value

/-- The end of a key. -/
def isKeyEnd (c : Char) : Bool := c == '=' || c == ';' || c == ' '

/-- One turn of the loop over the tags: the dictionary, and the text at `lastendptr`. -/
def readTag (tagdict : TagDict) (key : CStr) : TagDict × CStr :=
  let name := key.takeWhile (!isKeyEnd ·)
  match key.dropWhile (!isKeyEnd ·) with
  | '=' :: value =>
    let (text, rest) := decodeMsgtagValue value
    (dictPut name text tagdict, rest)
  | rest => (dictPut name [] tagdict, rest)

/-- The loop over the tags, behind the `@`; every turn takes a character at least. -/
def readTagsLoop : ℕ → TagDict → CStr → TagDict × CStr
  | 0, tagdict, key => (tagdict, key)
  | fuel + 1, tagdict, key =>
    match readTag tagdict key with
    | (tagdict, []) => (tagdict, [])
    | (tagdict, ' ' :: msg) => (tagdict, msg)
    | (tagdict, _ :: key) => readTagsLoop fuel tagdict key

/-- The tags of a line and the message behind them. -/
def readTags (tagmsg : CStr) : TagDict × CStr :=
  match utf8Sanitize tagmsg with
  | '@' :: key => readTagsLoop (key.length + 1) [] key
  | msg => ([], msg)

/-- What `server_activity` takes a line apart into. -/
structure ServerLine where
  src : CStr
  code : CStr
  msg : CStr
  tagdict : TagDict
deriving DecidableEq, Repr

/-- The part of `server_activity` that reads the line. -/
def serverLine (tagmsg : CStr) : ServerLine :=
  let (tagdict, msgptr) := readTags tagmsg
  let (src, msgptr) := match msgptr with
    | ':' :: msgptr => newsplit msgptr
    | _ => ([], msgptr)
  let (code, msg) := newsplit msgptr
  { src := src, code := code, msg := msg, tagdict := tagdict }

/-! ### A dictionary -/

theorem encodeMsgtags_zeroed (d : TagDict) :
    encodeMsgtags .zeroed d = if d = [] then some (.zeroed, []) else none := by
  cases d <;> rfl

/-- The text of a dictionary, in front of a message, is read back as they are. -/
def LineBack (d : TagDict) (m : CStr) : Prop :=
  ∃ sb text, encodeMsgtags .zeroed d = some (sb, text) ∧ readTags ('@' :: (text ++ ' ' :: m)) = (d, m)

theorem not_lineBack (d : TagDict) (m : CStr) : ¬ LineBack d m := by
  rintro ⟨sb, text, htext, hline⟩
  rw [encodeMsgtags_zeroed] at htext
  split at htext
  · next hd =>
    subst hd
    cases htext
    -- the reader takes the text before the blank for a tag, whatever it is
    rw [readTags, utf8Sanitize_cons rfl, nil_append, utf8Sanitize_cons rfl] at hline
    exact absurd (congrArg Prod.fst hline) (cons_ne_nil _ _)
  · cases htext

/-! ### A value -/

/-- What the loop of `encode_msgtag_value` writes where there is room. -/
def escapeTag (value : CStr) : CStr :=
  value.flatMap fun c => if isSpecial c then ['\\', c] else [c]

theorem length_le_escapeTag (value : CStr) : value.length ≤ (escapeTag value).length := by
  induction value with
  | nil => exact le_refl _
  | cons c value ih =>
    rw [escapeTag, flatMap_cons, length_append, ← escapeTag, length_cons]
    split
    · simp only [length_cons, length_nil]
      omega
    · simp only [length_cons, length_nil]
      omega

theorem encodeLoop_eq (s : CStr) : ∀ written : ℕ,
    written + (escapeTag s).length ≤ totaltagmax - 1 → encodeLoop written s = escapeTag s := by
  induction s with
  | nil => exact fun _ _ => rfl
  | cons c s ih =>
    intro written h
    rw [escapeTag, flatMap_cons, length_append, ← escapeTag] at h
    rw [escapeTag, flatMap_cons, ← escapeTag, encodeLoop]
    by_cases hc : isSpecial c = true
    · rw [if_pos hc, length_cons, length_singleton] at h
      rw [if_pos (by rw [totaltagmax] at h ⊢; omega), if_pos hc, if_pos hc, ih _ (by omega)]
      rfl
    · rw [if_neg hc, length_singleton] at h
      rw [if_pos (by rw [totaltagmax] at h ⊢; omega), if_neg hc, if_neg hc, ih _ (by omega)]
      rfl

theorem encodeLoop_length (s : CStr) : ∀ written : ℕ,
    min (totaltagmax - 1) (written + (escapeTag s).length) ≤ written + (encodeLoop written s).length := by
  induction s with
  | nil => exact fun _ => min_le_right _ _
  | cons c s ih =>
    intro written
    rw [escapeTag, flatMap_cons, length_append, ← escapeTag, encodeLoop]
    by_cases hroom : written < totaltagmax + 1 - 2
    · rw [if_pos hroom]
      by_cases hc : isSpecial c = true
      · have hrest := ih (written + 2)
        rw [if_pos hc, if_pos hc]
        simp only [length_cons, length_nil] at hrest ⊢
        omega
      · have hrest := ih (written + 1)
        rw [if_neg hc, if_neg hc]
        simp only [length_cons, length_nil] at hrest ⊢
        omega
    · rw [if_neg hroom]
      rw [totaltagmax] at hroom ⊢
      simp only [length_nil]
      omega

theorem encodeMsgtagValue_eq {value : CStr}
    (hsize : (encodeMsgtagValue value).length + 3 ≤ totaltagmax) :
    encodeMsgtagValue value = if value = [] then [] else '=' :: escapeTag value := by
  rw [encodeMsgtagValue] at hsize ⊢
  split
  · rfl
  · next hne =>
    have hloop := encodeLoop_length value 1
    rw [if_neg hne, length_cons] at hsize
    rw [encodeLoop_eq _ _ (by omega)]

/-- No character of the value ends it for the reader. -/
def Unended (value : CStr) : Prop := ∀ c ∈ value, c ≠ ';' ∧ c ≠ ' '

/-- The end of a tag is next. -/
def AtEnd (rest : CStr) : Prop := ∀ c ∈ rest.head?, c = ';' ∨ c = ' '

theorem decodeLoop_atEnd {rest : CStr} (h : AtEnd rest) (room : ℕ) :
    decodeLoop false room rest = ([], rest) := by
  cases rest with
  | nil => rfl
  | cons c rest =>
    cases room with
    | zero => rfl
    | succ room => rw [decodeLoop, if_pos (h c rfl)]

theorem unescapeTag_of_special {c : Char} (h : isSpecial c = true) : unescapeTag c = c := by
  simp only [isSpecial, Bool.or_eq_true, beq_iff_eq] at h
  rcases h with (((rfl | rfl) | rfl) | rfl) | rfl <;> rfl

theorem decodeLoop_escape {value rest : CStr} (hvalue : Unended value) (hrest : AtEnd rest)
    {room : ℕ} (hroom : value.length ≤ room) :
    decodeLoop false room (escapeTag value ++ rest) = (value, rest) := by
  induction value generalizing room with
  | nil => exact decodeLoop_atEnd hrest room
  | cons c value ih =>
    obtain ⟨room, rfl⟩ : ∃ r, room = r + 1 := ⟨room - 1, by rw [length_cons] at hroom; omega⟩
    obtain ⟨hsemi, hblank⟩ := hvalue c mem_cons_self
    have hend : ¬ (c = ';' ∨ c = ' ') := not_or.2 ⟨hsemi, hblank⟩
    have hvalue' : Unended value := fun d hd => hvalue d (mem_cons_of_mem _ hd)
    have hih := ih hvalue' (Nat.le_of_succ_le_succ hroom)
    rw [escapeTag, flatMap_cons, ← escapeTag, append_assoc]
    by_cases hc : isSpecial c = true
    · rw [if_pos hc, cons_append, singleton_append, decodeLoop, if_neg (by decide), if_pos (by decide),
        decodeLoop, if_neg hend, if_neg (by simp), hih, if_pos rfl, unescapeTag_of_special hc]
    · have hslash : c ≠ '\\' := by
        rintro rfl
        exact hc rfl
      rw [if_neg hc, singleton_append, decodeLoop, if_neg hend, if_neg (by simpa using hslash), hih,
        if_neg Bool.false_ne_true]

/-- A value comes back from its text, and that ends neither the tag nor the tags nor the line. -/
structure ValueBack (value : CStr) : Prop where
  back : (decodeMsgtagValue ((encodeMsgtagValue value).drop 1)).1 = value
  raw : ∀ c ∈ encodeMsgtagValue value, c ≠ ';' ∧ c ≠ ' ' ∧ c ≠ '\r' ∧ c ≠ '\n'

/-- None of the characters that the reader or the line ends at. -/
def Clean (value : CStr) : Prop := ∀ c ∈ value, c ≠ ';' ∧ c ≠ ' ' ∧ c ≠ '\r' ∧ c ≠ '\n'

theorem Clean.unended {value : CStr} (h : Clean value) : Unended value := fun c hc =>
  ⟨(h c hc).1, (h c hc).2.1⟩

theorem mem_escapeTag {value : CStr} {c : Char} (h : c ∈ value) : c ∈ escapeTag value := by
  refine mem_flatMap.2 ⟨c, h, ?_⟩
  split <;> simp

theorem clean_escapeTag {value : CStr} (h : Clean value) : Clean (escapeTag value) := by
  intro c hc
  obtain ⟨d, hd, hc⟩ := mem_flatMap.1 hc
  split at hc
  · rcases mem_cons.1 hc with rfl | hc
    · decide
    · rw [mem_singleton.1 hc]
      exact h d hd
  · rw [mem_singleton.1 hc]
    exact h d hd

theorem valueBack_iff {value : CStr} (hsize : (encodeMsgtagValue value).length + 3 ≤ totaltagmax) :
    ValueBack value ↔ Clean value := by
  have hencoded := encodeMsgtagValue_eq hsize
  constructor
  · intro h c hc
    have hraw := h.raw c
    rw [hencoded, if_neg (ne_nil_of_mem hc)] at hraw
    exact hraw (mem_cons_of_mem _ (mem_escapeTag hc))
  · intro hclean
    by_cases hnil : value = []
    · subst hnil
      exact ⟨rfl, fun c hc => absurd hc not_mem_nil⟩
    · rw [if_neg hnil] at hencoded
      rw [hencoded, length_cons] at hsize
      have hescape := length_le_escapeTag value
      have hend : AtEnd [] := fun c hc => nomatch hc
      have hroom : value.length ≤ totaltagmax := by omega
      have hdecode := decodeLoop_escape hclean.unended hend hroom
      rw [append_nil] at hdecode
      refine ⟨?_, ?_⟩
      · rw [hencoded]
        exact congrArg Prod.fst hdecode
      · rw [hencoded]
        rintro c (_ | ⟨_, hc⟩)
        · decide
        · exact clean_escapeTag hclean c hc

/-- No dictionary comes back, since none is written; a value does, within the limit for the tags of a
line, exactly when it has no semicolon, no blank and no line end. -/
theorem msgtags_round_trip_iff (d : TagDict) (m : CStr) {value : CStr}
    (hsize : (encodeMsgtagValue value).length + 3 ≤ totaltagmax) :
    ¬ LineBack d m ∧ (ValueBack value ↔ Clean value) :=
  ⟨not_lineBack d m, valueBack_iff hsize⟩

/-- A value with a backslash comes back. -/
theorem msgtags_round_trip_time :
    ¬ LineBack [("time".toList, "12:30\\x".toList)] "PING :x".toList ∧
      ValueBack "12:30\\x".toList := by
  have hsize : (encodeMsgtagValue "12:30\\x".toList).length + 3 ≤ totaltagmax := by decide
  obtain ⟨hline, hvalue⟩ := msgtags_round_trip_iff [("time".toList, "12:30\\x".toList)]
    "PING :x".toList hsize
  exact ⟨hline, hvalue.2 (by unfold Clean; decide)⟩

/-- Nothing is written of a tag, and a semicolon in a value ends its tag. -/
theorem not_round_trip_semicolon :
    ¬ (LineBack [("a".toList, "x;y".toList)] "PING".toList ∧ ValueBack "x;y".toList) := by
  rintro ⟨-, h⟩
  exact absurd h.back (by decide)

end Eggdrop.Server.Tags
