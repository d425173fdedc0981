import Eggdrop.Base.Utf8Count
import Eggdrop.Server.Isupport

/-!
# AltNick — another nick for one that is in use

While the bot registers, a server may answer its nick with 433.  `gotfake433` tries the alternate nick
first and then nicks that differ in a last character, which is put behind the nick or, where the nick
is as long as the server allows, in place of its last byte.  Modules have `botname` as a pointer, so
that its `sizeof` is that of a pointer and not of the array.

* `good_iff`: when the nick that is sent is one to be tried.
* `nicks_throughout_iff`: when all the nicks of a registration are.
-/

open List

namespace Eggdrop.AltNick

/-- `NICKMAX`; an array for a nick has a byte more, `NICKLEN`. -/
def nickMax : ℕ := 32

/-- `sizeof(botname)`, where `botname` is `((char *)(global[211]))`. -/
def sizeofBotname : ℕ := 8

/-- A byte outside `botname`, or a read outside. -/
inductive Fault where
  | write
  | read
deriving DecidableEq

/-- The array `botname`: the nick, and the bytes behind its NUL. -/
structure Buffer where
  text : CStr
  behind : CStr
  size : text.length + behind.length = nickMax

namespace Buffer

variable (b : Buffer)

/-- All bytes. -/
def bytes : CStr := b.text ++ '\x00' :: b.behind

/-- `op_strlcpy(botname, src, sizeof(botname))`. -/
def strlcpy (src : CStr) : Buffer where
  text := src.take (sizeofBotname - 1)
  behind := b.bytes.drop ((src.take (sizeofBotname - 1)).length + 1)
  size := by
    have hsize := b.size
    have htake := length_take_le (sizeofBotname - 1) src
    rw [length_drop, bytes, length_append, length_cons]
    simp only [nickMax, sizeofBotname] at hsize htake ⊢
    omega

/-- `botname[l] = c`, at the last character. -/
def withLast (c : Char) : Except Fault Buffer :=
  if h : b.text = [] then .error .write
  else if c = '\x00' then
    .ok ⟨b.text.dropLast, '\x00' :: b.behind, by
      have hpos := length_pos_of_ne_nil h
      rw [length_dropLast, length_cons, ← b.size]
      omega⟩
  else
    .ok ⟨b.text.dropLast ++ [c], b.behind, by
      have hpos := length_pos_of_ne_nil h
      rw [length_append, length_dropLast, length_singleton, ← b.size]
      omega⟩

/-- `botname[++l] = c; botname[l + 1] = 0`. -/
def append (c : Char) : Except Fault Buffer :=
  if h : b.behind = [] then .error .write
  else
    .ok ⟨b.text ++ [c], b.behind.tail, by
      have hpos := length_pos_of_ne_nil h
      rw [length_append, length_singleton, length_tail, ← b.size]
      omega⟩

/-- `utf8_strlen(botname)`, which goes on behind the NUL where the last sequence is cut. -/
def utf8Strlen : Option ℕ := strlenLoop b.bytes (nickMax + 2) 0

end Buffer

structure State where
  /-- the nick that is configured, and the alternate one, in which `?` stands for any digit -/
  origbotname : CStr
  altnick : CStr
  /-- the alternate nick with digits drawn, if they have been -/
  raltnick : CStr
  botname : Buffer
  /-- the last character that was tried; NUL if the alternate nick comes next -/
  altnickChar : Char
  nickLen : ℤ
  /-- what the server announced, of which `nickLen` is made -/
  announced : ℤ

/-! ### server.c -/

/-- `rand_nick`: a digit for each `?`; `i` have been drawn. -/
def randNick (digits : ℕ → Fin 10) : ℕ → CStr → CStr
  | _, [] => []
  | i, c :: s =>
    if c = '?' then Char.ofNat ('0'.toNat + digits i) :: randNick digits (i + 1) s
    else c :: randNick digits i s

section Functions

variable (wildMatch sameNick : CStr → CStr → Bool)

/-- `get_altbotnick`. -/
def getAltbotnick (digits : ℕ → Fin 10) (s : State) : CStr × State :=
  if '?' ∈ s.altnick then
    let s :=
      if s.raltnick = [] ∧ wildMatch s.altnick s.botname.text = false then
        { s with raltnick := randNick digits 0 (s.altnick.take nickMax) }
      else s
    (s.raltnick, s)
  else (s.altnick, s)

/-! ### servmsg.c -/

def oknicks : CStr := "^-_\\[]`".toList

/-- The character after the one that was tried last. -/
def nextChar (letter : Fin 26) (c : Char) : Char :=
  match oknicks.dropWhile (· ≠ c) with
  | [] => if c = '9' then '^' else Char.ofNat ((c.toNat + 1) % 256)
  | [_] => Char.ofNat ('a'.toNat + letter)
  | _ :: p :: _ => p

/-- Fall back to a count character. -/
def withCount (botname : Buffer) (nickLen : ℤ) : Except Fault Buffer :=
  match botname.utf8Strlen with
  | none => .error .read
  | some n => if nickLen ≤ n then botname.withLast '0' else botname.append '0'

/-- `gotfake433`: the nick that is sent is the `botname` afterwards.  `sameNick` is `!rfc_casecmp`. -/
def gotfake433 (letter : Fin 26) (digits : ℕ → Fin 10) (s : State) : Except Fault State :=
  if s.altnickChar = '\x00' then
    let (alt, s) := getAltbotnick wildMatch digits s
    if alt ≠ [] ∧ sameNick alt s.botname.text = false then
      .ok { s with botname := s.botname.strlcpy alt }
    else (withCount s.botname s.nickLen).map fun botname => { s with botname, altnickChar := '0' }
  else
    let c := nextChar letter s.altnickChar
    (s.botname.withLast c).map fun botname => { s with botname, altnickChar := c }

/-- `server_isupport`, of `NICKLEN` and `MAXNICKLEN`. -/
def nicklenIsupport (value : Option CStr) : ℤ := Isupport.parseint value 9 nickMax 9

/-- The number that a server announces; 9 is the length of nicks where it says nothing. -/
def announcedLen (value : Option CStr) : ℤ :=
  match value.map (Isupport.strtolEnd 0) with
  | some (n, []) => n
  | _ => 9

inductive Event where
  | isupport (value : Option CStr)
  /-- 433, with what the draws will be -/
  | nickInUse (letter : Fin 26) (digits : ℕ → Fin 10)

def step (s : State) : Event → Except Fault State
  | .isupport value => .ok { s with nickLen := nicklenIsupport value, announced := announcedLen value }
  | .nickInUse letter digits => gotfake433 wildMatch sameNick letter digits s

end Functions

/-- What a variable for a nick can hold. -/
structure Name where
  text : CStr
  fits : text.length ≤ nickMax

/-- The bot begins to register (`server_resolve_success`): the configured nick is copied over what
`botname` was.  Digits may have been drawn for an earlier server. -/
def start (orig alt : Name) (drawn : Option (ℕ → Fin 10)) (value : Option CStr) (before : Buffer) :
    State where
  origbotname := orig.text
  altnick := alt.text
  raltnick := drawn.elim [] fun digits => randNick digits 0 alt.text
  botname := before.strlcpy orig.text
  altnickChar := '\x00'
  nickLen := nicklenIsupport value
  announced := announcedLen value

/-! ### Nicks to be tried -/

/-- A character that a nick may have: a letter, a digit, one of the specials, or a byte that is not
ASCII. -/
def isNickChar (c : Char) : Bool :=
  ('a' ≤ c && c ≤ 'z') || ('A' ≤ c && c ≤ 'Z') || isDigit c || "-[]\\`^\x7b|\x7d_".toList.contains c ||
    !isAscii c

/-- The nicks that are configured are UTF-8. -/
def State.Utf8 (s : State) : Prop := utf8Valid s.origbotname = true ∧ utf8Valid s.altnick = true

instance (s : State) : Decidable s.Utf8 := inferInstanceAs (Decidable (_ ∧ _))

/-- The last character may be in a nick. -/
def EndsLegal (nick : CStr) : Prop := ∃ c ∈ nick.getLast?, isNickChar c = true

/-- A nick to be tried after the one in `s`. -/
structure Proper (s : State) (nick : CStr) : Prop where
  differs : nick ≠ s.botname.text
  fits : nick.length ≤ nickMax
  short : (utf8Strlen nick : ℤ) ≤ s.announced
  utf8 : s.Utf8 → utf8Valid nick = true
  legal : EndsLegal nick

section Conditions

variable (wildMatch sameNick : CStr → CStr → Bool)

/-- A 433 is answered with a nick to be tried. -/
def Good (s : State) : Event → Prop
  | .isupport _ => True
  | .nickInUse letter digits =>
    ∃ s', gotfake433 wildMatch sameNick letter digits s = .ok s' ∧ Proper s s'.botname.text

/-- What it takes of the alternate nick, as far as it is copied. -/
structure Tryable (s : State) (alt : CStr) : Prop where
  differs : alt.take (sizeofBotname - 1) ≠ s.botname.text
  short : (utf8Strlen (alt.take (sizeofBotname - 1)) : ℤ) ≤ s.announced
  utf8 : s.Utf8 → utf8Valid (alt.take (sizeofBotname - 1)) = true
  legal : EndsLegal (alt.take (sizeofBotname - 1))

/-- What it takes for a nick that gets a count character: its length is counted inside the array, and
what is kept of it has room for one character more; a last byte that has to go is not `0`. -/
structure Countable (s : State) (n : ℕ) (kept : CStr) : Prop where
  counted : s.botname.utf8Strlen = some n
  kept_eq : if s.nickLen ≤ n then ∃ c ≠ '0', s.botname.text = kept ++ [c] else s.botname.text = kept
  short : (utf8Strlen (kept ++ ['0']) : ℤ) ≤ s.announced
  utf8 : s.Utf8 → utf8Valid kept = true

/-- What it takes: the alternate nick can be tried; a nick without alternative can get a count
character; and the last character that was tried is not the last one there is. -/
def Safe (s : State) : Event → Prop
  | .isupport _ => True
  | .nickInUse _ digits =>
    if s.altnickChar = '\x00' then
      let alt := (getAltbotnick wildMatch digits s).1
      if alt ≠ [] ∧ sameNick alt s.botname.text = false then Tryable s alt
      else ∃ n kept, Countable s n kept
    else s.altnickChar ≠ '\x7d' ∧ (utf8Strlen s.botname.text : ℤ) ≤ s.announced

end Conditions

/-! ### Characters that are tried -/

/-- The characters, in order but for the letter that is drawn. -/
def tried : CStr := "0123456789^-_\\[]`abcdefghijklmnopqrstuvwxyz\x7b|\x7d".toList

theorem tried_eq : tried = ['0', '1', '2', '3', '4', '5', '6', '7', '8', '9', '^', '-', '_', '\\',
    '[', ']', '`', 'a', 'b', 'c', 'd', 'e', 'f', 'g', 'h', 'i', 'j', 'k', 'l', 'm', 'n', 'o', 'p',
    'q', 'r', 's', 't', 'u', 'v', 'w', 'x', 'y', 'z', '\x7b', '|', '\x7d'] := String.toList_ofList

theorem nextChar_eq {c : Char} (h : (oknicks.dropWhile (· ≠ c)).length ≠ 1) (letter : Fin 26) :
    nextChar letter c = nextChar 0 c := by
  unfold nextChar
  split
  · rfl
  · next d hd => exact absurd (congrArg length hd) h
  · rfl

theorem nextChar_tried :
    ∀ c ∈ tried, c ≠ '\x7d' → ∀ letter, nextChar letter c ∈ tried ∧ nextChar letter c ≠ c := by
  have hspecial : ∀ letter, nextChar letter '`' ∈ tried ∧ nextChar letter '`' ≠ '`' := by
    rw [tried_eq]
    decide +kernel
  have hother : ∀ c ∈ tried, c ≠ '\x7d' → c ≠ '`' →
      (oknicks.dropWhile (· ≠ c)).length ≠ 1 ∧ nextChar 0 c ∈ tried ∧ nextChar 0 c ≠ c := by
    rw [tried_eq]
    decide +kernel
  intro c hc hlast letter
  by_cases htick : c = '`'
  · rw [htick]
    exact hspecial letter
  · obtain ⟨hlength, hnext⟩ := hother c hc hlast htick
    rw [nextChar_eq hlength]
    exact hnext

theorem nextChar_last : ∀ letter, nextChar letter '\x7d' = '~' := by
  decide

theorem tried_spec : ∀ c ∈ tried, isAscii c = true ∧ isNickChar c = true ∧ c ≠ '\x00' := by
  rw [tried_eq]
  decide +kernel

theorem endsLegal_concat {t : CStr} {c : Char} : EndsLegal (t ++ [c]) ↔ isNickChar c = true := by
  rw [EndsLegal, getLast?_concat]
  simp

/-! ### The array -/

section Arrays

variable {b b' : Buffer} {c : Char}

theorem Buffer.withLast_ok {t : CStr} {d : Char} (hb : b.text = t ++ [d]) (hc : c ≠ '\x00') :
    ∃ b', b.withLast c = .ok b' ∧ b'.text = t ++ [c] := by
  have hne : b.text ≠ [] := by
    rw [hb]
    exact append_ne_nil_of_right_ne_nil t (cons_ne_nil d [])
  rw [Buffer.withLast, dif_neg hne, if_neg hc]
  refine ⟨_, rfl, ?_⟩
  show b.text.dropLast ++ [c] = t ++ [c]
  rw [hb, dropLast_concat]

theorem Buffer.withLast_spec (hc : c ≠ '\x00') (h : b.withLast c = .ok b') :
    ∃ t d, b.text = t ++ [d] ∧ b'.text = t ++ [c] := by
  by_cases hne : b.text = []
  · rw [Buffer.withLast, dif_pos hne] at h
    cases h
  · rw [Buffer.withLast, dif_neg hne, if_neg hc] at h
    rw [← Except.ok.inj h]
    exact ⟨_, _, (dropLast_append_getLast hne).symm, rfl⟩

theorem Buffer.append_ok (hb : b.text.length < nickMax) :
    ∃ b', b.append c = .ok b' ∧ b'.text = b.text ++ [c] := by
  have hne : b.behind ≠ [] := by
    have hsize := b.size
    exact ne_nil_of_length_pos (by omega)
  rw [Buffer.append, dif_neg hne]
  exact ⟨_, rfl, rfl⟩

theorem length_strlcpy_le (b : Buffer) (src : CStr) : (b.strlcpy src).text.length ≤ 7 :=
  length_take_le 7 src

end Arrays

/-! ### Steps -/

/-- What holds as long as all nicks are to be tried. -/
structure Inv (s : State) : Prop where
  fits : s.botname.text.length ≤ 8
  first : s.altnickChar = '\x00' → s.botname.text.length ≤ 7
  last : s.altnickChar ≠ '\x00' → s.altnickChar ∈ tried ∧
    (∃ t, s.botname.text = t ++ [s.altnickChar]) ∧ (s.Utf8 → utf8Valid s.botname.text = true)

section Steps

variable {wildMatch sameNick : CStr → CStr → Bool} {s s' : State} {letter : Fin 26}
  {digits : ℕ → Fin 10}

/-- Only the digits that are drawn may change. -/
theorem getAltbotnick_spec (wildMatch : CStr → CStr → Bool) (digits : ℕ → Fin 10) (s : State) :
    ∃ alt raltnick, getAltbotnick wildMatch digits s = (alt, { s with raltnick }) := by
  rw [getAltbotnick]
  split
  · split
    · exact ⟨_, _, rfl⟩
    · exact ⟨_, s.raltnick, rfl⟩
  · exact ⟨_, s.raltnick, rfl⟩

/-- The alternate nick is tried. -/
theorem proper_alt_iff {alt : CStr} : Proper s (alt.take (sizeofBotname - 1)) ↔ Tryable s alt := by
  constructor
  · exact fun h => ⟨h.differs, h.short, h.utf8, h.legal⟩
  · intro h
    refine ⟨h.differs, ?_, h.short, h.utf8, h.legal⟩
    exact (length_take_le 7 alt).trans (by decide)

/-- When a nick with the first count character behind it is proper. -/
theorem proper_concat_zero {kept : CStr} (hdiffers : kept ++ ['0'] ≠ s.botname.text)
    (hkept : kept.length ≤ 7) :
    Proper s (kept ++ ['0']) ↔
      (utf8Strlen (kept ++ ['0']) : ℤ) ≤ s.announced ∧ (s.Utf8 → utf8Valid kept = true) := by
  have hzero : isAscii '0' = true ∧ isNickChar '0' = true := by decide
  constructor
  · intro h
    refine ⟨h.short, fun hconf => ?_⟩
    rw [← utf8Valid_concat hzero.1]
    exact h.utf8 hconf
  · rintro ⟨hshort, hutf8⟩
    refine ⟨hdiffers, ?_, hshort, fun hconf => ?_, endsLegal_concat.2 hzero.2⟩
    · rw [length_append, length_singleton, nickMax]
      omega
    · rw [utf8Valid_concat hzero.1]
      exact hutf8 hconf

/-- A count character is put behind the nick, or in place of its last byte. -/
theorem withCount_iff (hlen : s.botname.text.length ≤ 7) :
    (∃ b, withCount s.botname s.nickLen = .ok b ∧ Proper s b.text) ↔ ∃ n kept, Countable s n kept := by
  rw [withCount]
  cases hcount : s.botname.utf8Strlen with
  | none =>
    refine iff_of_false (fun ⟨_, hok, _⟩ => nomatch hok) ?_
    rintro ⟨n, kept, h⟩
    rw [h.counted] at hcount
    cases hcount
  | some n =>
    dsimp only
    constructor
    · rintro ⟨b, hok, hgood⟩
      split at hok
      · next hlong =>
        obtain ⟨t, d, ht, hb⟩ := Buffer.withLast_spec (by decide) hok
        have hne : d ≠ '0' := by
          rintro rfl
          exact hgood.differs (hb.trans ht.symm)
        have hdiffers : t ++ ['0'] ≠ s.botname.text := hb ▸ hgood.differs
        rw [ht, length_append, length_singleton] at hlen
        obtain ⟨hshort, hutf8⟩ := (proper_concat_zero hdiffers (by omega)).1 (hb ▸ hgood)
        refine ⟨n, t, hcount, ?_, hshort, hutf8⟩
        rw [if_pos hlong]
        exact ⟨d, hne, ht⟩
      · next hroom =>
        obtain ⟨b', hb', htext⟩ := Buffer.append_ok (c := '0') (hlen.trans_lt (by decide))
        obtain rfl : b' = b := Except.ok.inj (hb'.symm.trans hok)
        obtain ⟨hshort, hutf8⟩ := (proper_concat_zero (htext ▸ hgood.differs) hlen).1 (htext ▸ hgood)
        refine ⟨n, s.botname.text, hcount, ?_, hshort, hutf8⟩
        rw [if_neg hroom]
    · rintro ⟨m, kept, h⟩
      obtain rfl : n = m := Option.some.inj (hcount.symm.trans h.counted)
      have hkept := h.kept_eq
      split at hkept
      · next hlong =>
        obtain ⟨c, hc, htext⟩ := hkept
        obtain ⟨b, hb, hnew⟩ := Buffer.withLast_ok (c := '0') htext (by decide)
        rw [if_pos hlong]
        refine ⟨b, hb, ?_⟩
        rw [hnew]
        refine (proper_concat_zero ?_ ?_).2 ⟨h.short, h.utf8⟩
        · rw [htext]
          intro heq
          exact hc (singleton_inj.1 (append_cancel_left heq)).symm
        · rw [htext, length_append] at hlen
          omega
      · next hroom =>
        obtain ⟨b, hb, hnew⟩ := Buffer.append_ok (b := s.botname) (c := '0') (hlen.trans_lt (by decide))
        rw [if_neg hroom]
        refine ⟨b, hb, ?_⟩
        rw [hnew, hkept]
        refine (proper_concat_zero ?_ (hkept ▸ hlen)).2 ⟨h.short, h.utf8⟩
        rw [hkept]
        simp

/-- A character is tried in place of the last one. -/
theorem withNext_iff (h : Inv s) (hchar : s.altnickChar ≠ '\x00') :
    (∃ b, s.botname.withLast (nextChar letter s.altnickChar) = .ok b ∧ Proper s b.text) ↔
      s.altnickChar ≠ '\x7d' ∧ (utf8Strlen s.botname.text : ℤ) ≤ s.announced := by
  obtain ⟨hmem, ⟨t, ht⟩, hvalid⟩ := h.last hchar
  have hascii := (tried_spec _ hmem).1
  by_cases hlast : s.altnickChar = '\x7d'
  · refine iff_of_false ?_ fun hc => hc.1 hlast
    rintro ⟨b, hok, hproper⟩
    rw [hlast, nextChar_last] at hok
    obtain ⟨t', d, -, hb⟩ := Buffer.withLast_spec (by decide) hok
    have hlegal := hproper.legal
    rw [hb, endsLegal_concat] at hlegal
    exact absurd hlegal (by decide)
  · obtain ⟨hnext, hne⟩ := nextChar_tried _ hmem hlast letter
    obtain ⟨hascii', hlegal, hnul⟩ := tried_spec _ hnext
    obtain ⟨b, hok, hb⟩ := Buffer.withLast_ok ht hnul
    have hstrlen : utf8Strlen b.text = utf8Strlen s.botname.text := by
      rw [hb, ht]
      exact utf8Strlen_concat t _ _
    rw [and_iff_right hlast, ← hstrlen]
    constructor
    · rintro ⟨b', hok', hproper⟩
      obtain rfl : b = b' := Except.ok.inj (hok.symm.trans hok')
      exact hproper.short
    · intro hshort
      refine ⟨b, hok, ?_, ?_, hshort, fun hconf => ?_, ?_⟩
      · rw [hb, ht]
        intro heq
        exact hne (singleton_inj.1 (append_cancel_left heq))
      · have hfits := h.fits
        rw [ht, length_append] at hfits
        rw [hb, length_append, nickMax]
        exact hfits.trans (by decide)
      · have hold := hvalid hconf
        rw [ht, utf8Valid_concat hascii] at hold
        rwa [hb, utf8Valid_concat hascii']
      · rw [hb]
        exact endsLegal_concat.2 hlegal

/-- The nick that is sent is the one that is kept. -/
theorem exists_map_iff {x : Except Fault Buffer} {f : Buffer → State} (hf : ∀ b, (f b).botname = b) :
    (∃ s', x.map f = .ok s' ∧ Proper s s'.botname.text) ↔ ∃ b, x = .ok b ∧ Proper s b.text := by
  rcases x with e | b
  · exact iff_of_false (fun ⟨_, hok, _⟩ => nomatch hok) fun ⟨_, hok, _⟩ => nomatch hok
  · constructor
    · rintro ⟨s', hok, hproper⟩
      rw [← Except.ok.inj hok, hf] at hproper
      exact ⟨b, rfl, hproper⟩
    · rintro ⟨b', hok, hproper⟩
      refine ⟨f b, rfl, ?_⟩
      rw [hf, Except.ok.inj hok]
      exact hproper

/-- A 433 is answered with a nick to be tried exactly if it is safe. -/
theorem good_iff (h : Inv s) (e : Event) : Good wildMatch sameNick s e ↔ Safe wildMatch sameNick s e := by
  rcases e with value | ⟨letter, digits⟩
  · exact Iff.rfl
  · obtain ⟨alt, raltnick, hget⟩ := getAltbotnick_spec wildMatch digits s
    rw [Good, Safe, gotfake433, hget]
    by_cases hchar : s.altnickChar = '\x00'
    · rw [if_pos hchar, if_pos hchar]
      dsimp only
      by_cases hother : alt ≠ [] ∧ sameNick alt s.botname.text = false
      · rw [if_pos hother, if_pos hother, ← proper_alt_iff]
        exact ⟨fun ⟨_, hok, hp⟩ => by rw [← Except.ok.inj hok] at hp; exact hp, fun hp => ⟨_, rfl, hp⟩⟩
      · rw [if_neg hother, if_neg hother, exists_map_iff fun _ => rfl]
        exact withCount_iff (h.first hchar)
    · rw [if_neg hchar, if_neg hchar, exists_map_iff fun _ => rfl]
      exact withNext_iff h hchar

theorem withCount_ok {b b' : Buffer} {nickLen : ℤ} (h : withCount b nickLen = .ok b') :
    (∃ t, b'.text = t ++ ['0']) ∧ b'.text.length ≤ b.text.length + 1 := by
  rw [withCount] at h
  split at h
  · cases h
  · split at h
    · obtain ⟨t, d, ht, hb⟩ := Buffer.withLast_spec (by decide) h
      refine ⟨⟨t, hb⟩, ?_⟩
      rw [hb, ht, length_append, length_append, length_singleton, length_singleton]
      omega
    · rw [Buffer.append] at h
      split at h
      · cases h
      · rw [← Except.ok.inj h]
        exact ⟨⟨_, rfl⟩, by rw [length_append, length_singleton]⟩

theorem inv_step (h : Inv s) {e : Event} (hsafe : Safe wildMatch sameNick s e)
    (hstep : step wildMatch sameNick s e = .ok s') : Inv s' := by
  have hgood := (good_iff h e).2 hsafe
  rcases e with value | ⟨letter, digits⟩
  · obtain rfl := Except.ok.inj hstep
    exact ⟨h.fits, h.first, h.last⟩
  · obtain ⟨t, ht, hproper⟩ := hgood
    rw [step] at hstep
    obtain rfl : t = s' := Except.ok.inj (ht.symm.trans hstep)
    obtain ⟨alt, raltnick, hget⟩ := getAltbotnick_spec wildMatch digits s
    rw [gotfake433, hget] at ht
    rw [Safe] at hsafe
    by_cases hchar : s.altnickChar = '\x00'
    · rw [if_pos hchar] at ht
      dsimp only at ht
      split at ht
      · have hlen := length_strlcpy_le s.botname alt
        obtain rfl := Except.ok.inj ht
        exact ⟨hlen.trans (by decide), fun _ => hlen, fun hne => absurd hchar hne⟩
      · rcases hcount : withCount s.botname s.nickLen with e | b
        · rw [hcount] at ht
          cases ht
        · have hzero : '0' ∈ tried := by decide
          obtain ⟨hlast, hlen⟩ := withCount_ok hcount
          have hfirst := h.first hchar
          rw [hcount] at ht
          obtain rfl := Except.ok.inj ht
          have hnul : '0' ≠ '\x00' := by decide
          exact ⟨hlen.trans (Nat.succ_le_succ hfirst), fun hc => absurd hc hnul,
            fun _ => ⟨hzero, hlast, hproper.utf8⟩⟩
    · rw [if_neg hchar] at ht hsafe
      obtain ⟨hmem, ⟨x, hx⟩, -⟩ := h.last hchar
      have hnext := (nextChar_tried _ hmem hsafe.1 letter).1
      have hnul := (tried_spec _ hnext).2.2
      obtain ⟨b, hb, htext⟩ := Buffer.withLast_ok hx hnul
      have hfits := h.fits
      rw [hx, length_append] at hfits
      dsimp only at ht
      rw [hb] at ht
      obtain rfl := Except.ok.inj ht
      refine ⟨?_, fun hc => absurd hc hnul, fun _ => ⟨hnext, ⟨x, htext⟩, hproper.utf8⟩⟩
      show b.text.length ≤ 8
      rw [htext, length_append]
      exact hfits

end Steps

/-! ### Registrations -/

theorem inv_start (orig alt : Name) (drawn : Option (ℕ → Fin 10)) (value : Option CStr)
    (before : Buffer) : Inv (start orig alt drawn value before) where
  fits := (length_strlcpy_le before orig.text).trans (by decide)
  first _ := length_strlcpy_le before orig.text
  last h := absurd rfl h

/-- All the nicks of a registration are nicks to be tried exactly if every 433 is safe. -/
theorem nicks_throughout_iff (wildMatch sameNick : CStr → CStr → Bool) (orig alt : Name)
    (drawn : Option (ℕ → Fin 10)) (value : Option CStr) (before : Buffer) (es : List Event) :
    Machine.Along (step wildMatch sameNick) (Good wildMatch sameNick)
        (start orig alt drawn value before) es ↔
      Machine.Along (step wildMatch sameNick) (Safe wildMatch sameNick)
        (start orig alt drawn value before) es := by
  have hstart := inv_start orig alt drawn value before
  constructor
  · exact Machine.Along.of_inv
      (fun s e s' h hgood hs => inv_step h ((good_iff h e).1 hgood) hs)
      (fun s e h hgood => (good_iff h e).1 hgood) hstart
  · exact Machine.Along.of_inv
      (fun s e s' h hsafe hs => inv_step h hsafe hs)
      (fun s e h hsafe => (good_iff h e).2 hsafe) hstart

/-- An array of NULs. -/
def emptyBuffer : Buffer := ⟨[], replicate 32 '\x00', rfl⟩

/-- An alternate nick of nine characters is cut to seven, which are sent a second time; and a nick of
four characters of two bytes each is cut in the last of them, which the count character does not
mend. -/
theorem not_nicks_throughout :
    ¬ Machine.Along (step (fun _ _ => false) rfcCaseEq) (Good (fun _ _ => false) rfcCaseEq)
        (start ⟨"egg".toList, by decide⟩ ⟨"LamestBot".toList, by decide⟩ none none emptyBuffer)
        [.nickInUse 0 fun _ => 0, .nickInUse 0 fun _ => 0] ∧
      ¬ Machine.Along (step (fun _ _ => false) rfcCaseEq) (Good (fun _ _ => false) rfcCaseEq)
        (start ⟨"\xc3\xa9\xc3\xa9\xc3\xa9\xc3\xa9".toList, by decide⟩ ⟨[], by decide⟩ none none
          emptyBuffer)
        [.nickInUse 0 fun _ => 0] := by
  constructor
  · rintro ⟨-, hnext⟩
    obtain ⟨⟨s', hok, hproper⟩, -⟩ := hnext _ rfl
    refine hproper.differs ?_
    rw [← Except.ok.inj hok]
    rfl
  · rintro ⟨⟨s', hok, hproper⟩, -⟩
    have hutf8 := hproper.utf8 (by decide)
    rw [← Except.ok.inj hok] at hutf8
    exact absurd hutf8 (by decide)

end Eggdrop.AltNick
