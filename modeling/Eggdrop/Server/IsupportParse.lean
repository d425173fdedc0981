import Eggdrop.Base.CString
import Mathlib.Data.List.DropRight
import Mathlib.Data.List.Infix

/-!
# IsupportParse — the tokens of raw 005 (server.mod/isupport.c)

`isupport_parse` goes through a line token by token.  A value is decoded into a buffer, and the scan goes
on behind as many characters as the decoded value has.

* `decode_readable`: values that the decoder reads right.
* `isupport_parse_iff`: a whole line is taken apart right if and only if none of its values has an escape, is
  longer than the buffer, ends within what could be an escape, or makes the decoder read behind its
  table, and no token starts with a minus.
-/

open List

namespace Eggdrop.Isupport

/-! ### The decoder -/

/-- An access that is out of bounds. -/
inductive ParseFault
  /-- a read behind the end of `hexdigit2dec` -/
  | table
  /-- a write behind the end of the buffer -/
  | buffer
deriving DecidableEq

/-- `hexdigit2dec`, which has 128 entries. -/
def hexdigit2dec (c : Char) : Except ParseFault (Option ℕ) :=
  if 128 ≤ c.toNat then .error .table
  else if '0' ≤ c ∧ c ≤ '9' then .ok (some (c.toNat - '0'.toNat))
  else if 'A' ≤ c ∧ c ≤ 'F' then .ok (some (c.toNat - 'A'.toNat + 10))
  else if 'a' ≤ c ∧ c ≤ 'f' then .ok (some (c.toNat - 'a'.toNat + 10))
  else .ok none

/-- `isupport_hex2chr` of two digits; none for `\x00` as well. -/
@[grind =] def isupportHex2chr (a b : Char) : Except ParseFault (Option Char) :=
  match hexdigit2dec a with
  | .error f => .error f
  | .ok none => .ok none
  | .ok (some x) =>
    match hexdigit2dec b with
    | .error f => .error f
    | .ok none => .ok none
    | .ok (some y) => if 16 * x + y = 0 then .ok none else .ok (some (Char.ofNat (16 * x + y)))

/-- `state` in `isupport_decode`: what has been read of an escape. -/
inductive Seen
  | nothing
  | backslash
  | x
deriving DecidableEq

/-- The size of the buffer for values. -/
def valueSize : ℕ := 512

/-- The loop of `isupport_decode`, with `len` characters of the value left; `out` is what has been written. -/
def decodeLoop : Seen → ℕ → CStr → CStr → Except ParseFault CStr
  | _, _, [], out => .ok out
  | state, len, c :: s, out =>
    if len = 0 ∨ valueSize - 1 ≤ out.length then .ok out
    else
      match state with
      | .nothing =>
        if c = '\\' then decodeLoop .backslash (len - 1) s out
        else decodeLoop .nothing (len - 1) s (out ++ [c])
      | .backslash =>
        if c = 'x' then decodeLoop .x (len - 1) s out
        else decodeLoop .nothing (len - 1) s (out ++ ['\\', c])
      | .x =>
        -- the second digit is read behind the value, too
        match isupportHex2chr c (s.headD '\x00') with
        | .error f => .error f
        | .ok none => decodeLoop .nothing (len - 1) s (out ++ ['\\', 'x', c])
        | .ok (some h) =>
          match s with
          | [] => .ok (out ++ [h])
          | _ :: s => decodeLoop .nothing (len - 2) s (out ++ [h])

/-- `isupport_decode` into the buffer, for a value at the head of a text. -/
def isupportDecode (value : CStr) (len : ℕ) : Except ParseFault CStr := do
  let out ← decodeLoop .nothing len value []
  if valueSize ≤ out.length then .error .buffer else .ok out

/-! ### The line -/

/-- What is done with a token; a key is a place in the line. -/
inductive Act
  /-- the setter is called -/
  | set (key : CStr) (keylen : ℕ) (v : CStr)
  /-- a message in the log about `-KEY` -/
  | noUnset (key : CStr)
deriving DecidableEq

/-- `strcspn`. -/
def strcspn (s : CStr) (ends : Char → Bool) : ℕ := (s.takeWhile fun c => !ends c).length

/-- The end of a key. -/
def endsKey (c : Char) : Bool := c == '=' || c == ' '

/-- The loop of `isupport_parse`: what is done, and the place in the line where it stops. -/
def parseLoop : ℕ → CStr → Except ParseFault (List Act × CStr)
  | 0, str => .ok ([], str)
  | fuel + 1, str =>
    match str.dropWhile (· == ' ') with
    | [] => .ok ([], [])
    | c :: s =>
      let key := c :: s
      if c = ':' then .ok ([], key)
      else
        let keylen := strcspn key endsKey
        if c = '-' then do
          let (acts, stop) ← parseLoop fuel (key.drop keylen)
          .ok (.noUnset key :: acts, stop)
        else do
          let value := key.drop (keylen + if key.getD keylen '\x00' = '=' then 1 else 0)
          let valuelen := strcspn value (· == ' ')
          let v ← isupportDecode value valuelen
          let (acts, stop) ← parseLoop fuel (value.drop v.length)
          .ok (.set key keylen v :: acts, stop)

/-- `isupport_parse`. -/
def isupportParse (str : CStr) : Except ParseFault (List Act × CStr) := parseLoop (str.length + 1) str

/-! ### What a line says -/

/-- The byte of an escape with these digits; none for `\x00`. -/
def hexByte (a b : Char) : Option Char :=
  match hexdigit2dec a, hexdigit2dec b with
  | .ok (some x), .ok (some y) => if 16 * x + y = 0 then none else some (Char.ofNat (16 * x + y))
  | _, _ => none

/-- A value with every escape of a nonzero byte replaced. -/
def unescape : CStr → CStr
  | '\\' :: 'x' :: a :: b :: s =>
    match hexByte a b with
    | some c => c :: unescape s
    | none => '\\' :: unescape ('x' :: a :: b :: s)
  | c :: s => c :: unescape s
  | [] => []

/-- The places in a line where a token starts, and the place where the comment or the end of the line is;
`inside` a token the next one starts behind a blank. -/
@[grind =] def tokensFrom : Bool → CStr → List CStr × CStr
  | _, [] => ([], [])
  | inside, c :: s =>
    if c = ' ' then tokensFrom false s
    else if inside then tokensFrom true s
    else if c = ':' then ([], c :: s)
    else ((c :: s) :: (tokensFrom true s).1, (tokensFrom true s).2)

/-- The token at a place. -/
def tokenAt (t : CStr) : CStr := t.takeWhile (· != ' ')

/-- The value of the token at a place, as it stands in the line. -/
def rawValue (t : CStr) : CStr := ((tokenAt t).dropWhile (· != '=')).drop 1

/-- The setter is called for the token at a place. -/
def wanted (t : CStr) : Act :=
  .set t ((tokenAt t).takeWhile (· != '=')).length ((unescape (rawValue t)).take (valueSize - 1))

/-- The setter is called for each token in order and for nothing else, and the scan stops where the
tokens end. -/
def Parsed (line : CStr) : Prop :=
  isupportParse line = .ok ((tokensFrom false line).1.map wanted, (tokensFrom false line).2)

/-! ### Escapes -/

/-- Whether a text starts with an escape of a nonzero byte. -/
@[grind =] def startsEscape : CStr → Bool
  | '\\' :: 'x' :: a :: b :: _ => (hexByte a b).isSome
  | _ => false

/-- There is no escape of a nonzero byte in a text. -/
def NoEscape (raw : CStr) : Prop := ∀ s, s <:+ raw → startsEscape s = false

/-- Whether the decoder reads the rest of a value right: no part of an escape stands at the end, none of
an escape that was given up hides another, and the table is read inside its bounds. -/
@[grind =] def readable : Seen → CStr → Bool
  | .nothing, [] => true
  | _, [] => false
  | .nothing, c :: s => if c = '\\' then readable .backslash s else readable .nothing s
  | .backslash, c :: s =>
    if c = 'x' then readable .x s else !startsEscape (c :: s) && readable .nothing s
  | .x, c :: s =>
    match isupportHex2chr c (s.headD '\x00') with
    | .error _ => false
    | .ok none => !startsEscape (c :: s) && readable .nothing s
    | .ok (some _) =>
      match s with
      | [] => false
      | _ :: s => readable .nothing s

/-- The part of an escape that has been read. -/
@[grind =] def Seen.text : Seen → CStr
  | .nothing => []
  | .backslash => ['\\']
  | .x => ['\\', 'x']

theorem NoEscape.of_suffix {raw s : CStr} (h : NoEscape raw) (hs : s <:+ raw) : NoEscape s :=
  fun _ ht => h _ (ht.trans hs)

theorem NoEscape.head {raw : CStr} (h : NoEscape raw) : startsEscape raw = false :=
  h raw (suffix_refl raw)

theorem unescape_cons {c : Char} {s : CStr} (h : startsEscape (c :: s) = false) :
    unescape (c :: s) = c :: unescape s := by
  rw [unescape.eq_def (c :: s)]
  split
  · next a b t heq =>
    obtain ⟨rfl, rfl⟩ := cons_eq_cons.1 heq
    rw [startsEscape, Option.isSome_eq_false_iff, Option.isNone_iff_eq_none] at h
    rw [h]
  · next heq =>
    obtain ⟨rfl, rfl⟩ := cons_eq_cons.1 heq
    rfl
  · next heq => cases heq

theorem unescape_escape {a b h : Char} (hbyte : hexByte a b = some h) (s : CStr) :
    unescape ('\\' :: 'x' :: a :: b :: s) = h :: unescape s := by
  rw [unescape, hbyte]

theorem length_unescape_le (raw : CStr) : (unescape raw).length ≤ raw.length := by
  fun_induction unescape raw with
  | case1 a b s c hbyte ih =>
    simp only [length_cons]
    omega
  | case2 a b s hbyte ih =>
    simp only [length_cons] at ih ⊢
    omega
  | case3 c s hne ih =>
    simp only [length_cons]
    omega
  | case4 => exact Nat.le_refl _

theorem noEscape_of_length {raw : CStr} (h : raw.length ≤ (unescape raw).length) :
    NoEscape raw ∧ unescape raw = raw := by
  fun_induction unescape raw with
  | case1 a b s c hbyte ih =>
    have hle := length_unescape_le s
    simp only [length_cons] at h
    omega
  | case2 a b s hbyte ih =>
    obtain ⟨hno, heq⟩ := ih (by simp only [length_cons] at h ⊢; omega)
    refine ⟨fun t ht => ?_, by rw [heq]⟩
    rcases suffix_cons_iff.1 ht with rfl | ht
    · rw [startsEscape, hbyte]
      rfl
    · exact hno t ht
  | case3 c s hne ih =>
    obtain ⟨hno, heq⟩ := ih (by simp only [length_cons] at h; omega)
    refine ⟨fun t ht => ?_, by rw [heq]⟩
    rcases suffix_cons_iff.1 ht with rfl | ht
    · unfold startsEscape
      split
      · next a b t heq => exact absurd heq (by
          intro heq
          obtain ⟨rfl, rfl⟩ := cons_eq_cons.1 heq
          exact hne a b t rfl rfl)
      · rfl
    · exact hno t ht
  | case4 =>
    refine ⟨fun t ht => ?_, rfl⟩
    rw [suffix_nil.1 ht]
    rfl

theorem hexByte_of_hex2chr {a b : Char} {o : Option Char} (h : isupportHex2chr a b = .ok o) :
    hexByte a b = o := by
  unfold isupportHex2chr at h
  unfold hexByte
  generalize hexdigit2dec a = first at h ⊢
  generalize hexdigit2dec b = second at h ⊢
  rcases first with f | _ | x
  · cases h
  · exact Except.ok.inj h
  · rcases second with f | _ | y
    · cases h
    · exact Except.ok.inj h
    · dsimp only at h ⊢
      split at h
      · next h0 =>
        rw [if_pos h0]
        exact Except.ok.inj h
      · next h0 =>
        rw [if_neg h0]
        exact Except.ok.inj h

theorem hex2chr_end {a e : Char} (he : e = ' ' ∨ e = '\x00') :
    isupportHex2chr a e = (hexdigit2dec a).map fun _ => none := by
  unfold isupportHex2chr
  have hend : hexdigit2dec e = .ok none := by rcases he with rfl | rfl <;> decide
  rw [hend]
  rcases hexdigit2dec a with f | _ | x <;> rfl

/-! ### Decoding -/

/-- What stands behind a value: a blank, or nothing. -/
def Behind (rest : CStr) : Prop := rest = [] ∨ ∃ r, rest = ' ' :: r

theorem hex2chr_behind (c : Char) (s : CStr) {rest : CStr} (hrest : Behind rest) :
    isupportHex2chr c ((s ++ rest).headD '\x00') = isupportHex2chr c (s.headD '\x00') := by
  rcases s with _ | ⟨d, s⟩
  · have hend : isupportHex2chr c ' ' = isupportHex2chr c '\x00' := by
      rw [hex2chr_end (.inl rfl), hex2chr_end (.inr rfl)]
    rcases hrest with rfl | ⟨r, rfl⟩
    · rfl
    · exact hend
  · rfl

theorem startsEscape_cons_ne {c : Char} (hc : c ≠ '\\') (s : CStr) : startsEscape (c :: s) = false := by
  unfold startsEscape
  split
  · next heq => exact absurd (cons_eq_cons.1 heq).1 hc
  · rfl

theorem startsEscape_backslash {c : Char} (hc : c ≠ 'x') (s : CStr) :
    startsEscape ('\\' :: c :: s) = false := by
  unfold startsEscape
  split
  · next heq => exact absurd (cons_eq_cons.1 (cons_eq_cons.1 heq).2).1 hc
  · rfl

theorem startsEscape_x {c : Char} {s : CStr} {o : Option Char}
    (h : isupportHex2chr c (s.headD '\x00') = .ok o) :
    startsEscape ('\\' :: 'x' :: c :: s) = o.isSome := by
  rcases s with _ | ⟨d, s⟩
  · rw [headD_nil, hex2chr_end (.inr rfl)] at h
    rcases hd : hexdigit2dec c with f | x
    · rw [hd] at h
      cases h
    · rw [hd] at h
      cases h
      rfl
  · have hbyte : hexByte c d = o := hexByte_of_hex2chr h
    rw [startsEscape, hbyte]

theorem decodeLoop_zero (state : Seen) (s out : CStr) : decodeLoop state 0 s out = .ok out := by
  rcases s with _ | ⟨c, s⟩
  · rfl
  · rw [decodeLoop.eq_def]
    exact if_pos (.inl rfl)

theorem readable_nil {state : Seen} (h : readable state [] = true) : state = .nothing := by
  rcases state
  · rfl
  · cases h
  · cases h

theorem decode_readable (n : ℕ) {raw : CStr} (hn : raw.length ≤ n) {state : Seen}
    (h : readable state raw = true) {rest : CStr} (hrest : Behind rest) {out : CStr}
    (hroom : out.length + state.text.length + raw.length ≤ valueSize - 1) :
    decodeLoop state raw.length (raw ++ rest) out = .ok (out ++ unescape (state.text ++ raw)) := by
  induction n generalizing raw state out with
  | zero =>
    obtain rfl : raw = [] := length_eq_zero_iff.1 (Nat.le_zero.1 hn)
    rw [readable_nil h, length_nil, decodeLoop_zero]
    show _ = Except.ok (out ++ [])
    rw [append_nil]
  | succ n ih =>
    rcases raw with _ | ⟨c, s⟩
    · rw [readable_nil h, length_nil, decodeLoop_zero]
      show _ = Except.ok (out ++ [])
      rw [append_nil]
    rw [length_cons] at hn hroom
    have hroom' : ¬ (s.length + 1 = 0 ∨ valueSize - 1 ≤ out.length) := by omega
    rw [length_cons, cons_append, decodeLoop.eq_def]
    dsimp only
    rw [if_neg hroom', Nat.add_sub_cancel]
    -- the loop goes on with one character more in the buffer, or more
    have hnext {raw' : CStr} {more : CStr} (hle : raw'.length ≤ s.length)
        (hr : readable .nothing raw' = true)
        (hmore : more.length + raw'.length ≤ state.text.length + (s.length + 1)) :
        decodeLoop .nothing raw'.length (raw' ++ rest) (out ++ more) =
          .ok (out ++ (more ++ unescape raw')) := by
      rw [ih (by omega) hr (by rw [length_append, Seen.text, length_nil]; omega), append_assoc]
      rfl
    rcases state with _ | _ | _
    · rw [readable] at h
      dsimp only
      split at h
      · next hc =>
        subst hc
        rw [if_pos rfl]
        exact ih (by omega) h (by simp only [Seen.text, length_cons, length_nil] at hroom ⊢; omega)
      · next hc =>
        rw [if_neg hc, hnext (Nat.le_refl _) h (by simp [Seen.text]; omega)]
        rw [Seen.text, nil_append, unescape_cons (startsEscape_cons_ne hc s)]
        rfl
    · rw [readable] at h
      dsimp only
      split at h
      · next hc =>
        subst hc
        rw [if_pos rfl]
        exact ih (by omega) h (by simp only [Seen.text, length_cons, length_nil] at hroom ⊢; omega)
      · next hc =>
        rw [Bool.and_eq_true, Bool.not_eq_true'] at h
        rw [if_neg hc, hnext (Nat.le_refl _) h.2 (by simp [Seen.text]; omega)]
        show _ = Except.ok (out ++ unescape ('\\' :: c :: s))
        rw [unescape_cons (startsEscape_backslash hc s), unescape_cons h.1]
        rfl
    · rw [readable.eq_def] at h
      dsimp only at h
      dsimp only
      rw [hex2chr_behind c s hrest]
      split at h
      · cases h
      · next hhex =>
        rw [Bool.and_eq_true, Bool.not_eq_true'] at h
        rw [hnext (Nat.le_refl _) h.2 (by simp [Seen.text]; omega)]
        have hx : startsEscape ('x' :: c :: s) = false := startsEscape_cons_ne (by decide) _
        show _ = Except.ok (out ++ unescape ('\\' :: 'x' :: c :: s))
        rw [unescape_cons (startsEscape_x hhex), unescape_cons hx, unescape_cons h.1]
        rfl
      · next b hhex =>
        rcases s with _ | ⟨d, s⟩
        · cases h
        · dsimp only [cons_append] at h ⊢
          have hbyte : hexByte c d = some b := hexByte_of_hex2chr hhex
          rw [length_cons, show s.length + 1 + 1 - 2 = s.length from rfl,
            hnext (by rw [length_cons]; omega) h (by simp [Seen.text]; omega)]
          show _ = Except.ok (out ++ unescape ('\\' :: 'x' :: c :: d :: s))
          rw [unescape_escape hbyte]
          rfl

theorem decode_unreadable (n : ℕ) {raw : CStr} (hn : raw.length ≤ n) {state : Seen}
    (h : readable state raw = false) (hno : NoEscape (state.text ++ raw)) {rest : CStr}
    (hrest : Behind rest) {out v : CStr}
    (hv : decodeLoop state raw.length (raw ++ rest) out = .ok v) :
    v.length < out.length + state.text.length + raw.length := by
  induction n generalizing raw state out with
  | zero =>
    obtain rfl : raw = [] := length_eq_zero_iff.1 (Nat.le_zero.1 hn)
    rw [length_nil, decodeLoop_zero] at hv
    obtain rfl : out = v := Except.ok.inj hv
    have hstate : 0 < state.text.length := by
      rcases state
      · cases h
      · exact Nat.succ_pos _
      · exact Nat.succ_pos _
    omega
  | succ n ih =>
    rcases raw with _ | ⟨c, s⟩
    · rw [length_nil, decodeLoop_zero] at hv
      obtain rfl : out = v := Except.ok.inj hv
      have hstate : 0 < state.text.length := by
        rcases state
        · cases h
        · exact Nat.succ_pos _
        · exact Nat.succ_pos _
      omega
    rw [length_cons] at hn ⊢
    rw [length_cons, cons_append, decodeLoop.eq_def] at hv
    dsimp only at hv
    split at hv
    · obtain rfl : out = v := Except.ok.inj hv
      omega
    rw [Nat.add_sub_cancel] at hv
    rcases state with _ | _ | _
    · rw [readable] at h
      dsimp only at hv
      split at h
      · next hc =>
        subst hc
        rw [if_pos rfl] at hv
        have hlt := ih (by omega) h hno hv
        simp only [Seen.text, length_cons, length_nil] at hlt ⊢
        omega
      · next hc =>
        rw [if_neg hc] at hv
        have hlt := ih (by omega) h (hno.of_suffix (suffix_cons _ _)) hv
        rw [length_append, length_singleton, Seen.text, length_nil] at hlt
        rw [Seen.text, length_nil]
        omega
    · rw [readable] at h
      dsimp only at hv
      have hs : startsEscape (c :: s) = false := (hno.of_suffix (suffix_cons _ _)).head
      split at h
      · next hc =>
        subst hc
        rw [if_pos rfl] at hv
        have hlt := ih (by omega) h hno hv
        simp only [Seen.text, length_cons, length_nil] at hlt ⊢
        omega
      · next hc =>
        rw [hs, Bool.not_false, Bool.true_and] at h
        rw [if_neg hc] at hv
        have hlt := ih (by omega) h (hno.of_suffix (suffix_append ['\\', c] s)) hv
        simp only [length_append, Seen.text, length_cons, length_nil] at hlt ⊢
        omega
    · rw [readable.eq_def] at h
      dsimp only at h
      dsimp only at hv
      have hs : startsEscape (c :: s) = false :=
        (hno.of_suffix (suffix_append ['\\', 'x'] (c :: s))).head
      rw [hex2chr_behind c s hrest] at hv
      split at h
      · next hhex =>
        rw [hhex] at hv
        cases hv
      · next hhex =>
        rw [hs, Bool.not_false, Bool.true_and] at h
        rw [hhex] at hv
        dsimp only at hv
        have hlt := ih (by omega) h (hno.of_suffix (suffix_append ['\\', 'x', c] s)) hv
        simp only [length_append, Seen.text, length_cons, length_nil] at hlt ⊢
        omega
      · next b hhex =>
        have hesc := hno.head
        rw [show Seen.x.text ++ c :: s = '\\' :: 'x' :: c :: s from rfl, startsEscape_x hhex] at hesc
        cases hesc

/-! ### Tokens -/

/-- The rest of a line behind the token at a place. -/
def after (t : CStr) : CStr := t.dropWhile (· != ' ')

theorem dropWhile_cases (p : Char → Bool) (s : CStr) :
    s.dropWhile p = [] ∨ ∃ c r, s.dropWhile p = c :: r ∧ p c = false := by
  have hhead := head?_dropWhile_not p s
  generalize s.dropWhile p = d at hhead ⊢
  rcases d with _ | ⟨c, r⟩
  · exact .inl rfl
  · exact .inr ⟨c, r, rfl, hhead⟩

theorem behind_after (t : CStr) : Behind (after t) := by
  rcases dropWhile_cases (· != ' ') t with h | ⟨c, r, h, hc⟩
  · exact .inl h
  · refine .inr ⟨r, ?_⟩
    rw [after, h, bne_eq_false_iff_eq.1 hc]

theorem after_cons {c : Char} (hc : c ≠ ' ') (s : CStr) : after (c :: s) = after s :=
  dropWhile_cons_of_pos (bne_iff_ne.2 hc)

theorem tokenAt_append (t : CStr) : tokenAt t ++ after t = t := takeWhile_append_dropWhile

theorem length_after_lt {c : Char} (hc : c ≠ ' ') (s : CStr) : (after (c :: s)).length < (c :: s).length := by
  rw [after_cons hc, length_cons]
  exact Nat.lt_succ_of_le (dropWhile_suffix _).length_le

theorem tokensFrom_inside (s : CStr) : tokensFrom true s = tokensFrom false (after s) := by
  induction s with
  | nil => rfl
  | cons c s ih =>
    rw [tokensFrom]
    by_cases hc : c = ' '
    · subst hc
      rw [if_pos rfl]
      rfl
    · rw [if_neg hc, if_pos rfl, ih, after_cons hc]

theorem tokensFrom_skip (s : CStr) :
    tokensFrom false s = tokensFrom false (s.dropWhile (· == ' ')) := by
  induction s with
  | nil => rfl
  | cons c s ih =>
    by_cases hc : c = ' '
    · subst hc
      rw [dropWhile_cons_of_pos (by decide), ← ih]
      rfl
    · rw [dropWhile_cons_of_neg (by rw [beq_iff_eq]; exact hc)]

theorem tokensFrom_token {c : Char} (hblank : c ≠ ' ') (hcolon : c ≠ ':') (s : CStr) :
    tokensFrom false (c :: s) =
      ((c :: s) :: (tokensFrom false (after (c :: s))).1, (tokensFrom false (after (c :: s))).2) := by
  rw [tokensFrom, if_neg hblank, if_neg Bool.false_ne_true, if_neg hcolon, tokensFrom_inside,
    after_cons hblank]

theorem length_tokensFrom (inside : Bool) (s : CStr) :
    (∀ t ∈ (tokensFrom inside s).1, t.length ≤ s.length) ∧ (tokensFrom inside s).2.length ≤ s.length := by
  induction s generalizing inside with
  | nil => exact ⟨fun t ht => absurd ht not_mem_nil, Nat.le_refl _⟩
  | cons c s ih =>
    have hnext (b : Bool) : (∀ t ∈ (tokensFrom b s).1, t.length ≤ (c :: s).length) ∧
        (tokensFrom b s).2.length ≤ (c :: s).length :=
      ⟨fun t ht => Nat.le_succ_of_le ((ih b).1 t ht), Nat.le_succ_of_le (ih b).2⟩
    rw [tokensFrom]
    split
    · exact hnext false
    · split
      · exact hnext true
      · split
        · exact ⟨fun t ht => absurd ht not_mem_nil, Nat.le_refl _⟩
        · exact ⟨forall_mem_cons.2 ⟨Nat.le_refl _, (hnext true).1⟩, (hnext true).2⟩

theorem keylen_eq (t : CStr) : strcspn t endsKey = ((tokenAt t).takeWhile (· != '=')).length := by
  rw [strcspn, tokenAt, takeWhile_takeWhile]
  congr 2
  funext c
  rw [endsKey, Bool.not_or, Bool.decide_and, Bool.decide_eq_true, Bool.decide_eq_true]
  rfl

theorem blank_notMem_tokenAt (t : CStr) : ' ' ∉ tokenAt t := fun h => by
  simpa using mem_takeWhile_imp h

theorem value_eq (t : CStr) :
    t.drop (strcspn t endsKey + if t.getD (strcspn t endsKey) '\x00' = '=' then 1 else 0) =
      rawValue t ++ after t := by
  have hsplit : t = (tokenAt t).takeWhile (· != '=') ++ ((tokenAt t).dropWhile (· != '=') ++ after t) := by
    rw [← append_assoc, takeWhile_append_dropWhile, tokenAt_append]
  rw [keylen_eq, rawValue]
  generalize (tokenAt t).takeWhile (· != '=') = k at hsplit ⊢
  have hget : t.getD k.length '\x00' = ((tokenAt t).dropWhile (· != '=') ++ after t).headD '\x00' := by
    conv_lhs => rw [hsplit]
    rw [getD_eq_getElem?_getD, getElem?_append_right (Nat.le_refl _), Nat.sub_self,
      ← head?_eq_getElem?, headD_eq_head?_getD]
  have hdrop (n : ℕ) : t.drop (k.length + n) = ((tokenAt t).dropWhile (· != '=') ++ after t).drop n := by
    conv_lhs => rw [hsplit]
    rw [drop_append, drop_of_length_le (Nat.le_add_right _ _), Nat.add_sub_cancel_left, nil_append]
  rw [hget, hdrop]
  rcases dropWhile_cases (· != '=') (tokenAt t) with hr | ⟨c, r, hr, hc⟩
  · rw [hr, nil_append, drop_nil, nil_append, if_neg, drop_zero]
    rcases behind_after t with hafter | ⟨x, hafter⟩
    · rw [hafter]
      decide
    · rw [hafter, headD_cons]
      decide
  · have heq : c = '=' := bne_eq_false_iff_eq.1 hc
    subst heq
    rw [hr, cons_append, headD_cons, if_pos rfl]
    rfl

theorem valuelen_eq (t : CStr) : strcspn (rawValue t ++ after t) (· == ' ') = (rawValue t).length := by
  have hraw : ∀ c ∈ rawValue t, (!(c == ' ')) = true := by
    intro c hc
    have hmem : c ∈ tokenAt t := (dropWhile_suffix _).subset (mem_of_mem_drop hc)
    rw [Bool.not_eq_true', beq_eq_false_iff_ne]
    rintro rfl
    exact blank_notMem_tokenAt t hmem
  rw [strcspn, takeWhile_append_of_pos hraw]
  rcases behind_after t with hafter | ⟨r, hafter⟩
  · rw [hafter, takeWhile_nil, append_nil]
  · rw [hafter, takeWhile_cons_of_neg (by decide), append_nil]

/-! ### Whole lines -/

def Act.key : Act → CStr
  | .set key _ _ => key
  | .noUnset key => key

section Token

variable {c : Char} {s : CStr}

theorem skip_token (hc : c ≠ ' ') : (c :: s).dropWhile (· == ' ') = c :: s :=
  dropWhile_cons_of_neg (by rw [beq_iff_eq]; exact hc)

theorem parseLoop_colon (fuel : ℕ) : parseLoop (fuel + 1) (':' :: s) = .ok ([], ':' :: s) := by
  rw [parseLoop, skip_token (by decide)]
  rfl

theorem parseLoop_minus (fuel : ℕ) :
    parseLoop (fuel + 1) ('-' :: s) =
      (parseLoop fuel (('-' :: s).drop (strcspn ('-' :: s) endsKey))).map fun p =>
        (.noUnset ('-' :: s) :: p.1, p.2) := by
  rw [parseLoop, skip_token (by decide)]
  dsimp only
  rw [if_neg (by decide), if_pos rfl]
  rcases parseLoop fuel (('-' :: s).drop (strcspn ('-' :: s) endsKey)) with f | p <;> rfl

theorem parseLoop_token (hblank : c ≠ ' ') (hcolon : c ≠ ':') (hminus : c ≠ '-') (fuel : ℕ) :
    parseLoop (fuel + 1) (c :: s) =
      (isupportDecode (rawValue (c :: s) ++ after (c :: s)) (rawValue (c :: s)).length).bind fun v =>
        (parseLoop fuel ((rawValue (c :: s) ++ after (c :: s)).drop v.length)).map fun p =>
          (.set (c :: s) ((tokenAt (c :: s)).takeWhile (· != '=')).length v :: p.1, p.2) := by
  rw [parseLoop, skip_token hblank]
  dsimp only
  rw [if_neg hcolon, if_neg hminus, value_eq, valuelen_eq, keylen_eq]
  rcases isupportDecode (rawValue (c :: s) ++ after (c :: s)) (rawValue (c :: s)).length with f | v
  · rfl
  · show (parseLoop fuel _ >>= _) = (parseLoop fuel _).map _
    rcases parseLoop fuel ((rawValue (c :: s) ++ after (c :: s)).drop v.length) with f | p <;> rfl

theorem parseLoop_first {fuel : ℕ} (hc : c ≠ ' ') {stop : CStr} {acts : List Act}
    (h : parseLoop (fuel + 1) (c :: s) = .ok (acts, stop)) :
    (acts = [] ∧ stop = c :: s) ∨ ∃ a as, acts = a :: as ∧ a.key = c :: s := by
  by_cases hcolon : c = ':'
  · subst hcolon
    rw [parseLoop_colon] at h
    cases h
    exact .inl ⟨rfl, rfl⟩
  · by_cases hminus : c = '-'
    · subst hminus
      rw [parseLoop_minus] at h
      generalize parseLoop fuel _ = rest at h
      rcases rest with f | p
      · cases h
      · cases h
        exact .inr ⟨_, _, rfl, rfl⟩
    · rw [parseLoop_token hc hcolon hminus] at h
      generalize isupportDecode _ _ = decoded at h
      rcases decoded with f | v
      · cases h
      · dsimp only [Except.bind] at h
        generalize parseLoop fuel _ = rest at h
        rcases rest with f | p
        · cases h
        · cases h
          exact .inr ⟨_, _, rfl, rfl⟩

end Token

/-- What a token must be for the scanner to go on behind it. -/
structure Clear (t : CStr) : Prop where
  minus : t.head? ≠ some '-'
  noEscape : NoEscape (rawValue t)
  fits : (rawValue t).length ≤ valueSize - 1
  readable : readable .nothing (rawValue t) = true

theorem parseLoop_inside (fuel : ℕ) {c : Char} (hc : c ≠ ' ') (s rest : CStr) :
    parseLoop (fuel + 1) (c :: (s ++ rest)) ≠
      .ok ((tokensFrom false rest).1.map wanted, (tokensFrom false rest).2) := by
  intro h
  obtain ⟨hplaces, hstop⟩ := length_tokensFrom false rest
  have hlen : rest.length < (c :: (s ++ rest)).length := by
    rw [length_cons, length_append]
    omega
  rcases parseLoop_first hc h with ⟨-, hplace⟩ | ⟨a, as, hacts, hkey⟩
  · rw [hplace] at hstop
    omega
  · have hmem : a ∈ (tokensFrom false rest).1.map wanted := by
      rw [hacts]
      exact mem_cons_self
    obtain ⟨t, ht, rfl⟩ := mem_map.1 hmem
    have hle := hplaces t ht
    rw [show t = c :: (s ++ rest) from hkey] at hle
    omega

theorem unescape_of_noEscape {raw : CStr} (h : NoEscape raw) : unescape raw = raw := by
  induction raw with
  | nil => rfl
  | cons c s ih => rw [unescape_cons h.head, ih (h.of_suffix (suffix_cons c s))]

/-- A value is decoded right and nothing of it is left over if and only if it is clear. -/
theorem decode_iff {raw rest : CStr} (hrest : Behind rest) :
    (isupportDecode (raw ++ rest) raw.length = .ok ((unescape raw).take (valueSize - 1)) ∧
      raw.length ≤ ((unescape raw).take (valueSize - 1)).length) ↔
    NoEscape raw ∧ raw.length ≤ valueSize - 1 ∧ readable .nothing raw = true := by
  constructor
  · rintro ⟨hdecode, hle⟩
    rw [length_take] at hle
    obtain ⟨hno, heq⟩ := noEscape_of_length (hle.trans (Nat.min_le_right _ _))
    have hfits : raw.length ≤ valueSize - 1 := hle.trans (Nat.min_le_left _ _)
    refine ⟨hno, hfits, eq_true_of_ne_false fun hun => ?_⟩
    rw [heq, take_of_length_le hfits, isupportDecode] at hdecode
    rcases hloop : decodeLoop .nothing raw.length (raw ++ rest) [] with f | out
    · rw [hloop] at hdecode
      cases hdecode
    · have hlt := decode_unreadable raw.length (Nat.le_refl _) hun hno hrest hloop
      rw [hloop] at hdecode
      change (if valueSize ≤ out.length then Except.error ParseFault.buffer else .ok out) = _ at hdecode
      split at hdecode
      · cases hdecode
      · obtain rfl : out = raw := Except.ok.inj hdecode
        rw [Seen.text, length_nil] at hlt
        omega
  · rintro ⟨hno, hfits, hread⟩
    have hroom : ([] : CStr).length + Seen.nothing.text.length + raw.length ≤ valueSize - 1 := by
      rw [Seen.text, length_nil]
      omega
    have hloop := decode_readable raw.length (Nat.le_refl _) hread hrest hroom
    rw [unescape_of_noEscape hno, take_of_length_le hfits]
    rw [Seen.text, nil_append, nil_append, unescape_of_noEscape hno] at hloop
    refine ⟨?_, Nat.le_refl _⟩
    rw [isupportDecode, hloop]
    exact if_neg (by rw [valueSize] at hfits ⊢; omega)

theorem cons_acts_iff {t : CStr} {v : CStr} {p : List Act × CStr} {ts : List CStr} {stop : CStr} :
    (Act.set t ((tokenAt t).takeWhile (· != '=')).length v :: p.1, p.2) =
        ((t :: ts).map wanted, stop) ↔
      v = (unescape (rawValue t)).take (valueSize - 1) ∧ p = (ts.map wanted, stop) := by
  rw [map_cons, wanted, Prod.mk.injEq, cons.injEq, Act.set.injEq, Prod.ext_iff]
  tauto

theorem parseLoop_iff (n : ℕ) {str : CStr} (hn : str.length ≤ n) {fuel : ℕ} (hfuel : str.length < fuel) :
    parseLoop fuel str = .ok ((tokensFrom false str).1.map wanted, (tokensFrom false str).2) ↔
      ∀ t ∈ (tokensFrom false str).1, Clear t := by
  induction n generalizing str fuel with
  | zero =>
    obtain rfl : str = [] := length_eq_zero_iff.1 (Nat.le_zero.1 hn)
    obtain ⟨fuel, rfl⟩ : ∃ k, fuel = k + 1 := ⟨fuel - 1, by omega⟩
    exact iff_of_true rfl fun t ht => absurd ht not_mem_nil
  | succ n ih =>
    obtain ⟨fuel, rfl⟩ : ∃ k, fuel = k + 1 := ⟨fuel - 1, by omega⟩
    -- the blanks in front of a token make no difference
    have hskip : parseLoop (fuel + 1) str = parseLoop (fuel + 1) (str.dropWhile (· == ' ')) := by
      rw [parseLoop.eq_def (fuel + 1) str, parseLoop.eq_def (fuel + 1) (str.dropWhile _)]
      dsimp only
      rw [dropWhile_idempotent]
    rw [hskip, tokensFrom_skip]
    have hle := (dropWhile_suffix (l := str) (· == ' ')).length_le
    rcases dropWhile_cases (· == ' ') str with hnil | ⟨c, s, hcons, hblank⟩
    · rw [hnil]
      exact iff_of_true rfl fun t ht => absurd ht not_mem_nil
    rw [hcons] at hle ⊢
    rw [beq_eq_false_iff_ne] at hblank
    by_cases hcolon : c = ':'
    · subst hcolon
      rw [parseLoop_colon]
      exact iff_of_true rfl fun t ht => absurd ht not_mem_nil
    have hlt := length_after_lt hblank s
    have hafter := @ih (after (c :: s)) (by omega) fuel (by omega)
    rw [tokensFrom_token hblank hcolon, forall_mem_cons]
    by_cases hminus : c = '-'
    · subst hminus
      refine iff_of_false (fun h => ?_) fun h => h.1.minus rfl
      rw [parseLoop_minus] at h
      generalize parseLoop fuel _ = rest at h
      rcases rest with f | p
      · cases h
      · cases h
    · have hclear : Clear (c :: s) ↔ NoEscape (rawValue (c :: s)) ∧
          (rawValue (c :: s)).length ≤ valueSize - 1 ∧ readable .nothing (rawValue (c :: s)) = true :=
        ⟨fun h => ⟨h.noEscape, h.fits, h.readable⟩,
          fun h => ⟨fun h0 => hminus (Option.some.inj h0), h.1, h.2.1, h.2.2⟩⟩
      rw [parseLoop_token hblank hcolon hminus, hclear, ← decode_iff (behind_after (c :: s))]
      have hblanks : ∀ x ∈ rawValue (c :: s), x ≠ ' ' := by
        rintro x hx rfl
        exact blank_notMem_tokenAt _ ((dropWhile_suffix _).subset (mem_of_mem_drop hx))
      rcases hdecode : isupportDecode (rawValue (c :: s) ++ after (c :: s)) (rawValue (c :: s)).length with
        f | v
      · exact iff_of_false (fun h => nomatch h) fun h => nomatch h.1.1
      have hmap : ((parseLoop fuel ((rawValue (c :: s) ++ after (c :: s)).drop v.length)).map fun p =>
            (Act.set (c :: s) ((tokenAt (c :: s)).takeWhile (· != '=')).length v :: p.1, p.2)) =
          .ok (((c :: s) :: (tokensFrom false (after (c :: s))).1).map wanted,
            (tokensFrom false (after (c :: s))).2) ↔
          v = (unescape (rawValue (c :: s))).take (valueSize - 1) ∧
            parseLoop fuel ((rawValue (c :: s) ++ after (c :: s)).drop v.length) =
              .ok ((tokensFrom false (after (c :: s))).1.map wanted, (tokensFrom false (after (c :: s))).2) := by
        generalize parseLoop fuel _ = rest
        rcases rest with f | p
        · exact iff_of_false (fun h => nomatch h) fun h => nomatch h.2
        · show Except.ok _ = Except.ok _ ↔ _
          rw [Except.ok.injEq, Except.ok.injEq, cons_acts_iff]
      refine hmap.trans ?_
      rw [Except.ok.injEq, and_assoc]
      refine and_congr_right fun hv => ?_
      rw [← hv]
      have hvle : v.length ≤ (rawValue (c :: s)).length := by
        rw [hv, length_take]
        exact (Nat.min_le_right _ _).trans (length_unescape_le _)
      by_cases hall : (rawValue (c :: s)).length ≤ v.length
      · rw [and_iff_right hall, ← hafter, drop_append_of_le_length hvle, drop_of_length_le hall, nil_append]
      · refine iff_of_false ?_ fun h => hall h.1
        rw [drop_append_of_le_length hvle]
        rcases hleft : (rawValue (c :: s)).drop v.length with _ | ⟨x, xs⟩
        · exact absurd (drop_eq_nil_iff.1 hleft) hall
        · obtain ⟨fuel, rfl⟩ : ∃ k, fuel = k + 1 := ⟨fuel - 1, by omega⟩
          refine parseLoop_inside fuel (hblanks x ?_) xs (after (c :: s))
          exact mem_of_mem_drop (hleft ▸ mem_cons_self)

/-- A line is taken apart right if and only if all its tokens are clear. -/
theorem isupport_parse_iff (line : CStr) : Parsed line ↔ ∀ t ∈ (tokensFrom false line).1, Clear t :=
  parseLoop_iff line.length (Nat.le_refl _) (Nat.lt_succ_self _)

instance (line : CStr) : Decidable (Parsed line) := inferInstanceAs (Decidable (_ = _))

/-- An escape makes the decoded value shorter than what stands in the line, and the end of the value is
taken for a token. -/
theorem not_isupport_parse : ¬ ∀ line, Parsed line := by
  intro h
  exact absurd (h "NETWORK=A\\x20B MODES=4 :are supported".toList) (by decide +kernel)

end Eggdrop.Isupport
