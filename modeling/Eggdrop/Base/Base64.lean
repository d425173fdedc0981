import Eggdrop.Base.CString

/-!
# Base64 — `b64_ntop` and `b64_pton` of compat/base64.c

Bytes are characters below 256.  `b64_pton` does not end its result with a NUL: what stands behind
the decoded bytes is what the buffer held before, except that the byte it was at work on may have
been written.
-/

namespace Eggdrop

def base64 : CStr := "ABCDEFGHIJKLMNOPQRSTUVWXYZabcdefghijklmnopqrstuvwxyz0123456789+/".toList

/-- The digit of a group of six bits. -/
def base64Char (n : Nat) : Char := base64.getD n 'A'

/-- The groups of three bytes, with padding behind the last. -/
def b64Groups : List Nat → CStr
  | [] => []
  | [a] => [base64Char (a / 4), base64Char (a % 4 * 16), '=', '=']
  | [a, b] => [base64Char (a / 4), base64Char (a % 4 * 16 + b / 16), base64Char (b % 16 * 4), '=']
  | a :: b :: c :: rest =>
    base64Char (a / 4) :: base64Char (a % 4 * 16 + b / 16) :: base64Char (b % 16 * 4 + c / 64) ::
      base64Char (c % 64) :: b64Groups rest

/-- `b64_ntop`; `none` is -1. -/
def b64Ntop (src : CStr) (targsize : Nat) : Option CStr :=
  let target := b64Groups (src.map Char.toNat)
  if target.length < targsize then some target else none

/-- The bytes written so far: those that are complete, and the one at `target[tarindex]`. -/
structure Decoder where
  done : List Nat
  next : Option Nat
  state : Nat
deriving DecidableEq, Repr

/-- One digit. -/
def Decoder.put (d : Decoder) (targsize digit : Nat) : Option Decoder :=
  if targsize ≤ d.done.length then none
  else
    let byte (high : Nat) := d.next.getD 0 + high
    let carry (byte nextbyte state : Nat) : Option Decoder :=
      if d.done.length + 1 < targsize then some ⟨d.done ++ [byte], some nextbyte, state⟩
      else if nextbyte ≠ 0 then none
      else some ⟨d.done ++ [byte], none, state⟩
    match d.state with
    | 0 => some { d with next := some (digit * 4), state := 1 }
    | 1 => carry (byte (digit / 16)) (digit % 16 * 16) 2
    | 2 => carry (byte (digit / 4)) (digit % 4 * 64) 3
    | _ => some ⟨d.done ++ [byte digit], none, 0⟩

/-- What may stand behind the digits. -/
def Decoder.paddingOk (d : Decoder) (padding : CStr) : Bool :=
  let blank (s : CStr) : Bool := s.all isSpace
  match padding with
  | [] => d.state = 0
  | _ :: rest =>
    if d.state ≤ 1 then false
    else
      let behind : Option CStr :=
        if d.state = 2 then
          match rest.dropWhile isSpace with
          | '=' :: rest => some rest
          | _ => none
        else some rest
      match behind with
      | none => false
      | some behind => blank behind && d.next.getD 0 = 0

/-- The digits, up to the padding. -/
def Decoder.loop (targsize : Nat) : Decoder → CStr → Option Decoder
  | d, [] => if d.paddingOk [] then some d else none
  | d, ch :: src =>
    if isSpace ch then loop targsize d src
    else if ch = '=' then if d.paddingOk (ch :: src) then some d else none
    else
      match base64.idxOf? ch with
      | none => none
      | some digit =>
        match d.put targsize digit with
        | none => none
        | some d => loop targsize d src

/-- `b64_pton`: the decoded bytes, and the byte written behind them, if there is one; `none` is
-1. -/
def b64Pton (src : CStr) (targsize : Nat) : Option (CStr × CStr) :=
  (Decoder.loop targsize ⟨[], none, 0⟩ src).map fun d =>
    (d.done.map Char.ofNat, d.next.toList.map Char.ofNat)

example : b64Pton "YW I=".toList 10 = some ("ab".toList, [Char.ofNat 0]) := by decide

theorem Decoder.put_length_le {d d' : Decoder} {targsize digit : Nat}
    (h : d.put targsize digit = some d') : d'.done.length ≤ targsize := by
  unfold Decoder.put at h
  split at h
  · cases h
  rename_i hlt
  have hcarry : ∀ byte nextbyte state : Nat,
      (if d.done.length + 1 < targsize then
        some (⟨d.done ++ [byte], some nextbyte, state⟩ : Decoder)
      else if nextbyte ≠ 0 then none else some ⟨d.done ++ [byte], none, state⟩) = some d' →
      d'.done.length ≤ targsize := by
    intro byte nextbyte state h
    split at h
    · obtain rfl := Option.some.inj h
      simp only [List.length_append, List.length_cons, List.length_nil]
      omega
    split at h
    · cases h
    · obtain rfl := Option.some.inj h
      simp only [List.length_append, List.length_cons, List.length_nil]
      omega
  dsimp only at h
  split at h
  · obtain rfl := Option.some.inj h
    exact Nat.le_of_not_le hlt
  · exact hcarry _ _ _ h
  · exact hcarry _ _ _ h
  · obtain rfl := Option.some.inj h
    simp only [List.length_append, List.length_cons, List.length_nil]
    omega

theorem Decoder.loop_length_le {targsize : Nat} {d d' : Decoder} {src : CStr}
    (hd : d.done.length ≤ targsize) (h : loop targsize d src = some d') :
    d'.done.length ≤ targsize := by
  induction src generalizing d with
  | nil =>
    unfold loop at h
    split at h
    · obtain rfl := Option.some.inj h
      exact hd
    · cases h
  | cons ch src ih =>
    unfold loop at h
    split at h
    · exact ih hd h
    split at h
    · split at h
      · obtain rfl := Option.some.inj h
        exact hd
      · cases h
    split at h
    · cases h
    split at h
    · cases h
    · rename_i d₁ hput
      exact ih (Decoder.put_length_le hput) h

theorem b64Pton_length_le {src bytes behind : CStr} {targsize : Nat}
    (h : b64Pton src targsize = some (bytes, behind)) : bytes.length ≤ targsize := by
  unfold b64Pton at h
  obtain ⟨d, hd, heq⟩ := Option.map_eq_some_iff.1 h
  obtain rfl := congrArg Prod.fst heq
  rw [List.length_map]
  exact Decoder.loop_length_le (Nat.zero_le _) hd

end Eggdrop
