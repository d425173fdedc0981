import Mathlib.Data.List.Infix
import Mathlib.Tactic.Common
import Eggdrop.Net.Tputs

/-!
# Telnet — the telnet codes in a chat line (src/dcc.c)

What goes out is escaped, what comes in is stripped of the commands that a telnet client sends.  The
byte IAC begins a command: an option and the byte behind it, IAC for itself, or any other byte.

* `stripTelnet_eq`: what is left of a line, whatever it holds, and what is answered.
* `stripTelnet_escapeTelnet`: an escaped text comes back, with CR before LF, and nothing is answered.
* `detectTelnet_iff`: when an answer about STATUS is seen.
-/

namespace Eggdrop.Net.Telnet

open List

/-! ### The code -/

def ayt : UInt8 := 246
def will : UInt8 := 251
def wont : UInt8 := 252
def doOpt : UInt8 := 253
def dont : UInt8 := 254
def iac : UInt8 := 255
def echo : UInt8 := 1
def status : UInt8 := 5

/-- `"\r\n[Hell, yes!]\r\n"` with its NUL: `sizeof sb` counts it. -/
def hellYes : Bytes :=
  [0x0d, 0x0a, 0x5b, 0x48, 0x65, 0x6c, 0x6c, 0x2c, 0x20, 0x79, 0x65, 0x73, 0x21, 0x5d, 0x0d, 0x0a, 0]

/-- `detect_telnet`. -/
def detectTelnet : Bytes → Bool
  | a :: b :: c :: s =>
    (a == iac && (b == doOpt || b == dont) && c == status) || detectTelnet (b :: c :: s)
  | _ => false

/-- `escape_telnet`. -/
def escapeTelnet : Bytes → Bytes
  | [] => []
  | c :: s =>
    (if c = iac then [c, c] else if c = 0x0a then [0x0d, c] else [c]) ++ escapeTelnet s

/-- What `strip_telnet` leaves in `buf` and `*len`, and what it writes to the socket. -/
structure Stripped where
  text : Bytes
  len : ℤ
  writes : List Bytes
  deriving DecidableEq

def Stripped.put (c : UInt8) (r : Stripped) : Stripped := { r with text := c :: r.text }

def Stripped.write (ws : List Bytes) (r : Stripped) : Stripped := { r with writes := ws ++ r.writes }

/-- `strip_telnet`, from the place `p` on. -/
def stripTelnet (len : ℤ) : Bytes → Stripped
  | [] => ⟨[], len, []⟩
  | c :: s =>
    if c ≠ iac then (stripTelnet len s).put c
    else
      match s with
      | [] => ⟨[], len - 1, []⟩
      | p :: s =>
        if will ≤ p ∧ p ≤ dont then
          match s with
          | [] => ⟨[], len - 2, []⟩
          | _ :: s => stripTelnet (len - 3) s
        -- the answers to WILL and DO come too late: both are options
        else if p = will then
          (stripTelnet (len - 2) s).write
            (if s.head? ≠ some echo then [[iac, dont], [s.headD 0]] else [])
        else if p = doOpt then
          (stripTelnet (len - 2) s).write
            (if s.head? ≠ some echo then [[iac, wont], [s.headD 0]] else [])
        else if p = ayt then (stripTelnet (len - 2) s).write [hellYes]
        else if p = iac then (stripTelnet (len - 1) s).put p
        else stripTelnet (len - 2) s

/-! ### What a line holds -/

def IsOption (p : UInt8) : Prop := will ≤ p ∧ p ≤ dont

instance (p : UInt8) : Decidable (IsOption p) := inferInstanceAs (Decidable (_ ∧ _))

/-- A piece of a line. -/
inductive Piece
  | data (c : UInt8) (h : c ≠ iac)
  | escaped
  | command (p : UInt8) (h : ¬ IsOption p ∧ p ≠ iac)
  | option (p : UInt8) (h : IsOption p) (x : UInt8)

namespace Piece

def bytes : Piece → Bytes
  | data c _ => [c]
  | escaped => [iac, iac]
  | command p _ => [iac, p]
  | option p _ x => [iac, p, x]

/-- What a piece says. -/
def said : Piece → Bytes
  | data c _ => [c]
  | escaped => [iac]
  | _ => []

/-- What is answered to a piece: only the question whether the bot is there. -/
def answer : Piece → List Bytes
  | command p _ => if p = ayt then [hellYes] else []
  | _ => []

end Piece

/-- The end of a line in the middle of a command. -/
inductive CutOff : Bytes → Prop
  | whole : CutOff []
  | iac : CutOff [iac]
  | option {p : UInt8} (h : IsOption p) : CutOff [Telnet.iac, p]

theorem exists_pieces : ∀ s : Bytes, ∃ (ps : List Piece) (rest : Bytes),
    CutOff rest ∧ s = ps.flatMap Piece.bytes ++ rest
  | [] => ⟨[], [], .whole, rfl⟩
  | c :: s => by
    by_cases hc : c = iac
    swap
    · obtain ⟨ps, rest, hr, hs⟩ := exists_pieces s
      exact ⟨.data c hc :: ps, rest, hr, by simp [Piece.bytes, ← hs]⟩
    subst hc
    match s with
    | [] => exact ⟨[], _, .iac, rfl⟩
    | p :: s =>
      by_cases ho : IsOption p
      · match s with
        | [] => exact ⟨[], _, .option ho, rfl⟩
        | x :: s =>
          obtain ⟨ps, rest, hr, hs⟩ := exists_pieces s
          exact ⟨.option p ho x :: ps, rest, hr, by simp [Piece.bytes, ← hs]⟩
      · obtain ⟨ps, rest, hr, hs⟩ := exists_pieces s
        by_cases hi : p = iac
        · exact ⟨.escaped :: ps, rest, hr, by simp [Piece.bytes, ← hs, hi]⟩
        · exact ⟨.command p ⟨ho, hi⟩ :: ps, rest, hr, by simp [Piece.bytes, ← hs]⟩

/-! ### Stripping -/

@[simp] theorem Stripped.write_nil (r : Stripped) : r.write [] = r := rfl

section Strip

variable (len : ℤ) (s : Bytes)

@[simp] theorem stripTelnet_nil : stripTelnet len [] = ⟨[], len, []⟩ := rfl

theorem stripTelnet_data {c : UInt8} (h : c ≠ iac) :
    stripTelnet len (c :: s) = (stripTelnet len s).put c := by
  rw [stripTelnet.eq_def]
  exact if_pos h

theorem stripTelnet_escaped :
    stripTelnet len (iac :: iac :: s) = (stripTelnet (len - 1) s).put iac := by
  rw [stripTelnet.eq_def]
  exact rfl

theorem stripTelnet_option {p : UInt8} (h : IsOption p) (x : UInt8) :
    stripTelnet len (iac :: p :: x :: s) = stripTelnet (len - 3) s := by
  rw [stripTelnet.eq_def]
  simp [if_pos (show will ≤ p ∧ p ≤ dont from h)]

theorem stripTelnet_command {p : UInt8} (h : ¬ IsOption p) (hi : p ≠ iac) :
    stripTelnet len (iac :: p :: s) =
      (stripTelnet (len - 2) s).write (if p = ayt then [hellYes] else []) := by
  have ho : ¬ (will ≤ p ∧ p ≤ dont) := h
  have hw : p ≠ will := by rintro rfl; exact h (by decide)
  have hd : p ≠ doOpt := by rintro rfl; exact h (by decide)
  rw [stripTelnet.eq_def]
  dsimp only
  rw [if_neg (by simp), if_neg ho, if_neg hw, if_neg hd, if_neg hi]
  split_ifs <;> rfl

theorem stripTelnet_cutOff {rest : Bytes} (h : CutOff rest) :
    stripTelnet len rest = ⟨[], len - rest.length, []⟩ := by
  cases h with
  | whole => simp
  | iac => simp [stripTelnet]
  | option h =>
    rw [stripTelnet.eq_def]
    simp [if_pos (show will ≤ _ ∧ _ ≤ dont from h)]

theorem stripTelnet_piece (p : Piece) :
    stripTelnet len (p.bytes ++ s) =
      let r := stripTelnet (len - (p.bytes.length - p.said.length)) s
      ⟨p.said ++ r.text, r.len, p.answer ++ r.writes⟩ := by
  cases p with
  | data c h => simp [Piece.bytes, Piece.said, Piece.answer, stripTelnet_data _ _ h, Stripped.put]
  | escaped => simp [Piece.bytes, Piece.said, Piece.answer, stripTelnet_escaped, Stripped.put]
  | command p h =>
    simp [Piece.bytes, Piece.said, Piece.answer, stripTelnet_command _ _ h.1 h.2, Stripped.write]
  | option p h x => simp [Piece.bytes, Piece.said, Piece.answer, stripTelnet_option _ _ h]

theorem stripTelnet_pieces (ps : List Piece) {rest : Bytes} (h : CutOff rest) :
    stripTelnet len (ps.flatMap Piece.bytes ++ rest) =
      ⟨ps.flatMap Piece.said,
        len - ((ps.flatMap Piece.bytes ++ rest).length - (ps.flatMap Piece.said).length),
        ps.flatMap Piece.answer⟩ := by
  induction ps generalizing len with
  | nil => simpa using stripTelnet_cutOff len h
  | cons p ps ih =>
    simp only [flatMap_cons, append_assoc, stripTelnet_piece, ih, Stripped.mk.injEq, true_and,
      length_append, and_true]
    push_cast
    omega

end Strip

/-- What `strip_telnet` makes of a line, whatever it holds: the line is made of pieces, and however it
is, what they say is left, the length falls by what is taken out, and there is an answer for each
question whether the bot is there and no other. -/
theorem stripTelnet_eq (len : ℤ) (s : Bytes) :
    (∃ (ps : List Piece) (rest : Bytes), CutOff rest ∧ s = ps.flatMap Piece.bytes ++ rest) ∧
      ∀ (ps : List Piece) (rest : Bytes), CutOff rest → s = ps.flatMap Piece.bytes ++ rest →
        stripTelnet len s = ⟨ps.flatMap Piece.said,
          len - (s.length - (ps.flatMap Piece.said).length), ps.flatMap Piece.answer⟩ := by
  refine ⟨exists_pieces s, ?_⟩
  rintro ps rest hr rfl
  exact stripTelnet_pieces len ps hr

/-! ### Escaping -/

/-- The pieces that a character is sent as. -/
def sentAs (c : UInt8) : List Piece :=
  if h : c = iac then [.escaped]
  else if c = 0x0a then [.data 0x0d (by decide), .data c h]
  else [.data c h]

theorem escapeTelnet_eq (s : Bytes) : escapeTelnet s = (s.flatMap sentAs).flatMap Piece.bytes := by
  induction s with
  | nil => rfl
  | cons c s ih =>
    rw [escapeTelnet, ih, flatMap_cons, flatMap_append]
    unfold sentAs
    split_ifs <;> simp_all [Piece.bytes]

/-- The text as a terminal wants it. -/
def crlf (s : Bytes) : Bytes := s.flatMap fun c => if c = 0x0a then [0x0d, c] else [c]

theorem said_sentAs (s : Bytes) : (s.flatMap sentAs).flatMap Piece.said = crlf s := by
  induction s with
  | nil => rfl
  | cons c s ih =>
    rw [flatMap_cons, flatMap_append, ih, crlf, crlf, flatMap_cons]
    unfold sentAs
    split_ifs <;> simp_all [Piece.said, iac]

theorem answer_sentAs (s : Bytes) : (s.flatMap sentAs).flatMap Piece.answer = [] := by
  induction s with
  | nil => rfl
  | cons c s ih =>
    rw [flatMap_cons, flatMap_append, ih, append_nil]
    unfold sentAs
    split_ifs <;> simp [Piece.answer]

/-- What one bot escapes another one reads: the same text with CR before each LF, of the right
length, and nothing of it is taken for a question. -/
theorem stripTelnet_escapeTelnet (s : Bytes) :
    stripTelnet (escapeTelnet s).length (escapeTelnet s) = ⟨crlf s, (crlf s).length, []⟩ := by
  have h := stripTelnet_pieces (escapeTelnet s).length (s.flatMap sentAs) .whole
  rw [append_nil, ← escapeTelnet_eq, said_sentAs, answer_sentAs] at h
  rw [h, sub_sub_cancel]

/-! ### An answer about STATUS -/

theorem detectTelnet_iff (s : Bytes) :
    detectTelnet s ↔ [iac, doOpt, status] <:+: s ∨ [iac, dont, status] <:+: s := by
  induction s with
  | nil => simp [detectTelnet]
  | cons a s ih =>
    match s with
    | [] => simp [detectTelnet, infix_cons_iff]
    | [b] => simp [detectTelnet, infix_cons_iff]
    | b :: c :: s =>
      rw [detectTelnet, Bool.or_eq_true, ih, infix_cons_iff (a := a), infix_cons_iff (a := a)]
      simp
      grind

end Eggdrop.Net.Telnet
