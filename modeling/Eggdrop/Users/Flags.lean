import Mathlib.Data.BitVec
import Mathlib.Tactic.Common

/-!
# Flags — the flag words of `flags.c` and their sanity checks

`sanityCheck` is the check a flag word passes when the userfile is loaded (and when flags are set
by hand in C code); `userSanityCheck` and `chanSanityCheck` are the checks of `.chattr`.  All
three are sequences of conditional updates of one word, in the order of the source.

* `sanityCheck_eq_self_iff`: the fixed points of the load-time check, as a list of implications.
* `Sane.pairs_getLsbD`, `Sane.userAdds_getLsbD`, `Sane.chanAdds_getLsbD`: the word `.chattr`
  stores, letter by letter.
* `sanityCheck_userSanityCheck_iff`: when that word is such a fixed point.  It often is not: the
  master rule of `.chattr` does nothing once one of `+t +o +j` is set.
* `chattr_survives_load_iff`: the same for a save and reload, with the channel word.
-/

namespace Eggdrop.Users

/-- An `int` of flags: bit `k` is the flag with letter `'a' + k`. -/
abbrev FlagWord := BitVec 32

/-- `w & f` read as a C condition. -/
def FlagWord.has (w f : FlagWord) : Bool := w &&& f != 0

section Constants

def userAutoop : FlagWord := 0x00000001
def userBot : FlagWord := 0x00000002
def userCommon : FlagWord := 0x00000004
def userDeop : FlagWord := 0x00000008
def userGvoice : FlagWord := 0x00000040
def userJanitor : FlagWord := 0x00000200
def userHalfop : FlagWord := 0x00000800
def userMaster : FlagWord := 0x00001000
def userOwner : FlagWord := 0x00002000
def userOp : FlagWord := 0x00004000
def userParty : FlagWord := 0x00008000
def userQuiet : FlagWord := 0x00010000
def userDehalfop : FlagWord := 0x00020000
def userBotmast : FlagWord := 0x00080000
def userUnshared : FlagWord := 0x00100000
def userVoice : FlagWord := 0x00200000
def userXfer : FlagWord := 0x00800000
def userAutohalfop : FlagWord := 0x01000000
def userDefault : FlagWord := 0x40000000
def botAggressive : FlagWord := 0x00040000

/-- All flag letters a global word may hold. -/
def userValid : FlagWord := 0x03fbfeff
/-- All flag letters a channel word may hold. -/
def chanValid : FlagWord := 0x03677c79

def ucSaneDeopownsop : FlagWord := 0x00000001
def ucSaneOpownsdeop : FlagWord := 0x00000002
def ucSaneOwnsdeopop : FlagWord := 0x00000004
def ucSaneDehalfopownshalfop : FlagWord := 0x00000008
def ucSaneHalfopownsdehalfop : FlagWord := 0x00000010
def ucSaneOwnsdehalfophalfop : FlagWord := 0x00000020
def ucSaneDeopownsautoop : FlagWord := 0x00000040
def ucSaneAutoopownsdeop : FlagWord := 0x00000080
def ucSaneOwnsdeopautoop : FlagWord := 0x00000100
def ucSaneDehalfopownsahalfop : FlagWord := 0x00000200
def ucSaneAhalfopownsdehalfop : FlagWord := 0x00000400
def ucSaneOwnsdehalfopahalfop : FlagWord := 0x00000800
def ucSaneQuietownsvoice : FlagWord := 0x00001000
def ucSaneVoiceownsquiet : FlagWord := 0x00002000
def ucSaneOwnsquietvoice : FlagWord := 0x00004000
def ucSaneQuietownsgvoice : FlagWord := 0x00008000
def ucSaneGvoiceownsquiet : FlagWord := 0x00010000
def ucSaneOwnsquietgvoice : FlagWord := 0x00020000
def ucSaneOwneraddsmaster : FlagWord := 0x00040000
def ucSaneMasteraddsop : FlagWord := 0x00080000
def ucSaneOpaddshalfop : FlagWord := 0x00100000
def ucSaneNobotownsaggr : FlagWord := 0x00200000
def ucSaneBotownsparty : FlagWord := 0x00400000
def ucSaneBotownsmaster : FlagWord := 0x00800000
def ucSaneBotownscommon : FlagWord := 0x01000000
def ucSaneBotownsowner : FlagWord := 0x02000000
def ucSaneMasteraddsbotmopjan : FlagWord := 0x04000000
def ucSaneBotmastaddsparty : FlagWord := 0x08000000
def ucSaneJanaddsxfer : FlagWord := 0x10000000
def ucSaneAutoopaddsop : FlagWord := 0x20000000
def ucSaneAutohalfopaddshalfop : FlagWord := 0x40000000
def ucSaneGvoiceaddsvoice : FlagWord := 0x80000000

end Constants

/-! ### The load-time check -/

/-- Two flags that exclude each other at load time: both go. -/
def dropBoth (x d atr : FlagWord) : FlagWord :=
  if atr.has x && atr.has d then atr &&& ~~~(x ||| d) else atr

/-- A flag that brings others along. -/
def implies (f add atr : FlagWord) : FlagWord :=
  if atr.has f then atr ||| add else atr

/-- `sanity_check` of flags.c. -/
def sanityCheck (atr : FlagWord) : FlagWord :=
  let noBotFlags := userParty ||| userMaster ||| userCommon ||| userOwner
  let atr := if atr.has userBot && atr.has noBotFlags then atr &&& ~~~noBotFlags else atr
  let atr := dropBoth userOp userDeop atr
  let atr := dropBoth userHalfop userDehalfop atr
  let atr := dropBoth userAutoop userDeop atr
  let atr := dropBoth userAutohalfop userDehalfop atr
  let atr := dropBoth userVoice userQuiet atr
  let atr := dropBoth userGvoice userQuiet atr
  -- Can't be owner without also being master
  let atr := implies userOwner userMaster atr
  -- Master implies botmaster, op and janitor
  let atr := implies userMaster (userBotmast ||| userOp ||| userJanitor) atr
  -- Can't be botnet master without party-line access
  let atr := implies userBotmast userParty atr
  -- Janitors can use the file area
  let atr := implies userJanitor userXfer atr
  -- Ops should be halfops
  implies userOp userHalfop atr

/-! ### The checks of `.chattr` -/

/-- A word under check and the messages it has earned so far. -/
structure Sane where
  atr : FlagWord
  msgids : FlagWord
deriving DecidableEq, Repr

namespace Sane

/-- Clear `f` if it is set, with message `msg`. -/
def strip (f msg : FlagWord) (s : Sane) : Sane :=
  if s.atr.has f then ⟨s.atr &&& ~~~f, s.msgids ||| msg⟩ else s

/-- The rule for an exclusive pair `x`/`d` (`+o`/`+d`, `+l`/`+r`, `+a`/`+d`, `+y`/`+r`, `+v`/`+q`,
`+g`/`+q`): the newly wanted flag wins, and asking for both keeps what was there. -/
def pair (old chg x d dOwnsX xOwnsD ownsBoth : FlagWord) (s : Sane) : Sane :=
  if s.atr.has x && s.atr.has d then
    if chg.has x && chg.has d then
      let atr := s.atr &&& ~~~(d ||| x)
      ⟨if old.has d then atr ||| d else if old.has x then atr ||| x else atr,
        s.msgids ||| ownsBoth⟩
    else if old.has x then ⟨s.atr &&& ~~~x, s.msgids ||| dOwnsX⟩
    else if old.has d then ⟨s.atr &&& ~~~d, s.msgids ||| xOwnsD⟩
    else ⟨s.atr &&& ~~~(d ||| x), s.msgids ||| ownsBoth⟩
  else s

/-- A newly wanted auto flag adds its plain flag, unless that was there before. -/
def autoAdds (old chg auto plain msg : FlagWord) (s : Sane) : Sane :=
  if s.atr.has auto && chg.has auto && !old.has plain then ⟨s.atr ||| plain, s.msgids ||| msg⟩
  else s

/-- `f` without any of `guard` adds `add`. -/
def adds (f guard add msg : FlagWord) (s : Sane) : Sane :=
  if s.atr.has f && !s.atr.has guard then ⟨s.atr ||| add, s.msgids ||| msg⟩ else s

/-- The six exclusive pairs and the three auto flags, common to both checks. -/
def pairs (old chg : FlagWord) (s : Sane) : Sane :=
  let s := s.pair old chg userOp userDeop ucSaneDeopownsop ucSaneOpownsdeop ucSaneOwnsdeopop
  let s := s.pair old chg userHalfop userDehalfop ucSaneDehalfopownshalfop
    ucSaneHalfopownsdehalfop ucSaneOwnsdehalfophalfop
  let s := s.pair old chg userAutoop userDeop ucSaneDeopownsautoop ucSaneAutoopownsdeop
    ucSaneOwnsdeopautoop
  let s := s.pair old chg userAutohalfop userDehalfop ucSaneDehalfopownsahalfop
    ucSaneAhalfopownsdehalfop ucSaneOwnsdehalfopahalfop
  let s := s.pair old chg userVoice userQuiet ucSaneQuietownsvoice ucSaneVoiceownsquiet
    ucSaneOwnsquietvoice
  let s := s.pair old chg userGvoice userQuiet ucSaneQuietownsgvoice ucSaneGvoiceownsquiet
    ucSaneOwnsquietgvoice
  let s := s.autoAdds old chg userAutoop userOp ucSaneAutoopaddsop
  let s := s.autoAdds old chg userAutohalfop userHalfop ucSaneAutohalfopaddshalfop
  s.autoAdds old chg userGvoice userVoice ucSaneGvoiceaddsvoice

/-- The `+b` rules of `.chattr`. -/
def stripBot (s : Sane) : Sane :=
  if s.atr.has userBot then
    (((s.strip userParty ucSaneBotownsparty).strip userMaster ucSaneBotownsmaster).strip
      userCommon ucSaneBotownscommon).strip userOwner ucSaneBotownsowner
  else s

/-- Owner, then master, then botmaster, then janitor, then op. -/
def userAdds (s : Sane) : Sane :=
  let s := s.adds userOwner userMaster userMaster ucSaneOwneraddsmaster
  -- the test is whether *none* of the three is set before all of them are added
  let s := s.adds userMaster (userBotmast ||| userOp ||| userJanitor)
    (userBotmast ||| userOp ||| userJanitor) ucSaneMasteraddsbotmopjan
  let s := s.adds userBotmast userParty userParty ucSaneBotmastaddsparty
  let s := s.adds userJanitor userXfer userXfer ucSaneJanaddsxfer
  s.adds userOp userHalfop userHalfop ucSaneOpaddshalfop

/-- Owner, then master, then op. -/
def chanAdds (s : Sane) : Sane :=
  let s := s.adds userOwner userMaster userMaster ucSaneOwneraddsmaster
  let s := s.adds userMaster userOp userOp ucSaneMasteraddsop
  s.adds userOp userHalfop userHalfop ucSaneOpaddshalfop

end Sane

/-- The flags `.chattr` asks for: the old ones with `pls` added and `min` taken away. -/
def wanted (atr plsAtr minAtr : FlagWord) : FlagWord := (atr ||| plsAtr) &&& ~~~minAtr

/-- `user_sanity_check`: the new word and the message ids. -/
def userSanityCheck (atr plsAtr minAtr : FlagWord) : Sane :=
  let chg := plsAtr &&& ~~~minAtr
  let s : Sane := ⟨wanted atr plsAtr minAtr, 0⟩
  (s.stripBot.pairs atr chg).userAdds

/-- `chan_sanity_check`; `usrAtr` is the global word of the same user. -/
def chanSanityCheck (atr plsAtr minAtr usrAtr : FlagWord) : Sane :=
  let chg := plsAtr &&& ~~~minAtr
  let s : Sane := ⟨wanted atr plsAtr minAtr, 0⟩
  let s := (s.pairs atr chg).chanAdds
  if !usrAtr.has userBot && s.atr.has botAggressive then
    ⟨s.atr &&& ~~~botAggressive, s.msgids ||| ucSaneNobotownsaggr⟩
  else s

/-- What `readuserfile` makes of a global word: `break_down_flags` keeps the valid letters, then
`sanity_check`. -/
def userLoadCheck (atr : FlagWord) : FlagWord := sanityCheck (atr &&& userValid)

/-- What `readuserfile` does to a channel word: `break_down_flags` keeps the valid letters and
no sanity check follows. -/
def chanLoadCheck (atr : FlagWord) : FlagWord := atr &&& chanValid

/-! ### Single flags -/

section Single

open BitVec

@[simp] theorem has_twoPow (w : FlagWord) (i : Nat) : w.has (twoPow 32 i) = w.getLsbD i := by
  unfold FlagWord.has
  rw [BitVec.and_twoPow]
  by_cases hi : i < 32
  · cases h : w.getLsbD i
    · simp
    · have : twoPow 32 i ≠ 0#32 := by
        intro h0
        have := congrArg (·.getLsbD i) h0
        simp [hi] at this
      simpa using this
  · simp [BitVec.getLsbD_of_ge w i (by omega)]

@[simp] theorem has_or (w f g : FlagWord) : w.has (f ||| g) = (w.has f || w.has g) := by
  unfold FlagWord.has
  rw [Bool.eq_iff_iff, and_or_distrib_left]
  simp [BitVec.or_eq_zero_iff, or_iff_not_imp_left]

theorem getLsbD_andNot (w f : FlagWord) (k : Nat) :
    (w &&& ~~~f).getLsbD k = (w.getLsbD k && !f.getLsbD k) := by
  by_cases hk : k < 32
  · simp [hk]
  · simp [BitVec.getLsbD_of_ge _ k (by omega : 32 ≤ k)]

theorem twoPow_getLsbD {i : Nat} (hi : i < 32) (k : Nat) :
    (twoPow 32 i).getLsbD k = decide (i = k) := by
  simp [hi]

/-- `dropBoth` on the flags with letters `i` and `j`, bit by bit. -/
theorem dropBoth_getLsbD {i j : Nat} (hi : i < 32) (hj : j < 32) (w : FlagWord) (k : Nat) :
    (dropBoth (twoPow 32 i) (twoPow 32 j) w).getLsbD k =
      (w.getLsbD k && !((w.getLsbD i && w.getLsbD j) && (decide (i = k) || decide (j = k)))) := by
  unfold dropBoth
  rw [has_twoPow, has_twoPow]
  split
  · next h =>
    rw [getLsbD_andNot, getLsbD_or, twoPow_getLsbD hi, twoPow_getLsbD hj, h, Bool.true_and]
  · next h => rw [eq_false_of_ne_true h, Bool.false_and, Bool.not_false, Bool.and_true]

theorem implies_getLsbD (i : Nat) (add w : FlagWord) (k : Nat) :
    (implies (twoPow 32 i) add w).getLsbD k =
      (w.getLsbD k || (w.getLsbD i && add.getLsbD k)) := by
  unfold implies
  rw [has_twoPow]
  split <;> simp_all

end Single

section Letters

theorem userAutoop_eq : userAutoop = BitVec.twoPow 32 0 := rfl
theorem userBot_eq : userBot = BitVec.twoPow 32 1 := rfl
theorem userCommon_eq : userCommon = BitVec.twoPow 32 2 := rfl
theorem userDeop_eq : userDeop = BitVec.twoPow 32 3 := rfl
theorem userGvoice_eq : userGvoice = BitVec.twoPow 32 6 := rfl
theorem userJanitor_eq : userJanitor = BitVec.twoPow 32 9 := rfl
theorem userHalfop_eq : userHalfop = BitVec.twoPow 32 11 := rfl
theorem userMaster_eq : userMaster = BitVec.twoPow 32 12 := rfl
theorem userOwner_eq : userOwner = BitVec.twoPow 32 13 := rfl
theorem userOp_eq : userOp = BitVec.twoPow 32 14 := rfl
theorem userParty_eq : userParty = BitVec.twoPow 32 15 := rfl
theorem userQuiet_eq : userQuiet = BitVec.twoPow 32 16 := rfl
theorem userDehalfop_eq : userDehalfop = BitVec.twoPow 32 17 := rfl
theorem userBotmast_eq : userBotmast = BitVec.twoPow 32 19 := rfl
theorem userVoice_eq : userVoice = BitVec.twoPow 32 21 := rfl
theorem userXfer_eq : userXfer = BitVec.twoPow 32 23 := rfl
theorem userAutohalfop_eq : userAutohalfop = BitVec.twoPow 32 24 := rfl
theorem botAggressive_eq : botAggressive = BitVec.twoPow 32 18 := rfl

end Letters

/-! ### The fixed points of the load-time check -/

/-- The first half of `sanityCheck`: the flags that go. -/
def dropExclusive (atr : FlagWord) : FlagWord :=
  let noBotFlags := userParty ||| userMaster ||| userCommon ||| userOwner
  let atr := if atr.has userBot && atr.has noBotFlags then atr &&& ~~~noBotFlags else atr
  dropBoth userGvoice userQuiet (dropBoth userVoice userQuiet
    (dropBoth userAutohalfop userDehalfop (dropBoth userAutoop userDeop
      (dropBoth userHalfop userDehalfop (dropBoth userOp userDeop atr)))))

/-- The second half of `sanityCheck`: the flags that come along with others. -/
def addImplied (atr : FlagWord) : FlagWord :=
  implies userOp userHalfop (implies userJanitor userXfer (implies userBotmast userParty
    (implies userMaster (userBotmast ||| userOp ||| userJanitor)
      (implies userOwner userMaster atr))))

theorem sanityCheck_eq (w : FlagWord) : sanityCheck w = addImplied (dropExclusive w) := rfl

/-- The flags of `dropExclusive`, by letter. -/
theorem dropExclusive_getLsbD (w : FlagWord) (k : Nat) :
    (dropExclusive w).getLsbD k = (w.getLsbD k && match k with
      | 14 => !w.getLsbD 3
      | 3 => !w.getLsbD 14 && !w.getLsbD 0
      | 11 => !w.getLsbD 17
      | 17 => !w.getLsbD 11 && !w.getLsbD 24
      | 0 => !w.getLsbD 3 || w.getLsbD 14
      | 24 => !w.getLsbD 17 || w.getLsbD 11
      | 21 => !w.getLsbD 16
      | 16 => !w.getLsbD 21 && !w.getLsbD 6
      | 6 => !w.getLsbD 16 || w.getLsbD 21
      | 2 | 12 | 13 | 15 => !w.getLsbD 1
      | _ => true) := by
  have hbot (k : Nat) : (if w.has userBot &&
        w.has (userParty ||| userMaster ||| userCommon ||| userOwner)
      then w &&& ~~~(userParty ||| userMaster ||| userCommon ||| userOwner) else w).getLsbD k =
      (w.getLsbD k && !(w.getLsbD 1 && (decide (15 = k) || decide (12 = k) || decide (2 = k) ||
        decide (13 = k)))) := by
    rw [userBot_eq, userParty_eq, userMaster_eq, userCommon_eq, userOwner_eq]
    simp only [has_or, has_twoPow, Bool.and_eq_true, Bool.or_eq_true]
    split
    · next h =>
      simp (disch := decide) only [getLsbD_andNot, BitVec.getLsbD_or, twoPow_getLsbD, h.1,
        Bool.true_and]
    · next h =>
      rw [Bool.eq_iff_iff]
      simp only [Bool.and_eq_true, Bool.not_eq_true', Bool.and_eq_false_iff, Bool.or_eq_false_iff,
        decide_eq_false_iff_not]
      grind
  simp only [dropExclusive, userAutoop_eq, userDeop_eq, userGvoice_eq, userHalfop_eq, userOp_eq,
    userQuiet_eq, userDehalfop_eq, userVoice_eq, userAutohalfop_eq]
  simp (disch := decide) only [dropBoth_getLsbD, hbot]
  clear hbot
  split <;> simp <;> grind

/-- The flags of `addImplied`, by letter. -/
theorem addImplied_getLsbD (w : FlagWord) (k : Nat) :
    (addImplied w).getLsbD k = (w.getLsbD k || match k with
      | 12 => w.getLsbD 13
      | 9 | 14 | 19 => w.getLsbD 12 || w.getLsbD 13
      | 15 => w.getLsbD 19 || w.getLsbD 12 || w.getLsbD 13
      | 23 => w.getLsbD 9 || w.getLsbD 12 || w.getLsbD 13
      | 11 => w.getLsbD 14 || w.getLsbD 12 || w.getLsbD 13
      | _ => false) := by
  simp only [addImplied, userMaster_eq, userJanitor_eq, userHalfop_eq, userOp_eq, userParty_eq,
    userBotmast_eq, userXfer_eq, userOwner_eq]
  simp (disch := decide) only [implies_getLsbD, BitVec.getLsbD_or, twoPow_getLsbD]
  split <;> simp <;> grind

/-- The fixed points of the load-time check. -/
theorem sanityCheck_eq_self_iff (w : FlagWord) :
    sanityCheck w = w ↔
      (w.getLsbD 1 → w.getLsbD 2 = false ∧ w.getLsbD 12 = false ∧ w.getLsbD 13 = false ∧
        (w.getLsbD 15 → w.getLsbD 19)) ∧
      (w.getLsbD 3 → w.getLsbD 14 = false ∧ w.getLsbD 0 = false) ∧
      (w.getLsbD 17 → w.getLsbD 11 = false ∧ w.getLsbD 24 = false) ∧
      (w.getLsbD 16 → w.getLsbD 21 = false ∧ w.getLsbD 6 = false) ∧
      (w.getLsbD 13 → w.getLsbD 12) ∧
      (w.getLsbD 12 → w.getLsbD 19 ∧ w.getLsbD 14 ∧ w.getLsbD 9) ∧
      (w.getLsbD 19 → w.getLsbD 15) ∧
      (w.getLsbD 9 → w.getLsbD 23) ∧
      (w.getLsbD 14 → w.getLsbD 11) := by
  rw [sanityCheck_eq]
  constructor
  · intro h
    have bit (k : Nat) := congrArg (BitVec.getLsbD · k) h
    simp only [addImplied_getLsbD] at bit
    have h0 := bit 0
    have h2 := bit 2
    have h3 := bit 3
    have h6 := bit 6
    have h9 := bit 9
    have h11 := bit 11
    have h12 := bit 12
    have h13 := bit 13
    have h14 := bit 14
    have h15 := bit 15
    have h16 := bit 16
    have h17 := bit 17
    have h19 := bit 19
    have h21 := bit 21
    have h23 := bit 23
    have h24 := bit 24
    clear bit h
    simp only [dropExclusive_getLsbD] at h0 h2 h3 h6 h9 h11 h12 h13 h14 h15 h16 h17 h19 h21 h23 h24
    refine ⟨?_, ?_, ?_, ?_, ?_, ?_, ?_, ?_, ?_⟩ <;> intro hf <;> simp only [hf] at * <;> grind
  · intro h
    apply BitVec.eq_of_getLsbD_eq
    intro k _
    rw [addImplied_getLsbD]
    simp only [dropExclusive_getLsbD]
    split <;> simp <;> grind

/-! ### The word `.chattr` stores -/

/-- When both flags of an exclusive pair `x`/`d` are set, whether `x` stays. -/
def firstWins (old chg x d : FlagWord) : Bool :=
  if chg.has x && chg.has d then old.has x && !old.has d else !old.has x && old.has d

/-- When both flags of an exclusive pair `x`/`d` are set, whether `d` stays. -/
def secondWins (old chg x d : FlagWord) : Bool :=
  if chg.has x && chg.has d then old.has d else old.has x

section Rules

open BitVec

variable (old chg : FlagWord) (s : Sane)

theorem Sane.strip_getLsbD {i : Nat} (hi : i < 32) (msg : FlagWord) (k : Nat) :
    (s.strip (twoPow 32 i) msg).atr.getLsbD k = (s.atr.getLsbD k && !decide (i = k)) := by
  unfold Sane.strip
  rw [has_twoPow]
  split
  · rw [getLsbD_andNot, twoPow_getLsbD hi]
  · grind

theorem Sane.pair_getLsbD {i j : Nat} (hi : i < 32) (hj : j < 32) (hij : i ≠ j)
    (m₁ m₂ m₃ : FlagWord) (k : Nat) :
    (s.pair old chg (twoPow 32 i) (twoPow 32 j) m₁ m₂ m₃).atr.getLsbD k =
      (s.atr.getLsbD k && !(s.atr.getLsbD i && s.atr.getLsbD j &&
        (decide (i = k) && !firstWins old chg (twoPow 32 i) (twoPow 32 j) ||
          decide (j = k) && !secondWins old chg (twoPow 32 i) (twoPow 32 j)))) := by
  simp only [Sane.pair, firstWins, secondWins, has_twoPow]
  by_cases hs : s.atr.getLsbD i && s.atr.getLsbD j
  · rw [if_pos hs, hs]
    simp only [Bool.and_eq_true] at hs
    simp only [apply_ite Sane.atr, apply_ite (BitVec.getLsbD · k), BitVec.getLsbD_or,
      getLsbD_andNot, twoPow_getLsbD hi, twoPow_getLsbD hj]
    by_cases hik : i = k
    · have hjk : ¬ j = k := fun h => hij (hik.trans h.symm)
      simp [← hik, hs, hij.symm]
      split_ifs <;> simp_all [Bool.and_comm]
    · by_cases hjk : j = k
      · simp [← hjk, hs, hij]
      · simp [hik, hjk]
  · rw [if_neg hs, eq_false_of_ne_true hs, Bool.false_and, Bool.not_false, Bool.and_true]

theorem Sane.pair_first {i j : Nat} (hi : i < 32) (hj : j < 32) (hij : i ≠ j)
    (m₁ m₂ m₃ : FlagWord) :
    (s.pair old chg (twoPow 32 i) (twoPow 32 j) m₁ m₂ m₃).atr.getLsbD i =
      (s.atr.getLsbD i && (!s.atr.getLsbD j ||
        firstWins old chg (twoPow 32 i) (twoPow 32 j))) := by
  rw [Sane.pair_getLsbD old chg s hi hj hij]
  cases s.atr.getLsbD i <;> simp [hij.symm]

theorem Sane.pair_second {i j : Nat} (hi : i < 32) (hj : j < 32) (hij : i ≠ j)
    (m₁ m₂ m₃ : FlagWord) :
    (s.pair old chg (twoPow 32 i) (twoPow 32 j) m₁ m₂ m₃).atr.getLsbD j =
      (s.atr.getLsbD j && (!s.atr.getLsbD i ||
        secondWins old chg (twoPow 32 i) (twoPow 32 j))) := by
  rw [Sane.pair_getLsbD old chg s hi hj hij]
  cases s.atr.getLsbD j <;> simp [hij]

theorem Sane.pair_other {i j k : Nat} (hi : i < 32) (hj : j < 32) (hij : i ≠ j) (hik : i ≠ k)
    (hjk : j ≠ k) (m₁ m₂ m₃ : FlagWord) :
    (s.pair old chg (twoPow 32 i) (twoPow 32 j) m₁ m₂ m₃).atr.getLsbD k =
      s.atr.getLsbD k := by
  rw [Sane.pair_getLsbD old chg s hi hj hij]
  simp [hik, hjk]

theorem Sane.autoAdds_self {i j : Nat} (hj : j < 32) (msg : FlagWord) :
    (s.autoAdds old chg (twoPow 32 i) (twoPow 32 j) msg).atr.getLsbD j =
      (s.atr.getLsbD j || s.atr.getLsbD i && chg.getLsbD i && !old.getLsbD j) := by
  simp only [Sane.autoAdds, has_twoPow]
  split
  · next h => simp_all
  · next h => simp_all

theorem Sane.autoAdds_other {i j k : Nat} (hj : j < 32) (hjk : j ≠ k) (msg : FlagWord) :
    (s.autoAdds old chg (twoPow 32 i) (twoPow 32 j) msg).atr.getLsbD k = s.atr.getLsbD k := by
  simp only [Sane.autoAdds, has_twoPow]
  split
  · rw [BitVec.getLsbD_or, twoPow_getLsbD hj, decide_eq_false hjk, Bool.or_false]
  · rfl

theorem Sane.adds_getLsbD (i : Nat) (guard add msg : FlagWord) (k : Nat) :
    (s.adds (twoPow 32 i) guard add msg).atr.getLsbD k =
      (s.atr.getLsbD k || s.atr.getLsbD i && !s.atr.has guard && add.getLsbD k) := by
  simp only [Sane.adds, has_twoPow]
  split <;> simp_all

end Rules

theorem Sane.pairs_getLsbD (old chg : FlagWord) (s : Sane) (k : Nat) :
    (s.pairs old chg).atr.getLsbD k =
      let op := s.atr.getLsbD 14 && (!s.atr.getLsbD 3 || firstWins old chg userOp userDeop)
      let deop := s.atr.getLsbD 3 && (!s.atr.getLsbD 14 || secondWins old chg userOp userDeop)
      let halfop := s.atr.getLsbD 11 &&
        (!s.atr.getLsbD 17 || firstWins old chg userHalfop userDehalfop)
      let dehalfop := s.atr.getLsbD 17 &&
        (!s.atr.getLsbD 11 || secondWins old chg userHalfop userDehalfop)
      let autoop := s.atr.getLsbD 0 && (!deop || firstWins old chg userAutoop userDeop)
      let autohalfop := s.atr.getLsbD 24 &&
        (!dehalfop || firstWins old chg userAutohalfop userDehalfop)
      let voice := s.atr.getLsbD 21 && (!s.atr.getLsbD 16 || firstWins old chg userVoice userQuiet)
      let quiet := s.atr.getLsbD 16 && (!s.atr.getLsbD 21 || secondWins old chg userVoice userQuiet)
      let gvoice := s.atr.getLsbD 6 && (!quiet || firstWins old chg userGvoice userQuiet)
      match k with
      | 14 => op || autoop && chg.getLsbD 0 && !old.getLsbD 14
      | 3 => deop && (!s.atr.getLsbD 0 || secondWins old chg userAutoop userDeop)
      | 11 => halfop || autohalfop && chg.getLsbD 24 && !old.getLsbD 11
      | 17 => dehalfop && (!s.atr.getLsbD 24 || secondWins old chg userAutohalfop userDehalfop)
      | 0 => autoop
      | 24 => autohalfop
      | 21 => voice || gvoice && chg.getLsbD 6 && !old.getLsbD 21
      | 16 => quiet && (!s.atr.getLsbD 6 || secondWins old chg userGvoice userQuiet)
      | 6 => gvoice
      | k => s.atr.getLsbD k := by
  simp only [Sane.pairs, userAutoop_eq, userDeop_eq, userGvoice_eq, userHalfop_eq, userOp_eq,
    userQuiet_eq, userDehalfop_eq, userVoice_eq, userAutohalfop_eq]
  split
  all_goals
    try simp (disch := decide) only [Sane.autoAdds_self, Sane.autoAdds_other, Sane.pair_first,
      Sane.pair_second, Sane.pair_other]
  rename_i h14 h3 h11 h17 h0 h24 h21 h16 h6
  simp (disch := first | decide | exact Ne.symm ‹_›) only [Sane.autoAdds_other, Sane.pair_other]

theorem Sane.stripBot_getLsbD (s : Sane) (k : Nat) :
    s.stripBot.atr.getLsbD k = (s.atr.getLsbD k && match k with
      | 2 | 12 | 13 | 15 => !s.atr.getLsbD 1
      | _ => true) := by
  simp only [Sane.stripBot, userBot_eq, userParty_eq, userMaster_eq, userCommon_eq, userOwner_eq,
    has_twoPow]
  split
  · next h =>
    simp (disch := decide) only [Sane.strip_getLsbD, h]
    split <;> simp
    grind
  · next h => split <;> simp_all

theorem Sane.userAdds_getLsbD (s : Sane) (k : Nat) :
    s.userAdds.atr.getLsbD k =
      let master := s.atr.getLsbD 12 || s.atr.getLsbD 13
      let bare := master && !(s.atr.getLsbD 19 || s.atr.getLsbD 14 || s.atr.getLsbD 9)
      (s.atr.getLsbD k || match k with
        | 12 => master
        | 9 | 14 | 19 => bare
        | 15 => s.atr.getLsbD 19 || bare
        | 23 => s.atr.getLsbD 9 || bare
        | 11 => s.atr.getLsbD 14 || bare
        | _ => false) := by
  simp only [Sane.userAdds, userMaster_eq, userJanitor_eq, userHalfop_eq, userOp_eq, userParty_eq,
    userBotmast_eq, userXfer_eq, userOwner_eq]
  simp (disch := decide) only [Sane.adds_getLsbD, BitVec.getLsbD_or, twoPow_getLsbD, has_or,
    has_twoPow]
  split <;> simp <;> grind

theorem Sane.chanAdds_getLsbD (s : Sane) (k : Nat) :
    s.chanAdds.atr.getLsbD k =
      let master := s.atr.getLsbD 12 || s.atr.getLsbD 13
      (s.atr.getLsbD k || match k with
        | 12 => master
        | 14 => master
        | 11 => s.atr.getLsbD 14 || master
        | _ => false) := by
  simp only [Sane.chanAdds, userMaster_eq, userHalfop_eq, userOp_eq, userOwner_eq]
  simp (disch := decide) only [Sane.adds_getLsbD, twoPow_getLsbD, has_twoPow]
  split <;> simp <;> grind

theorem not_firstWins_of_secondWins {old chg x d : FlagWord}
    (h : secondWins old chg x d = true) : firstWins old chg x d = false := by
  unfold secondWins at h
  unfold firstWins
  grind

/-- A bot has none of the flags bots may not have. -/
def NoBotFlags (w : FlagWord) : Prop :=
  w.getLsbD 1 → w.getLsbD 2 = false ∧ w.getLsbD 12 = false ∧ w.getLsbD 13 = false ∧
    w.getLsbD 15 = false

theorem Sane.stripBot_noBotFlags (s : Sane) : NoBotFlags s.stripBot.atr := by
  simp only [NoBotFlags, Sane.stripBot_getLsbD]
  grind

/-- No exclusive pair is set, and bots are clean. -/
structure Exclusive (w : FlagWord) : Prop where
  deop : w.getLsbD 3 → w.getLsbD 14 = false ∧ w.getLsbD 0 = false
  dehalfop : w.getLsbD 17 → w.getLsbD 11 = false ∧ w.getLsbD 24 = false
  quiet : w.getLsbD 16 → w.getLsbD 21 = false ∧ w.getLsbD 6 = false
  bot : NoBotFlags w

theorem Sane.pairs_exclusive (old chg : FlagWord) (s : Sane)
    (hbot : NoBotFlags s.atr) : Exclusive (s.pairs old chg).atr := by
  have hx {x d : FlagWord} := @not_firstWins_of_secondWins old chg x d
  constructor
  · simp only [Sane.pairs_getLsbD]
    have h1 := @hx userOp userDeop
    have h2 := @hx userAutoop userDeop
    grind
  · simp only [Sane.pairs_getLsbD]
    have h1 := @hx userHalfop userDehalfop
    have h2 := @hx userAutohalfop userDehalfop
    grind
  · simp only [Sane.pairs_getLsbD]
    have h1 := @hx userVoice userQuiet
    have h2 := @hx userGvoice userQuiet
    grind
  · simpa only [NoBotFlags, Sane.pairs_getLsbD] using hbot

/-- On a word without exclusive pairs, when the implications of `.chattr` leave a fixed point of
the load-time check. -/
theorem Sane.sanityCheck_userAdds_iff {s : Sane} (h : Exclusive s.atr) :
    sanityCheck s.userAdds.atr = s.userAdds.atr ↔
      ¬ ((s.atr.getLsbD 12 || s.atr.getLsbD 13) ∧ s.atr.getLsbD 3) ∧
      ¬ (s.atr.getLsbD 17 ∧ (s.atr.getLsbD 14 ∨ (s.atr.getLsbD 12 || s.atr.getLsbD 13))) ∧
      ((s.atr.getLsbD 12 || s.atr.getLsbD 13) ∧
          (s.atr.getLsbD 19 ∨ s.atr.getLsbD 14 ∨ s.atr.getLsbD 9) →
        s.atr.getLsbD 19 ∧ s.atr.getLsbD 14 ∧ s.atr.getLsbD 9) := by
  obtain ⟨hd, hr, hq, hb⟩ := h
  rw [sanityCheck_eq_self_iff]
  simp only [NoBotFlags, Sane.userAdds_getLsbD] at hb ⊢
  generalize s.atr.getLsbD 0 = w0, s.atr.getLsbD 1 = w1, s.atr.getLsbD 2 = w2,
    s.atr.getLsbD 3 = w3, s.atr.getLsbD 6 = w6, s.atr.getLsbD 9 = w9, s.atr.getLsbD 11 = w11,
    s.atr.getLsbD 12 = w12, s.atr.getLsbD 13 = w13, s.atr.getLsbD 14 = w14,
    s.atr.getLsbD 15 = w15, s.atr.getLsbD 16 = w16, s.atr.getLsbD 17 = w17,
    s.atr.getLsbD 19 = w19, s.atr.getLsbD 21 = w21, s.atr.getLsbD 23 = w23,
    s.atr.getLsbD 24 = w24 at *
  cases hm : w12 || w13
  · grind
  · cases ht : w19 || w14 || w9
    · grind
    · grind

section Chattr

variable (old pls mns : FlagWord)

/-- The flags a `.chattr` leaves that the load-time check looks at again: with the exclusive
pairs settled, a master keeps no `+d`, an op or master keeps no `+r`, and a master has all of
`+t +o +j` or none. -/
def ChattrSettles : Prop :=
  let chg := pls &&& ~~~mns
  let w := wanted old pls mns
  let firstStays (x d : FlagWord) := !w.has d || firstWins old chg x d
  let secondStays (x d : FlagWord) := !w.has x || secondWins old chg x d
  let deop := w.has userDeop && secondStays userOp userDeop
  let autoop := w.has userAutoop && (!deop || firstWins old chg userAutoop userDeop)
  let op := w.has userOp && firstStays userOp userDeop ||
    autoop && chg.has userAutoop && !old.has userOp
  let dehalfop := w.has userDehalfop && secondStays userHalfop userDehalfop &&
    secondStays userAutohalfop userDehalfop
  let master := !w.has userBot && (w.has userMaster || w.has userOwner)
  ¬ (master ∧ deop ∧ secondStays userAutoop userDeop) ∧
  ¬ (dehalfop ∧ (op ∨ master)) ∧
  (master ∧ (w.has userBotmast ∨ op ∨ w.has userJanitor) →
    w.has userBotmast ∧ op ∧ w.has userJanitor)

instance : Decidable (ChattrSettles old pls mns) := by
  unfold ChattrSettles; infer_instance

/-- When the load-time check keeps the global word of a `.chattr`. -/
theorem sanityCheck_userSanityCheck_iff :
    sanityCheck (userSanityCheck old pls mns).atr = (userSanityCheck old pls mns).atr ↔
      ChattrSettles old pls mns := by
  have hbot := Sane.stripBot_noBotFlags ⟨wanted old pls mns, 0⟩
  rw [userSanityCheck, Sane.sanityCheck_userAdds_iff (Sane.pairs_exclusive _ _ _ hbot)]
  have hm (a b c : Bool) : (a && !c || b && !c) = (!c && (a || b)) := by grind
  simp only [Sane.pairs_getLsbD, Sane.stripBot_getLsbD, hm, Bool.and_true]
  simp only [ChattrSettles, userAutoop_eq, userDeop_eq, userHalfop_eq, userOp_eq,
    userDehalfop_eq, userAutohalfop_eq, userMaster_eq, userJanitor_eq, userBotmast_eq,
    userOwner_eq, userBot_eq, has_twoPow]
  simp only [Bool.and_eq_true, and_assoc]

/-- Flags without a letter in global words pass through `.chattr`. -/
theorem userSanityCheck_other {k : Nat} (hk : userValid.getLsbD k = false) :
    (userSanityCheck old pls mns).atr.getLsbD k = (wanted old pls mns).getLsbD k := by
  simp only [userSanityCheck, Sane.userAdds_getLsbD]
  have hpairs (s : Sane) : (s.pairs old (pls &&& ~~~mns)).atr.getLsbD k = s.atr.getLsbD k := by
    rw [Sane.pairs_getLsbD]
    split <;> first | exact absurd hk (by decide) | rfl
  have hbot (s : Sane) : s.stripBot.atr.getLsbD k = s.atr.getLsbD k := by
    rw [Sane.stripBot_getLsbD]
    split <;> first | exact absurd hk (by decide) | exact Bool.and_true _
  rw [hpairs, hbot]
  split <;> first | exact absurd hk (by decide) | exact Bool.or_false _

theorem chanSanityCheck_other (usr : FlagWord) {k : Nat} (hk : chanValid.getLsbD k = false) :
    (chanSanityCheck old pls mns usr).atr.getLsbD k = (wanted old pls mns).getLsbD k := by
  have hpairs (s : Sane) : (s.pairs old (pls &&& ~~~mns)).atr.getLsbD k = s.atr.getLsbD k := by
    rw [Sane.pairs_getLsbD]
    split <;> first | exact absurd hk (by decide) | rfl
  have hadds (s : Sane) : s.chanAdds.atr.getLsbD k = s.atr.getLsbD k := by
    rw [Sane.chanAdds_getLsbD]
    dsimp only
    split <;> first | exact absurd hk (by decide) | exact Bool.or_false _
  have h18 : ¬ 18 = k := by
    rintro rfl
    exact absurd hk (by decide)
  unfold chanSanityCheck
  dsimp only
  split
  · rw [botAggressive_eq, getLsbD_andNot, twoPow_getLsbD (by decide), decide_eq_false h18, hadds,
      hpairs, Bool.not_false, Bool.and_true]
  · rw [hadds, hpairs]

theorem and_eq_self_iff (w v : FlagWord) :
    w &&& v = w ↔ ∀ k, v.getLsbD k = false → w.getLsbD k = false := by
  constructor
  · intro h k hk
    rw [← h, BitVec.getLsbD_and, hk, Bool.and_false]
  · intro h
    apply BitVec.eq_of_getLsbD_eq
    intro k _
    rw [BitVec.getLsbD_and]
    cases hv : v.getLsbD k
    · rw [h k hv, Bool.and_false]
    · rw [Bool.and_true]

theorem sanityCheck_other (w : FlagWord) {k : Nat} (hk : userValid.getLsbD k = false) :
    (sanityCheck w).getLsbD k = w.getLsbD k := by
  rw [sanityCheck_eq, addImplied_getLsbD]
  have hdrop : (dropExclusive w).getLsbD k = w.getLsbD k := by
    rw [dropExclusive_getLsbD]
    split <;> first | exact absurd hk (by decide) | exact Bool.and_true _
  rw [hdrop]
  split <;> first | exact absurd hk (by decide) | exact Bool.or_false _

theorem userLoadCheck_eq_self_iff (w : FlagWord) :
    userLoadCheck w = w ↔ sanityCheck w = w ∧ w &&& userValid = w := by
  unfold userLoadCheck
  constructor
  · intro h
    have hv : w &&& userValid = w := by
      rw [and_eq_self_iff]
      intro k hk
      rw [← h, sanityCheck_other _ hk, BitVec.getLsbD_and, hk, Bool.and_false]
    exact ⟨by rwa [hv] at h, hv⟩
  · rintro ⟨h, hv⟩
    rw [hv, h]

/-- When saving and reloading keeps what `.chattr` accepted, globally and on a channel. -/
theorem chattr_survives_load_iff (cold cpls cmns usr : FlagWord) :
    ((sanityCheck (userSanityCheck old pls mns).atr = (userSanityCheck old pls mns).atr ∧
        userLoadCheck (userSanityCheck old pls mns).atr = (userSanityCheck old pls mns).atr) ∧
      chanLoadCheck (chanSanityCheck cold cpls cmns usr).atr =
        (chanSanityCheck cold cpls cmns usr).atr) ↔
    (ChattrSettles old pls mns ∧ wanted old pls mns &&& userValid = wanted old pls mns) ∧
      wanted cold cpls cmns &&& chanValid = wanted cold cpls cmns := by
  rw [userLoadCheck_eq_self_iff, sanityCheck_userSanityCheck_iff, chanLoadCheck, and_eq_self_iff,
    and_eq_self_iff, and_eq_self_iff, and_eq_self_iff]
  have hu : ∀ k, userValid.getLsbD k = false →
      (userSanityCheck old pls mns).atr.getLsbD k = (wanted old pls mns).getLsbD k :=
    fun k hk => userSanityCheck_other old pls mns hk
  have hc : ∀ k, chanValid.getLsbD k = false →
      (chanSanityCheck cold cpls cmns usr).atr.getLsbD k = (wanted cold cpls cmns).getLsbD k :=
    fun k hk => chanSanityCheck_other cold cpls cmns usr hk
  simp +contextual only [hu, hc]
  tauto

end Chattr

/-- A plain op made master: the source adds none of `+t +o +j` as `+o` is there already, and the
userfile's check adds `+t` and `+j` on the next load. -/
theorem chattr_master_not_kept :
    sanityCheck (userSanityCheck (userOp ||| userHalfop) userMaster 0).atr ≠
      (userSanityCheck (userOp ||| userHalfop) userMaster 0).atr := by
  decide +kernel

end Eggdrop.Users
