import Eggdrop.Users.Flags

/-!
# FlagSanity — what `.chattr` leaves (src/flags.c)

What `user_sanity_check` and `chan_sanity_check` leave should hold no two flags that exclude each
other, should have every flag that another one brings along, and should pass the same check unchanged.
The pairs are settled before the flags are added that others bring along, so a pair can come back.

* `UserSound.iff_sanityCheck`, `chanAdds_sound_iff`: what is asked for, by letter.
* `sound_iff`: when it holds, read off the old word and the change.
-/

namespace Eggdrop.Users

/-! ### What is meant -/

/-- What is asked of a global word. -/
structure UserSound (w : FlagWord) : Prop where
  exclusive : Exclusive w
  owner : w.has userOwner → w.has userMaster
  master : w.has userMaster → w.has userBotmast ∧ w.has userOp ∧ w.has userJanitor
  botmast : w.has userBotmast → w.has userParty
  janitor : w.has userJanitor → w.has userXfer
  op : w.has userOp → w.has userHalfop
  fixed : (userSanityCheck w 0 0).atr = w

/-- What is asked of a channel word of a user with the global word `usr`. -/
structure ChanSound (usr w : FlagWord) : Prop where
  deop : w.has userDeop → w.has userOp = false ∧ w.has userAutoop = false
  dehalfop : w.has userDehalfop → w.has userHalfop = false ∧ w.has userAutohalfop = false
  quiet : w.has userQuiet → w.has userVoice = false ∧ w.has userGvoice = false
  owner : w.has userOwner → w.has userMaster
  master : w.has userMaster → w.has userOp
  op : w.has userOp → w.has userHalfop
  fixed : (chanSanityCheck w 0 0 usr).atr = w

/-- The flags of a channel word that bring back a pair: a master keeps no `+d`, and an op or master
keeps no `+r`, once the pairs are settled. -/
def ChanSettles (old pls mns : FlagWord) : Prop :=
  let chg := pls &&& ~~~mns
  let w := wanted old pls mns
  let firstStays (x d : FlagWord) := !w.has d || firstWins old chg x d
  let secondStays (x d : FlagWord) := !w.has x || secondWins old chg x d
  let deop := w.has userDeop && secondStays userOp userDeop
  let autoop := w.has userAutoop && (!deop || firstWins old chg userAutoop userDeop)
  let op := w.has userOp && firstStays userOp userDeop ||
    autoop && chg.has userAutoop && !old.has userOp
  let dehalfop := w.has userDehalfop && secondStays userHalfop userDehalfop &&
    secondStays userAutohalfop userDehalfop
  let master := w.has userMaster || w.has userOwner
  ¬ (master ∧ deop ∧ secondStays userAutoop userDeop) ∧ ¬ (dehalfop ∧ (op ∨ master))

instance (old pls mns : FlagWord) : Decidable (ChanSettles old pls mns) := by
  unfold ChanSettles; infer_instance

/-! ### A check that changes nothing -/

section Fixed

variable {w usr : FlagWord}

theorem wanted_zero (w : FlagWord) : wanted w 0 0 = w :=
  BitVec.eq_of_getLsbD_eq fun k _ => by
    rw [wanted, getLsbD_andNot]
    simp

theorem Sane.pairs_zero {s : Sane}
    (hdeop : s.atr.getLsbD 3 → s.atr.getLsbD 14 = false ∧ s.atr.getLsbD 0 = false)
    (hdehalfop : s.atr.getLsbD 17 → s.atr.getLsbD 11 = false ∧ s.atr.getLsbD 24 = false)
    (hquiet : s.atr.getLsbD 16 → s.atr.getLsbD 21 = false ∧ s.atr.getLsbD 6 = false)
    (old : FlagWord) : (s.pairs old 0).atr = s.atr := by
  apply BitVec.eq_of_getLsbD_eq
  intro k _
  rw [Sane.pairs_getLsbD]
  split <;> grind

theorem Sane.stripBot_self {s : Sane} (h : NoBotFlags s.atr) : s.stripBot.atr = s.atr := by
  apply BitVec.eq_of_getLsbD_eq
  intro k _
  rw [Sane.stripBot_getLsbD]
  unfold NoBotFlags at h
  split <;> grind

theorem zero_andNot : (0 : FlagWord) &&& ~~~0 = 0 := by decide

end Fixed

/-! ### The global word -/

section User

/-- What is asked of a global word is what the check on load asks, and that no bot has `+p`. -/
theorem UserSound.iff_sanityCheck (w : FlagWord) :
    UserSound w ↔ sanityCheck w = w ∧ ¬(w.has userBot ∧ w.has userParty) := by
  rw [sanityCheck_eq_self_iff]
  simp only [userBot_eq, userParty_eq, has_twoPow]
  constructor
  · intro h
    have hexcl := h.exclusive
    have hown := h.owner
    have hmast := h.master
    have hbotm := h.botmast
    have hjan := h.janitor
    have hop := h.op
    simp only [userMaster_eq, userJanitor_eq, userHalfop_eq, userOp_eq, userParty_eq,
      userBotmast_eq, userXfer_eq, userOwner_eq, has_twoPow] at hown hmast hbotm hjan hop
    have hbot := hexcl.bot
    unfold NoBotFlags at hbot
    refine ⟨⟨?_, hexcl.deop, hexcl.dehalfop, hexcl.quiet, hown, hmast, hbotm, hjan, hop⟩, ?_⟩
    · intro h1
      obtain ⟨h2, h12, h13, h15⟩ := hbot h1
      exact ⟨h2, h12, h13, fun hparty => absurd (hparty.symm.trans h15) (by decide)⟩
    · intro h1
      exact absurd (h1.2.symm.trans (hbot h1.1).2.2.2) (by decide)
  · intro h
    obtain ⟨⟨hbot, hdeop, hdehalfop, hquiet, hown, hmast, hbotm, hjan, hop⟩, hparty⟩ := h
    have hno : NoBotFlags w := by
      intro h1
      obtain ⟨h2, h12, h13, -⟩ := hbot h1
      exact ⟨h2, h12, h13, Bool.eq_false_iff.2 fun h15 => hparty ⟨h1, h15⟩⟩
    refine ⟨⟨hdeop, hdehalfop, hquiet, hno⟩, ?_, ?_, ?_, ?_, ?_, ?_⟩
    · simpa only [userMaster_eq, userOwner_eq, has_twoPow] using hown
    · simpa only [userMaster_eq, userJanitor_eq, userOp_eq, userBotmast_eq, has_twoPow] using hmast
    · simpa only [userParty_eq, userBotmast_eq, has_twoPow] using hbotm
    · simpa only [userJanitor_eq, userXfer_eq, has_twoPow] using hjan
    · simpa only [userOp_eq, userHalfop_eq, has_twoPow] using hop
    · -- nothing to strip, no pair to settle, and every flag is there
      have hstrip : (Sane.stripBot ⟨w, 0⟩).atr = w := Sane.stripBot_self hno
      have hpairs : ((Sane.stripBot ⟨w, 0⟩).pairs w 0).atr = w := by
        rw [Sane.pairs_zero] <;> rw [hstrip] <;> assumption
      simp only [userSanityCheck, wanted_zero, zero_andNot]
      apply BitVec.eq_of_getLsbD_eq
      intro k _
      rw [Sane.userAdds_getLsbD, hpairs]
      split <;> grind

variable (old pls mns : FlagWord)

/-- A bot gets `+p` back exactly when it is to have `+t`. -/
theorem userSanityCheck_bot_party :
    ((userSanityCheck old pls mns).atr.has userBot ∧
        (userSanityCheck old pls mns).atr.has userParty) ↔
      (wanted old pls mns).has userBot ∧ (wanted old pls mns).has userBotmast := by
  simp only [userSanityCheck, userBot_eq, userParty_eq, userBotmast_eq, has_twoPow,
    Sane.userAdds_getLsbD, Sane.pairs_getLsbD, Sane.stripBot_getLsbD]
  grind

end User

/-! ### The channel word -/

section Chan

variable (usr : FlagWord)

/-- The last rule of `chan_sanity_check`. -/
def dropAggressive (s : Sane) : Sane :=
  if !usr.has userBot && s.atr.has botAggressive then
    ⟨s.atr &&& ~~~botAggressive, s.msgids ||| ucSaneNobotownsaggr⟩
  else s

theorem chanSanityCheck_eq (old pls mns : FlagWord) :
    chanSanityCheck old pls mns usr =
      dropAggressive usr ((Sane.pairs old (pls &&& ~~~mns) ⟨wanted old pls mns, 0⟩).chanAdds) := rfl

theorem dropAggressive_getLsbD (s : Sane) (k : ℕ) :
    (dropAggressive usr s).atr.getLsbD k =
      (s.atr.getLsbD k && !(!usr.has userBot && decide (18 = k))) := by
  unfold dropAggressive
  rw [botAggressive_eq, has_twoPow]
  split
  · next h =>
    rw [getLsbD_andNot, twoPow_getLsbD (by decide)]
    simp_all
  · next h => grind

theorem chanSanityCheck_self {w : FlagWord}
    (hdeop : w.getLsbD 3 → w.getLsbD 14 = false ∧ w.getLsbD 0 = false)
    (hdehalfop : w.getLsbD 17 → w.getLsbD 11 = false ∧ w.getLsbD 24 = false)
    (hquiet : w.getLsbD 16 → w.getLsbD 21 = false ∧ w.getLsbD 6 = false)
    (howner : w.getLsbD 13 → w.getLsbD 12) (hmaster : w.getLsbD 12 → w.getLsbD 14)
    (hop : w.getLsbD 14 → w.getLsbD 11) (haggr : w.getLsbD 18 → usr.has userBot) :
    (chanSanityCheck w 0 0 usr).atr = w := by
  have hpairs : (Sane.pairs w 0 ⟨w, 0⟩).atr = w :=
    @Sane.pairs_zero ⟨w, 0⟩ hdeop hdehalfop hquiet w
  rw [chanSanityCheck_eq, wanted_zero, zero_andNot]
  apply BitVec.eq_of_getLsbD_eq
  intro k _
  rw [dropAggressive_getLsbD, Sane.chanAdds_getLsbD, hpairs]
  dsimp only
  split <;> grind

/-- The channel word is sound unless a flag that is brought along brings back a pair. -/
theorem chanAdds_sound_iff {s : Sane}
    (hdeop : s.atr.getLsbD 3 → s.atr.getLsbD 14 = false ∧ s.atr.getLsbD 0 = false)
    (hdehalfop : s.atr.getLsbD 17 → s.atr.getLsbD 11 = false ∧ s.atr.getLsbD 24 = false)
    (hquiet : s.atr.getLsbD 16 → s.atr.getLsbD 21 = false ∧ s.atr.getLsbD 6 = false) :
    ChanSound usr (dropAggressive usr s.chanAdds).atr ↔
      ¬((s.atr.getLsbD 12 || s.atr.getLsbD 13) ∧ s.atr.getLsbD 3) ∧
      ¬(s.atr.getLsbD 17 ∧ (s.atr.getLsbD 14 ∨ (s.atr.getLsbD 12 || s.atr.getLsbD 13))) := by
  have hbit (k : ℕ) := dropAggressive_getLsbD usr s.chanAdds k
  simp only [Sane.chanAdds_getLsbD] at hbit
  have h0 := hbit 0
  have h3 := hbit 3
  have h6 := hbit 6
  have h11 := hbit 11
  have h12 := hbit 12
  have h13 := hbit 13
  have h14 := hbit 14
  have h16 := hbit 16
  have h17 := hbit 17
  have h18 := hbit 18
  have h21 := hbit 21
  have h24 := hbit 24
  clear hbit
  simp only [Bool.or_false, Nat.reduceEqDiff, decide_false, decide_true, Bool.and_false,
    Bool.not_false, Bool.and_true] at h0 h3 h6 h11 h12 h13 h14 h16 h17 h18 h21 h24
  constructor
  · intro h
    have hd := h.deop
    have hr := h.dehalfop
    simp only [userDeop_eq, userOp_eq, userAutoop_eq, userDehalfop_eq, userHalfop_eq,
      userAutohalfop_eq, has_twoPow] at hd hr
    grind
  · intro h
    generalize (dropAggressive usr s.chanAdds).atr = w at *
    have hd : w.getLsbD 3 → w.getLsbD 14 = false ∧ w.getLsbD 0 = false := by
      rw [h3, h14, h0]
      grind only
    have hr : w.getLsbD 17 → w.getLsbD 11 = false ∧ w.getLsbD 24 = false := by
      rw [h17, h11, h24]
      grind only
    have hq : w.getLsbD 16 → w.getLsbD 21 = false ∧ w.getLsbD 6 = false := by
      rw [h16, h21, h6]
      exact hquiet
    have hown : w.getLsbD 13 → w.getLsbD 12 := by
      rw [h13, h12]
      grind only
    have hmast : w.getLsbD 12 → w.getLsbD 14 := by
      rw [h12, h14]
      grind only
    have hop : w.getLsbD 14 → w.getLsbD 11 := by
      rw [h14, h11]
      grind only
    have haggr : w.getLsbD 18 → usr.has userBot := by
      rw [h18]
      grind only
    have hfixed := chanSanityCheck_self usr hd hr hq hown hmast hop haggr
    refine ⟨?_, ?_, ?_, ?_, ?_, ?_, hfixed⟩
    · simpa only [userDeop_eq, userOp_eq, userAutoop_eq, has_twoPow] using hd
    · simpa only [userDehalfop_eq, userHalfop_eq, userAutohalfop_eq, has_twoPow] using hr
    · simpa only [userQuiet_eq, userVoice_eq, userGvoice_eq, has_twoPow] using hq
    · simpa only [userOwner_eq, userMaster_eq, has_twoPow] using hown
    · simpa only [userMaster_eq, userOp_eq, has_twoPow] using hmast
    · simpa only [userOp_eq, userHalfop_eq, has_twoPow] using hop

theorem chanSound_chanSanityCheck_iff (old pls mns : FlagWord) :
    ChanSound usr (chanSanityCheck old pls mns usr).atr ↔ ChanSettles old pls mns := by
  have hx {x d : FlagWord} := @not_firstWins_of_secondWins old (pls &&& ~~~mns) x d
  rw [chanSanityCheck_eq, chanAdds_sound_iff]
  · simp only [Sane.pairs_getLsbD]
    simp only [ChanSettles, userAutoop_eq, userDeop_eq, userHalfop_eq, userOp_eq,
      userDehalfop_eq, userAutohalfop_eq, userMaster_eq, userOwner_eq, has_twoPow]
    simp only [Bool.and_eq_true, and_assoc]
  · simp only [Sane.pairs_getLsbD]
    have h1 := @hx userOp userDeop
    have h2 := @hx userAutoop userDeop
    grind
  · simp only [Sane.pairs_getLsbD]
    have h1 := @hx userHalfop userDehalfop
    have h2 := @hx userAutohalfop userDehalfop
    grind
  · simp only [Sane.pairs_getLsbD]
    have h1 := @hx userVoice userQuiet
    have h2 := @hx userGvoice userQuiet
    grind

end Chan

/-! ### Both words -/

/-- The words that `.chattr` leaves are sound exactly when what is asked for settles. -/
theorem sound_iff (old pls mns usr : FlagWord) :
    (UserSound (userSanityCheck old pls mns).atr ↔
      ChattrSettles old pls mns ∧
        ¬((wanted old pls mns).has userBot ∧ (wanted old pls mns).has userBotmast)) ∧
    (ChanSound usr (chanSanityCheck old pls mns usr).atr ↔ ChanSettles old pls mns) := by
  constructor
  · rw [UserSound.iff_sanityCheck, sanityCheck_userSanityCheck_iff, userSanityCheck_bot_party]
  · exact chanSound_chanSanityCheck_iff usr old pls mns

/-- A master that is an op already gets neither `+t` nor `+j`, and a master with `+d` is an op. -/
theorem not_sound :
    ¬(UserSound (userSanityCheck 0 (userMaster ||| userOp) 0).atr) ∧
      ¬(ChanSound 0 (chanSanityCheck 0 (userMaster ||| userDeop) 0 0).atr) := by
  constructor
  · intro h
    exact absurd (h.master (by decide +kernel)) (by decide +kernel)
  · intro h
    exact absurd (h.deop (by decide +kernel)) (by decide +kernel)

end Eggdrop.Users
