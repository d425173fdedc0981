import Eggdrop.Users.Flags

/-!
# BotSanity — what `.botattr` leaves (src/flags.c)

`bot_sanity_check` settles one exclusion after the other on the new word of a bot.  A contest that
asks for both sides gives back what was there before, also a side that an earlier contest had taken
away, so what is settled first can come back.

* `shares_botSanityCheck`, `links_botSanityCheck`: what the contests leave, kind by kind.
* `botSound_iff`: when no two exclusive flags are left, read off the old word and the change.
-/

namespace Eggdrop.Users

/-- The word of a bot's flags, an `intptr_t`. -/
abbrev BotWord := BitVec 64

/-- `w & f` read as a C condition. -/
def BotWord.has (w f : BotWord) : Bool := w &&& f != 0

section Constants

def botAlt : BotWord := 0x00000001
def botShban : BotWord := 0x00000002
def botShchan : BotWord := 0x00000004
def botShlimited : BotWord := 0x00000008
def botShexempt : BotWord := 0x00000010
def botGlobal : BotWord := 0x00000040
def botHub : BotWord := 0x00000080
def botShinv : BotWord := 0x00000200
def botShign : BotWord := 0x00002000
def botPassive : BotWord := 0x00008000
def botReject : BotWord := 0x00020000
/-- `BOT_AGGRESSIVE` in a word of bot flags. -/
def botAggr : BotWord := 0x00040000
def botShuser : BotWord := 0x00100000

def botShperms : BotWord :=
  botShban ||| botShchan ||| botShexempt ||| botShign ||| botShinv ||| botShuser ||| botShlimited
def botShare : BotWord := botAggr ||| botPassive ||| botShperms

def botSaneAltownshub : FlagWord := 0x00000001
def botSaneHubownsalt : FlagWord := 0x00000002
def botSaneOwnsalthub : FlagWord := 0x00000004
def botSaneShpownsaggr : FlagWord := 0x00000008
def botSaneAggrownsshp : FlagWord := 0x00000010
def botSaneOwnsshpaggr : FlagWord := 0x00000020
def botSaneShpownspass : FlagWord := 0x00000040
def botSanePassownsshp : FlagWord := 0x00000080
def botSaneOwnsshppass : FlagWord := 0x00000100
def botSaneShareownsrej : FlagWord := 0x00000200
def botSaneRejownsshare : FlagWord := 0x00000400
def botSaneOwnssharerej : FlagWord := 0x00000800
def botSaneHubownsrej : FlagWord := 0x00001000
def botSaneRejownshub : FlagWord := 0x00002000
def botSaneOwnshubrej : FlagWord := 0x00004000
def botSaneAltownsrej : FlagWord := 0x00008000
def botSaneRejownsalt : FlagWord := 0x00010000
def botSaneOwnsaltrej : FlagWord := 0x00020000
def botSaneAggrownspass : FlagWord := 0x00040000
def botSanePassownsaggr : FlagWord := 0x00080000
def botSaneOwnsaggrpass : FlagWord := 0x00100000
def botSaneNoshareownsglob : FlagWord := 0x00200000
def botSaneOwnsglob : FlagWord := 0x00400000

end Constants

/-! ### The check -/

/-- A bot's word under check and the messages it has earned so far. -/
structure BotSane where
  atr : BotWord
  msgids : FlagWord
deriving DecidableEq, Repr

namespace BotSane

/-- The contest of two kinds of flag that are both set.  When both are asked for, `kept` is given
back if it was there, and `other` if only that was; else the first of `first` and `second` that
was there goes, and both go when neither was. -/
def settle (old chg kept other first second : BotWord) (ownsBoth ownsFirst ownsSecond : FlagWord)
    (s : BotSane) : BotSane :=
  if chg.has kept && chg.has other then
    let atr := s.atr &&& ~~~(kept ||| other)
    ⟨if old.has kept then atr ||| kept else if old.has other then atr ||| other else atr,
      s.msgids ||| ownsBoth⟩
  else if old.has first then ⟨s.atr &&& ~~~first, s.msgids ||| ownsFirst⟩
  else if old.has second then ⟨s.atr &&& ~~~second, s.msgids ||| ownsSecond⟩
  else ⟨s.atr &&& ~~~(kept ||| other), s.msgids ||| ownsBoth⟩

/-- The contest where a `kept` flag is set. -/
def contend (old chg kept other first second : BotWord) (ownsBoth ownsFirst ownsSecond : FlagWord)
    (s : BotSane) : BotSane :=
  if s.atr.has kept then
    s.settle old chg kept other first second ownsBoth ownsFirst ownsSecond
  else s

/-- `+h` (hub) and `+a` (alt hub). -/
def hubAlt (old chg : BotWord) (s : BotSane) : BotSane :=
  if s.atr.has botHub then
    s.contend old chg botAlt botHub botHub botAlt botSaneOwnsalthub botSaneAltownshub
      botSaneHubownsalt
  else s

/-- `+b|c|e|j|n|u|d` (granular sharing) and `+s` (aggressive) or `+p` (passive sharing). -/
def granular (old chg : BotWord) (s : BotSane) : BotSane :=
  if s.atr.has botShperms then
    let s := s.contend old chg botAggr botShperms botAggr botShperms botSaneOwnsshpaggr
      botSaneShpownsaggr botSaneAggrownsshp
    -- the granular flags are not looked at again
    s.contend old chg botPassive botShperms botPassive botShperms botSaneOwnsshppass
      botSaneShpownspass botSanePassownsshp
  else s

/-- `+r` (reject) and sharing, `+h` or `+a`. -/
def reject (old chg : BotWord) (s : BotSane) : BotSane :=
  if s.atr.has botReject then
    let s := s.contend old chg botShare botReject botReject botShare botSaneOwnssharerej
      botSaneShareownsrej botSaneRejownsshare
    -- nor is `+r`, which the contest may have taken away
    let s := s.contend old chg botHub botReject botReject botHub botSaneOwnshubrej
      botSaneHubownsrej botSaneRejownshub
    s.contend old chg botAlt botReject botReject botAlt botSaneOwnsaltrej botSaneAltownsrej
      botSaneRejownsalt
  else s

/-- `+p` (passive) and `+s` (aggressive). -/
def passAggr (old chg : BotWord) (s : BotSane) : BotSane :=
  if s.atr.has botPassive then
    s.contend old chg botAggr botPassive botPassive botAggr botSaneOwnsaggrpass
      botSaneAggrownspass botSanePassownsaggr
  else s

/-- No sharing and `+g` (all channels shared). -/
def globalShare (old : BotWord) (s : BotSane) : BotSane :=
  if !s.atr.has botShare && s.atr.has botGlobal then
    if old.has botGlobal then ⟨s.atr &&& ~~~botGlobal, s.msgids ||| botSaneNoshareownsglob⟩
    else if !old.has botShare then ⟨s.atr &&& ~~~botGlobal, s.msgids ||| botSaneOwnsglob⟩
    else s
  else s

end BotSane

/-- `bot_sanity_check`: the word it leaves in `*atr`, and the messages it returns. -/
def botSanityCheck (atr plsAtr minAtr : BotWord) : BotSane :=
  let chg := plsAtr &&& ~~~minAtr
  let s : BotSane := ⟨(atr ||| plsAtr) &&& ~~~minAtr, 0⟩
  let s := s.hubAlt atr chg
  let s := s.granular atr chg
  let s := s.reject atr chg
  let s := s.passAggr atr chg
  s.globalShare atr

/-! ### Kinds of flag -/

namespace BotWord

variable {c d m w : BotWord}

theorem has_iff : w.has c ↔ ∃ k, w.getLsbD k ∧ c.getLsbD k := by
  unfold has
  rw [bne_iff_ne, ← not_iff_not, not_not]
  push Not
  constructor
  · intro h k hw hc
    have hbit := congrArg (fun v => v.getLsbD k) h
    simp [hw, hc] at hbit
  · intro h
    ext k hk
    have hbit := h k
    simp only [BitVec.getElem_and, BitVec.getLsbD_eq_getElem hk] at hbit ⊢
    grind

theorem has_clear_of_disjoint (h : m.has c = false) : (w &&& ~~~m).has c = w.has c := by
  rw [Bool.eq_iff_iff, has_iff, has_iff]
  constructor
  · intro hw
    obtain ⟨k, hk, hc⟩ := hw
    simp at hk
    exact ⟨k, hk.1, hc⟩
  · intro hw
    obtain ⟨k, hk, hc⟩ := hw
    have hm : m.getLsbD k = false := by
      by_contra hm
      rw [Bool.not_eq_false] at hm
      exact absurd (has_iff.2 ⟨k, hm, hc⟩) (by simp [h])
    have hlt : k < 64 := BitVec.lt_of_getLsbD hk
    refine ⟨k, ?_, hc⟩
    rw [BitVec.getLsbD_and, BitVec.getLsbD_not, hk, hm]
    simp [hlt]

theorem has_clear_of_sub (h : c.has (~~~m) = false) : (w &&& ~~~m).has c = false := by
  rw [← Bool.not_eq_true, has_iff]
  intro hw
  obtain ⟨k, hk, hc⟩ := hw
  rw [BitVec.getLsbD_and, Bool.and_eq_true] at hk
  exact absurd (has_iff.2 ⟨k, hc, hk.2⟩) (by simp [h])

theorem has_set_of_disjoint (h : m.has c = false) : (w ||| m).has c = w.has c := by
  rw [Bool.eq_iff_iff, has_iff, has_iff]
  constructor
  · intro hw
    obtain ⟨k, hk, hc⟩ := hw
    rw [BitVec.getLsbD_or, Bool.or_eq_true] at hk
    cases hk with
    | inl hk => exact ⟨k, hk, hc⟩
    | inr hk => exact absurd (has_iff.2 ⟨k, hk, hc⟩) (by simp [h])
  · intro hw
    obtain ⟨k, hk, hc⟩ := hw
    exact ⟨k, by simp [hk], hc⟩

theorem has_set_of_meets (h : m.has c = true) : (w ||| m).has c = true := by
  obtain ⟨k, hk, hc⟩ := has_iff.1 h
  exact has_iff.2 ⟨k, by simp [hk], hc⟩

theorem has_union : w.has (c ||| d) = (w.has c || w.has d) := by
  rw [Bool.eq_iff_iff, Bool.or_eq_true, has_iff, has_iff, has_iff, ← exists_or]
  refine exists_congr fun k => ?_
  rw [BitVec.getLsbD_or, Bool.or_eq_true]
  tauto

end BotWord

/-! ### Contests -/

/-- What a contest goes by: whether both sides are asked for, which of them yields first, and what
was there before. -/
structure Contest where
  both : Bool
  keptFirst : Bool
  oldKept : Bool
  oldOther : Bool

namespace Contest

/-- What is left of a flag of the kept side. -/
def kept (t : Contest) (had : Bool) : Bool :=
  if t.both then t.oldKept
  else if t.keptFirst then !t.oldKept && t.oldOther && had
  else t.oldOther && had

/-- What is left of a flag of the other side. -/
def other (t : Contest) (had : Bool) : Bool :=
  if t.both then !t.oldKept && t.oldOther
  else if t.keptFirst then t.oldKept && had
  else !t.oldOther && t.oldKept && had

end Contest

/-- The contest of two kinds of flag in given words. -/
def contest (old chg kept other : BotWord) (keptFirst : Bool) : Contest :=
  ⟨chg.has kept && chg.has other, keptFirst, old.has kept, old.has other⟩

namespace BotSane

variable {old chg k o first second c : BotWord} {m m₁ m₂ : FlagWord} {s : BotSane}

theorem has_settle_untouched (hk : k.has c = false) (ho : o.has c = false)
    (hfirst : first.has c = false) (hsecond : second.has c = false) :
    (s.settle old chg k o first second m m₁ m₂).atr.has c = s.atr.has c := by
  have hko : (k ||| o).has c = false := by
    rw [BotWord.has_set_of_disjoint ho, hk]
  unfold settle
  split_ifs <;>
    simp only [BotWord.has_clear_of_disjoint, BotWord.has_set_of_disjoint, hk, ho, hko, hfirst,
      hsecond]

theorem has_settle_kept (f : Bool) (hfirst : first = cond f k o) (hsecond : second = cond f o k)
    (hsub : c.has (~~~k) = false) (hk : k.has c = true) (ho : o.has c = false) :
    (s.settle old chg k o first second m m₁ m₂).atr.has c =
      (contest old chg k o f).kept (s.atr.has c) := by
  have hclear (w : BotWord) : (w &&& ~~~(k ||| o)).has c = false := by
    rw [BitVec.not_or, ← BitVec.and_assoc, BotWord.has_clear_of_disjoint ho,
      BotWord.has_clear_of_sub hsub]
  subst hfirst hsecond
  cases f
  · unfold settle contest Contest.kept
    grind [BotWord.has_clear_of_disjoint, BotWord.has_clear_of_sub, BotWord.has_set_of_disjoint,
      BotWord.has_set_of_meets]
  · unfold settle contest Contest.kept
    grind [BotWord.has_clear_of_disjoint, BotWord.has_clear_of_sub, BotWord.has_set_of_disjoint,
      BotWord.has_set_of_meets]

theorem has_settle_other (f : Bool) (hfirst : first = cond f k o) (hsecond : second = cond f o k)
    (hsub : c.has (~~~o) = false) (ho : o.has c = true) (hk : k.has c = false) :
    (s.settle old chg k o first second m m₁ m₂).atr.has c =
      (contest old chg k o f).other (s.atr.has c) := by
  have hclear (w : BotWord) : (w &&& ~~~(k ||| o)).has c = false := by
    rw [BitVec.not_or, ← BitVec.and_assoc, BotWord.has_clear_of_sub hsub]
  subst hfirst hsecond
  cases f
  · unfold settle contest Contest.other
    grind [BotWord.has_clear_of_disjoint, BotWord.has_clear_of_sub, BotWord.has_set_of_disjoint,
      BotWord.has_set_of_meets]
  · unfold settle contest Contest.other
    grind [BotWord.has_clear_of_disjoint, BotWord.has_clear_of_sub, BotWord.has_set_of_disjoint,
      BotWord.has_set_of_meets]

theorem has_contend_untouched (hk : k.has c = false) (ho : o.has c = false)
    (hfirst : first.has c = false) (hsecond : second.has c = false) :
    (s.contend old chg k o first second m m₁ m₂).atr.has c = s.atr.has c := by
  unfold contend
  split_ifs
  · exact has_settle_untouched hk ho hfirst hsecond
  · rfl

/-! A contest in the two orders in which `bot_sanity_check` asks. -/

theorem has_contend_kept_first (hsub : c.has (~~~k) = false) (hk : k.has c = true)
    (ho : o.has c = false) : (s.contend old chg k o k o m m₁ m₂).atr.has c =
      if s.atr.has k then (contest old chg k o true).kept (s.atr.has c) else s.atr.has c := by
  unfold contend
  split_ifs
  · exact has_settle_kept true rfl rfl hsub hk ho
  · rfl

theorem has_contend_kept_last (hsub : c.has (~~~k) = false) (hk : k.has c = true)
    (ho : o.has c = false) : (s.contend old chg k o o k m m₁ m₂).atr.has c =
      if s.atr.has k then (contest old chg k o false).kept (s.atr.has c) else s.atr.has c := by
  unfold contend
  split_ifs
  · exact has_settle_kept false rfl rfl hsub hk ho
  · rfl

theorem has_contend_other_first (hsub : c.has (~~~o) = false) (ho : o.has c = true)
    (hk : k.has c = false) : (s.contend old chg k o k o m m₁ m₂).atr.has c =
      if s.atr.has k then (contest old chg k o true).other (s.atr.has c) else s.atr.has c := by
  unfold contend
  split_ifs
  · exact has_settle_other true rfl rfl hsub ho hk
  · rfl

theorem has_contend_other_last (hsub : c.has (~~~o) = false) (ho : o.has c = true)
    (hk : k.has c = false) : (s.contend old chg k o o k m m₁ m₂).atr.has c =
      if s.atr.has k then (contest old chg k o false).other (s.atr.has c) else s.atr.has c := by
  unfold contend
  split_ifs
  · exact has_settle_other false rfl rfl hsub ho hk
  · rfl

end BotSane

/-! ### Kinds of flag -/

/-- The three ways to share. -/
structure Shares where
  aggr : Bool
  pass : Bool
  gran : Bool

/-- The two ways to link. -/
structure Links where
  hub : Bool
  alt : Bool

namespace BotWord

def shares (w : BotWord) : Shares := ⟨w.has botAggr, w.has botPassive, w.has botShperms⟩

def links (w : BotWord) : Links := ⟨w.has botHub, w.has botAlt⟩

end BotWord

/-- Whether anything is shared. -/
def Shares.any (s : Shares) : Bool := s.aggr || s.pass || s.gran

theorem BotWord.any_shares (w : BotWord) : w.shares.any = w.has botShare := by
  rw [botShare, has_union, has_union]
  rfl

namespace Links

/-- `hubAlt`, by kind. -/
def hubAlt (old chg l : Links) : Links :=
  let t : Contest := ⟨chg.alt && chg.hub, false, old.alt, old.hub⟩
  if l.hub && l.alt then ⟨t.other l.hub, t.kept l.alt⟩ else l

/-- The contests of `+r` with `+h` and `+a`, once `+r` and sharing are settled. -/
def reject (old chg : Links) (oldr chgr : Bool) (l : Links) (r : Bool) : Links × Bool :=
  let t : Contest := ⟨chg.hub && chgr, false, old.hub, oldr⟩
  let u : Contest := ⟨chg.alt && chgr, false, old.alt, oldr⟩
  let r := if l.hub then t.other r else r
  (⟨if l.hub then t.kept l.hub else l.hub, if l.alt then u.kept l.alt else l.alt⟩,
    if l.alt then u.other r else r)

end Links

namespace Shares

/-- `granular`, by kind. -/
def granular (old chg s : Shares) : Shares :=
  let t : Contest := ⟨chg.aggr && chg.gran, true, old.aggr, old.gran⟩
  let u : Contest := ⟨chg.pass && chg.gran, true, old.pass, old.gran⟩
  if s.gran then
    let gran := if s.aggr then t.other s.gran else s.gran
    ⟨if s.aggr then t.kept s.aggr else s.aggr, if s.pass then u.kept s.pass else s.pass,
      if s.pass then u.other gran else gran⟩
  else s

/-- The contest of `+r` and sharing. -/
def reject (old chg : Shares) (oldr chgr : Bool) (s : Shares) (r : Bool) : Shares × Bool :=
  let t : Contest := ⟨chg.any && chgr, false, old.any, oldr⟩
  if s.any then (⟨t.kept s.aggr, t.kept s.pass, t.kept s.gran⟩, t.other r) else (s, r)

/-- `passAggr`, by kind. -/
def passAggr (old chg s : Shares) : Shares :=
  let t : Contest := ⟨chg.aggr && chg.pass, false, old.aggr, old.pass⟩
  if s.pass && s.aggr then ⟨t.kept s.aggr, t.other s.pass, s.gran⟩ else s

end Shares

/-! ### The check, by kind -/

namespace BotSane

open BotWord

variable (old chg : BotWord) (s : BotSane)

theorem has_hubAlt {c : BotWord} (ha : botAlt.has c = false) (hh : botHub.has c = false) :
    (s.hubAlt old chg).atr.has c = s.atr.has c := by
  unfold hubAlt
  split_ifs
  · exact has_contend_untouched ha hh hh ha
  · rfl

theorem links_hubAlt :
    (s.hubAlt old chg).atr.links = Links.hubAlt old.links chg.links s.atr.links := by
  unfold hubAlt Links.hubAlt links
  cases hhub : s.atr.has botHub with
  | false =>
    simp [hhub]
  | true =>
    simp (disch := decide) only [has_contend_kept_last, has_contend_other_last, contest, if_true,
      Bool.true_and, hhub]
    split_ifs <;> rfl

theorem shares_hubAlt : (s.hubAlt old chg).atr.shares = s.atr.shares := by
  unfold shares
  rw [has_hubAlt old chg s (by decide) (by decide), has_hubAlt old chg s (by decide) (by decide),
    has_hubAlt old chg s (by decide) (by decide)]

theorem has_granular {c : BotWord} (ha : botAggr.has c = false) (hp : botPassive.has c = false)
    (hs : botShperms.has c = false) : (s.granular old chg).atr.has c = s.atr.has c := by
  unfold granular
  split_ifs
  · rw [has_contend_untouched hp hs hp hs, has_contend_untouched ha hs ha hs]
  · rfl

theorem shares_granular :
    (s.granular old chg).atr.shares = Shares.granular old.shares chg.shares s.atr.shares := by
  unfold granular Shares.granular shares
  cases hgran : s.atr.has botShperms with
  | false => simp [hgran]
  | true =>
    simp (disch := decide) only [has_contend_kept_first, has_contend_other_first,
      has_contend_untouched, contest, if_true, hgran]

theorem links_granular : (s.granular old chg).atr.links = s.atr.links := by
  unfold links
  rw [has_granular old chg s (by decide) (by decide) (by decide),
    has_granular old chg s (by decide) (by decide) (by decide)]

theorem has_reject {c : BotWord} (hs : botShare.has c = false) (hr : botReject.has c = false)
    (hh : botHub.has c = false) (ha : botAlt.has c = false) :
    (s.reject old chg).atr.has c = s.atr.has c := by
  unfold reject
  split_ifs
  · rw [has_contend_untouched ha hr hr ha, has_contend_untouched hh hr hr hh,
      has_contend_untouched hs hr hr hs]
  · rfl

theorem reject_self (h : s.atr.has botReject = false) : s.reject old chg = s := by
  unfold reject
  rw [h]
  rfl

theorem shares_reject (h : s.atr.has botReject = true) :
    (s.reject old chg).atr.shares =
      (Shares.reject old.shares chg.shares (old.has botReject) (chg.has botReject) s.atr.shares
        true).1 := by
  unfold reject Shares.reject
  rw [any_shares, any_shares, any_shares]
  unfold shares
  simp (disch := decide) only [has_contend_kept_last, has_contend_untouched, contest, if_true, h]
  split_ifs <;> rfl

theorem links_reject (h : s.atr.has botReject = true) :
    ((s.reject old chg).atr.links, (s.reject old chg).atr.has botReject) =
      Links.reject old.links chg.links (old.has botReject) (chg.has botReject) s.atr.links
        (Shares.reject old.shares chg.shares (old.has botReject) (chg.has botReject) s.atr.shares
          true).2 := by
  unfold reject Links.reject Shares.reject
  rw [any_shares, any_shares, any_shares]
  unfold links
  simp (disch := decide) only [has_contend_kept_last, has_contend_other_last,
    has_contend_untouched, contest, if_true, h]
  rw [apply_ite Prod.snd]

theorem has_passAggr {c : BotWord} (ha : botAggr.has c = false) (hp : botPassive.has c = false) :
    (s.passAggr old chg).atr.has c = s.atr.has c := by
  unfold passAggr
  split_ifs
  · exact has_contend_untouched ha hp hp ha
  · rfl

theorem links_passAggr : (s.passAggr old chg).atr.links = s.atr.links := by
  unfold links
  rw [has_passAggr old chg s (by decide) (by decide),
    has_passAggr old chg s (by decide) (by decide)]

theorem shares_passAggr :
    (s.passAggr old chg).atr.shares = Shares.passAggr old.shares chg.shares s.atr.shares := by
  unfold passAggr Shares.passAggr shares
  cases hpass : s.atr.has botPassive with
  | false => simp [hpass]
  | true =>
    simp (disch := decide) only [has_contend_kept_last, has_contend_other_last,
      has_contend_untouched, contest, if_true, Bool.true_and, hpass]
    split_ifs <;> rfl

theorem has_globalShare {c : BotWord} (hg : botGlobal.has c = false) :
    (s.globalShare old).atr.has c = s.atr.has c := by
  unfold globalShare
  split_ifs
  · exact has_clear_of_disjoint hg
  · exact has_clear_of_disjoint hg
  · rfl
  · rfl

theorem shares_globalShare : (s.globalShare old).atr.shares = s.atr.shares := by
  unfold shares
  rw [has_globalShare old s (by decide), has_globalShare old s (by decide),
    has_globalShare old s (by decide)]

theorem links_globalShare : (s.globalShare old).atr.links = s.atr.links := by
  unfold links
  rw [has_globalShare old s (by decide), has_globalShare old s (by decide)]

theorem has_global_globalShare :
    (s.globalShare old).atr.has botGlobal =
      (s.atr.has botGlobal &&
        (s.atr.shares.any || (!old.has botGlobal && old.shares.any))) := by
  have hclear (w : BotWord) : (w &&& ~~~botGlobal).has botGlobal = false :=
    has_clear_of_sub (by decide)
  unfold globalShare
  rw [any_shares, any_shares]
  grind

end BotSane

/-! ### What is asked of one kind of flag -/

/-- A kind of flag may be missing, be newly asked for, be taken away, stay, or be asked for though
it is there. -/
inductive Change where
  | missing
  | added
  | removed
  | stays
  | again

namespace Change

def old : Change → Bool
  | missing | added => false
  | removed | stays | again => true

def chg : Change → Bool
  | added | again => true
  | missing | removed | stays => false

def want : Change → Bool
  | added | stays | again => true
  | missing | removed => false

theorem forall_iff {P : Change → Prop} :
    (∀ x, P x) ↔ P missing ∧ P added ∧ P removed ∧ P stays ∧ P again := by
  constructor
  · intro h
    exact ⟨h _, h _, h _, h _, h _⟩
  · intro h x
    obtain ⟨h1, h2, h3, h4, h5⟩ := h
    cases x <;> assumption

instance (P : Change → Prop) [∀ x, Decidable (P x)] : Decidable (∀ x, P x) :=
  decidable_of_iff _ forall_iff.symm

theorem exists_of {o c w : Bool} (hcw : c → w) (hw : w → o || c) :
    ∃ x : Change, o = x.old ∧ c = x.chg ∧ w = x.want := by
  cases o with
  | false =>
    cases c with
    | false => exact ⟨missing, rfl, rfl, by cases w <;> simp_all [want]⟩
    | true => exact ⟨added, rfl, rfl, hcw rfl⟩
  | true =>
    cases c with
    | false =>
      cases w with
      | false => exact ⟨removed, rfl, rfl, rfl⟩
      | true => exact ⟨stays, rfl, rfl, rfl⟩
    | true => exact ⟨again, rfl, rfl, hcw rfl⟩

end Change

/-- The word that is asked for. -/
def botWanted (old pls mns : BotWord) : BotWord := (old ||| pls) &&& ~~~mns

/-- What becomes of a kind of flag in the words at hand. -/
def Becomes (old pls mns f : BotWord) (x : Change) : Prop :=
  old.has f = x.old ∧ (pls &&& ~~~mns).has f = x.chg ∧ (botWanted old pls mns).has f = x.want

theorem exists_becomes (old pls mns f : BotWord) : ∃ x : Change, Becomes old pls mns f x := by
  apply Change.exists_of
  · intro h
    obtain ⟨k, hk, hf⟩ := BotWord.has_iff.1 h
    refine BotWord.has_iff.2 ⟨k, ?_, hf⟩
    simp only [botWanted, BitVec.getLsbD_and, BitVec.getLsbD_or, Bool.and_eq_true] at hk ⊢
    grind
  · intro h
    obtain ⟨k, hk, hf⟩ := BotWord.has_iff.1 h
    simp only [botWanted, BitVec.getLsbD_and, BitVec.getLsbD_or, Bool.and_eq_true,
      Bool.or_eq_true] at hk
    rw [Bool.or_eq_true, BotWord.has_iff, BotWord.has_iff]
    cases hk.1 with
    | inl hold => exact .inl ⟨k, hold, hf⟩
    | inr hpls => exact .inr ⟨k, by simp only [BitVec.getLsbD_and, hpls, hk.2, Bool.and_true], hf⟩

/-- What becomes of the kinds of flag that the contests are about. -/
structure Asked (old pls mns : BotWord) (g p n h a r : Change) : Prop where
  aggr : Becomes old pls mns botAggr g
  pass : Becomes old pls mns botPassive p
  gran : Becomes old pls mns botShperms n
  hub : Becomes old pls mns botHub h
  alt : Becomes old pls mns botAlt a
  reject : Becomes old pls mns botReject r

theorem exists_asked (old pls mns : BotWord) : ∃ g p n h a r, Asked old pls mns g p n h a r := by
  obtain ⟨g, hg⟩ := exists_becomes old pls mns botAggr
  obtain ⟨p, hp⟩ := exists_becomes old pls mns botPassive
  obtain ⟨n, hn⟩ := exists_becomes old pls mns botShperms
  obtain ⟨h, hh⟩ := exists_becomes old pls mns botHub
  obtain ⟨a, ha⟩ := exists_becomes old pls mns botAlt
  obtain ⟨r, hr⟩ := exists_becomes old pls mns botReject
  exact ⟨g, p, n, h, a, r, ⟨hg, hp, hn, hh, ha, hr⟩⟩

namespace Asked

variable {old pls mns : BotWord} {g p n h a r : Change}

theorem shares (hx : Asked old pls mns g p n h a r) :
    old.shares = ⟨g.old, p.old, n.old⟩ ∧ (pls &&& ~~~mns).shares = ⟨g.chg, p.chg, n.chg⟩ ∧
      (botWanted old pls mns).shares = ⟨g.want, p.want, n.want⟩ := by
  unfold BotWord.shares
  rw [hx.aggr.1, hx.aggr.2.1, hx.aggr.2.2, hx.pass.1, hx.pass.2.1, hx.pass.2.2, hx.gran.1,
    hx.gran.2.1, hx.gran.2.2]
  exact ⟨rfl, rfl, rfl⟩

theorem links (hx : Asked old pls mns g p n h a r) :
    old.links = ⟨h.old, a.old⟩ ∧ (pls &&& ~~~mns).links = ⟨h.chg, a.chg⟩ ∧
      (botWanted old pls mns).links = ⟨h.want, a.want⟩ := by
  unfold BotWord.links
  rw [hx.hub.1, hx.hub.2.1, hx.hub.2.2, hx.alt.1, hx.alt.2.1, hx.alt.2.2]
  exact ⟨rfl, rfl, rfl⟩

end Asked

/-! ### What the contests leave -/

namespace Shares

/-- Granular flags that are newly asked for with `+s` or `+p` take each other away, unless the
other of `+s` and `+p` is asked for again. -/
def cancel (old chg : Shares) : Bool :=
  chg.gran && !old.gran &&
    (chg.aggr && !old.aggr && !(chg.pass && old.pass) ||
      chg.pass && !old.pass && !(chg.aggr && old.aggr))

/-- `+s` and granular flags asked for again keep `+s`, and a new `+p` then gives back the
granular flags. -/
def aggrStays (old chg : Shares) : Bool :=
  chg.aggr && old.aggr && (chg.pass && !old.pass) && (chg.gran && old.gran)

/-- Sharing asked for with `+r` gives back every flag of sharing. -/
def comeBack (old chg : Shares) (chgr : Bool) : Bool :=
  chgr && chg.any && old.any && !cancel old chg

/-- Of all of them, `+s` and the granular flags stay. -/
def aggrWins (old chg : Shares) : Bool :=
  if chg.aggr && chg.pass then old.aggr else old.pass

/-- Of all of them, `+p` and the granular flags stay. -/
def passWins (old chg : Shares) : Bool :=
  if chg.aggr && chg.pass then !old.aggr && old.pass else old.aggr && !old.pass

/-- No sharing is left. -/
def gone (old chg want : Shares) (oldr chgr : Bool) : Bool :=
  !want.any || cancel old chg || chgr && !oldr && !chg.any ||
    chg.aggr && !old.aggr && (chg.pass && !old.pass) && !chg.gran && !chgr

/-- The contests about sharing, for what becomes of `+s`, `+p`, the granular flags and `+r`; and
whether `+r` is left. -/
def left (g p n r : Change) : Shares × Bool :=
  let old : Shares := ⟨g.old, p.old, n.old⟩
  let chg : Shares := ⟨g.chg, p.chg, n.chg⟩
  let s := granular old chg ⟨g.want, p.want, n.want⟩
  let t := if r.want then reject old chg r.old r.chg s true else (s, false)
  (passAggr old chg t.1, t.2)

theorem left_spec : ∀ g p n r : Change,
    let old : Shares := ⟨g.old, p.old, n.old⟩
    let chg : Shares := ⟨g.chg, p.chg, n.chg⟩
    let want : Shares := ⟨g.want, p.want, n.want⟩
    let t := left g p n r
    (t.1.aggr && t.1.gran) = (aggrStays old chg || comeBack old chg r.chg && aggrWins old chg) ∧
      (t.1.pass && t.1.gran) = (comeBack old chg r.chg && passWins old chg) ∧
      (t.1.pass && t.1.aggr) = false ∧
      (t.2 && t.1.any) = false ∧
      ((r.old && r.chg && !t.2 && t.1.any) =
        (r.old && r.chg && (comeBack old chg r.chg || !chg.any && want.any))) ∧
      (!t.1.any && old.any) = (old.any && gone old chg want r.old r.chg) := by
  decide +kernel

end Shares

namespace Links

/-- `+r` comes back for a new `+h` or `+a`. -/
def rejectComesBack (old chg : Links) (oldr chgr : Bool) : Bool :=
  oldr && chgr && (chg.hub && !old.hub && !chg.alt || chg.alt && !old.alt && !chg.hub)

theorem again_of_rejectComesBack {old chg : Links} {oldr chgr : Bool}
    (h : rejectComesBack old chg oldr chgr) : oldr && chgr := by
  unfold rejectComesBack at h
  rw [Bool.and_eq_true] at h
  exact h.1

/-- The contests about `+h` and `+a`, for what becomes of them and of `+r`, where `settled` tells
whether `+r` is left after the contest about sharing. -/
def left (h a r : Change) (settled : Bool) : Links × Bool :=
  let old : Links := ⟨h.old, a.old⟩
  let chg : Links := ⟨h.chg, a.chg⟩
  let l := hubAlt old chg ⟨h.want, a.want⟩
  if r.want then reject old chg r.old r.chg l settled else (l, false)

theorem left_spec : ∀ (h a r : Change) (settled : Bool),
    let old : Links := ⟨h.old, a.old⟩
    let chg : Links := ⟨h.chg, a.chg⟩
    let t := left h a r settled
    (t.1.hub && t.1.alt) = false ∧ (t.2 && t.1.hub) = false ∧ (t.2 && t.1.alt) = false ∧
      (settled = false → t.2 = rejectComesBack old chg r.old r.chg) := by
  decide +kernel

end Links

/-! ### The whole check -/

/-- What is asked of a bot's word. -/
structure BotSound (w : BotWord) : Prop where
  links : ¬(w.has botHub ∧ w.has botAlt)
  shares : ¬(w.has botPassive ∧ w.has botAggr)
  granular : ¬(w.has botAggr ∧ w.has botShperms)
  reject : w.has botReject →
    w.has botShare = false ∧ w.has botHub = false ∧ w.has botAlt = false
  global : w.has botGlobal → w.has botShare

/-- No contest gives back what an earlier one took away. -/
def BotSettles (old pls mns : BotWord) : Prop :=
  let chg := pls &&& ~~~mns
  let want := botWanted old pls mns
  let back := Shares.comeBack old.shares chg.shares (chg.has botReject)
  ¬ Shares.aggrStays old.shares chg.shares ∧
  ¬ (back ∧ Shares.aggrWins old.shares chg.shares) ∧
  ¬ (Links.rejectComesBack old.links chg.links (old.has botReject) (chg.has botReject) ∧
    (back ∨ ¬ chg.has botShare ∧ want.has botShare)) ∧
  ¬ (chg.has botGlobal ∧ ¬ old.has botGlobal ∧ old.has botShare ∧
    Shares.gone old.shares chg.shares want.shares (old.has botReject) (chg.has botReject))

theorem botSound_iff_kinds (w : BotWord) : BotSound w ↔
    ¬(w.links.hub ∧ w.links.alt) ∧ ¬(w.shares.pass ∧ w.shares.aggr) ∧
      ¬(w.shares.aggr ∧ w.shares.gran) ∧ ¬(w.has botReject ∧ w.shares.any) ∧
      ¬(w.has botReject ∧ w.links.hub) ∧ ¬(w.has botReject ∧ w.links.alt) ∧
      ¬(w.has botGlobal ∧ ¬w.shares.any) := by
  rw [BotWord.any_shares]
  constructor
  · intro hw
    refine ⟨hw.links, hw.shares, hw.granular, ?_, ?_, ?_, ?_⟩
    · intro h
      exact absurd (h.2.symm.trans (hw.reject h.1).1) (by decide)
    · intro h
      exact absurd (h.2.symm.trans (hw.reject h.1).2.1) (by decide)
    · intro h
      exact absurd (h.2.symm.trans (hw.reject h.1).2.2) (by decide)
    · intro h
      exact h.2 (hw.global h.1)
  · intro hw
    obtain ⟨hlinks, hshares, hgran, hshare, hhub, halt, hglobal⟩ := hw
    refine ⟨hlinks, hshares, hgran, ?_, ?_⟩
    · intro h
      simp only [h, true_and, Bool.not_eq_true] at hshare hhub halt
      exact ⟨hshare, hhub, halt⟩
    · intro h
      by_contra hno
      exact hglobal ⟨h, hno⟩

instance (old pls mns : BotWord) : Decidable (BotSettles old pls mns) := by
  unfold BotSettles; infer_instance

section Check

open BotSane BotWord

variable {old pls mns : BotWord} {g p n h a r : Change}

/-- The state that the contests of `+r` start with. -/
def contested (old pls mns : BotWord) : BotSane :=
  let chg := pls &&& ~~~mns
  ((BotSane.mk (botWanted old pls mns) 0).hubAlt old chg).granular old chg

theorem botSanityCheck_eq :
    botSanityCheck old pls mns =
      (((contested old pls mns).reject old (pls &&& ~~~mns)).passAggr old
        (pls &&& ~~~mns)).globalShare old := rfl

theorem contested_shares (hx : Asked old pls mns g p n h a r) :
    (contested old pls mns).atr.shares =
      Shares.granular ⟨g.old, p.old, n.old⟩ ⟨g.chg, p.chg, n.chg⟩ ⟨g.want, p.want, n.want⟩ := by
  unfold contested
  rw [shares_granular, shares_hubAlt, hx.shares.1, hx.shares.2.1, hx.shares.2.2]

theorem contested_links (hx : Asked old pls mns g p n h a r) :
    (contested old pls mns).atr.links =
      Links.hubAlt ⟨h.old, a.old⟩ ⟨h.chg, a.chg⟩ ⟨h.want, a.want⟩ := by
  unfold contested
  rw [links_granular, links_hubAlt, hx.links.1, hx.links.2.1, hx.links.2.2]

theorem contested_reject (hx : Asked old pls mns g p n h a r) :
    (contested old pls mns).atr.has botReject = r.want := by
  unfold contested
  rw [has_granular _ _ _ (by decide) (by decide) (by decide),
    has_hubAlt _ _ _ (by decide) (by decide)]
  exact hx.reject.2.2

theorem shares_botSanityCheck (hx : Asked old pls mns g p n h a r) :
    (botSanityCheck old pls mns).atr.shares = (Shares.left g p n r).1 := by
  have hrej := contested_reject hx
  have hgran := contested_shares hx
  unfold Shares.left
  rw [botSanityCheck_eq, shares_globalShare, shares_passAggr, hx.shares.1, hx.shares.2.1]
  cases hrw : r.want with
  | false =>
    rw [reject_self _ _ _ (hrej.trans hrw), hgran]
    rfl
  | true =>
    rw [shares_reject _ _ _ (hrej.trans hrw), hgran, hx.shares.1, hx.shares.2.1, hx.reject.1,
      hx.reject.2.1]
    rfl

theorem links_botSanityCheck (hx : Asked old pls mns g p n h a r) :
    ((botSanityCheck old pls mns).atr.links, (botSanityCheck old pls mns).atr.has botReject) =
      Links.left h a r (Shares.left g p n r).2 := by
  have hrej := contested_reject hx
  have hgran := contested_shares hx
  have hlink := contested_links hx
  unfold Links.left Shares.left
  rw [botSanityCheck_eq, links_globalShare, links_passAggr,
    has_globalShare _ _ (by decide), has_passAggr _ _ _ (by decide) (by decide)]
  cases hrw : r.want with
  | false =>
    rw [reject_self _ _ _ (hrej.trans hrw), hlink, hrej, hrw]
    rfl
  | true =>
    rw [links_reject _ _ _ (hrej.trans hrw), hgran, hlink, hx.shares.1, hx.shares.2.1, hx.links.1,
      hx.links.2.1, hx.reject.1, hx.reject.2.1]
    rfl

theorem global_botSanityCheck :
    (botSanityCheck old pls mns).atr.has botGlobal =
      ((botWanted old pls mns).has botGlobal && ((botSanityCheck old pls mns).atr.shares.any ||
        (!old.has botGlobal && old.shares.any))) := by
  rw [botSanityCheck_eq, has_global_globalShare, shares_globalShare,
    has_passAggr _ _ _ (by decide) (by decide),
    has_reject _ _ _ (by decide) (by decide) (by decide) (by decide)]
  unfold contested
  rw [has_granular _ _ _ (by decide) (by decide) (by decide),
    has_hubAlt _ _ _ (by decide) (by decide)]

/-- `+r` is left with sharing exactly when both come back. -/
theorem reject_share_left {u any x back : Bool} {t r : Bool} (hrej : (t && any) = false)
    (hback : (r && !t && any) = (r && back)) (hrejb : t = false → u = x) (hx : x → r) :
    (u && any) = (x && back) := by
  cases t with
  | true =>
    simp only [Bool.true_and] at hrej
    grind
  | false =>
    rw [hrejb rfl]
    cases x with
    | false => rfl
    | true => grind

/-- `+g` is left without sharing exactly when it is new and sharing is gone. -/
theorem global_left : ∀ {w o c any olds gone : Bool}, (w && !o) = (c && !o) →
    (!any && olds) = (olds && gone) →
    (w && (any || !o && olds) && !any) = (c && !o && olds && gone) := by
  decide

/-- The word is sound exactly when no contest gives back what an earlier one took away; and `+p` is
left with granular flags exactly when all of sharing is given back against `+r` and `+s` yields. -/
theorem botSound_iff (old pls mns : BotWord) :
    (BotSound (botSanityCheck old pls mns).atr ↔ BotSettles old pls mns) ∧
    ((botSanityCheck old pls mns).atr.has botPassive ∧
        (botSanityCheck old pls mns).atr.has botShperms ↔
      Shares.comeBack old.shares (pls &&& ~~~mns).shares ((pls &&& ~~~mns).has botReject) ∧
        Shares.passWins old.shares (pls &&& ~~~mns).shares) := by
  obtain ⟨g, p, n, h, a, r, hx⟩ := exists_asked old pls mns
  obtain ⟨l, hl⟩ := exists_becomes old pls mns botGlobal
  have hs := shares_botSanityCheck hx
  have hk := links_botSanityCheck hx
  have hg := @global_botSanityCheck old pls mns
  obtain ⟨hgran, hpass, hex, hrej, hback, hgone⟩ := Shares.left_spec g p n r
  obtain ⟨hlinks, hhub, halt, hrejb⟩ := Links.left_spec h a r (Shares.left g p n r).2
  have hlink : (botSanityCheck old pls mns).atr.links = _ := congrArg Prod.fst hk
  have hr : (botSanityCheck old pls mns).atr.has botReject = _ := congrArg Prod.snd hk
  rw [← hx.shares.1, ← hx.shares.2.1, ← hx.reject.2.1] at hgran hpass
  rw [← hx.shares.1, ← hx.shares.2.1, ← hx.shares.2.2, ← hx.reject.2.1, ← hx.reject.1] at hback
  rw [← hx.shares.1, ← hx.shares.2.1, ← hx.shares.2.2, ← hx.reject.2.1, ← hx.reject.1] at hgone
  rw [← hx.links.1, ← hx.links.2.1, ← hx.reject.2.1, ← hx.reject.1] at hrejb
  rw [← hs] at hgran hpass hex hrej hback hgone
  rw [← hlink] at hlinks hhub halt
  rw [← hr] at hhub halt hrejb
  have hreject := reject_share_left hrej hback hrejb Links.again_of_rejectComesBack
  have hnew : ((botWanted old pls mns).has botGlobal && !old.has botGlobal) =
      ((pls &&& ~~~mns).has botGlobal && !old.has botGlobal) := by
    rw [hl.1, hl.2.1, hl.2.2]
    cases l <;> rfl
  have hglobal := Bool.eq_iff_iff.1 (global_left hnew hgone)
  rw [← hg] at hglobal
  simp only [Bool.and_eq_true, Bool.not_eq_true', ← Bool.not_eq_true, and_assoc] at hglobal
  rw [botSound_iff_kinds]
  unfold BotSettles
  dsimp only
  rw [← any_shares, ← any_shares, ← any_shares]
  constructor
  · rw [hglobal, ← Bool.and_eq_true, hlinks, ← Bool.and_eq_true, hex, ← Bool.and_eq_true, hgran,
      ← Bool.and_eq_true, hreject, ← Bool.and_eq_true, hhub, ← Bool.and_eq_true, halt]
    simp only [Bool.false_eq_true, not_false_eq_true, true_and, Bool.or_eq_true, Bool.and_eq_true,
      not_or, and_assoc, Bool.not_eq_true']
    simp only [← Bool.not_eq_true]
  · rw [← Bool.and_eq_true, ← Bool.and_eq_true, ← hpass]
    rfl

/-- Bans are shared; `+g-b` takes them away and leaves `+g`.  Passive sharing becomes aggressive
with `+sr-p`, and every flag of sharing comes back. -/
theorem not_botSound :
    ¬BotSound (botSanityCheck botShban botGlobal botShban).atr ∧
      ¬BotSound (botSanityCheck botPassive (botAggr ||| botReject) botPassive).atr := by
  constructor
  · intro h
    exact absurd (h.global (by decide +kernel)) (by decide +kernel)
  · intro h
    exact h.granular (by decide +kernel)

end Check

end Eggdrop.Users
