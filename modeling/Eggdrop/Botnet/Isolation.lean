import Eggdrop.Lib.TwoRuns
import Eggdrop.Botnet.PartyNet

/-!
# Isolation — a link touches the users of the bots behind it only

* `contained_of_safe`: a safe message of a link changes no record of a bot that is not behind it.
* `good_next`, `step_eq`: what a safe step keeps, and that it goes through.
-/

namespace Eggdrop.Tandem
namespace PartyLine

open List

variable {s s' : PartyLine} {idx : Nat} {d : Dcc} {who : CStr} {ok : CStr → Prop}

/-! ### What is behind a link -/

theorem nextbot_congr {n : Botnet} {a b : CStr} (h : rfcCaseEq a b = true) :
    n.nextbot a = n.nextbot b := by
  rw [Botnet.nextbot, Botnet.nextbot, Botnet.findbot_congr h]

theorem nextbot_of_mem (h : Botnet.Inv ok s.net) {t v : Tand} (ht : t ∈ s.net.tandbot)
    (hv : v ∈ s.net.tandbot) (hvia : t.via = some v.id) (hw : rfcCaseEq who t.bot = true) :
    s.net.nextbot who = s.net.dcc.findIdx? fun d => strcaseEq v.bot d.nick && d.type == .bot := by
  have hfind := h.findbot_eq_some.2 ⟨t, ht, rfl, hw⟩
  simp only [Botnet.nextbot, hfind, Option.bind_eq_bind, Option.bind_some, h.deref_of_mem ht, hvia,
    h.deref_of_mem hv]

theorem via_mem (h : Botnet.Inv ok s.net) {t : Tand} (ht : t ∈ s.net.tandbot) :
    ∃ v ∈ s.net.tandbot, t.via = some v.id := by
  obtain ⟨v, hv, -, hvia⟩ := h.forest.firstHop ht
  exact ⟨v, hv, hvia⟩

def Behind (s : PartyLine) (idx : Nat) (u : Tand) : Prop :=
  u ∈ s.net.tandbot ∧ s.net.nextbot u.bot = some idx

/-- `unvia` for a bot behind a link takes users behind that link, also after others went. -/
theorem behind_of_hit {m : PartyLine} (h : Botnet.Inv ok s.net) (hm : Botnet.Inv ok m.net)
    (hsub : m.net.tandbot.Sublist s.net.tandbot)
    (hidx : s.net.findbot who = none ∨ s.net.nextbot who = some idx) {u : Tand}
    (hu : Hit who m u) : Behind s idx u := by
  obtain ⟨w, hw, hfind, humem, hvia, -⟩ := hu
  obtain ⟨w', hw', hid, hname⟩ := hm.findbot_eq_some.1 hfind
  obtain rfl := hm.forest.eq_of_id hw' hw hid
  have hws := hsub.subset hw
  have hfind' := h.findbot_eq_some.2 ⟨w', hws, rfl, hname⟩
  rcases hidx with hnone | hidx
  · rw [hnone] at hfind'
    cases hfind'
  · obtain ⟨v, hv, hwv⟩ := via_mem h hws
    refine ⟨hsub.subset humem, ?_⟩
    rw [nextbot_of_mem h (hsub.subset humem) hv (hvia.trans hwv) (rfcCaseEq_refl _),
      ← nextbot_of_mem h hws hv hwv hname]
    exact hidx

/-- The name of the link's bot leads to the link, or is not known. -/
def Owns (n : Botnet) (idx : Nat) : Prop :=
  ∀ d ∈ n.dcc[idx]?, n.findbot d.nick = none ∨ n.nextbot d.nick = some idx

theorem dcc_unvia (h : Botnet.Inv ok s.net) (w : CStr) :
    (s.unvia (s.net.findbot w)).net.dcc = s.net.dcc := (shrinks_unvia h w).dcc

theorem emptied_lostdcc {m : PartyLine} (h : Botnet.Inv ok s.net) (hm : Botnet.Inv ok m.net)
    (hsub : m.net.tandbot.Sublist s.net.tandbot) (hdcc : m.net.dcc = s.net.dcc)
    (howns : Owns s.net idx) : Emptied (Behind s idx) m.party (m.lostdcc idx).party := by
  by_cases hbot : ∃ d, m.net.dcc[idx]? = some d ∧ d.type = .bot
  · obtain ⟨d, hd, hbot⟩ := hbot
    rw [party_lostdcc_of_bot hd hbot]
    refine (unvia_spec hm d.nick).mono fun u hu => behind_of_hit h hm hsub ?_ hu
    exact howns d (hdcc ▸ hd)
  · rw [party_lostdcc_of_ne fun d hd hd' => hbot ⟨d, hd, hd'⟩]
    exact .refl _ _

/-! ### Messages about users -/

/-- The bot that a message about a user names. -/
def UserMsg.bot : UserMsg → Option CStr
  | .chan2 par => (splitAt (stripControl (newsplit par).1)).map (·.2)
  | .actchan par => (splitAt (newsplit par).1).map (·.2)
  | .nickchange par | .idle par => some (newsplit par).1
  | .join par | .part par | .away par => some (unmark (newsplit par).1)

/-- The handlers that look at the direction before they touch the table. -/
def UserMsg.Checked : UserMsg → Prop
  | .nickchange _ | .join _ => True
  | _ => False

/-- The word with the socket, where 0 stands for any. -/
def UserMsg.ssock : UserMsg → Option CStr
  | .chan2 _ | .actchan _ | .nickchange _ => none
  | .join par => some (newsplit (newsplit (newsplit (newsplit par).2).2).2).1.tail
  | .part par => some (newsplit (newsplit (newsplit par).2).2).1
  | .away par | .idle par => some (newsplit (newsplit par).2).1

/-- A message that says which socket it means. -/
def UserMsg.Firm (m : UserMsg) : Prop := ∀ ss ∈ m.ssock, base64ToInt ss ≠ 0

theorem sockOf_of_ne {ss : CStr} (hne : base64ToInt ss ≠ 0) (bot nick : CStr) :
    s.sockOf bot nick ss = base64ToInt ss := if_neg hne

theorem localTo_id (bot : CStr) : LocalTo bot id :=
  ⟨fun _ h => h, fun _ _ _ _ => .refl _, fun _ _ _ _ h => h⟩

/-- What a message about a user does, where the handler looks at the direction: for the bot it
names, and only if that is reached through the link. -/
theorem userMsg_of_ne {now : Int} {m : UserMsg} {bot : CStr} (hm : m.Checked)
    (hbot : m.bot = some bot) (hne : s.net.nextbot bot ≠ some idx) :
    (s.userMsg now idx m).party = s.party := by
  cases m with
  | nickchange par =>
    obtain rfl := Option.some.inj hbot
    exact congrArg PartyLine.party (if_pos hne)
  | join par =>
    obtain rfl := Option.some.inj hbot
    simp only [userMsg, botJoin]
    split
    · rfl
    · split
      · rfl
      · rfl
  | chan2 par => exact hm.elim
  | actchan par => exact hm.elim
  | part par => exact hm.elim
  | away par => exact hm.elim
  | idle par => exact hm.elim

theorem userMsg_of_none {now : Int} {m : UserMsg} (hbot : m.bot = none) :
    s.userMsg now idx m = s := by
  cases m with
  | chan2 par => simp only [userMsg, botChan2, Option.map_eq_none_iff.1 hbot]
  | actchan par => simp only [userMsg, botActchan, Option.map_eq_none_iff.1 hbot]
  | nickchange par => cases hbot
  | join par => cases hbot
  | part par => cases hbot
  | away par => cases hbot
  | idle par => cases hbot

theorem net_userMsg (s : PartyLine) (now : Int) (idx : Nat) (m : UserMsg) :
    (s.userMsg now idx m).net = s.net := by
  cases m with
  | chan2 par =>
    simp only [userMsg, botChan2]
    split <;> rfl
  | actchan par =>
    simp only [userMsg, botActchan]
    split <;> rfl
  | nickchange par =>
    simp only [userMsg, botNickchange]
    split <;> rfl
  | join par =>
    simp only [userMsg, botJoin]
    split
    · rfl
    · split
      · rfl
      · split <;> rfl
  | part par =>
    simp only [userMsg, botPart]
    split <;> rfl
  | away par =>
    simp only [userMsg, botAway]
    split
    · rfl
    · split <;> rfl
  | idle par =>
    simp only [userMsg, botIdle]
    split <;> rfl

/-- The condition on a message about a user under which no script is told of the user: who joins is on
the channel already, and who leaves is on none. -/
def UserMsg.Unheard (s : PartyLine) (idx : Nat) : UserMsg → Prop
  | .join par =>
    let bot := unmark (newsplit par).1
    let nick := (newsplit (newsplit par).2).1
    let chan := base64ToInt (newsplit (newsplit (newsplit par).2).2).1
    let y := (newsplit (newsplit (newsplit (newsplit par).2).2).2).1
    let old := s.sockOf bot nick y.tail
    y ≠ [] → 0 ≤ chan → s.net.nextbot bot = some idx →
      oldChan bot (if old = 0 then s.fakesock else old) s.party = chan
  | .part par =>
    let bot := unmark (newsplit par).1
    let nick := (newsplit (newsplit par).2).1
    let sock := s.sockOf bot nick (newsplit (newsplit (newsplit par).2).2).1
    ∀ p, getparty bot sock s.party >>= (s.party[·]?) = some p → p.chan < 0
  | _ => True

theorem crashed_userMsg {now : Int} {m : UserMsg} (hun : m.Unheard s idx) :
    (s.userMsg now idx m).crashed = s.crashed := by
  cases m with
  | chan2 par =>
    simp only [userMsg, botChan2]
    split <;> rfl
  | actchan par =>
    simp only [userMsg, botActchan]
    split <;> rfl
  | nickchange par =>
    simp only [userMsg, botNickchange]
    split <;> rfl
  | join par =>
    simp only [userMsg, botJoin]
    split
    · rfl
    · next flag ss hy =>
      split
      · rfl
      · next hchan =>
        split
        · rfl
        · next hidx =>
          simp only [UserMsg.Unheard] at hun
          rw [hy] at hun
          have hold := hun (cons_ne_nil _ _) (Int.not_lt.1 hchan) (not_not.1 hidx)
          rw [tail_cons] at hold
          simp only [hold, ne_eq, not_true_eq_false, decide_false, Bool.or_false]
  | part par =>
    simp only [userMsg, botPart]
    split
    · next p hp =>
      have hchan : ¬ 0 ≤ p.chan := Int.not_le.2 (hun p hp)
      simp only [hchan, decide_false, Bool.or_false]
    · rfl
  | away par =>
    simp only [userMsg, botAway]
    split
    · rfl
    · split <;> rfl
  | idle par =>
    simp only [userMsg, botIdle]
    split <;> rfl

/-- The operation on the table, by the socket it is for. -/
theorem userMsg_spec (now : Int) (idx : Nat) (m : UserMsg) {bot : CStr} (hbot : m.bot = some bot)
    (hlen : m.Checked → bot.length ≤ handLen) :
    ∃ (op : Int → List Member → List Member) (sock : PartyLine → Int),
      (∀ k, LocalTo bot (op k)) ∧ (m.Firm → ∀ s s', sock s = sock s') ∧
      ∀ s : PartyLine, (m.Checked → s.net.nextbot bot = some idx) →
        (s.userMsg now idx m).party = op (sock s) s.party := by
  have hfirm {bot nick ss : CStr} (hss : m.ssock = some ss) (hm : m.Firm) (s : PartyLine) :
      s.sockOf bot nick ss = base64ToInt ss := sockOf_of_ne (hm ss hss) bot nick
  cases m with
  | chan2 par =>
    obtain ⟨⟨nick, bot'⟩, hsplit, rfl⟩ := Option.map_eq_some_iff.1 hbot
    refine ⟨fun _ => partyidle now bot' nick, fun _ => 0, fun _ => localTo_partyidle now nick,
      fun _ _ _ => rfl, fun s _ => ?_⟩
    simp only [userMsg, botChan2, hsplit, onParty]
  | actchan par =>
    obtain ⟨⟨nick, bot'⟩, hsplit, rfl⟩ := Option.map_eq_some_iff.1 hbot
    refine ⟨fun _ => partyidle now bot' nick, fun _ => 0, fun _ => localTo_partyidle now nick,
      fun _ _ _ => rfl, fun s _ => ?_⟩
    simp only [userMsg, botActchan, hsplit, onParty]
  | nickchange par =>
    obtain rfl := Option.some.inj hbot
    refine ⟨fun _ => partynick _ (base64ToInt (newsplit (newsplit par).2).1)
      (newsplit (newsplit (newsplit par).2).2).1, fun _ => 0, fun _ => localTo_partynick _,
      fun _ _ _ => rfl, fun s hs => ?_⟩
    exact congrArg PartyLine.party (if_neg (not_not.2 (hs trivial)))
  | join par =>
    obtain rfl := Option.some.inj hbot
    cases hy : (newsplit (newsplit (newsplit (newsplit par).2).2).2).1 with
    | nil =>
      refine ⟨fun _ => id, fun _ => 0, fun _ => localTo_id _, fun _ _ _ => rfl, fun s _ => ?_⟩
      simp only [userMsg, botJoin, hy, id]
    | cons flag ss =>
      have hss : UserMsg.ssock (.join par) = some ss := by
        rw [UserMsg.ssock, hy, tail_cons]
      by_cases hchan : base64ToInt (newsplit (newsplit (newsplit par).2).2).1 < 0
      · refine ⟨fun _ => id, fun _ => 0, fun _ => localTo_id _, fun _ _ _ => rfl, fun s _ => ?_⟩
        simp only [userMsg, botJoin, hy, if_pos hchan, id]
      · refine ⟨fun k => addparty now _ (newsplit (newsplit par).2).1
            (base64ToInt (newsplit (newsplit (newsplit par).2).2).1) flag k
            (newsplit (newsplit (newsplit (newsplit par).2).2).2).2,
          fun s => if s.sockOf (unmark (newsplit par).1) (newsplit (newsplit par).2).1 ss = 0
            then s.fakesock
            else s.sockOf (unmark (newsplit par).1) (newsplit (newsplit par).2).1 ss,
          fun k => localTo_addparty now _ _ flag _ (hlen trivial), fun hm s s' => ?_, fun s hs => ?_⟩
        · dsimp only
          rw [hfirm hss hm, hfirm hss hm, if_neg (hm ss hss), if_neg (hm ss hss)]
        · simp only [userMsg, botJoin, hy, if_neg hchan]
          exact congrArg PartyLine.party (if_neg (not_not.2 (hs trivial)))
  | part par =>
    obtain rfl := Option.some.inj hbot
    refine ⟨fun k => remparty _ k, fun s => s.sockOf (unmark (newsplit par).1)
      (newsplit (newsplit par).2).1 (newsplit (newsplit (newsplit par).2).2).1, fun k => localTo_remparty,
      fun hm s s' => ?_, fun s _ => ?_⟩
    · exact (hfirm rfl hm s).trans (hfirm rfl hm s').symm
    · simp only [userMsg, botPart]
      split
      · rfl
      · next hnone =>
        refine (rempartyLoop_of_none (fun m hm => ?_) _ _).symm
        rw [Option.bind_eq_bind, Option.bind_eq_none_iff] at hnone
        rw [← Bool.not_eq_true]
        intro hat
        obtain ⟨i, hi⟩ := Option.isSome_iff_exists.1
          ((findIdx?_isSome (p := Member.isAt _ _)).trans (any_eq_true.2 ⟨m, hm, hat⟩))
        have hlt := (findIdx?_eq_some_iff_getElem.1 hi).1
        have hno := hnone i hi
        rw [getElem?_eq_getElem hlt] at hno
        cases hno
  | away par =>
    obtain rfl := Option.some.inj hbot
    generalize hb : unmark (newsplit par).1 = bot
    refine ⟨fun k => if base64ToInt (newsplit (newsplit par).2).1 < 0 then id
      else if (newsplit (newsplit par).2).2.isEmpty then partystat bot k 0 plstatAway
      else partyaway bot k (newsplit (newsplit par).2).2 ∘ partystat bot k plstatAway 0,
      fun s => s.sockOf bot (newsplit (newsplit par).2).1 (newsplit (newsplit par).2).1,
      fun k => ?_, fun hm s s' => ?_, fun s _ => ?_⟩
    · dsimp only
      split
      · exact localTo_id _
      · split
        · exact localTo_partystat 0 plstatAway
        · exact (localTo_partyaway _).comp (localTo_partystat plstatAway 0)
    · exact (hfirm rfl hm s).trans (hfirm rfl hm s').symm
    · simp only [userMsg, botAway, hb]
      split
      · rfl
      · split <;> rfl
  | idle par =>
    obtain rfl := Option.some.inj hbot
    generalize hb : (newsplit par).1 = bot
    refine ⟨fun k => (if (newsplit (newsplit (newsplit par).2).2).2.isEmpty then id
      else partyaway bot k (newsplit (newsplit (newsplit par).2).2).2 ∘
        partystat bot k plstatAway 0) ∘
        partysetidle now bot k (base64ToInt (newsplit (newsplit (newsplit par).2).2).1),
      fun s => s.sockOf bot (newsplit (newsplit par).2).1 (newsplit (newsplit par).2).1,
      fun k => ?_, fun hm s s' => ?_, fun s _ => ?_⟩
    · refine LocalTo.comp ?_ (localTo_partysetidle now _)
      split
      · exact localTo_id _
      · exact (localTo_partyaway _).comp (localTo_partystat plstatAway 0)
    · exact (hfirm rfl hm s).trans (hfirm rfl hm s').symm
    · simp only [userMsg, botIdle, hb]
      split <;> rfl

/-! ### One message -/

/-- What a message does to the botnet. -/
def netEvent (s : PartyLine) (idx : Nat) : Msg → Option Botnet.Event
  | .user _ _ _ => none
  | .nlinked par leaf => some (.nlinked idx par leaf)
  | .unlinked par => some (.unlinked idx par)
  | .update par => some (.update par)
  | .thisbot par => some (.thisbot idx par)
  | .bye => some (.lost idx)
  | .reject isolate par => if isolate then none else (s.rejectTarget idx par).map .lost
  | .unlink par kept =>
    if strcaseEq (newsplit (newsplit par).2).1 s.net.botnetnick then
      some (.botunlink (newsplit (newsplit (newsplit par).2).2).1 kept)
    else none

theorem handle_eq_nextNet {m : Msg} {e : Botnet.Event} (he : s.netEvent idx m = some e) :
    s.handle idx m = s.nextNet e := by
  cases m with
  | user now isolate m => cases he
  | nlinked par leaf => exact congrArg s.nextNet (Option.some.inj he)
  | unlinked par => exact congrArg s.nextNet (Option.some.inj he)
  | update par => exact congrArg s.nextNet (Option.some.inj he)
  | thisbot par => exact congrArg s.nextNet (Option.some.inj he)
  | bye => exact congrArg s.nextNet (Option.some.inj he)
  | reject isolate par =>
    simp only [netEvent] at he
    split at he
    · cases he
    · next hiso =>
      obtain ⟨i, hi, rfl⟩ := Option.map_eq_some_iff.1 he
      simp only [handle, if_neg hiso, botReject, hi, nextNet]
  | unlink par kept =>
    simp only [netEvent] at he
    split at he
    · next hme =>
      obtain rfl := Option.some.inj he
      simp only [handle, botUnlink, if_pos hme, nextNet]
    · cases he

theorem handle_eq_self {m : Msg} (he : s.netEvent idx m = none)
    (hm : ∀ now isolate u, m ≠ .user now isolate u) : s.handle idx m = s := by
  cases m with
  | user now isolate m => exact absurd rfl (hm now isolate m)
  | nlinked par leaf => cases he
  | unlinked par => cases he
  | update par => cases he
  | thisbot par => cases he
  | bye => cases he
  | reject isolate par =>
    simp only [netEvent] at he
    simp only [handle]
    split at he
    · next hiso => exact if_pos hiso
    · next hiso => rw [if_neg hiso, botReject, Option.map_eq_none_iff.1 he]
  | unlink par kept =>
    simp only [netEvent] at he
    split at he
    · cases he
    · next hme => exact if_neg hme

/-- The condition on a message under which no script is told of anybody. -/
def MsgUnheard (s : PartyLine) (idx : Nat) : Msg → Prop
  | .user _ isolate m => isolate = false → m.Unheard s idx
  | m => ∀ e ∈ s.netEvent idx m, NetUnheard s e

/-- The condition on the direction of a message: the handlers that do not look at it get a bot behind
the link, a link that ends is the one to its bot, and no other bot is taken down by request. -/
def Directed (s : PartyLine) (idx : Nat) : Msg → Prop
  | .user _ isolate m => isolate = false → m.Checked ∨ ∀ bot ∈ m.bot, s.net.nextbot bot = some idx
  | .nlinked _ _ | .thisbot _ | .bye => Owns s.net idx
  | .unlinked _ | .update _ => True
  | .reject isolate par => isolate = false → ∀ i ∈ s.rejectTarget idx par, i = idx ∧ Owns s.net idx
  | .unlink par _ => strcaseEq (newsplit (newsplit par).2).1 s.net.botnetnick = false

def MsgSafe (s : PartyLine) (idx : Nat) (m : Msg) : Prop := Directed s idx m ∧ MsgUnheard s idx m

/-- A message on link `idx` is got through, and keeps the records of the bots that are not reached
through the link. -/
def Contained (s : PartyLine) (idx : Nat) (m : Msg) : Prop :=
  ∃ s', s.step (.msg idx m) = .ok s' ∧
    ∀ b, s.net.nextbot b ≠ some idx → records b s'.party ~ records b s.party

/-- What holds in every state. -/
structure Good (s : PartyLine) : Prop where
  inv : Botnet.Inv Sayable s.net
  unique : Unique s.party
  alive : s.crashed = false

theorem emptied_lost (h : Botnet.Inv ok s.net) (howns : Owns s.net idx) :
    Emptied (Behind s idx) s.party (s.lostdcc idx).party :=
  emptied_lostdcc h h (.refl _) rfl howns

theorem emptied_frame {b : CStr} {party : List Member} (h : Emptied (Behind s idx) s.party party)
    (hb : s.net.nextbot b ≠ some idx) : records b party ~ records b s.party := by
  refine h.frame b fun u hu => ?_
  rw [← Bool.not_eq_true]
  intro hname
  refine hb ?_
  rw [← nextbot_congr (rfcCaseEq_of_strcaseEq hname)]
  exact hu.2

theorem length_of_nextbot (h : Botnet.Inv Sayable s.net) (hidx : s.net.nextbot who = some idx) :
    who.length ≤ handLen := by
  obtain ⟨t, ht, v, -, d, hname, -, -, -⟩ := h.nextbot_eq_some hidx
  have hlen := congrArg length (rfcCaseEq_iff.1 hname)
  rw [length_map, length_map] at hlen
  rw [hlen]
  exact (h.named t ht).short

theorem frame_userMsg (h : Good s) {now : Int} {m : UserMsg} {b : CStr}
    (hsafe : m.Checked ∨ ∀ bot ∈ m.bot, s.net.nextbot bot = some idx)
    (hb : s.net.nextbot b ≠ some idx) :
    records b (s.userMsg now idx m).party ~ records b s.party := by
  cases hbot : m.bot with
  | none => rw [userMsg_of_none hbot]
  | some bot =>
    by_cases hidx : s.net.nextbot bot = some idx
    · obtain ⟨op, sock, hop, -, hparty⟩ :=
        userMsg_spec now idx m hbot fun _ => length_of_nextbot h.inv hidx
      rw [hparty s fun _ => hidx]
      refine (hop _).frame _ b h.unique ?_
      rw [← Bool.not_eq_true]
      intro hname
      rw [nextbot_congr (rfcCaseEq_of_strcaseEq hname)] at hidx
      exact hb hidx
    · have hchecked := hsafe.resolve_right fun hall => hidx (hall bot hbot)
      rw [userMsg_of_ne hchecked hbot hidx]

theorem unique_userMsg (h : Good s) (now : Int) (idx : Nat) (m : UserMsg) :
    Unique (s.userMsg now idx m).party := by
  cases hbot : m.bot with
  | none =>
    rw [userMsg_of_none hbot]
    exact h.unique
  | some bot =>
    by_cases hskip : m.Checked ∧ s.net.nextbot bot ≠ some idx
    · rw [userMsg_of_ne hskip.1 hbot hskip.2]
      exact h.unique
    · have hidx (hm : m.Checked) : s.net.nextbot bot = some idx :=
        not_not.1 fun hne => hskip ⟨hm, hne⟩
      obtain ⟨op, sock, hop, -, hparty⟩ :=
        userMsg_spec now idx m hbot fun hm => length_of_nextbot h.inv (hidx hm)
      rw [hparty s hidx]
      exact (hop _).unique _ h.unique

theorem frame_msg (h : Good s) {m : Msg} (hsafe : Directed s idx m) {b : CStr}
    (hb : s.net.nextbot b ≠ some idx) :
    records b (s.next (.msg idx m)).party ~ records b s.party := by
  rcases s.fromBot_cases idx fun _ => s.handle idx m with ⟨heq, -⟩ | ⟨d, hd, hbot, heq⟩
  · rw [next, heq]
  · rw [next, heq]
    have hfrom {f : Dcc → PartyLine} : s.fromBot idx f = f d := by
      rw [fromBot, hd]
      exact if_pos hbot
    cases m with
    | user now isolate m =>
      simp only [handle]
      split
      · exact .refl _
      · next hiso => exact frame_userMsg h (hsafe (by simpa using hiso)) hb
    | nlinked par leaf =>
      simp only [handle, nextNet, hfrom, botNlinked]
      split
      · exact emptied_frame (emptied_lost h.inv hsafe) hb
      · exact .refl _
    | unlinked par =>
      simp only [handle, nextNet, hfrom, botUnlinked]
      split
      · next hidx =>
        refine emptied_frame ((unvia_spec h.inv _).mono fun u hu => ?_) hb
        exact behind_of_hit h.inv h.inv (.refl _) (.inr hidx) hu
      · exact .refl _
    | update par => exact .refl _
    | thisbot par =>
      simp only [handle, nextNet, hfrom, botThisbot]
      split
      · exact .refl _
      · have hmid := inv_unvia h.inv d.nick
        have hsub := (shrinks_unvia h.inv d.nick).sub
        refine emptied_frame (.trans ((unvia_spec h.inv d.nick).mono fun u hu => ?_) ?_) hb
        · exact behind_of_hit h.inv h.inv (.refl _) (hsafe d hd) hu
        · exact emptied_lostdcc h.inv hmid hsub (dcc_unvia h.inv _) hsafe
    | bye => exact emptied_frame (emptied_lost h.inv hsafe) hb
    | reject isolate par =>
      simp only [handle]
      split
      · exact .refl _
      · next hiso =>
        unfold botReject
        split
        · next i hi =>
          obtain ⟨rfl, howns⟩ := hsafe (by simpa using hiso) i hi
          exact emptied_frame (emptied_lost h.inv howns) hb
        · exact .refl _
    | unlink par kept =>
      simp only [handle, botUnlink]
      rw [if_neg (by rw [hsafe]; exact Bool.false_ne_true)]

theorem crashed_msg (h : Good s) {m : Msg} (hun : MsgUnheard s idx m) :
    (s.next (.msg idx m)).crashed = false := by
  refine Eq.trans ?_ h.alive
  rcases s.fromBot_cases idx fun _ => s.handle idx m with ⟨heq, -⟩ | ⟨d, -, -, heq⟩
  · rw [next, heq]
  · rw [next, heq]
    by_cases huser : ∃ now isolate u, m = .user now isolate u
    · obtain ⟨now, isolate, u, rfl⟩ := huser
      simp only [handle]
      split
      · rfl
      · next hiso => exact crashed_userMsg (hun (by simpa using hiso))
    · have hm (now : Int) (isolate : Bool) (u : UserMsg) : m ≠ .user now isolate u :=
        fun hu => huser ⟨now, isolate, u, hu⟩
      cases he : s.netEvent idx m with
      | none => rw [handle_eq_self he hm]
      | some e =>
        rw [handle_eq_nextNet he]
        have hun' : NetUnheard s e := by
          cases m with
          | user now isolate u => exact absurd rfl (hm now isolate u)
          | _ => exact hun e he
        exact crashed_nextNet h.inv hun'

theorem contained_of_safe (h : Good s) {m : Msg} (hsafe : MsgSafe s idx m) :
    Contained s idx m := by
  refine ⟨s.next (.msg idx m), ?_, fun b hb => frame_msg h hsafe.1 hb⟩
  unfold step
  rw [crashed_msg h hsafe.2]
  rfl

/-! ### One step -/

/-- The condition on a step of a run: what it does to the botnet keeps the list a tree, and no script
is told of anybody. -/
def Safe (s : PartyLine) : Event → Prop
  | .msg idx m => (∀ e ∈ s.netEvent idx m, Botnet.Safe s.net e) ∧ MsgUnheard s idx m
  | .net e => Botnet.Safe s.net e ∧ NetUnheard s e

theorem good_nextNet (h : Good s) {e : Botnet.Event} (he : Botnet.Safe s.net e)
    (hun : NetUnheard s e) : Good (s.nextNet e) := by
  refine ⟨?_, h.unique.subperm (sub_nextNet h.inv e), (crashed_nextNet h.inv hun).trans h.alive⟩
  obtain ⟨n, hok, hinv⟩ := Botnet.step_ok h.inv he
  rwa [net_nextNet s e hok]

theorem good_userMsg (h : Good s) (now : Int) {m : UserMsg} (hun : m.Unheard s idx) :
    Good (s.userMsg now idx m) :=
  ⟨(net_userMsg s now idx m).symm ▸ h.inv, unique_userMsg h now idx m,
    (crashed_userMsg hun).trans h.alive⟩

theorem good_handle (h : Good s) {m : Msg} (hm : ∀ e ∈ s.netEvent idx m, Botnet.Safe s.net e)
    (hun : MsgUnheard s idx m) : Good (s.handle idx m) := by
  by_cases huser : ∃ now isolate u, m = .user now isolate u
  · obtain ⟨now, isolate, u, rfl⟩ := huser
    simp only [handle]
    split
    · exact h
    · next hiso => exact good_userMsg h now (hun (by simpa using hiso))
  · cases he : s.netEvent idx m with
    | none =>
      rw [handle_eq_self he fun now isolate u hu => huser ⟨now, isolate, u, hu⟩]
      exact h
    | some e =>
      rw [handle_eq_nextNet he]
      refine good_nextNet h (hm e he) ?_
      cases m with
      | user now isolate u => cases he
      | _ => exact hun e he

theorem good_next (h : Good s) {e : Event} (he : Safe s e) : Good (s.next e) := by
  cases e with
  | msg idx m =>
    rcases s.fromBot_cases idx fun _ => s.handle idx m with ⟨heq, -⟩ | ⟨d, -, -, heq⟩
    · rw [next, heq]
      exact h
    · rw [next, heq]
      exact good_handle h he.1 he.2
  | net e => exact good_nextNet h he.1 he.2

theorem step_eq {e : Event} (h : Good (s.next e)) : s.step e = .ok (s.next e) := by
  unfold step
  rw [h.alive]
  rfl

theorem step_ok (h : Good s) {e : Event} (he : Safe s e) : ∃ s', s.step e = .ok s' ∧ Good s' :=
  ⟨_, step_eq (good_next h he), good_next h he⟩

theorem good_start {botnetnick : CStr} (hme : botnetnick ≠ [] ∧ ' ' ∉ botnetnick) :
    Good (start botnetnick) :=
  ⟨Botnet.inv_start Sayable hme, Pairwise.nil, rfl⟩

end PartyLine
end Eggdrop.Tandem
