import Eggdrop.Lib.TwoRuns
import Eggdrop.Botnet.DumpLinks
import Eggdrop.Botnet.Isolation

/-!
# Agree — two runs that differ on one link

* `quiet_nextNet`: what becomes of the botnet leaves the records of the bots that stay.
* `outside_nextNet`: a bot behind another link was behind it before, or is announced by the step.
* `agree_both`, `agree_left`: what each kind of event keeps.
* `isolated_throughout`: a link touches the users of the bots behind it only.
-/

namespace Eggdrop.Tandem
namespace PartyLine

open List

variable {s s' t t' : PartyLine} {idx : Nat} {d : Dcc} {b who : CStr}

/-! ### The bots that stay keep their records -/

/-- The list has the name as it is spelled here, up to the case of letters. -/
def SpeltAs (n : Botnet) (who : CStr) : Prop :=
  ∀ t ∈ n.tandbot, rfcCaseEq who t.bot = true → strcaseEq t.bot who = true

/-- The bots of the links are listed by the names that the links have. -/
def Spelled (n : Botnet) : Prop := ∀ d ∈ n.dcc, d.type = .bot → SpeltAs n d.nick

/-- The records of the bots that are listed afterwards are those from before. -/
def Quiet (s s' : PartyLine) : Prop :=
  ∀ t ∈ s'.net.tandbot, ∀ b, rfcCaseEq b t.bot = true → records b s'.party ~ records b s.party

theorem quiet_of_party (h : s'.party = s.party) : Quiet s s' := fun _ _ _ _ => .of_eq (h ▸ rfl)

theorem Quiet.trans {s'' : PartyLine} (h : Quiet s s') (h' : Quiet s' s'')
    (hsub : s''.net.tandbot.Sublist s'.net.tandbot) : Quiet s s'' :=
  fun t ht b hb => (h' t ht b hb).trans (h t (hsub.subset ht) b hb)

theorem quiet_of_emptied (h : Botnet.Inv Sayable s.net) {gone : Tand → Prop}
    (hparty : Emptied gone s.party s'.party) (hsub : s'.net.tandbot.Sublist s.net.tandbot)
    (hgone : ∀ u, gone u → u ∈ s.net.tandbot ∧ u ∉ s'.net.tandbot) : Quiet s s' := by
  intro t ht b hb
  refine hparty.frame b fun u hu => ?_
  rw [← Bool.not_eq_true]
  intro hname
  have hut := h.eq_of_name (hgone u hu).1 (hsub.subset ht)
    (rfcCaseEq_trans (rfcCaseEq_of_strcaseEq hname) hb)
  exact (hgone u hu).2 (hut ▸ ht)

theorem SpeltAs.mono {n n' : Botnet} (h : SpeltAs n who)
    (hsub : n'.tandbot.Sublist n.tandbot) : SpeltAs n' who :=
  fun t ht => h t (hsub.subset ht)

theorem not_mem_of_hit (h : Botnet.Inv Sayable s.net) (hspelt : SpeltAs s.net who) {u : Tand}
    (hu : Hit who s u) :
    u ∈ s.net.tandbot ∧ u ∉ ((s.unvia (s.net.findbot who)).rembot who).net.tandbot := by
  obtain ⟨w, hw, hfind, humem, -, rfl | hgone⟩ := hu
  · refine ⟨humem, fun hin => ?_⟩
    obtain ⟨w', hw', hid, hname⟩ := h.findbot_eq_some.1 hfind
    obtain rfl := h.forest.eq_of_id hw' hw hid
    have hmid := inv_unvia h who
    have hin' := (Botnet.shrinks_rembot _ who).sub.subset hin
    rw [net_rembot, ← rembot_congr (hspelt w' hw hname)] at hin
    exact hmid.not_mem_rembot hin' hin rfl
  · refine ⟨humem, fun hin => hgone ?_⟩
    exact (Botnet.shrinks_rembot _ who).sub.subset hin

theorem sub_unvia_rembot (h : Botnet.Inv Sayable s.net) (who : CStr) :
    ((s.unvia (s.net.findbot who)).rembot who).net.tandbot.Sublist s.net.tandbot :=
  (Botnet.shrinks_rembot _ who).sub.trans (shrinks_unvia h who).sub

theorem quiet_unvia_rembot (h : Botnet.Inv Sayable s.net) (hspelt : SpeltAs s.net who) :
    Quiet s ((s.unvia (s.net.findbot who)).rembot who) :=
  quiet_of_emptied h (unvia_spec h who) (sub_unvia_rembot h who)
    fun _ hu => not_mem_of_hit h hspelt hu

theorem tandbot_lostdcc_of_bot (hd : s.net.dcc[idx]? = some d) (hbot : d.type = .bot) :
    (s.lostdcc idx).net.tandbot =
      ((s.unvia (s.net.findbot d.nick)).rembot d.nick).net.tandbot := by
  rw [lostdcc, hd]
  show (s.freeDccBot d).net.tandbot = _
  rw [freeDccBot, if_pos hbot]

theorem tandbot_lostdcc_of_ne (hno : ∀ d, s.net.dcc[idx]? = some d → d.type ≠ .bot) :
    (s.lostdcc idx).net.tandbot = s.net.tandbot := by
  rw [lostdcc]
  split
  · rfl
  · next d hd =>
    show (s.freeDccBot d).net.tandbot = _
    rw [freeDccBot, if_neg (hno d hd)]

theorem sub_tandbot_lostdcc (h : Botnet.Inv Sayable s.net) (idx : Nat) :
    (s.lostdcc idx).net.tandbot.Sublist s.net.tandbot := by
  by_cases hbot : ∃ d, s.net.dcc[idx]? = some d ∧ d.type = .bot
  · obtain ⟨d, hd, hbot⟩ := hbot
    rw [tandbot_lostdcc_of_bot hd hbot]
    exact sub_unvia_rembot h d.nick
  · rw [tandbot_lostdcc_of_ne fun d hd hd' => hbot ⟨d, hd, hd'⟩]

theorem quiet_lostdcc (h : Botnet.Inv Sayable s.net) (hspelled : Spelled s.net) (idx : Nat) :
    Quiet s (s.lostdcc idx) := by
  by_cases hbot : ∃ d, s.net.dcc[idx]? = some d ∧ d.type = .bot
  · obtain ⟨d, hd, hbot⟩ := hbot
    have hparty := unvia_spec h d.nick
    rw [← party_lostdcc_of_bot hd hbot] at hparty
    refine quiet_of_emptied h hparty (sub_tandbot_lostdcc h idx) fun u hu => ?_
    rw [tandbot_lostdcc_of_bot hd hbot]
    exact not_mem_of_hit h (hspelled d (mem_of_getElem? hd) hbot) hu
  · exact quiet_of_party (party_lostdcc_of_ne fun d hd hd' => hbot ⟨d, hd, hd'⟩)

theorem sub_dcc_lostdcc (h : Botnet.Inv Sayable s.net) (idx : Nat) :
    (s.lostdcc idx).net.dcc.Sublist s.net.dcc := by
  rw [lostdcc]
  split
  · exact .refl _
  · next d hd =>
    have hdcc : (s.freeDccBot d).net.dcc = s.net.dcc := by
      unfold freeDccBot
      split
      · exact (Botnet.shrinks_rembot _ _).dcc.trans (dcc_unvia h _)
      · rfl
    show ((s.freeDccBot d).net.dcc.eraseIdx idx).Sublist _
    rw [hdcc]
    exact eraseIdx_sublist _ _

theorem spelled_lostdcc (h : Botnet.Inv Sayable s.net) (hspelled : Spelled s.net) (idx : Nat) :
    Spelled (s.lostdcc idx).net := fun d hd hbot =>
  (hspelled d ((sub_dcc_lostdcc h idx).subset hd) hbot).mono (sub_tandbot_lostdcc h idx)

theorem sub_tandbot_loseFirst (n : Nat) : ∀ s : PartyLine, Botnet.Inv Sayable s.net →
    (loseFirst n s).net.tandbot.Sublist s.net.tandbot := by
  induction n with
  | zero => exact fun s _ => .refl _
  | succ n ih => exact fun s h => (ih _ (inv_lostdcc h 0)).trans (sub_tandbot_lostdcc h 0)

theorem quiet_loseFirst (n : Nat) : ∀ s : PartyLine, Botnet.Inv Sayable s.net → Spelled s.net →
    Quiet s (loseFirst n s) := by
  induction n with
  | zero => exact fun s _ _ => quiet_of_party rfl
  | succ n ih =>
    intro s h hspelled
    have hlost := inv_lostdcc h 0
    exact (quiet_lostdcc h hspelled 0).trans (ih _ hlost (spelled_lostdcc h hspelled 0))
      (sub_tandbot_loseFirst n _ hlost)

/-- The condition on the names of an event: a bot that leaves is spelled as it is listed, and no
users are left of a bot that is new. -/
def Told (s : PartyLine) : Botnet.Event → Prop
  | .nlinked _ par _ => s.net.inChain (Botnet.nlinkedWords par).1 = false →
    ∀ p ∈ s.party, rfcCaseEq p.bot (Botnet.nlinkedWords par).1 = false
  | .unlinked _ par => SpeltAs s.net (newsplit par).1
  | _ => True

/-- The condition on an event of the botnet. -/
structure NetSafe (s : PartyLine) (e : Botnet.Event) : Prop where
  safe : Botnet.Safe s.net e
  unheard : NetUnheard s e
  told : Told s e
  spelled : Spelled s.net

theorem quiet_thisbot (h : Botnet.Inv Sayable s.net) (hspelled : Spelled s.net)
    (hd : s.net.dcc[idx]? = some d) (hbot : d.type = .bot) :
    Quiet s ((s.unvia (s.net.findbot d.nick)).lostdcc idx) := by
  have hmid := inv_unvia h d.nick
  have hsub := (shrinks_unvia h d.nick).sub
  have hdcc := dcc_unvia h d.nick
  have hspelt := hspelled d (mem_of_getElem? hd) hbot
  generalize hm : s.unvia (s.net.findbot d.nick) = m at hmid hsub hdcc ⊢
  have hlost := sub_tandbot_lostdcc hmid idx
  have hquiet : Quiet m (m.lostdcc idx) := by
    refine quiet_lostdcc hmid (fun d' hd' hbot' => ?_) idx
    exact (hspelled d' (hdcc ▸ hd') hbot').mono hsub
  intro t ht b hb
  refine (hquiet t ht b hb).trans ((hm ▸ unvia_spec h d.nick).frame b fun u hu => ?_)
  rw [← Bool.not_eq_true]
  intro hname
  obtain ⟨w, hw, hfind, humem, -, hgone⟩ := hu
  -- an entry that stays is not one whose users went
  have hut := h.eq_of_name humem (hsub.subset (hlost.subset ht))
    (rfcCaseEq_trans (rfcCaseEq_of_strcaseEq hname) hb)
  rw [← hut] at ht
  have hum := hlost.subset ht
  rw [hm] at hgone
  obtain rfl := hgone.resolve_right (not_not.2 hum)
  obtain ⟨u', hu', hid, hnick⟩ := h.findbot_eq_some.1 hfind
  obtain rfl := h.forest.eq_of_id hu' hw hid
  have hhit : Hit d.nick m u' :=
    ⟨u', hum, hmid.findbot_eq_some.2 ⟨u', hum, rfl, hnick⟩, hum, rfl, .inl rfl⟩
  rw [tandbot_lostdcc_of_bot (hdcc ▸ hd) hbot] at ht
  exact (not_mem_of_hit hmid (hspelt.mono hsub) hhit).2 ht

theorem quiet_nextNet (h : Good s) {e : Botnet.Event} (hs : NetSafe s e) :
    Quiet s (s.nextNet e) := by
  have hfrom {idx : Nat} {f : Dcc → PartyLine}
      (hf : ∀ d, s.net.dcc[idx]? = some d → d.type = .bot → Quiet s (f d)) :
      Quiet s (s.fromBot idx f) := by
    rcases s.fromBot_cases idx f with ⟨heq, -⟩ | ⟨d, hd, hbot, heq⟩
    · exact quiet_of_party (congrArg PartyLine.party heq)
    · rw [heq]
      exact hf d hd hbot
  have hlost (idx : Nat) : Quiet s (s.lostdcc idx) := quiet_lostdcc h.inv hs.spelled idx
  cases e with
  | connect nick => exact quiet_of_party rfl
  | version idx par =>
    simp only [nextNet]
    split
    · exact quiet_of_party rfl
    · split
      · unfold botVersion
        split
        · exact hlost idx
        · split
          · exact hlost idx
          · exact quiet_of_party rfl
      · exact quiet_of_party rfl
  | nlinked idx par leaf =>
    refine hfrom fun d _ _ => ?_
    simp only [botNlinked]
    split
    · exact hlost idx
    · exact quiet_of_party rfl
  | unlinked idx par =>
    refine hfrom fun d _ _ => ?_
    simp only [botUnlinked]
    split
    · exact quiet_unvia_rembot h.inv hs.told
    · exact quiet_of_party rfl
  | update par => exact quiet_of_party rfl
  | thisbot idx par =>
    refine hfrom fun d hd hbot => ?_
    unfold botThisbot
    split
    · exact quiet_of_party rfl
    · exact quiet_thisbot h.inv hs.spelled hd hbot
  | lost idx => exact hlost idx
  | botunlink nick kept =>
    simp only [nextNet, botunlink]
    split
    · split
      · exact quiet_loseFirst _ s h.inv hs.spelled
      · intro t ht
        have hinv : Botnet.Inv Sayable (loseFirst s.net.dcc.length s).net := by
          rw [net_loseFirst]
          exact h.inv.loseFirst _
        dsimp only at ht
        rw [(hinv.toBase.wipe le_rfl).2] at ht
        cases ht
    · split
      · split
        · exact quiet_of_party rfl
        · exact hlost _
      · split <;> exact quiet_of_party rfl
  | reject handle =>
    simp only [nextNet, rejectBot]
    split
    · split
      · split
        · exact hlost _
        · exact quiet_of_party rfl
      · split <;> exact quiet_of_party rfl
    · exact quiet_of_party rfl

/-! ### Where the bots of the list come from -/

/-- A step announces the bot of an entry. -/
def Announces (n : Botnet) (t : Tand) : Botnet.Event → Prop
  | .nlinked idx par leaf => ∃ d ∈ n.dcc[idx]?, n.inChain (Botnet.nlinkedWords par).1 = false ∧
    t.bot = (Botnet.nlinkedWords par).1 ∧ t.via = (n.botNlinked idx d par leaf).findbot d.nick
  | _ => False

/-- An entry with the same bot and the same first hop. -/
def Stems (n : Botnet) (t : Tand) : Prop :=
  ∃ u ∈ n.tandbot, u.id = t.id ∧ u.bot = t.bot ∧ u.via = t.via

theorem stems_of_mem {n : Botnet} {t : Tand} (ht : t ∈ n.tandbot) : Stems n t :=
  ⟨t, ht, rfl, rfl, rfl⟩

theorem stems_addbot {n : Botnet} {t : Tand} {who from_ next : CStr} {flag : Char} {vernum : Int}
    (ht : t ∈ (n.addbot who from_ next flag vernum).tandbot) :
    t ∈ n.tandbot ∨ t = n.entryOf who from_ next flag vernum := by
  rw [Botnet.tandbot_addbot] at ht
  rcases mem_append.1 ht with ht | ht
  · exact .inl ht
  · exact .inr (mem_singleton.1 ht)

theorem sub_wipe (n : Nat) (s : Botnet) : (Botnet.wipe n s).tandbot.Sublist s.tandbot := by
  induction n generalizing s with
  | zero => exact .refl _
  | succ n ih =>
    rw [Botnet.wipe]
    split
    · exact .refl _
    · exact (ih _).trans (Botnet.shrinks_rembot s _).sub

theorem stems_botNlinked (h : Botnet.Inv Sayable s.net) {idx : Nat} {d : Dcc} {par : CStr}
    {leaf : Bool} {t : Tand} (hd : s.net.dcc[idx]? = some d)
    (ht : t ∈ (s.botNlinked idx d par leaf).net.tandbot) :
    Stems s.net t ∨ t.id = s.net.fresh ∧ Announces s.net t (.nlinked idx par leaf) := by
  simp only [botNlinked] at ht
  split at ht
  · exact .inl (stems_of_mem ((sub_tandbot_lostdcc h idx).subset ht))
  · next hnone =>
    dsimp only at ht
    have hadd : s.net.botNlinked idx d par leaf = s.net.addbot (Botnet.nlinkedWords par).1
        d.nick (Botnet.nlinkedWords par).2.1
        (if (Botnet.nlinkedWords par).2.2.head?.getD '-' = '!' then '-'
          else (Botnet.nlinkedWords par).2.2.head?.getD '-')
        (base64ToInt (Botnet.nlinkedWords par).2.2.tail) := by
      simp only [Botnet.botNlinked, hnone]
    rw [hadd] at ht
    rcases stems_addbot ht with ht | rfl
    · exact .inl (stems_of_mem ht)
    · refine .inr ⟨rfl, d, hd, (Botnet.nlinkedRefusal_eq_none.1 hnone).2.2.1, rfl, ?_⟩
      rw [hadd]
      rfl

theorem stems_next (h : Botnet.Inv Sayable s.net) {e : Botnet.Event} {t : Tand}
    (ht : t ∈ (s.nextNet e).net.tandbot) :
    Stems s.net t ∨ t.id = s.net.fresh ∧ Announces s.net t e := by
  have hsub {s' : PartyLine} (hsub : s'.net.tandbot.Sublist s.net.tandbot)
      (ht : t ∈ s'.net.tandbot) : Stems s.net t ∨ t.id = s.net.fresh ∧ Announces s.net t e :=
    .inl (stems_of_mem (hsub.subset ht))
  have hlost (idx : Nat) := hsub (sub_tandbot_lostdcc h idx)
  have hsame := @hsub s (.refl _)
  cases e with
  | connect nick => exact hsame ht
  | version idx par =>
    simp only [nextNet] at ht
    split at ht
    · exact hsame ht
    · next d hd =>
      split at ht
      · unfold botVersion at ht
        split at ht
        · exact hlost idx ht
        · split at ht
          · exact hlost idx ht
          · exact hsame ht
      · exact hsame ht
  | nlinked idx par leaf =>
    rcases s.fromBot_cases idx fun d => s.botNlinked idx d par leaf with
      ⟨heq, -⟩ | ⟨d, hd, hbot, heq⟩
    · exact hsame (heq ▸ ht)
    · rw [nextNet, heq] at ht
      exact stems_botNlinked h hd ht
  | unlinked idx par =>
    rcases s.fromBot_cases idx fun _ => s.botUnlinked idx par with ⟨heq, -⟩ | ⟨d, -, -, heq⟩
    · exact hsame (heq ▸ ht)
    · rw [nextNet, heq] at ht
      simp only [botUnlinked] at ht
      split at ht
      · exact hsub (sub_unvia_rembot h _) ht
      · exact hsame ht
  | update par =>
    simp only [nextNet, Botnet.botUpdate, Botnet.updatebot] at ht
    split at ht
    · split at ht
      · exact hsame ht
      · obtain ⟨u, hu, rfl⟩ := mem_map.1 ht
        refine .inl ⟨u, hu, ?_⟩
        split <;> exact ⟨rfl, rfl, rfl⟩
    · exact hsame ht
  | thisbot idx par =>
    rcases s.fromBot_cases idx fun d => s.botThisbot idx d par with ⟨heq, -⟩ | ⟨d, -, -, heq⟩
    · exact hsame (heq ▸ ht)
    · rw [nextNet, heq, botThisbot] at ht
      split at ht
      · next hname =>
        rw [Botnet.botThisbot, if_pos hname] at ht
        exact hsame ht
      · exact hsub ((sub_tandbot_lostdcc (inv_unvia h _) idx).trans (shrinks_unvia h _).sub) ht
  | lost idx => exact hlost idx ht
  | botunlink nick kept =>
    simp only [nextNet, botunlink] at ht
    have hlose (n : Nat) := sub_tandbot_loseFirst n s h
    split at ht
    · split at ht
      · exact hsub (hlose _) ht
      · exact .inl (stems_of_mem ((hlose _).subset ((sub_wipe _ _).subset ht)))
    · split at ht
      · split at ht
        · exact hsame ht
        · exact hlost _ ht
      · split at ht
        · exact hsub (Botnet.shrinks_rembot _ _).sub ht
        · exact hsame ht
  | reject handle =>
    simp only [nextNet, rejectBot] at ht
    split at ht
    · split at ht
      · split at ht
        · exact hlost _ ht
        · exact hsame ht
      · split at ht
        · exact hsame ht
        · exact @hsub (s.rembot handle) (Botnet.shrinks_rembot _ _).sub ht
    · exact hsame ht

/-! ### The bots behind the other links -/

/-- The bots whose first hop is not `N`, with the first hop. -/
def outside (N : CStr) (n : Botnet) : List (CStr × CStr) :=
  n.tandbot.filterMap fun t => (t.via >>= n.deref).bind fun v =>
    if rfcCaseEq v.bot N then none else some (t.bot, v.bot)

def Outside (N : CStr) (n : Botnet) (b : CStr) : Prop :=
  ∃ x ∈ outside N n, rfcCaseEq b x.1 = true

variable {N : CStr}

theorem mem_outside (h : Botnet.Inv Sayable s.net) {x : CStr × CStr} :
    x ∈ outside N s.net ↔ ∃ t ∈ s.net.tandbot, ∃ v ∈ s.net.tandbot, t.via = some v.id ∧
      rfcCaseEq v.bot N = false ∧ x = (t.bot, v.bot) := by
  rw [outside, mem_filterMap]
  constructor
  · rintro ⟨t, ht, hx⟩
    obtain ⟨v, hv, hvia⟩ := via_mem h ht
    rw [hvia, Option.bind_eq_bind, Option.bind_some, h.deref_of_mem hv, Option.bind_some] at hx
    split at hx
    · cases hx
    · next hN => exact ⟨t, ht, v, hv, hvia, by simpa using hN, (Option.some.inj hx).symm⟩
  · rintro ⟨t, ht, v, hv, hvia, hN, rfl⟩
    refine ⟨t, ht, ?_⟩
    rw [hvia, Option.bind_eq_bind, Option.bind_some, h.deref_of_mem hv, Option.bind_some, hN]
    rfl

theorem outside_iff (h : Botnet.Inv Sayable s.net) :
    Outside N s.net b ↔ ∃ t ∈ s.net.tandbot, ∃ v ∈ s.net.tandbot, t.via = some v.id ∧
      rfcCaseEq v.bot N = false ∧ rfcCaseEq b t.bot = true := by
  constructor
  · rintro ⟨x, hx, hb⟩
    obtain ⟨t, ht, v, hv, hvia, hN, rfl⟩ := (mem_outside h).1 hx
    exact ⟨t, ht, v, hv, hvia, hN, hb⟩
  · rintro ⟨t, ht, v, hv, hvia, hN, hb⟩
    exact ⟨(t.bot, v.bot), (mem_outside h).2 ⟨t, ht, v, hv, hvia, hN, rfl⟩, hb⟩

theorem outside_nextNet (h : Good s) {e : Botnet.Event} (h' : Good (s.nextNet e))
    (hout : Outside N (s.nextNet e).net b) :
    Outside N s.net b ∨ ∃ t ∈ (s.nextNet e).net.tandbot, ∃ v ∈ (s.nextNet e).net.tandbot,
      t.via = some v.id ∧ rfcCaseEq v.bot N = false ∧ rfcCaseEq b t.bot = true ∧
      Announces s.net t e := by
  obtain ⟨t, ht, v, hv, hvia, hN, hb⟩ := (outside_iff h'.inv).1 hout
  rcases stems_next h.inv ht with ⟨u, hu, -, hubot, huvia⟩ | ⟨-, hann⟩
  · obtain ⟨w, hw, hwid⟩ := via_mem h.inv hu
    have hid : w.id = v.id := Option.some.inj (hwid.symm.trans (huvia.trans hvia))
    rcases stems_next h.inv hv with ⟨v', hv', hvid, hvbot, -⟩ | ⟨hfresh, -⟩
    · obtain rfl := h.inv.forest.eq_of_id hw hv' (hid.trans hvid.symm)
      refine .inl ((outside_iff h.inv).2 ⟨u, hu, w, hw, hwid, ?_, ?_⟩)
      · rw [hvbot]
        exact hN
      · rw [hubot]
        exact hb
    · have := h.inv.young w hw
      omega
  · exact .inr ⟨t, ht, v, hv, hvia, hN, hb, hann⟩

/-- For every bot behind another link, a step keeps its records, or it is new and has none. -/
def Steady (N : CStr) (s s' : PartyLine) : Prop :=
  ∀ b, Outside N s'.net b → Outside N s.net b ∧ records b s'.party ~ records b s.party ∨
    s.net.findbot b = none ∧ records b s'.party = []

theorem Steady.refl (N : CStr) (s : PartyLine) : Steady N s s := fun _ hb => .inl ⟨hb, .refl _⟩

theorem records_eq_nil (hfresh : ∀ p ∈ s.party, rfcCaseEq p.bot who = false)
    (hb : rfcCaseEq b who = true) (hsub : s'.party <+~ s.party) : records b s'.party = [] := by
  refine filter_eq_nil_iff.2 fun p hp hname => ?_
  have hne := hfresh p (hsub.subset hp)
  rw [rfcCaseEq_trans (rfcCaseEq_of_strcaseEq hname) hb] at hne
  cases hne

theorem steady_nextNet (h : Good s) {e : Botnet.Event} (hs : NetSafe s e) :
    Steady N s (s.nextNet e) := by
  intro b hout
  have h' := good_nextNet h hs.safe hs.unheard
  obtain ⟨t, ht, -, -, -, -, hb⟩ := (outside_iff h'.inv).1 hout
  have hnone {w : CStr} (hin : s.net.inChain w = false) (hbw : rfcCaseEq b w = true) :
      s.net.findbot b = none := by
    rw [Botnet.findbot_congr hbw]
    exact (Botnet.inChain_eq_false hin).1
  rcases outside_nextNet h h' hout with hout | ⟨t, -, v, -, -, -, hb, hann⟩
  · exact .inl ⟨hout, quiet_nextNet h hs t ht b hb⟩
  · have hsub := sub_nextNet h.inv e
    cases e with
    | version idx par => exact hann.elim
    | nlinked idx par leaf =>
      obtain ⟨d, hd, hin, hname, -⟩ := hann
      rw [hname] at hb
      exact .inr ⟨hnone hin hb, records_eq_nil (hs.told hin) hb hsub⟩
    | connect nick => exact hann.elim
    | unlinked idx par => exact hann.elim
    | update par => exact hann.elim
    | thisbot idx par => exact hann.elim
    | lost idx => exact hann.elim
    | botunlink nick kept => exact hann.elim
    | reject handle => exact hann.elim

/-! ### Two runs -/

/-- The two have the same users on the bots that both have behind other links than that to `N`. -/
def Agree (N : CStr) (s t : PartyLine) : Prop :=
  ∀ b, Outside N s.net b → Outside N t.net b → records b s.party ~ records b t.party

/-- The two have the same links, and the same bots behind other links than that to `N`. -/
def Alike (N : CStr) (n m : Botnet) : Prop := n.dcc = m.dcc ∧ outside N n = outside N m

theorem Alike.symm {n m : Botnet} (h : Alike N n m) : Alike N m n := ⟨h.1.symm, h.2.symm⟩

theorem Agree.symm (h : Agree N s t) : Agree N t s := fun b hb hb' => (h b hb' hb).symm

theorem Alike.outside {n m : Botnet} (h : Alike N n m) (hb : Outside N n b) : Outside N m b := by
  rw [Outside, ← h.2]
  exact hb

theorem findbot_of_outside (h : Good s) (hb : Outside N s.net b) : s.net.findbot b ≠ none := by
  obtain ⟨t, ht, -, -, -, -, hname⟩ := (outside_iff h.inv).1 hb
  intro hnone
  rw [h.inv.findbot_eq_some.2 ⟨t, ht, rfl, hname⟩] at hnone
  cases hnone

theorem agree_of_steady (hs : Good s) (ht : Good t) (hagree : Agree N s t)
    (halike : Alike N s.net t.net) (hs' : Steady N s s') (ht' : Steady N t t') :
    Agree N s' t' := by
  intro b hb hb'
  rcases hs' b hb with ⟨hsb, hsrec⟩ | ⟨hsnone, hsnil⟩
  · rcases ht' b hb' with ⟨htb, htrec⟩ | ⟨htnone, -⟩
    · exact hsrec.trans ((hagree b hsb htb).trans htrec.symm)
    · exact absurd htnone (findbot_of_outside ht (halike.outside hsb))
  · rcases ht' b hb' with ⟨htb, -⟩ | ⟨-, htnil⟩
    · exact absurd hsnone (findbot_of_outside hs (halike.symm.outside htb))
    · rw [hsnil, htnil]

/-- A bot behind another link is not reached through the link to `N`. -/
theorem nextbot_of_outside (h : Good s) (hd : s.net.dcc[idx]? = some d)
    (hN : rfcCaseEq d.nick N = true) (hb : Outside N s.net b) : s.net.nextbot b ≠ some idx := by
  obtain ⟨t, ht, v, hv, hvia, hvN, hname⟩ := (outside_iff h.inv).1 hb
  intro hidx
  rw [nextbot_of_mem h.inv ht hv hvia hname] at hidx
  obtain ⟨hlt, hp, -⟩ := findIdx?_eq_some_iff_getElem.1 hidx
  rw [getElem?_eq_getElem hlt] at hd
  rw [Option.some.inj hd, Bool.and_eq_true] at hp
  rw [rfcCaseEq_trans (rfcCaseEq_of_strcaseEq hp.1) hN] at hvN
  cases hvN

theorem nextbot_of_alike (hs : Good s) (ht : Good t) (halike : Alike N s.net t.net)
    (hd : s.net.dcc[idx]? = some d) (hN : rfcCaseEq d.nick N = false)
    (hidx : s.net.nextbot b = some idx) : t.net.nextbot b = some idx := by
  obtain ⟨u, hu, v, hv, d', hname, hvia, hd', hnick⟩ := hs.inv.nextbot_eq_some hidx
  obtain rfl := Option.some.inj (hd.symm.trans hd')
  have hvN : rfcCaseEq v.bot N = false := by
    rw [← hN]
    exact rfcCaseEq_congr_left (rfcCaseEq_of_strcaseEq hnick) N
  have hmem : (u.bot, v.bot) ∈ outside N t.net :=
    halike.2 ▸ (mem_outside hs.inv).2 ⟨u, hu, v, hv, hvia, hvN, rfl⟩
  obtain ⟨u', hu', v', hv', hvia', -, heq⟩ := (mem_outside ht.inv).1 hmem
  obtain ⟨hu'bot, hv'bot⟩ := Prod.mk.injEq .. ▸ heq
  rw [nextbot_of_mem hs.inv hu hv hvia hname] at hidx
  rw [nextbot_of_mem ht.inv hu' hv' hvia' (hu'bot ▸ hname), ← halike.1, ← hv'bot]
  exact hidx

theorem agree_userMsg (hs : Good s) (ht : Good t) (hagree : Agree N s t)
    (halike : Alike N s.net t.net) (hd : s.net.dcc[idx]? = some d) {now : Int} {m : UserMsg}
    (hfirm : m.Firm) (hsm : m.Checked ∨ ∀ bot ∈ m.bot, s.net.nextbot bot = some idx)
    (htm : m.Checked ∨ ∀ bot ∈ m.bot, t.net.nextbot bot = some idx) :
    Agree N (s.userMsg now idx m) (t.userMsg now idx m) := by
  intro b hb hb'
  rw [net_userMsg] at hb hb'
  have hsame := hagree b hb hb'
  by_cases hN : rfcCaseEq d.nick N = true
  · -- a message of the link to `N` touches neither
    have hsb : records b (s.userMsg now idx m).party ~ records b s.party :=
      frame_userMsg hs hsm (nextbot_of_outside hs hd hN hb)
    have htb : records b (t.userMsg now idx m).party ~ records b t.party :=
      frame_userMsg ht htm (nextbot_of_outside ht (halike.1 ▸ hd) hN hb')
    exact hsb.trans (hsame.trans htb.symm)
  · rw [Bool.not_eq_true] at hN
    cases hbot : m.bot with
    | none => rwa [userMsg_of_none hbot, userMsg_of_none hbot]
    | some bot =>
      by_cases hidx : s.net.nextbot bot = some idx
      · have hidx' := nextbot_of_alike hs ht halike hd hN hidx
        obtain ⟨op, sock, hop, hsock, hparty⟩ :=
          userMsg_spec now idx m hbot fun _ => length_of_nextbot hs.inv hidx
        rw [hparty s fun _ => hidx, hparty t fun _ => hidx', hsock hfirm t s]
        cases hname : strcaseEq bot b with
        | true =>
          rw [← records_congr hname, ← records_congr hname t.party] at hsame
          rw [← records_congr hname, ← records_congr hname (op _ t.party)]
          exact (hop _).own _ _ hs.unique ht.unique hsame
        | false =>
          exact ((hop _).frame _ b hs.unique hname).trans
            (hsame.trans ((hop _).frame _ b ht.unique hname).symm)
      · have hidx' : t.net.nextbot bot ≠ some idx := fun h =>
          hidx (nextbot_of_alike ht hs halike.symm (halike.1 ▸ hd) hN h)
        have hchecked := hsm.resolve_right fun hall => hidx (hall bot hbot)
        rwa [userMsg_of_ne hchecked hbot hidx, userMsg_of_ne hchecked hbot hidx']

/-- The condition on an event in one of the runs. -/
def OneSafe (s : PartyLine) : Event → Prop
  | .msg idx (.user now isolate m) => MsgSafe s idx (.user now isolate m)
  | .msg idx m => ∀ e ∈ s.netEvent idx m, NetSafe s e
  | .net e => NetSafe s e

/-- A message on the link to `N`. -/
def OnLink (N : CStr) (s : PartyLine) : Event → Prop
  | .msg idx _ => ∀ d ∈ s.net.dcc[idx]?, rfcCaseEq d.nick N = true
  | .net _ => False

/-- A message says which socket it means. -/
def Event.Firm : Event → Prop
  | .msg _ (.user _ _ m) => m.Firm
  | _ => True

theorem steady_handle (h : Good s) {m : Msg} (hm : ∀ now isolate u, m ≠ .user now isolate u)
    (hs : ∀ e ∈ s.netEvent idx m, NetSafe s e) : Steady N s (s.handle idx m) := by
  cases he : s.netEvent idx m with
  | none =>
    rw [handle_eq_self he hm]
    exact .refl N s
  | some e =>
    rw [handle_eq_nextNet he]
    exact steady_nextNet h (hs e he)

theorem agree_both (hs : Good s) (ht : Good t) (hagree : Agree N s t)
    (halike : Alike N s.net t.net) {e : Event} (hfirm : e.Firm) (hse : OneSafe s e)
    (hte : OneSafe t e) : Agree N (s.next e) (t.next e) := by
  cases e with
  | net e => exact agree_of_steady hs ht hagree halike (steady_nextNet hs hse) (steady_nextNet ht hte)
  | msg idx m =>
    rcases s.fromBot_cases idx fun _ => s.handle idx m with ⟨heq, hno⟩ | ⟨d, hd, hbot, heq⟩
    · rcases t.fromBot_cases idx fun _ => t.handle idx m with ⟨heq', -⟩ | ⟨d, hd, hbot, -⟩
      · rw [next, next, heq, heq']
        exact hagree
      · exact absurd hbot (hno d (halike.1 ▸ hd))
    · have heq' : t.fromBot idx (fun _ => t.handle idx m) = t.handle idx m := by
        rw [fromBot, ← halike.1, hd]
        exact if_pos hbot
      rw [next, next, heq, heq']
      by_cases huser : ∃ now isolate u, m = .user now isolate u
      · obtain ⟨now, isolate, u, rfl⟩ := huser
        cases isolate with
        | true => exact hagree
        | false => exact agree_userMsg hs ht hagree halike hd hfirm (hse.1 rfl) (hte.1 rfl)
      · have hm (now : Int) (isolate : Bool) (u : UserMsg) : m ≠ .user now isolate u :=
          fun hu => huser ⟨now, isolate, u, hu⟩
        have hnet {s : PartyLine} (hs : OneSafe s (.msg idx m)) :
            ∀ e ∈ s.netEvent idx m, NetSafe s e := by
          cases m with
          | user now isolate u => exact absurd rfl (hm now isolate u)
          | _ => exact hs
        exact agree_of_steady hs ht hagree halike (steady_handle hs hm (hnet hse))
          (steady_handle ht hm (hnet hte))

/-- What a message on the link to `N` that one run gets keeps. -/
theorem agree_left (hs : Good s) (hagree : Agree N s t) {m : Msg}
    (hN : ∀ d ∈ s.net.dcc[idx]?, rfcCaseEq d.nick N = true) (hse : OneSafe s (.msg idx m)) :
    Agree N (s.next (.msg idx m)) t := by
  rcases s.fromBot_cases idx fun _ => s.handle idx m with ⟨heq, -⟩ | ⟨d, hd, hbot, heq⟩
  · rw [next, heq]
    exact hagree
  · rw [next, heq]
    by_cases huser : ∃ now isolate u, m = .user now isolate u
    · obtain ⟨now, isolate, u, rfl⟩ := huser
      cases isolate with
      | true => exact hagree
      | false =>
        intro b hb hb'
        change Outside N (s.userMsg now idx u).net b at hb
        rw [net_userMsg] at hb
        exact (frame_userMsg hs (hse.1 rfl) (nextbot_of_outside hs hd (hN d hd) hb)).trans
          (hagree b hb hb')
    · cases he : s.netEvent idx m with
      | none =>
        rw [handle_eq_self he fun now isolate u hu => huser ⟨now, isolate, u, hu⟩]
        exact hagree
      | some e =>
        rw [handle_eq_nextNet he]
        have hsafe : NetSafe s e := by
          cases m with
          | user now isolate u => exact absurd ⟨now, isolate, u, rfl⟩ huser
          | _ => exact hse e he
        intro b hb hb'
        have h' := good_nextNet hs hsafe.safe hsafe.unheard
        rcases outside_nextNet hs h' hb with hout | ⟨u, hu, v, hv, hvia, hvN, -, hann⟩
        · obtain ⟨u, hu, -, -, -, -, hname⟩ := (outside_iff h'.inv).1 hb
          exact (quiet_nextNet hs hsafe u hu b hname).trans (hagree b hout hb')
        · -- a bot that the message announces is behind the link to `N`
          cases m with
          | nlinked par leaf =>
            obtain rfl := Option.some.inj he
            obtain ⟨d', hd', -, -, hvia'⟩ := hann
            obtain rfl := Option.some.inj (hd.symm.trans hd')
            have hnet : (s.nextNet (.nlinked idx par leaf)).net = s.net.botNlinked idx d par leaf := by
              rw [net_nextNet s _ rfl, Botnet.fromBot, hd]
              exact if_pos hbot
            rw [hvia, ← hnet] at hvia'
            obtain ⟨w, hw, hid, hname⟩ := h'.inv.findbot_eq_some.1 hvia'.symm
            obtain rfl := h'.inv.forest.eq_of_id hw hv hid
            rw [rfcCaseEq_comm] at hname
            rw [rfcCaseEq_trans hname (hN d hd)] at hvN
            cases hvN
          | user now isolate u => exact absurd ⟨now, isolate, u, rfl⟩ huser
          | unlinked par =>
            obtain rfl := Option.some.inj he
            exact hann.elim
          | update par =>
            obtain rfl := Option.some.inj he
            exact hann.elim
          | thisbot par =>
            obtain rfl := Option.some.inj he
            exact hann.elim
          | bye =>
            obtain rfl := Option.some.inj he
            exact hann.elim
          | reject isolate par =>
            simp only [netEvent] at he
            split at he
            · cases he
            · obtain ⟨i, -, rfl⟩ := Option.map_eq_some_iff.1 he
              exact hann.elim
          | unlink par kept =>
            simp only [netEvent] at he
            split at he
            · obtain rfl := Option.some.inj he
              exact hann.elim
            · cases he

theorem safe_of_oneSafe {e : Event} (hs : OneSafe s e) : Safe s e := by
  cases e with
  | net e => exact ⟨hs.safe, hs.unheard⟩
  | msg idx m =>
    cases m with
    | user now isolate u => exact ⟨fun e he => (nomatch he), hs.2⟩
    | _ => exact ⟨fun e he => (hs e he).safe, fun e he => (hs e he).unheard⟩

/-- The condition on an event of two runs that differ on the link to `N`. -/
def PairSafe (N : CStr) (s : PartyLine × PartyLine) : TwoRuns.Event Event → Prop
  | .both e => e.Firm ∧ OneSafe s.1 e ∧ OneSafe s.2 e ∧ Alike N s.1.net s.2.net
  | .left e => OneSafe s.1 e ∧ OnLink N s.1 e
  | .right e => OneSafe s.2 e ∧ OnLink N s.2 e

/-- From a state that is in order.  In a run whose steps meet the condition none faults, and at any
time a message that meets its own is got through and touches only users behind its link; two such runs
that differ on the link to `N` agree on the users of the bots behind other links. -/
theorem isolated_throughout (h : Good s) :
    (∀ es, Machine.Along step Safe s es → (∃ s', Machine.run step s es = .ok s') ∧
      Machine.Throughout step (fun s => ∀ idx m, MsgSafe s idx m → Contained s idx m) s es) ∧
    ∀ N es, Machine.Along (TwoRuns.step step) (PairSafe N) (s, s) es →
      (∃ s', Machine.run (TwoRuns.step step) (s, s) es = .ok s') ∧
      Machine.Throughout (TwoRuns.step step) (fun s => Agree N s.1 s.2) (s, s) es := by
  constructor
  · intro es hes
    obtain ⟨hrun, hall⟩ := Machine.run_throughout_of_along (fun _ _ hs he => step_ok hs he) h hes
    exact ⟨hrun, hall.imp fun s hs idx m => contained_of_safe hs⟩
  · intro N es hes
    have hrule : (∃ s', Machine.run (TwoRuns.step step) (s, s) es = .ok s') ∧
        Machine.Throughout (TwoRuns.step step)
          (fun s => Good s.1 ∧ Good s.2 ∧ Agree N s.1 s.2) (s, s) es := by
      refine TwoRuns.throughout_of_along ?_ ?_ ?_ ⟨h, h, fun b _ _ => .refl _⟩ hes
      · rintro ⟨s, t⟩ e ⟨hs, ht, hagree⟩ ⟨hfirm, hse, hte, halike⟩
        have hs' := good_next hs (safe_of_oneSafe hse)
        have ht' := good_next ht (safe_of_oneSafe hte)
        exact ⟨_, _, step_eq hs', step_eq ht', hs', ht',
          agree_both hs ht hagree halike hfirm hse hte⟩
      · rintro ⟨s, t⟩ e ⟨hs, ht, hagree⟩ ⟨hse, hlink⟩
        have hs' := good_next hs (safe_of_oneSafe hse)
        refine ⟨_, step_eq hs', hs', ht, ?_⟩
        cases e with
        | net e => exact hlink.elim
        | msg idx m => exact agree_left hs hagree hlink hse
      · rintro ⟨s, t⟩ e ⟨hs, ht, hagree⟩ ⟨hte, hlink⟩
        have ht' := good_next ht (safe_of_oneSafe hte)
        refine ⟨_, step_eq ht', hs, ht', ?_⟩
        cases e with
        | net e => exact hlink.elim
        | msg idx m => exact (agree_left ht hagree.symm hlink hte).symm
    exact ⟨hrule.1, hrule.2.imp fun s hs => hs.2.2⟩

/-! ### The conditions can be tried out -/

instance (n : Botnet) (idx : Nat) : Decidable (Owns n idx) :=
  inferInstanceAs (Decidable (∀ d, n.dcc[idx]? = some d → _))

instance : ∀ m : UserMsg, Decidable m.Checked
  | .nickchange _ | .join _ => isTrue trivial
  | .chan2 _ | .actchan _ | .part _ | .away _ | .idle _ => isFalse id

instance (m : UserMsg) : Decidable m.Firm :=
  inferInstanceAs (Decidable (∀ ss, m.ssock = some ss → _))

instance (s : PartyLine) (w : CStr) : Decidable (Mute s w) :=
  inferInstanceAs (Decidable (∀ p ∈ s.party, _ → ∀ x, s.net.findbot w = some x → _))

instance (s : PartyLine) (idx : Nat) : Decidable (LinkMute s idx) :=
  inferInstanceAs (Decidable (∀ d, s.net.dcc[idx]? = some d → _))

instance (s : PartyLine) (nick : CStr) (kept : Dcc → Bool) :
    Decidable (UnlinkUnheard s nick kept) := by
  have : Decidable (∀ i ∈ s.net.dcc.findIdx? (strcaseEq ·.nick nick),
      s.net.dcc[i]?.any (fun d => d.type == .bot && kept d) = false → LinkMute s i) :=
    inferInstanceAs (Decidable (∀ i, s.net.dcc.findIdx? (strcaseEq ·.nick nick) = some i → _))
  unfold UnlinkUnheard
  split
  · split <;> infer_instance
  · assumption

instance (s : PartyLine) : ∀ e, Decidable (NetUnheard s e)
  | .connect _ | .update _ => isTrue trivial
  | .version idx _ => inferInstanceAs (Decidable (∀ d, s.net.dcc[idx]? = some d → _))
  | .nlinked _ _ _ => inferInstanceAs (Decidable (_ → LinkMute s _))
  | .unlinked _ _ => inferInstanceAs (Decidable (_ → Mute s _))
  | .thisbot idx _ => inferInstanceAs (Decidable (∀ d, s.net.dcc[idx]? = some d → _))
  | .lost idx => inferInstanceAs (Decidable (LinkMute s idx))
  | .botunlink nick kept => inferInstanceAs (Decidable (UnlinkUnheard s nick kept))
  | .reject handle =>
    have : Decidable (∀ i ∈ s.net.nextbot handle,
        s.net.dcc[i]?.any (strcaseEq ·.nick handle) = true → LinkMute s i) :=
      inferInstanceAs (Decidable (∀ i, s.net.nextbot handle = some i → _))
    inferInstanceAs (Decidable (_ → _))

instance (s : PartyLine) (idx : Nat) : ∀ m : UserMsg, Decidable (m.Unheard s idx)
  | .join _ => inferInstanceAs (Decidable (_ → _ → _ → _))
  | .part par => inferInstanceAs (Decidable (∀ p, getparty (unmark (newsplit par).1) _ s.party >>=
      (s.party[·]?) = some p → _))
  | .chan2 _ | .actchan _ | .nickchange _ | .away _ | .idle _ => isTrue trivial

instance (s : PartyLine) (idx : Nat) : ∀ m, Decidable (MsgUnheard s idx m)
  | .user _ _ _ => inferInstanceAs (Decidable (_ → _))
  | .nlinked par leaf =>
    inferInstanceAs (Decidable (∀ e, s.netEvent idx (.nlinked par leaf) = some e → _))
  | .unlinked par => inferInstanceAs (Decidable (∀ e, s.netEvent idx (.unlinked par) = some e → _))
  | .update par => inferInstanceAs (Decidable (∀ e, s.netEvent idx (.update par) = some e → _))
  | .thisbot par => inferInstanceAs (Decidable (∀ e, s.netEvent idx (.thisbot par) = some e → _))
  | .bye => inferInstanceAs (Decidable (∀ e, s.netEvent idx .bye = some e → _))
  | .reject isolate par =>
    inferInstanceAs (Decidable (∀ e, s.netEvent idx (.reject isolate par) = some e → _))
  | .unlink par kept =>
    inferInstanceAs (Decidable (∀ e, s.netEvent idx (.unlink par kept) = some e → _))

instance (s : PartyLine) (idx : Nat) : ∀ m, Decidable (Directed s idx m)
  | .user _ isolate m =>
    have : Decidable (∀ bot ∈ m.bot, s.net.nextbot bot = some idx) :=
      inferInstanceAs (Decidable (∀ bot, m.bot = some bot → _))
    inferInstanceAs (Decidable (isolate = false → m.Checked ∨ _))
  | .nlinked _ _ | .thisbot _ | .bye => inferInstanceAs (Decidable (Owns s.net idx))
  | .unlinked _ | .update _ => inferInstanceAs (Decidable True)
  | .reject isolate par =>
    have : Decidable (∀ i ∈ s.rejectTarget idx par, i = idx ∧ Owns s.net idx) :=
      inferInstanceAs (Decidable (∀ i, s.rejectTarget idx par = some i → _))
    inferInstanceAs (Decidable (isolate = false → _))
  | .unlink _ _ => inferInstanceAs (Decidable (_ = false))

instance (s : PartyLine) (idx : Nat) (m : Msg) : Decidable (MsgSafe s idx m) :=
  inferInstanceAs (Decidable (_ ∧ _))

instance (n : Botnet) (who : CStr) : Decidable (SpeltAs n who) :=
  inferInstanceAs (Decidable (∀ t ∈ n.tandbot, _))

instance (n : Botnet) : Decidable (Spelled n) :=
  inferInstanceAs (Decidable (∀ d ∈ n.dcc, _))

instance (s : PartyLine) : ∀ e, Decidable (Told s e)
  | .nlinked _ par _ =>
    inferInstanceAs (Decidable (s.net.inChain (Botnet.nlinkedWords par).1 = false → _))
  | .unlinked _ par => inferInstanceAs (Decidable (SpeltAs s.net (newsplit par).1))
  | .connect _ | .version _ _ | .update _ | .thisbot _ _ | .lost _ | .botunlink _ _ | .reject _ =>
    inferInstanceAs (Decidable True)

instance (s : PartyLine) (e : Botnet.Event) : Decidable (NetSafe s e) :=
  decidable_of_iff (Botnet.Safe s.net e ∧ NetUnheard s e ∧ Told s e ∧ Spelled s.net)
    ⟨fun ⟨h1, h2, h3, h4⟩ => ⟨h1, h2, h3, h4⟩, fun ⟨h1, h2, h3, h4⟩ => ⟨h1, h2, h3, h4⟩⟩

instance (s : PartyLine) : ∀ e, Decidable (Safe s e)
  | .msg idx m => inferInstanceAs (Decidable ((∀ e, s.netEvent idx m = some e → _) ∧ _))
  | .net e => inferInstanceAs (Decidable (Botnet.Safe s.net e ∧ NetUnheard s e))

instance (s : PartyLine) : ∀ e, Decidable (OneSafe s e)
  | .msg idx (.user now isolate m) => inferInstanceAs (Decidable (MsgSafe s idx (.user now isolate m)))
  | .net e => inferInstanceAs (Decidable (NetSafe s e))
  | .msg idx (.nlinked par leaf) =>
    inferInstanceAs (Decidable (∀ e, s.netEvent idx (.nlinked par leaf) = some e → _))
  | .msg idx (.unlinked par) =>
    inferInstanceAs (Decidable (∀ e, s.netEvent idx (.unlinked par) = some e → _))
  | .msg idx (.update par) =>
    inferInstanceAs (Decidable (∀ e, s.netEvent idx (.update par) = some e → _))
  | .msg idx (.thisbot par) =>
    inferInstanceAs (Decidable (∀ e, s.netEvent idx (.thisbot par) = some e → _))
  | .msg idx .bye => inferInstanceAs (Decidable (∀ e, s.netEvent idx .bye = some e → _))
  | .msg idx (.reject isolate par) =>
    inferInstanceAs (Decidable (∀ e, s.netEvent idx (.reject isolate par) = some e → _))
  | .msg idx (.unlink par kept) =>
    inferInstanceAs (Decidable (∀ e, s.netEvent idx (.unlink par kept) = some e → _))

instance (N : CStr) (s : PartyLine) : ∀ e, Decidable (OnLink N s e)
  | .msg idx _ => inferInstanceAs (Decidable (∀ d, s.net.dcc[idx]? = some d → _))
  | .net _ => isFalse id

instance : ∀ e : Event, Decidable e.Firm
  | .msg _ (.user _ _ m) => inferInstanceAs (Decidable m.Firm)
  | .net _ | .msg _ (.nlinked _ _) | .msg _ (.unlinked _) | .msg _ (.update _)
  | .msg _ (.thisbot _) | .msg _ .bye | .msg _ (.reject _ _) | .msg _ (.unlink _ _) =>
    isTrue trivial

instance (N : CStr) (n m : Botnet) : Decidable (Alike N n m) := inferInstanceAs (Decidable (_ ∧ _))

instance (N : CStr) (s : PartyLine × PartyLine) : ∀ e, Decidable (PairSafe N s e)
  | .both e => inferInstanceAs (Decidable (e.Firm ∧ OneSafe s.1 e ∧ OneSafe s.2 e ∧ Alike N _ _))
  | .left e => inferInstanceAs (Decidable (OneSafe s.1 e ∧ OnLink N s.1 e))
  | .right e => inferInstanceAs (Decidable (OneSafe s.2 e ∧ OnLink N s.2 e))

/-- Two bots are linked, and each has a user. -/
def twoLinks : PartyLine :=
  ⟨((Botnet.start "hub".toList).linked "A".toList 1090000).linked "B".toList 1090000,
    [newMember 0 "A".toList "joe".toList 0 '-' 1 [], newMember 0 "B".toList "ann".toList 0 '-' 1 []],
    2300, false⟩

theorem good_twoLinks : Good twoLinks where
  inv := ((Botnet.inv_start Sayable (by decide)).linked (by decide) (by decide) (by decide) _).linked
    (by decide +kernel) (by decide) (by decide) _
  unique := by
    refine .cons (fun q hq hsame => ?_) (List.pairwise_singleton _ _)
    rw [List.mem_singleton.mp hq] at hsame
    exact absurd hsame.1 (by decide)
  alive := rfl

/-- The users say where they are; on the second link it is said in one run only. -/
theorem isolated_two_links :
    (∀ es, Machine.Along step Safe twoLinks es → (∃ s', Machine.run step twoLinks es = .ok s') ∧
      Machine.Throughout step (fun s => ∀ idx m, MsgSafe s idx m → Contained s idx m) twoLinks es) ∧
    (∃ s', Machine.run (TwoRuns.step step) (twoLinks, twoLinks)
        [.both (.msg 0 (.user 0 false (.join "A joe A -B joe@host".toList))),
          .left (.msg 1 (.user 5 false (.join "B ann A -B ann@host".toList))),
          .both (.msg 0 (.user 7 false (.away "A B lunch".toList)))] = .ok s') ∧
      Machine.Throughout (TwoRuns.step step) (fun s => Agree "B".toList s.1 s.2) (twoLinks, twoLinks)
        [.both (.msg 0 (.user 0 false (.join "A joe A -B joe@host".toList))),
          .left (.msg 1 (.user 5 false (.join "B ann A -B ann@host".toList))),
          .both (.msg 0 (.user 7 false (.away "A B lunch".toList)))] :=
  ⟨(isolated_throughout good_twoLinks).1,
    (isolated_throughout good_twoLinks).2 "B".toList _ (by decide +kernel)⟩

/-- A link makes a user of a bot behind another link go away. -/
theorem not_contained_away : ¬ Contained twoLinks 1 (.user 9 false (.away "A B lunch".toList)) := by
  rintro ⟨s', hstep, hall⟩
  have hok : (twoLinks.step (.msg 1 (.user 9 false (.away "A B lunch".toList)))).toOption =
      some (twoLinks.next (.msg 1 (.user 9 false (.away "A B lunch".toList)))) := rfl
  rw [hstep] at hok
  obtain rfl := Option.some.inj hok
  have hperm := hall "A".toList (by decide +kernel)
  have haway := hperm.map Member.away
  revert haway
  decide +kernel

end PartyLine
end Eggdrop.Tandem
