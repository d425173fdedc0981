import Mathlib.Data.List.Induction
import Eggdrop.Botnet.Tree
import Eggdrop.Botnet.PartyTable

/-!
# PartyNet — what becomes of the users when bots go

* `net_nextNet`: the table of users takes no part in what becomes of the list of bots.
* `unviaRec_spec`: `unvia` takes the users of the bot it is called for and of bots that share its
  first hop and go.
* `sub_nextNet`: no change of the botnet adds users.
* `crashed_nextNet`: one does not crash where the users that go are on no channel.
-/

namespace Eggdrop.Tandem
namespace PartyLine

open List

variable {s s' s'' : PartyLine} {idx : Nat} {d : Dcc} {who : CStr}

/-! ### The list of bots -/

theorem rembot_congr {n : Botnet} {a b : CStr} (h : strcaseEq a b = true) :
    n.rembot a = n.rembot b := by
  have hfun : (fun t : Tand => strcaseEq t.bot a) = fun t => strcaseEq t.bot b := by
    funext t
    rw [strcaseEq_comm t.bot, strcaseEq_comm t.bot, strcaseEq_congr_left h]
  rw [Botnet.rembot, Botnet.rembot, hfun]

@[simp] theorem net_rembot (s : PartyLine) (who : CStr) : (s.rembot who).net = s.net.rembot who :=
  rfl

@[simp] theorem party_rembot (s : PartyLine) (who : CStr) : (s.rembot who).party = s.party := rfl

theorem net_unviaLoop {f : Nat → PartyLine → PartyLine} {g : Nat → Botnet → Botnet}
    (hfg : ∀ i s, (f i s).net = g i s.net) (who : Nat) :
    ∀ (is : List Nat) (s : PartyLine), (unviaLoop who f is s).net = Botnet.unviaLoop who g is s.net
  | [], _ => rfl
  | i :: is, s => by
    rw [unviaLoop, Botnet.unviaLoop]
    cases s.net.deref i with
    | none => exact net_unviaLoop hfg who is s
    | some bot =>
      dsimp only
      split
      · rw [net_unviaLoop hfg who is, net_rembot, hfg]
      · exact net_unviaLoop hfg who is s

theorem net_unviaRec (n : Nat) : ∀ (who : Nat) (s : PartyLine),
    (unviaRec n who s).net = Botnet.unviaRec n who s.net := by
  induction n with
  | zero => exact fun _ _ => rfl
  | succ n ih =>
    intro who s
    rw [unviaRec, Botnet.unviaRec]
    cases s.net.deref who with
    | none => exact net_unviaLoop ih who _ s
    | some bot => exact net_unviaLoop ih who _ _

@[simp] theorem net_unvia (s : PartyLine) (who : Option Nat) :
    (s.unvia who).net = s.net.unvia who := by
  cases who with
  | none => rfl
  | some who => exact net_unviaRec _ who s

@[simp] theorem net_freeDccBot (s : PartyLine) (d : Dcc) :
    (s.freeDccBot d).net = s.net.freeDccBot d := by
  unfold freeDccBot Botnet.freeDccBot
  split
  · rw [net_rembot, net_unvia]
  · rfl

@[simp] theorem net_lostdcc (s : PartyLine) (idx : Nat) :
    (s.lostdcc idx).net = s.net.lostdcc idx := by
  unfold lostdcc Botnet.lostdcc
  cases s.net.dcc[idx]? with
  | none => rfl
  | some d => simp only [net_freeDccBot]

theorem net_loseFirst (n : Nat) (s : PartyLine) :
    (loseFirst n s).net = Botnet.loseFirst n s.net := by
  induction n generalizing s with
  | zero => rfl
  | succ n ih => rw [loseFirst, Botnet.loseFirst, ih, net_lostdcc]

theorem net_botVersion (s : PartyLine) (idx : Nat) (d : Dcc) (par : CStr) {n : Botnet}
    (hok : s.net.botVersion idx d par = .ok n) : (s.botVersion idx d par).net = n := by
  unfold botVersion
  unfold Botnet.botVersion at hok
  split
  · next hin =>
    rw [if_pos hin] at hok
    rw [net_lostdcc, Except.ok.inj hok]
  · next hin =>
    rw [if_neg hin] at hok
    split
    · next hlen =>
      rw [if_pos hlen] at hok
      rw [net_lostdcc, Except.ok.inj hok]
    · next hlen =>
      rw [if_neg hlen] at hok
      cases hok

theorem net_botNlinked (s : PartyLine) (idx : Nat) (d : Dcc) (par : CStr) (leaf : Bool) :
    (s.botNlinked idx d par leaf).net = s.net.botNlinked idx d par leaf := by
  simp only [botNlinked]
  split
  · next hsome =>
    rw [net_lostdcc]
    simp only [Botnet.botNlinked, hsome]
  · rfl

theorem net_botUnlinked (s : PartyLine) (idx : Nat) (par : CStr) :
    (s.botUnlinked idx par).net = s.net.botUnlinked idx par := by
  simp only [botUnlinked, Botnet.botUnlinked]
  split
  · rw [net_rembot, net_unvia]
  · rfl

theorem net_botThisbot (s : PartyLine) (idx : Nat) (d : Dcc) (par : CStr) :
    (s.botThisbot idx d par).net = s.net.botThisbot idx d par := by
  unfold botThisbot
  split
  · rfl
  · next hne =>
    rw [net_lostdcc, net_unvia, Botnet.botThisbot, if_neg hne]

theorem net_botunlink (s : PartyLine) (nick : CStr) (kept : Dcc → Bool) :
    (s.botunlink nick kept).net = s.net.botunlink nick kept := by
  simp only [botunlink, Botnet.botunlink]
  split
  · cases s.net.dcc.findIdx? fun d => d.type == .bot && kept d with
    | some i => exact net_loseFirst _ s
    | none => simp only [net_loseFirst]
  · cases s.net.dcc.findIdx? (strcaseEq ·.nick nick) with
    | some i =>
      dsimp only
      split
      · rfl
      · exact net_lostdcc s _
    | none => cases s.net.findbot nick >>= s.net.deref <;> rfl

theorem net_rejectBot (s : PartyLine) (handle : CStr) :
    (s.rejectBot handle).net = s.net.rejectBot handle := by
  unfold rejectBot Botnet.rejectBot
  split
  · cases s.net.nextbot handle with
    | some i =>
      dsimp only
      split
      · exact net_lostdcc s _
      · rfl
    | none =>
      dsimp only
      split <;> rfl
  · rfl

theorem net_fromBot {f : Dcc → PartyLine} {g : Dcc → Botnet} (hfg : ∀ d, (f d).net = g d)
    (s : PartyLine) (idx : Nat) : (s.fromBot idx f).net = s.net.fromBot idx g := by
  unfold fromBot Botnet.fromBot
  cases s.net.dcc[idx]? with
  | none => rfl
  | some d =>
    dsimp only
    split
    · exact hfg d
    · rfl

theorem net_nextNet (s : PartyLine) (e : Botnet.Event) {n : Botnet} (hok : s.net.step e = .ok n) :
    (s.nextNet e).net = n := by
  cases e with
  | connect nick => exact Except.ok.inj hok
  | version idx par =>
    simp only [nextNet]
    simp only [Botnet.step] at hok
    cases hd : s.net.dcc[idx]? with
    | none =>
      rw [hd] at hok
      exact Except.ok.inj hok
    | some d =>
      rw [hd] at hok
      dsimp only at hok ⊢
      split
      · next hnew =>
        rw [if_pos hnew] at hok
        exact net_botVersion s idx d par hok
      · next hnew =>
        rw [if_neg hnew] at hok
        exact Except.ok.inj hok
  | nlinked idx par leaf =>
    exact (net_fromBot (fun d => net_botNlinked s idx d par leaf) s idx).trans (Except.ok.inj hok)
  | unlinked idx par =>
    exact (net_fromBot (fun _ => net_botUnlinked s idx par) s idx).trans (Except.ok.inj hok)
  | update par => exact Except.ok.inj hok
  | thisbot idx par =>
    exact (net_fromBot (fun d => net_botThisbot s idx d par) s idx).trans (Except.ok.inj hok)
  | lost idx => exact (net_lostdcc s idx).trans (Except.ok.inj hok)
  | botunlink nick kept => exact (net_botunlink s nick kept).trans (Except.ok.inj hok)
  | reject handle => exact (net_rejectBot s handle).trans (Except.ok.inj hok)

/-! ### What `unvia` does to the users -/

variable {ok : CStr → Prop}

/-- The users of the entries `gone` may go, no others. -/
structure Emptied (gone : Tand → Prop) (party party' : List Member) : Prop where
  sub : party' <+~ party
  frame : ∀ b, (∀ u, gone u → strcaseEq u.bot b = false) → records b party' ~ records b party

theorem Emptied.refl (gone : Tand → Prop) (party : List Member) : Emptied gone party party :=
  ⟨Subperm.refl _, fun _ _ => .refl _⟩

theorem Emptied.trans {gone : Tand → Prop} {party party' party'' : List Member}
    (h : Emptied gone party party') (h' : Emptied gone party' party'') :
    Emptied gone party party'' :=
  ⟨h'.sub.trans h.sub, fun b hb => (h'.frame b hb).trans (h.frame b hb)⟩

theorem Emptied.mono {gone gone' : Tand → Prop} {party party' : List Member}
    (h : Emptied gone party party') (hsub : ∀ u, gone u → gone' u) : Emptied gone' party party' :=
  ⟨h.sub, fun b hb => h.frame b fun u hu => hb u (hsub u hu)⟩

/-- The entries with the first hop of `who` that are in the list before and not after. -/
def Lost (who : Tand) (s s' : PartyLine) (u : Tand) : Prop :=
  u ∈ s.net.tandbot ∧ u.via = who.via ∧ u ∉ s'.net.tandbot

/-- The loop of `unvia`, given what its calls do. -/
theorem unviaLoop_spec {who : Tand} {n : Nat}
    (hf : ∀ (t : Tand) (s : PartyLine), Botnet.Inv ok s.net → t ∈ s.net.tandbot →
      s.net.fresh ≤ t.id + n + 1 →
      Emptied (fun u => u = t ∨ Lost t s (unviaRec n t.id s) u) s.party
        (unviaRec n t.id s).party) :
    ∀ (is : List Nat) (s : PartyLine), Botnet.Inv ok s.net → who ∈ s.net.tandbot →
      s.net.fresh ≤ who.id + n + 2 →
      Emptied (Lost who s (unviaLoop who.id (unviaRec n) is s)) s.party
        (unviaLoop who.id (unviaRec n) is s).party
  | [], s, _, _, _ => .refl _ _
  | i :: is, s, h, hwho, hfresh => by
    rw [unviaLoop]
    split
    · exact unviaLoop_spec hf is s h hwho hfresh
    · next bot hbot =>
      obtain ⟨hmem, rfl⟩ := Botnet.mem_of_deref hbot
      split
      · next hup =>
        obtain ⟨p, hp, hpid, hlt, hvia⟩ := h.forest.parent_mem hmem (parent_eq_some.2 hup)
        obtain rfl := h.forest.eq_of_id hp hwho hpid
        change p.id < bot.id at hlt
        change bot.via = p.via at hvia
        have hcall : Botnet.Cleared ok bot.id (·.uplink = .bot bot.id) s.net
            (Botnet.unviaRec n bot.id s.net) := Botnet.unviaRec_spec n bot.id s.net h (by omega)
        rw [← net_unviaRec] at hcall
        have hparty := hf bot s h hmem (by omega)
        generalize unviaRec n bot.id s = s1 at hcall hparty ⊢
        have hbot1 : bot ∈ s1.net.tandbot := hcall.kept bot hmem le_rfl
        have hrem := Botnet.shrinks_rembot s1.net bot.bot
        have h2 : Botnet.Inv ok (s1.rembot bot.bot).net := by
          refine hcall.inv.rembot fun t ht hname u hu => ?_
          rw [hcall.inv.eq_of_name ht hbot1 (rfcCaseEq_of_strcaseEq hname)]
          exact hcall.clear u hu
        have hp2 : p ∈ (s1.rembot bot.bot).net.tandbot := by
          refine Botnet.mem_rembot (hcall.kept p hp (by omega)) ?_
          rw [← Bool.not_eq_true]
          intro hname
          have := h.eq_of_name hp hmem (rfcCaseEq_of_strcaseEq hname)
          rw [this] at hlt
          omega
        have hfresh2 : (s1.rembot bot.bot).net.fresh ≤ p.id + n + 2 := by
          rw [net_rembot, hrem.fresh, hcall.shrinks.fresh]
          exact hfresh
        have hrest := unviaLoop_spec hf is (s1.rembot bot.bot) h2 hp2 hfresh2
        have hsub := (Botnet.unviaLoop_spec (Botnet.unviaRec_spec n) is _ h2
          hfresh2).shrinks.sub
        rw [← net_unviaLoop (net_unviaRec n)] at hsub
        have hgone : bot ∉ (unviaLoop p.id (unviaRec n) is (s1.rembot bot.bot)).net.tandbot :=
          fun hbot => hcall.inv.not_mem_rembot hbot1 (hsub.subset hbot) rfl
        refine .trans (hparty.mono fun u hu => ?_) (hrest.mono fun u hu => ?_)
        · rcases hu with rfl | ⟨hu, huvia, hu1⟩
          · exact ⟨hmem, hvia, hgone⟩
          · exact ⟨hu, huvia.trans hvia, fun hu3 => hu1 (hrem.sub.subset (hsub.subset hu3))⟩
        · obtain ⟨hu, huvia, hu3⟩ := hu
          exact ⟨hcall.shrinks.sub.subset (hrem.sub.subset hu), huvia, hu3⟩
      · exact unviaLoop_spec hf is s h hwho hfresh

/-- `unvia` takes the users of `who` and of entries that go. -/
theorem unviaRec_spec (n : Nat) : ∀ (who : Tand) (s : PartyLine), Botnet.Inv ok s.net →
    who ∈ s.net.tandbot → s.net.fresh ≤ who.id + n + 1 →
    Emptied (fun u => u = who ∨ Lost who s (unviaRec n who.id s) u) s.party
      (unviaRec n who.id s).party := by
  induction n with
  | zero => exact fun who s _ _ _ => .refl _ _
  | succ n ih =>
    intro who s h hwho hfresh
    rw [unviaRec, h.deref_of_mem hwho]
    dsimp only
    have hdrop := drops_rempartybot who.bot s.party
    have hloop := unviaLoop_spec ih (s.net.tandbot.map (·.id))
      { s with
        party := (rempartybot who.bot s.party).1
        crashed := s.crashed || (rempartybot who.bot s.party).2 } h hwho (by omega)
    refine .trans ⟨hdrop.sub, fun b hb => hdrop.frame b (hb who (.inl rfl))⟩ (hloop.mono ?_)
    exact fun u hu => .inr hu

/-- The entries whose users `unvia` takes when it is called for the bot `w`. -/
def Hit (w : CStr) (s : PartyLine) (u : Tand) : Prop :=
  ∃ who ∈ s.net.tandbot, s.net.findbot w = some who.id ∧ u ∈ s.net.tandbot ∧ u.via = who.via ∧
    (u = who ∨ u ∉ (s.unvia (s.net.findbot w)).net.tandbot)

theorem unvia_spec (h : Botnet.Inv ok s.net) (w : CStr) :
    Emptied (Hit w s) s.party (s.unvia (s.net.findbot w)).party := by
  cases hfind : s.net.findbot w with
  | none => exact .refl _ _
  | some i =>
    obtain ⟨who, hwho, rfl, -⟩ := h.findbot_eq_some.1 hfind
    refine (unviaRec_spec s.net.fresh who s h hwho (by omega)).mono fun u hu => ?_
    refine ⟨who, hwho, hfind, ?_⟩
    rw [hfind]
    rcases hu with rfl | ⟨hu, hvia, hgone⟩
    · exact ⟨hwho, rfl, .inl rfl⟩
    · exact ⟨hu, hvia, .inr hgone⟩

theorem inv_unvia (h : Botnet.Inv ok s.net) (w : CStr) :
    Botnet.Inv ok (s.unvia (s.net.findbot w)).net := by
  rw [net_unvia]
  exact h.unvia w

theorem shrinks_unvia (h : Botnet.Inv ok s.net) (w : CStr) :
    Botnet.Shrinks s.net (s.unvia (s.net.findbot w)).net := by
  rw [net_unvia]
  cases hfind : s.net.findbot w with
  | none => exact .refl _
  | some i => exact (Botnet.unviaRec_spec s.net.fresh i s.net h (by omega)).shrinks

theorem inv_lostdcc (h : Botnet.Inv ok s.net) (idx : Nat) : Botnet.Inv ok (s.lostdcc idx).net := by
  rw [net_lostdcc]
  exact h.lostdcc idx

theorem party_lostdcc_of_bot (hd : s.net.dcc[idx]? = some d) (hbot : d.type = .bot) :
    (s.lostdcc idx).party = (s.unvia (s.net.findbot d.nick)).party := by
  rw [lostdcc, hd]
  show (s.freeDccBot d).party = _
  rw [freeDccBot, if_pos hbot, party_rembot]

theorem party_lostdcc_of_ne (hno : ∀ d, s.net.dcc[idx]? = some d → d.type ≠ .bot) :
    (s.lostdcc idx).party = s.party := by
  rw [lostdcc]
  split
  · rfl
  · next d hd =>
    show (s.freeDccBot d).party = _
    rw [freeDccBot, if_neg (hno d hd)]

theorem sub_lostdcc (h : Botnet.Inv ok s.net) (idx : Nat) : (s.lostdcc idx).party <+~ s.party := by
  by_cases hbot : ∃ d, s.net.dcc[idx]? = some d ∧ d.type = .bot
  · obtain ⟨d, hd, hbot⟩ := hbot
    rw [party_lostdcc_of_bot hd hbot]
    exact (unvia_spec h d.nick).sub
  · rw [party_lostdcc_of_ne fun d hd hd' => hbot ⟨d, hd, hd'⟩]

theorem sub_loseFirst (h : Botnet.Inv ok s.net) (n : Nat) : (loseFirst n s).party <+~ s.party := by
  induction n generalizing s with
  | zero => exact Subperm.refl _
  | succ n ih => exact (ih (inv_lostdcc h 0)).trans (sub_lostdcc h 0)

theorem fromBot_cases (s : PartyLine) (idx : Nat) (f : Dcc → PartyLine) :
    s.fromBot idx f = s ∧ (∀ d, s.net.dcc[idx]? = some d → d.type ≠ .bot) ∨
      ∃ d, s.net.dcc[idx]? = some d ∧ d.type = .bot ∧ s.fromBot idx f = f d := by
  unfold fromBot
  cases hd : s.net.dcc[idx]? with
  | none => exact .inl ⟨rfl, fun _ hd' => nomatch hd'⟩
  | some d =>
    by_cases hbot : d.type = .bot
    · exact .inr ⟨d, rfl, hbot, if_pos hbot⟩
    · refine .inl ⟨if_neg hbot, fun d' hd' => ?_⟩
      rw [← Option.some.inj hd']
      exact hbot

theorem sub_nextNet (h : Botnet.Inv ok s.net) (e : Botnet.Event) :
    (s.nextNet e).party <+~ s.party := by
  have hfrom {idx : Nat} {f : Dcc → PartyLine} (hf : ∀ d, (f d).party <+~ s.party) :
      (s.fromBot idx f).party <+~ s.party := by
    rcases s.fromBot_cases idx f with ⟨heq, -⟩ | ⟨d, -, -, heq⟩
    · rw [heq]
    · rw [heq]
      exact hf d
  cases e with
  | connect nick => exact Subperm.refl _
  | version idx par =>
    simp only [nextNet]
    split
    · exact Subperm.refl _
    · split
      · unfold botVersion
        split
        · exact sub_lostdcc h idx
        · split
          · exact sub_lostdcc h idx
          · exact Subperm.refl _
      · exact Subperm.refl _
  | nlinked idx par leaf =>
    refine hfrom fun d => ?_
    simp only [botNlinked]
    split
    · exact sub_lostdcc h idx
    · exact Subperm.refl _
  | unlinked idx par =>
    refine hfrom fun d => ?_
    simp only [botUnlinked]
    split
    · exact (unvia_spec h _).sub
    · exact Subperm.refl _
  | update par => exact Subperm.refl _
  | thisbot idx par =>
    refine hfrom fun d => ?_
    unfold botThisbot
    split
    · exact Subperm.refl _
    · exact (sub_lostdcc (inv_unvia h d.nick) idx).trans (unvia_spec h d.nick).sub
  | lost idx => exact sub_lostdcc h idx
  | botunlink nick kept =>
    simp only [nextNet, botunlink]
    split
    · split
      · exact sub_loseFirst h _
      · exact nil_subperm
    · split
      · split
        · exact Subperm.refl _
        · exact sub_lostdcc h _
      · split <;> exact Subperm.refl _
  | reject handle =>
    simp only [nextNet, rejectBot]
    split
    · split
      · split
        · exact sub_lostdcc h _
        · exact Subperm.refl _
      · split <;> exact Subperm.refl _
    · exact Subperm.refl _

/-! ### Where scripts are told of nobody -/

/-- Entries and users may go, and nothing crashes. -/
structure Calm (s s' : PartyLine) : Prop where
  bots : s'.net.tandbot.Sublist s.net.tandbot
  party : s'.party ⊆ s.party
  crashed : s'.crashed = s.crashed

theorem Calm.refl (s : PartyLine) : Calm s s := ⟨.refl _, Subset.refl _, rfl⟩

theorem Calm.trans {s s' s'' : PartyLine} (h : Calm s s') (h' : Calm s' s'') : Calm s s'' :=
  ⟨h'.bots.trans h.bots, fun _ hp => h.party (h'.party hp), h'.crashed.trans h.crashed⟩

theorem Calm.rembot (s : PartyLine) (who : CStr) : Calm s (s.rembot who) :=
  ⟨(Botnet.shrinks_rembot s.net who).sub, Subset.refl _, rfl⟩

/-- What hangs from one of the entries with the numbers `gone` is one of them, and none of their
users is on a channel. -/
structure Silent (gone : Nat → Prop) (s : PartyLine) : Prop where
  closed : ∀ t ∈ s.net.tandbot, ∀ i, gone i → t.uplink = .bot i → gone t.id
  users : ∀ p ∈ s.party, 0 ≤ p.chan → ∀ t ∈ s.net.tandbot, gone t.id →
    strcaseEq p.bot t.bot = false

theorem Silent.mono {gone : Nat → Prop} {s s' : PartyLine} (h : Silent gone s) (hs : Calm s s') :
    Silent gone s' :=
  ⟨fun t ht => h.closed t (hs.bots.subset ht),
    fun p hp hchan t ht => h.users p (hs.party hp) hchan t (hs.bots.subset ht)⟩

theorem calm_unviaLoop {gone : Nat → Prop} {who : Nat} {f : Nat → PartyLine → PartyLine}
    (hf : ∀ i s, gone i → Silent gone s → Calm s (f i s)) (hwho : gone who) :
    ∀ (is : List Nat) (s : PartyLine), Silent gone s → Calm s (unviaLoop who f is s)
  | [], s, _ => .refl s
  | i :: is, s, h => by
    rw [unviaLoop]
    split
    · exact calm_unviaLoop hf hwho is s h
    · next bot hbot =>
      split
      · next hup =>
        obtain ⟨hmem, rfl⟩ := Botnet.mem_of_deref hbot
        have hcall := (hf bot.id s (h.closed bot hmem who hwho hup) h).trans (.rembot _ bot.bot)
        exact hcall.trans (calm_unviaLoop hf hwho is _ (h.mono hcall))
      · exact calm_unviaLoop hf hwho is s h

/-- Where the users that go are on no channel, `unvia` does not crash. -/
theorem calm_unviaRec {gone : Nat → Prop} (n : Nat) : ∀ (who : Nat) (s : PartyLine), gone who →
    Silent gone s → Calm s (unviaRec n who s) := by
  induction n with
  | zero => exact fun _ s _ _ => .refl s
  | succ n ih =>
    intro who s hwho h
    rw [unviaRec]
    cases hbot : s.net.deref who with
    | none => exact calm_unviaLoop ih hwho _ s h
    | some bot =>
      obtain ⟨hmem, rfl⟩ := Botnet.mem_of_deref hbot
      have hsilent : (rempartybot bot.bot s.party).2 = false := by
        refine rempartybot_silent fun p hp hname => Int.not_le.1 fun hchan => ?_
        rw [h.users p hp hchan bot hmem hwho] at hname
        cases hname
      have hfirst : Calm s { s with
          party := (rempartybot bot.bot s.party).1
          crashed := s.crashed || (rempartybot bot.bot s.party).2 } :=
        ⟨.refl _, (drops_rempartybot bot.bot s.party).sub.subset, by simp [hsilent]⟩
      exact hfirst.trans (calm_unviaLoop ih hwho _ _ (h.mono hfirst))

/-- Add an entry that hangs from one of those with the numbers `ids`. -/
def addBelow (ids : List Nat) (t : Tand) : List Nat :=
  if t.uplink.entry?.any (· ∈ ids) then t.id :: ids else ids

/-- The numbers of the entry `x` and of the entries of a list that hang from it. -/
def below (x : Nat) : List Tand → List Nat := foldl addBelow [x]

theorem below_concat (x : Nat) (L : List Tand) (t : Tand) :
    below x (L ++ [t]) = addBelow (below x L) t := by
  rw [below, foldl_append]
  rfl

theorem mem_addBelow {ids : List Nat} {i : Nat} (t : Tand) (hi : i ∈ ids) : i ∈ addBelow ids t := by
  unfold addBelow
  split
  · exact mem_cons_of_mem _ hi
  · exact hi

theorem addBelow_mono {ids ids' : List Nat} (h : ids' ⊆ ids) (t : Tand) :
    addBelow ids' t ⊆ addBelow ids t := by
  intro j hj
  unfold addBelow at hj
  split at hj
  · next hany =>
    obtain ⟨i, hi, hmem⟩ := Option.any_eq_true _ _ |>.1 hany
    have hany' : t.uplink.entry?.any (· ∈ ids) = true :=
      Option.any_eq_true _ _ |>.2 ⟨i, hi, decide_eq_true (h (of_decide_eq_true hmem))⟩
    rw [addBelow, if_pos hany']
    exact cons_subset_cons _ h hj
  · exact mem_addBelow t (h hj)

theorem mem_below {x : Nat} {L : List Tand} (hL : pointers.Forest L) {t : Tand} (ht : t ∈ L)
    {i : Nat} (hi : i ∈ below x L) (hup : t.uplink = .bot i) : t.id ∈ below x L := by
  induction hL generalizing t i with
  | nil => cases ht
  | @snoc L a hL hlt hang ih =>
    obtain ⟨u, hu, rfl, hpar, -⟩ := (hL.snoc hlt hang).parent_mem ht (parent_eq_some.2 hup)
    change u.id < t.id at hpar
    -- the node it hangs from comes before the last one
    have hne : u.id ≠ a.id := by
      intro heq
      rcases mem_append.1 ht with ht | ht
      · have hlast := hlt t ht
        change t.id < a.id at hlast
        omega
      · rw [mem_singleton.1 ht] at hpar
        omega
    have hi' : u.id ∈ below x L := by
      rw [below_concat, addBelow] at hi
      split at hi
      · exact (mem_cons.1 hi).resolve_left hne
      · exact hi
    rw [below_concat]
    rcases mem_append.1 ht with ht | ht
    · exact mem_addBelow a (ih ht hi' hup)
    · rw [mem_singleton.1 ht] at hup ⊢
      have hany : a.uplink.entry?.any (· ∈ below x L) = true := by
        rw [hup]
        exact decide_eq_true hi'
      rw [addBelow, if_pos hany]
      exact mem_cons_self

theorem self_mem_below (x : Nat) (L : List Tand) : x ∈ below x L := by
  induction L using reverseRecOn with
  | nil => exact mem_singleton_self x
  | append_singleton L t ih =>
    rw [below_concat]
    exact mem_addBelow t ih

/-- None of the users of the bot `w`, and of those that hang from it, is on a channel. -/
def Mute (s : PartyLine) (w : CStr) : Prop :=
  ∀ p ∈ s.party, 0 ≤ p.chan → ∀ x ∈ s.net.findbot w, ∀ t ∈ s.net.tandbot,
    t.id ∈ below x s.net.tandbot → strcaseEq p.bot t.bot = false

theorem calm_unvia (h : Botnet.Inv ok s.net) {w : CStr} (hmute : Mute s w) :
    Calm s (s.unvia (s.net.findbot w)) := by
  cases hfind : s.net.findbot w with
  | none => exact .refl s
  | some x =>
    refine @calm_unviaRec (· ∈ below x s.net.tandbot) _ x s (self_mem_below x _) ?_
    exact ⟨fun t ht i hi hup => mem_below h.forest ht hi hup,
      fun p hp hchan => hmute p hp hchan x hfind⟩

theorem below_mono {x : Nat} {L L' : List Tand} (hsub : L'.Sublist L) : below x L' ⊆ below x L := by
  suffices h : ∀ ids ids' : List Nat, ids' ⊆ ids → foldl addBelow ids' L' ⊆ foldl addBelow ids L from
    h [x] [x] (Subset.refl _)
  induction hsub with
  | slnil => exact fun _ _ h => h
  | cons t _ ih => exact fun ids ids' h => ih _ ids' fun j hj => mem_addBelow t (h hj)
  | cons_cons t _ ih => exact fun ids ids' h => ih _ _ (addBelow_mono h t)

theorem Mute.mono {s s' : PartyLine} {w : CStr} (h : Botnet.Inv ok s.net)
    (h' : Botnet.Inv ok s'.net) (hs : Calm s s') (hmute : Mute s w) : Mute s' w := by
  intro p hp hchan x hx t ht hbelow
  obtain ⟨b, hb, hid, hname⟩ := h'.findbot_eq_some.1 hx
  have hx' := h.findbot_eq_some.2 ⟨b, hs.bots.subset hb, hid, hname⟩
  exact hmute p (hs.party hp) hchan x hx' t (hs.bots.subset ht) (below_mono hs.bots hbelow)

/-- The same for the bot of a link. -/
def LinkMute (s : PartyLine) (idx : Nat) : Prop :=
  ∀ d ∈ s.net.dcc[idx]?, d.type = .bot → Mute s d.nick

theorem calm_lostdcc (h : Botnet.Inv ok s.net) {idx : Nat} (hmute : LinkMute s idx) :
    Calm s (s.lostdcc idx) := by
  unfold lostdcc
  split
  · exact .refl s
  · next d hd =>
    have hfree : Calm s (s.freeDccBot d) := by
      unfold freeDccBot
      split
      · next hbot => exact (calm_unvia h (hmute d hd hbot)).trans (.rembot _ _)
      · exact .refl s
    exact ⟨hfree.bots, hfree.party, hfree.crashed⟩

theorem calm_loseFirst (n : Nat) : ∀ s : PartyLine, Botnet.Inv ok s.net →
    (∀ d ∈ s.net.dcc.take n, d.type = .bot → Mute s d.nick) → Calm s (loseFirst n s) := by
  induction n with
  | zero => exact fun s _ _ => .refl s
  | succ n ih =>
    intro s h hmute
    have hlost : Calm s (s.lostdcc 0) := by
      refine calm_lostdcc h fun d hd => hmute d ?_
      rw [mem_take_iff_getElem]
      obtain ⟨hlt, hd⟩ := List.getElem?_eq_some_iff.1 hd
      exact ⟨0, by omega, hd⟩
    have h' := inv_lostdcc h 0
    refine hlost.trans (ih _ h' fun d hd hbot => ?_)
    refine (hmute d ?_ hbot).mono h h' hlost
    have hdcc : (s.lostdcc 0).net.dcc = s.net.dcc.tail := by
      unfold lostdcc
      cases hs : s.net.dcc[0]? with
      | none =>
        rw [getElem?_eq_none_iff, Nat.le_zero, length_eq_zero_iff] at hs
        simp only [hs, tail_nil]
      | some d' =>
        show (s.freeDccBot d').net.dcc.eraseIdx 0 = _
        rw [eraseIdx_zero]
        unfold freeDccBot
        split
        · exact congrArg tail ((Botnet.shrinks_rembot _ _).dcc.trans (shrinks_unvia h _).dcc)
        · rfl
    rw [hdcc] at hd
    cases hs : s.net.dcc with
    | nil => simp [hs] at hd
    | cons d' rest =>
      rw [hs] at hd
      exact mem_cons_of_mem d' hd

/-- The same for the bots that `botunlink` takes down; it may wipe the whole table of users. -/
def UnlinkUnheard (s : PartyLine) (nick : CStr) (kept : Dcc → Bool) : Prop :=
  if nick.head? = some '*' then
    match s.net.dcc.findIdx? fun d => d.type == .bot && kept d with
    | some i => ∀ d ∈ s.net.dcc.take i, d.type = .bot → Mute s d.nick
    | none => ∀ p ∈ s.party, p.chan < 0
  else ∀ i ∈ s.net.dcc.findIdx? (strcaseEq ·.nick nick),
    s.net.dcc[i]?.any (fun d => d.type == .bot && kept d) = false → LinkMute s i

/-- The condition on an event of the botnet under which no link is completed and no script is told of
anybody. -/
def NetUnheard (s : PartyLine) : Botnet.Event → Prop
  | .connect _ | .update _ => True
  | .version idx par => ∀ d ∈ s.net.dcc[idx]?, d.type = .botNew → s.net.inChain d.nick = false →
    Botnet.versionHandlen par ≠ handLen
  | .nlinked idx par leaf =>
    s.net.nlinkedRefusal idx (Botnet.nlinkedWords par).1 (Botnet.nlinkedWords par).2.1 leaf ≠ none →
      LinkMute s idx
  | .unlinked idx par => s.net.nextbot (newsplit par).1 = some idx → Mute s (newsplit par).1
  | .thisbot idx par => ∀ d ∈ s.net.dcc[idx]?, strcaseEq par d.nick = false → Mute s d.nick
  | .lost idx => LinkMute s idx
  | .botunlink nick kept => UnlinkUnheard s nick kept
  | .reject handle => s.net.inChain handle = true → ∀ i ∈ s.net.nextbot handle,
    s.net.dcc[i]?.any (strcaseEq ·.nick handle) = true → LinkMute s i

theorem crashed_version (h : Botnet.Inv ok s.net) {idx : Nat} {par : CStr}
    (hun : NetUnheard s (.version idx par)) :
    (s.nextNet (.version idx par)).crashed = s.crashed := by
  simp only [nextNet]
  split
  · rfl
  · next d hd =>
    split
    · next hnew =>
      have hlost : (s.lostdcc idx).crashed = s.crashed := by
        refine (calm_lostdcc h fun d' hd' hbot => ?_).crashed
        rw [← Option.some.inj (hd.symm.trans hd'), hnew] at hbot
        cases hbot
      unfold botVersion
      split
      · exact hlost
      · next hin =>
        rw [Bool.not_eq_true] at hin
        rw [if_pos (hun d hd hnew hin)]
        exact hlost
    · rfl

theorem crashed_botThisbot (h : Botnet.Inv ok s.net) {idx : Nat} {par : CStr} {d : Dcc}
    (hd : s.net.dcc[idx]? = some d) (hun : NetUnheard s (.thisbot idx par)) :
    (s.botThisbot idx d par).crashed = s.crashed := by
  unfold botThisbot
  split
  · rfl
  · next hname =>
    have hmute := hun d hd (by simpa using hname)
    have hcalm := calm_unvia h hmute
    have h' := inv_unvia h d.nick
    refine (calm_lostdcc h' fun d' hd' _ => ?_).crashed.trans hcalm.crashed
    rw [(shrinks_unvia h d.nick).dcc] at hd'
    obtain rfl := Option.some.inj (hd.symm.trans hd')
    exact hmute.mono h h' hcalm

theorem crashed_botunlink (h : Botnet.Inv ok s.net) {nick : CStr} {kept : Dcc → Bool}
    (hun : UnlinkUnheard s nick kept) : (s.botunlink nick kept).crashed = s.crashed := by
  simp only [botunlink]
  simp only [UnlinkUnheard] at hun
  split
  · next hstar =>
    rw [if_pos hstar] at hun
    cases hkept : s.net.dcc.findIdx? fun d => d.type == .bot && kept d with
    | some i =>
      rw [hkept] at hun
      exact (calm_loseFirst i s h hun).crashed
    | none =>
      rw [hkept] at hun
      have hcalm := calm_loseFirst s.net.dcc.length s h fun d _ _ p hp hchan =>
        absurd hchan (Int.not_le.2 (hun p hp))
      have hnone : ((loseFirst s.net.dcc.length s).party.any fun p => 0 ≤ p.chan) = false := by
        rw [any_eq_false]
        intro p hp
        have := hun p (hcalm.party hp)
        simpa using this
      simp only [hcalm.crashed, hnone, Bool.or_false]
  · next hstar =>
    rw [if_neg hstar] at hun
    cases hidx : s.net.dcc.findIdx? (strcaseEq ·.nick nick) with
    | some i =>
      dsimp only
      split
      · rfl
      · next hkept => exact (calm_lostdcc h (hun i hidx (by simpa using hkept))).crashed
    | none =>
      dsimp only
      split <;> rfl

theorem crashed_nextNet (h : Botnet.Inv ok s.net) {e : Botnet.Event} (hun : NetUnheard s e) :
    (s.nextNet e).crashed = s.crashed := by
  have hfrom {idx : Nat} {f : Dcc → PartyLine}
      (hf : ∀ d ∈ s.net.dcc[idx]?, d.type = .bot → (f d).crashed = s.crashed) :
      (s.fromBot idx f).crashed = s.crashed := by
    rcases s.fromBot_cases idx f with ⟨heq, -⟩ | ⟨d, hd, hbot, heq⟩
    · rw [heq]
    · rw [heq]
      exact hf d hd hbot
  cases e with
  | connect nick => rfl
  | version idx par => exact crashed_version h hun
  | nlinked idx par leaf =>
    refine hfrom fun d _ _ => ?_
    simp only [botNlinked]
    split
    · next hsome => exact (calm_lostdcc h (hun (by rw [hsome]; simp))).crashed
    · rfl
  | unlinked idx par =>
    refine hfrom fun d _ _ => ?_
    simp only [botUnlinked]
    split
    · next hnext => exact (calm_unvia h (hun hnext)).crashed
    · rfl
  | update par => rfl
  | thisbot idx par => exact hfrom fun d hd _ => crashed_botThisbot h hd hun
  | lost idx => exact (calm_lostdcc h hun).crashed
  | botunlink nick kept => exact crashed_botunlink h hun
  | reject handle =>
    simp only [nextNet, rejectBot]
    split
    · next hin =>
      cases hidx : s.net.nextbot handle with
      | some i =>
        dsimp only
        split
        · next hname => exact (calm_lostdcc h (hun hin i hidx hname)).crashed
        · rfl
      | none =>
        dsimp only
        split <;> rfl
    · rfl

end PartyLine
end Eggdrop.Tandem
