import Eggdrop.Botnet.DumpLinks
import Eggdrop.Botnet.PartyNet

/-!
# Unlink — what goes with a bot that is unlinked

`bot_unlinked` finds the bot as the table of bots folds names, calls `unvia` for it, and takes away
the bot that `rembot` finds, for which the names are folded otherwise.  The records of users name
their bots as the messages did.

* `rempartybot_perm`: all records of a bot are taken out, and no others.
* `mem_unviaRec_iff`: the bots that are left are those that do not hang from the bot.
* `unviaRec_swept`: the users that go are those of the bot and of the bots that go.
* `unviaRec_keeps`: where nothing crashes, no user that is on a channel goes.
* `unlinks_iff`: when the right bots and users go.
-/

namespace Eggdrop.Tandem

open List

/-! ### The records of a bot -/

section Table

variable {bot : CStr} {sock : Int} {party : List Member} {p : Member} {i : ℕ}

/-- What stands before record `i` is left alone. -/
theorem take_removeAt {k : ℕ} (hk : k ≤ i) (hi : i < party.length) :
    (removeAt i party).take k = party.take k := by
  obtain rfl | ⟨init, last, rfl⟩ := party.eq_nil_or_concat'
  · rfl
  · rw [length_append, length_singleton] at hi
    have hset : removeAt i (init ++ [last]) = init.set i last := by
      rw [removeAt, getLast?_concat, dropLast_concat]
    rw [hset, take_set_of_le hk, take_append_of_le_length (by omega)]

theorem rempartyLoop_take {k fuel : ℕ} (hk : k ≤ i) :
    (rempartyLoop bot sock fuel i party).take k = party.take k := by
  induction fuel generalizing i party with
  | zero => rfl
  | succ fuel ih =>
    rw [rempartyLoop]
    split
    · rfl
    · next p hp =>
      obtain ⟨hi, -⟩ := List.getElem?_eq_some_iff.1 hp
      split
      · rw [ih (by omega), take_removeAt hk hi]
      · exact ih (by omega)

theorem rempartyLoop_filter (fuel : ℕ) :
    ((rempartyLoop bot sock fuel i party).filter fun m => !strcaseEq m.bot bot) ~
      party.filter fun m => !strcaseEq m.bot bot := by
  induction fuel generalizing i party with
  | zero => exact .refl _
  | succ fuel ih =>
    rw [rempartyLoop]
    split
    · exact .refl _
    · next p hp =>
      split
      · next hat =>
        obtain ⟨hi, rfl⟩ := List.getElem?_eq_some_iff.1 hp
        have hbot := (Member.isAt_iff.1 hat).1
        have hsplit : party = party.take i ++ party[i] :: party.drop (i + 1) := by
          rw [getElem_cons_drop, take_append_drop]
        refine ih.trans (((removeAt_perm hi).filter _).trans (.of_eq ?_))
        conv_rhs => rw [hsplit]
        rw [eraseIdx_eq_take_drop_succ, filter_append, filter_append,
          filter_cons_of_neg (by simp [hbot])]
      · exact ih

theorem rempartyLoop_skip (d : ℕ) {k fuel : ℕ}
    (h : ∀ m ∈ party.take (k + d), m.isAt bot sock = false) (hlen : k + d ≤ party.length) :
    rempartyLoop bot sock (fuel + d) k party = rempartyLoop bot sock fuel (k + d) party := by
  induction d generalizing k with
  | zero => rfl
  | succ d ih =>
    have hk : k < party.length := by omega
    have hmem : party[k] ∈ party.take (k + (d + 1)) := by
      rw [List.mem_take_iff_getElem]
      exact ⟨k, by omega, rfl⟩
    rw [← Nat.add_assoc, rempartyLoop, getElem?_eq_getElem hk]
    dsimp only
    rw [h _ hmem, if_neg Bool.false_ne_true, Nat.add_comm d 1, ← Nat.add_assoc]
    refine ih ?_ (by omega)
    rw [Nat.add_assoc, Nat.add_comm 1 d]
    exact h

/-- `remparty` for the first record of a bot takes it out, and nothing before it. -/
theorem remparty_first (hp : party[i]? = some p) (hbot : strcaseEq p.bot bot = true)
    (hbefore : ∀ m ∈ party.take i, strcaseEq m.bot bot = false) :
    (remparty bot p.sock party).take i = party.take i ∧
      (remparty bot p.sock party).length < party.length := by
  obtain ⟨hi, rfl⟩ := List.getElem?_eq_some_iff.1 hp
  have hat : party[i].isAt bot party[i].sock = true := Member.isAt_iff.2 ⟨hbot, rfl⟩
  have hskip : remparty bot party[i].sock party =
      rempartyLoop bot party[i].sock (party.length - i) i party := by
    have hloop := @rempartyLoop_skip bot party[i].sock party i 0 (party.length - i)
      (by
        rw [Nat.zero_add]
        intro m hm
        rw [Member.isAt, hbefore m hm, Bool.false_and]) (by omega)
    rw [Nat.zero_add, Nat.sub_add_cancel hi.le] at hloop
    exact hloop
  obtain ⟨n, hn⟩ : ∃ n, party.length - i = n + 1 := ⟨party.length - i - 1, by omega⟩
  rw [hskip, hn, rempartyLoop, getElem?_eq_getElem hi]
  dsimp only
  rw [if_pos hat]
  constructor
  · rw [rempartyLoop_take (by omega), take_removeAt le_rfl hi]
  · have hsub := (drops_rempartyLoop bot party[i].sock n (i + 1) (removeAt i party)).sub.length_le
    rw [(removeAt_perm hi).length_eq, length_eraseIdx_of_lt hi] at hsub
    omega

theorem rempartybotLoop_spec {fuel : ℕ} (hfuel : party.length ≤ i + fuel)
    (hbefore : ∀ m ∈ party.take i, strcaseEq m.bot bot = false) :
    (∀ m ∈ (rempartybotLoop bot fuel i party).1, strcaseEq m.bot bot = false) ∧
      ((rempartybotLoop bot fuel i party).1.filter fun m => !strcaseEq m.bot bot) ~
        party.filter fun m => !strcaseEq m.bot bot := by
  induction fuel generalizing i party with
  | zero =>
    rw [take_of_length_le (by omega)] at hbefore
    exact ⟨hbefore, .refl _⟩
  | succ fuel ih =>
    rw [rempartybotLoop]
    split
    · next hnone =>
      rw [take_of_length_le (List.getElem?_eq_none_iff.1 hnone)] at hbefore
      exact ⟨hbefore, .refl _⟩
    · next p hp =>
      obtain ⟨hi, hpi⟩ := List.getElem?_eq_some_iff.1 hp
      split
      · next hbot =>
        obtain ⟨htake, hlen⟩ := remparty_first hp hbot hbefore
        have hrest := @ih (remparty bot p.sock party) i (by omega) (htake.symm ▸ hbefore)
        exact ⟨hrest.1, hrest.2.trans (rempartyLoop_filter _)⟩
      · next hbot =>
        refine ih (by omega) fun m hm => ?_
        rw [take_add_one, hp] at hm
        rcases mem_append.1 hm with hm | hm
        · exact hbefore m hm
        · obtain rfl : m = p := by simpa using hm
          simpa using hbot

theorem rempartybot_perm (bot : CStr) (party : List Member) :
    (rempartybot bot party).1 ~ party.filter fun m => !strcaseEq m.bot bot := by
  have hspec := @rempartybotLoop_spec bot party 0 party.length (by omega) (by simp)
  refine .trans (.of_eq ?_) hspec.2
  exact (filter_eq_self.2 fun m hm => by rw [hspec.1 m hm, Bool.not_false]).symm

/-- `remparty` for a record of a bot leaves the other ones, in a table where sockets have one. -/
theorem mem_remparty (h : Unique party) {q : Member} (hp : p ∈ party) (hbot : strcaseEq p.bot bot = true)
    (hq : q ∈ party) (hne : q ≠ p) : q ∈ remparty bot p.sock party := by
  have hperm : remparty bot p.sock party ~ party.filter fun m => !m.isAt bot p.sock :=
    rempartyLoop_perm h (by omega) fun j _ hj => absurd hj (Nat.not_lt_zero j)
  refine hperm.mem_iff.2 (mem_filter.2 ⟨hq, ?_⟩)
  rw [Bool.not_eq_true', ← Bool.not_eq_true]
  intro hat
  have : Std.Symm fun p q : Member => ¬ p.Same q := ⟨fun _ _ hab hba => hab hba.symm⟩
  have hdiff : ¬ q.Same p := h.forall hq hp hne
  exact hdiff (Member.same_of_isAt hat (Member.isAt_iff.2 ⟨hbot, rfl⟩))

/-- Where `check_tcl_chpt` is not called, no user that is on a channel goes. -/
theorem rempartybot_keeps (h : Unique party) (hcalm : (rempartybot bot party).2 = false)
    {q : Member} (hq : q ∈ party) (hchan : 0 ≤ q.chan) : q ∈ (rempartybot bot party).1 := by
  suffices hloop : ∀ fuel i (party : List Member), Unique party → q ∈ party →
      (rempartybotLoop bot fuel i party).2 = false → q ∈ (rempartybotLoop bot fuel i party).1 from
    hloop _ _ _ h hq hcalm
  intro fuel
  induction fuel with
  | zero => exact fun _ _ _ hq _ => hq
  | succ fuel ih =>
    intro i party h hq hcalm
    rw [rempartybotLoop] at hcalm ⊢
    split at hcalm
    · exact hq
    · next p hp =>
      split at hcalm
      · next hbot =>
        rw [if_pos hbot]
        rw [Bool.or_eq_false_iff, decide_eq_false_iff_not] at hcalm
        have hne : q ≠ p := fun heq => hcalm.1 (heq ▸ hchan)
        have hq' := mem_remparty h (mem_of_getElem? hp) hbot hq hne
        exact ih i _ (h.subperm (drops_rempartyLoop _ _ _ _ _).sub) hq' hcalm.2
      · next hbot =>
        rw [if_neg hbot]
        exact ih _ _ h hq hcalm

end Table

/-! ### The bots that go -/

namespace Botnet

variable {ok : CStr → Prop} {s : Botnet} {who bot t u : Tand} {n : ℕ}

/-- One round of the loop of `unvia`: below `bot` all is gone in `s1`, and in `s2` it is gone too. -/
structure Called (ok : CStr → Prop) (who bot : Tand) (s s1 s2 : Botnet) : Prop where
  inv : Inv ok s2
  sub : s1.tandbot.Sublist s.tandbot
  mem : bot ∈ s1.tandbot
  mem_iff : ∀ t, t ∈ s2.tandbot ↔ t ∈ s1.tandbot ∧ t ≠ bot
  who : who ∈ s2.tandbot
  fresh : s2.fresh = s.fresh

theorem Base.mem_rembot_iff (h : Base ok s) (hbot : bot ∈ s.tandbot) :
    t ∈ (s.rembot bot.bot).tandbot ↔ t ∈ s.tandbot ∧ t ≠ bot := by
  constructor
  · exact fun ht => ⟨(shrinks_rembot s bot.bot).sub.subset ht, h.not_mem_rembot hbot ht⟩
  · intro ht
    refine mem_rembot ht.1 ?_
    rw [← Bool.not_eq_true]
    exact fun hname => ht.2 (h.eq_of_name ht.1 hbot (rfcCaseEq_of_strcaseEq hname))

theorem called_unviaRec (h : Inv ok s) (hwho : who ∈ s.tandbot) (hbot : bot ∈ s.tandbot)
    (hup : bot.uplink = .bot who.id) (hfresh : s.fresh ≤ who.id + n + 2) :
    Called ok who bot s (unviaRec n bot.id s) ((unviaRec n bot.id s).rembot bot.bot) := by
  obtain ⟨p, hp, hpid, hlt, -⟩ := h.forest.parent_mem hbot (parent_eq_some.2 hup)
  change who.id < bot.id at hlt
  have hcall : Cleared ok bot.id (·.uplink = .bot bot.id) s (unviaRec n bot.id s) :=
    unviaRec_spec n bot.id s h (by omega)
  have hbot1 := hcall.kept bot hbot le_rfl
  have hmem (t : Tand) := hcall.inv.mem_rembot_iff (t := t) hbot1
  refine ⟨hcall.inv.rembot fun t ht hname u hu => ?_, hcall.shrinks.sub, hbot1, hmem, ?_, ?_⟩
  · rw [hcall.inv.eq_of_name ht hbot1 (rfcCaseEq_of_strcaseEq hname)]
    exact hcall.clear u hu
  · refine (hmem who).2 ⟨hcall.kept who hwho hlt.le, ?_⟩
    rintro rfl
    exact lt_irrefl _ hlt
  · rw [(shrinks_rembot _ _).fresh, hcall.shrinks.fresh]

/-- What is gone after the calls of the loop hangs from `who`. -/
theorem unviaLoop_through
    (hf : ∀ (t : Tand) (s : Botnet), Inv ok s → t ∈ s.tandbot → s.fresh ≤ t.id + n + 1 →
      ∀ u ∈ s.tandbot, u ∉ (unviaRec n t.id s).tandbot → pointers.Through s.tandbot t.id u) :
    ∀ (is : List ℕ) (s : Botnet), Inv ok s → who ∈ s.tandbot → s.fresh ≤ who.id + n + 2 →
      ∀ u ∈ s.tandbot, u ∉ (unviaLoop who.id (unviaRec n) is s).tandbot →
        pointers.Through s.tandbot who.id u
  | [], s, _, _, _, u, hu, hgone => absurd hu hgone
  | i :: is, s, h, hwho, hfresh, u, hu, hgone => by
    rw [unviaLoop] at hgone
    split at hgone
    · exact unviaLoop_through hf is s h hwho hfresh u hu hgone
    · next bot hbot =>
      obtain ⟨hmem, rfl⟩ := mem_of_deref hbot
      split at hgone
      · next hup =>
        have hcalled := called_unviaRec h hwho hmem hup hfresh
        have hpar : pointers.parent bot = some (pointers.id who) := parent_eq_some.2 hup
        have hbotthrough : pointers.Through s.tandbot who.id bot := .up hwho hpar (.self rfl)
        obtain ⟨-, -, -, hlt, -⟩ := h.forest.parent_mem hmem hpar
        change who.id < bot.id at hlt
        by_cases hu1 : u ∈ (unviaRec n bot.id s).tandbot
        · by_cases hubot : u = bot
          · rw [hubot]
            exact hbotthrough
          · have hrest := unviaLoop_through hf is _ hcalled.inv hcalled.who
              (hcalled.fresh.symm ▸ hfresh) u ((hcalled.mem_iff u).2 ⟨hu1, hubot⟩) hgone
            exact hrest.mono fun v hv => hcalled.sub.subset ((hcalled.mem_iff v).1 hv).1
        · refine (hf bot s h hmem (by omega) u hu hu1).trans hu fun v hv hid => ?_
          rw [h.forest.eq_of_id hv hmem hid]
          exact hbotthrough
      · exact unviaLoop_through hf is s h hwho hfresh u hu hgone

theorem unviaRec_through (n : ℕ) : ∀ (who : Tand) (s : Botnet), Inv ok s → who ∈ s.tandbot →
    s.fresh ≤ who.id + n + 1 → ∀ u ∈ s.tandbot, u ∉ (unviaRec n who.id s).tandbot →
      pointers.Through s.tandbot who.id u := by
  induction n with
  | zero => exact fun who s _ _ _ u hu hgone => absurd hu hgone
  | succ n ih =>
    intro who s h hwho hfresh
    exact unviaLoop_through ih _ s h hwho (by omega)

/-- The bots that are left are `who` and those that do not hang from it. -/
theorem mem_unviaRec_iff (h : Inv ok s) (hwho : who ∈ s.tandbot) (hfresh : s.fresh ≤ who.id + n + 1) :
    t ∈ (unviaRec n who.id s).tandbot ↔
      t ∈ s.tandbot ∧ (t = who ∨ ¬pointers.Through s.tandbot who.id t) := by
  have hcleared : Cleared ok who.id (·.uplink = .bot who.id) s (unviaRec n who.id s) :=
    unviaRec_spec n who.id s h hfresh
  constructor
  · intro ht
    have hts := hcleared.shrinks.sub.subset ht
    refine ⟨hts, ?_⟩
    by_cases hthrough : pointers.Through s.tandbot who.id t
    · refine .inl (h.forest.eq_of_id hts hwho ?_)
      exact h.forest.id_eq_of_through hcleared.inv.forest
        (fun u hu => hcleared.shrinks.sub.subset hu)
        (fun u hu hpar => hcleared.clear u hu (parent_eq_some.1 hpar)) hthrough ht
    · exact .inr hthrough
  · intro ht
    rcases ht with ⟨hts, rfl | hnot⟩
    · exact hcleared.kept t hts le_rfl
    · by_contra hgone
      exact hnot (unviaRec_through n who s h hwho hfresh t hts hgone)

end Botnet

/-! ### The users that go -/

namespace PartyLine

variable {ok : CStr → Prop} {s s' : PartyLine} {who x : Tand} {n : ℕ}

open Classical in
/-- The records of the users of the bots `gone` are taken out, and no others. -/
def Swept (gone : Tand → Prop) (party party' : List Member) : Prop :=
  party' ~ party.filter fun p => ¬∃ t, gone t ∧ strcaseEq p.bot t.bot = true

theorem Swept.none (party : List Member) {gone : Tand → Prop} (h : ∀ t, ¬gone t) :
    Swept gone party party := by
  refine .of_eq (filter_eq_self.2 fun p _ => ?_).symm
  simp [h]

open Classical in
theorem Swept.trans {gone gone' both : Tand → Prop} {party party' party'' : List Member}
    (h : Swept gone party party') (h' : Swept gone' party' party'')
    (hboth : ∀ t, both t ↔ gone t ∨ gone' t) : Swept both party party'' := by
  refine List.Perm.trans h' ((h.filter _).trans (.of_eq ?_))
  rw [filter_filter]
  refine filter_congr fun p _ => ?_
  rw [← Bool.decide_and, decide_eq_decide]
  simp only [hboth, or_and_right, exists_or, not_or]
  exact and_comm

theorem Swept.congr {gone gone' : Tand → Prop} {party party' : List Member}
    (h : Swept gone party party') (hiff : ∀ t, gone' t ↔ gone t) : Swept gone' party party' := by
  obtain rfl : gone' = gone := funext fun t => propext (hiff t)
  exact h

theorem swept_rempartybot (bot : Tand) (party : List Member) :
    Swept (· = bot) party (rempartybot bot.bot party).1 := by
  refine (rempartybot_perm bot.bot party).trans (.of_eq (filter_congr fun p _ => ?_))
  simp

/-- The users that the loop of `unvia` takes, given which ones its calls take. -/
theorem unviaLoop_swept
    (hf : ∀ (t : Tand) (s : PartyLine), Botnet.Inv ok s.net → t ∈ s.net.tandbot →
      s.net.fresh ≤ t.id + n →
      Swept (fun u => u = t ∨ u ∈ s.net.tandbot ∧ u ∉ (unviaRec n t.id s).net.tandbot) s.party
        (unviaRec n t.id s).party) :
    ∀ (is : List ℕ) (s : PartyLine), Botnet.Inv ok s.net → who ∈ s.net.tandbot →
      s.net.fresh ≤ who.id + n + 1 →
      Swept (fun u => u ∈ s.net.tandbot ∧ u ∉ (unviaLoop who.id (unviaRec n) is s).net.tandbot)
        s.party (unviaLoop who.id (unviaRec n) is s).party
  | [], s, _, _, _ => .none _ fun t ht => ht.2 ht.1
  | i :: is, s, h, hwho, hfresh => by
    rw [unviaLoop]
    split
    · exact unviaLoop_swept hf is s h hwho hfresh
    · next bot hbot =>
      obtain ⟨hmem, rfl⟩ := Botnet.mem_of_deref hbot
      split
      · next hup =>
        obtain ⟨-, -, -, hlt, -⟩ := h.forest.parent_mem hmem (parent_eq_some.2 hup)
        change who.id < bot.id at hlt
        have hcalled := Botnet.called_unviaRec h hwho hmem hup (n := n) (by omega)
        rw [← net_unviaRec] at hcalled
        have hparty := hf bot s h hmem (by omega)
        generalize unviaRec n bot.id s = s1 at hcalled hparty ⊢
        have hrest := unviaLoop_swept hf is (s1.rembot bot.bot) hcalled.inv hcalled.who
          (hcalled.fresh.symm ▸ hfresh)
        have hloop : Botnet.Cleared ok who.id (fun t => t.id ∈ is ∧ t.uplink = .bot who.id)
            (s1.rembot bot.bot).net
            (Botnet.unviaLoop who.id (Botnet.unviaRec n) is (s1.rembot bot.bot).net) :=
          Botnet.unviaLoop_spec (Botnet.unviaRec_spec n) is _ hcalled.inv
            (by rw [net_rembot, hcalled.fresh]; omega)
        have hsub := hloop.shrinks.sub
        rw [← net_unviaLoop (net_unviaRec n)] at hsub
        generalize unviaLoop who.id (unviaRec n) is (s1.rembot bot.bot) = s3 at hrest hsub ⊢
        refine hparty.trans hrest fun u => ?_
        have hmem2 := hcalled.mem_iff u
        rw [net_rembot]
        have hsub2 : u ∈ s3.net.tandbot → u ∈ (s1.net.rembot bot.bot).tandbot := fun hu =>
          hsub.subset hu
        have hsub1 : u ∈ s1.net.tandbot → u ∈ s.net.tandbot := fun hu => hcalled.sub.subset hu
        have hbot1 := hcalled.mem
        by_cases hub : u = bot
        · subst hub
          tauto
        · tauto
      · exact unviaLoop_swept hf is s h hwho hfresh

/-- `unvia` takes the users of `who` and of the bots that go. -/
theorem unviaRec_swept (n : ℕ) : ∀ (who : Tand) (s : PartyLine), Botnet.Inv ok s.net →
    who ∈ s.net.tandbot → s.net.fresh ≤ who.id + n →
    Swept (fun u => u = who ∨ u ∈ s.net.tandbot ∧ u ∉ (unviaRec n who.id s).net.tandbot) s.party
      (unviaRec n who.id s).party := by
  induction n with
  | zero =>
    intro who s h hwho hfresh
    exact absurd (h.young who hwho) (by omega)
  | succ n ih =>
    intro who s h hwho hfresh
    rw [unviaRec, h.deref_of_mem hwho]
    dsimp only
    have hloop := unviaLoop_swept ih (s.net.tandbot.map (·.id))
      { s with
        party := (rempartybot who.bot s.party).1
        crashed := s.crashed || (rempartybot who.bot s.party).2 } h hwho (by omega)
    exact (swept_rempartybot who s.party).trans hloop fun u => .rfl

theorem unviaRec_fuel (n : ℕ) : ∀ (m : ℕ) (who : Tand) (s : PartyLine), Botnet.Inv ok s.net →
    who ∈ s.net.tandbot → s.net.fresh ≤ who.id + n → n ≤ m →
    unviaRec m who.id s = unviaRec n who.id s := by
  induction n with
  | zero =>
    intro m who s h hwho hfresh
    exact absurd (h.young who hwho) (by omega)
  | succ n ih =>
    intro m who s h hwho hfresh hm
    obtain ⟨m, rfl⟩ : ∃ k, m = k + 1 := ⟨m - 1, by omega⟩
    -- the loops make the same calls
    have hloop : ∀ (is : List ℕ) (s : PartyLine), Botnet.Inv ok s.net → who ∈ s.net.tandbot →
        s.net.fresh ≤ who.id + n + 1 →
        unviaLoop who.id (unviaRec m) is s = unviaLoop who.id (unviaRec n) is s := by
      intro is
      induction is with
      | nil => exact fun _ _ _ _ => rfl
      | cons i is ihis =>
        intro s h hwho hfresh
        rw [unviaLoop, unviaLoop]
        split
        · exact ihis s h hwho hfresh
        · next bot hbot =>
          obtain ⟨hmem, rfl⟩ := Botnet.mem_of_deref hbot
          split
          · next hup =>
            obtain ⟨-, -, -, hlt, -⟩ := h.forest.parent_mem hmem (parent_eq_some.2 hup)
            change who.id < bot.id at hlt
            have hcalled := Botnet.called_unviaRec h hwho hmem hup (n := n) (by omega)
            rw [← net_unviaRec] at hcalled
            rw [ih m bot s h hmem (by omega) (by omega)]
            exact ihis _ hcalled.inv hcalled.who (hcalled.fresh.symm ▸ hfresh)
          · exact ihis s h hwho hfresh
    rw [unviaRec, unviaRec, h.deref_of_mem hwho]
    exact hloop _ { s with
      party := (rempartybot who.bot s.party).1
      crashed := s.crashed || (rempartybot who.bot s.party).2 } h hwho (by omega)

/-- Users may go, and where nothing crashes none that is on a channel. -/
def Keeps (s s' : PartyLine) : Prop :=
  s'.crashed = false → s.crashed = false ∧ (Unique s.party → Unique s'.party ∧
    ∀ q ∈ s.party, 0 ≤ q.chan → q ∈ s'.party)

theorem Keeps.refl (s : PartyLine) : Keeps s s := fun hs => ⟨hs, fun h => ⟨h, fun _ hq _ => hq⟩⟩

theorem Keeps.trans {s s' s'' : PartyLine} (h : Keeps s s') (h' : Keeps s' s'') : Keeps s s'' := by
  intro hs
  obtain ⟨hs', hparty'⟩ := h' hs
  obtain ⟨hs, hparty⟩ := h hs'
  refine ⟨hs, fun hu => ?_⟩
  obtain ⟨hu', hkeep⟩ := hparty hu
  obtain ⟨hu'', hkeep'⟩ := hparty' hu'
  exact ⟨hu'', fun q hq hchan => hkeep' q (hkeep q hq hchan) hchan⟩

theorem unviaLoop_keeps {i : ℕ} {f : ℕ → PartyLine → PartyLine} (hf : ∀ i s, Keeps s (f i s)) :
    ∀ (is : List ℕ) (s : PartyLine), Keeps s (unviaLoop i f is s)
  | [], s => .refl s
  | j :: is, s => by
    rw [unviaLoop]
    split
    · exact unviaLoop_keeps hf is s
    · next bot _ =>
      split
      · have hcall : Keeps s ((f j s).rembot bot.bot) := hf j s
        exact hcall.trans (unviaLoop_keeps hf is _)
      · exact unviaLoop_keeps hf is s

theorem unviaRec_keeps (n : ℕ) : ∀ (i : ℕ) (s : PartyLine), Keeps s (unviaRec n i s) := by
  induction n with
  | zero => exact fun _ s => .refl s
  | succ n ih =>
    intro i s
    rw [unviaRec]
    refine Keeps.trans ?_ (unviaLoop_keeps ih _ _)
    split
    · exact .refl s
    · next bot _ =>
      intro hcalm
      rw [Bool.or_eq_false_iff] at hcalm
      refine ⟨hcalm.1, fun hu => ⟨hu.subperm (drops_rempartybot bot.bot s.party).sub, ?_⟩⟩
      exact fun q hq hchan => rempartybot_keeps hu hcalm.2 hq hchan

/-! ### Unlinking a bot -/

/-- The bot hangs from `x`, or is `x`. -/
def HangsFrom (s : PartyLine) (x t : Tand) : Prop :=
  t ∈ s.net.tandbot ∧ pointers.Through s.net.tandbot x.id t

open Classical in
/-- The bots behind `x` have gone, and the users whose bot is found to be one of them; everything
else is as before. -/
structure Unlinks (x : Tand) (s s' : PartyLine) : Prop where
  bots : s'.net.tandbot = s.net.tandbot.filter fun t => ¬HangsFrom s x t
  party : s'.party ~ s.party.filter fun p => ¬∃ t, HangsFrom s x t ∧ rfcCaseEq p.bot t.bot = true
  found : ∀ w, s'.net.findbot w = (s'.net.tandbot.find? fun t => rfcCaseEq w t.bot).map (·.id)
  rest : s'.net.botnetnick = s.net.botnetnick ∧ s'.net.dcc = s.net.dcc ∧
    s'.net.fresh = s.net.fresh ∧ s'.fakesock = s.fakesock
  alive : s'.crashed = false

/-- The name is that of the bot, but for the case of letters, and so are the names of bots in the
records of the users behind it, none of whom is on a channel. -/
def SpelledAlike (name : CStr) (x : Tand) (s : PartyLine) : Prop :=
  strcaseEq name x.bot = true ∧
    ∀ p ∈ s.party, ∀ t, HangsFrom s x t → rfcCaseEq p.bot t.bot = true →
      strcaseEq p.bot t.bot = true ∧ p.chan < 0

/-- What `unvia` and `rembot` do for the bot that was found. -/
theorem unvia_rembot_spec (h : Botnet.Inv ok s.net) (hx : x ∈ s.net.tandbot) :
    (s.unvia (some x.id)).net.tandbot.Sublist s.net.tandbot ∧
      (∀ t, t ∈ (s.unvia (some x.id)).net.tandbot ↔
        t ∈ s.net.tandbot ∧ (t = x ∨ ¬HangsFrom s x t)) ∧
      Swept (HangsFrom s x) s.party (s.unvia (some x.id)).party := by
  have hcleared : Botnet.Cleared ok x.id (·.uplink = .bot x.id) s.net
      (Botnet.unviaRec s.net.fresh x.id s.net) :=
    Botnet.unviaRec_spec s.net.fresh x.id s.net h (by omega)
  have hmem (t : Tand) : t ∈ (unviaRec s.net.fresh x.id s).net.tandbot ↔
      t ∈ s.net.tandbot ∧ (t = x ∨ ¬HangsFrom s x t) := by
    rw [net_unviaRec, Botnet.mem_unviaRec_iff h hx (by omega)]
    refine and_congr_right fun ht => or_congr_right ?_
    rw [HangsFrom, not_and]
    exact ⟨fun hnot _ => hnot, fun hnot => hnot ht⟩
  refine ⟨?_, hmem, ?_⟩
  · show (unviaRec s.net.fresh x.id s).net.tandbot.Sublist s.net.tandbot
    rw [net_unviaRec]
    exact hcleared.shrinks.sub
  · have hself : HangsFrom s x x := ⟨hx, .self rfl⟩
    refine (unviaRec_swept s.net.fresh x s h hx (by omega)).congr fun t => ?_
    rw [hmem]
    constructor
    · intro ht
      by_cases htx : t = x
      · exact .inl htx
      · exact .inr ⟨ht.1, fun hor => hor.2.elim htx fun hnot => hnot ht⟩
    · intro hor
      rcases hor with rfl | ⟨ht, hnot⟩
      · exact hself
      · by_contra hno
        exact hnot ⟨ht, .inr hno⟩

theorem fakesock_unviaLoop {f : ℕ → PartyLine → PartyLine}
    (hf : ∀ i s, (f i s).fakesock = s.fakesock) (who : ℕ) :
    ∀ (is : List ℕ) (s : PartyLine), (unviaLoop who f is s).fakesock = s.fakesock
  | [], _ => rfl
  | i :: is, s => by
    rw [unviaLoop]
    split
    · exact fakesock_unviaLoop hf who is s
    · split
      · rw [fakesock_unviaLoop hf who is]
        exact hf i s
      · exact fakesock_unviaLoop hf who is s

theorem fakesock_unviaRec (n : ℕ) : ∀ (who : ℕ) (s : PartyLine),
    (unviaRec n who s).fakesock = s.fakesock := by
  induction n with
  | zero => exact fun _ _ => rfl
  | succ n ih =>
    intro who s
    rw [unviaRec, fakesock_unviaLoop ih]
    split <;> rfl

theorem eq_filter_of_sublist {α : Type} {l l' : List α} {p : α → Bool} (hsub : l' <+ l)
    (hnd : l.Nodup) (h : ∀ a ∈ l, a ∈ l' ↔ p a = true) : l' = l.filter p := by
  induction hsub with
  | slnil => rfl
  | @cons l' l a hsub ih =>
    obtain ⟨hnot, hnd⟩ := nodup_cons.1 hnd
    have hp : ¬p a = true := fun hp => hnot (hsub.subset ((h a mem_cons_self).2 hp))
    rw [filter_cons_of_neg hp]
    exact ih hnd fun b hb => h b (mem_cons_of_mem _ hb)
  | @cons_cons l' l a hsub ih =>
    obtain ⟨hnot, hnd⟩ := nodup_cons.1 hnd
    rw [filter_cons_of_pos ((h a mem_cons_self).1 mem_cons_self)]
    refine congrArg (a :: ·) (ih hnd fun b hb => ?_)
    rw [← h b (mem_cons_of_mem _ hb), mem_cons]
    exact ⟨.inr, fun hor => hor.resolve_left fun heq => hnot (heq ▸ hb)⟩

open Classical in
/-- Two selections of a list are the same up to order only where they agree. -/
theorem filter_perm_iff {α : Type} {l : List α} {p q : α → Prop} (hqp : ∀ a ∈ l, q a → p a) :
    l.filter (fun a => ¬q a) ~ l.filter (fun a => ¬p a) ↔ ∀ a ∈ l, p a → q a := by
  constructor
  · intro hperm a ha hp
    by_contra hq
    have hmem := hperm.mem_iff.1 (mem_filter.2 ⟨ha, by simpa using hq⟩)
    simp [hp] at hmem
  · intro h
    refine .of_eq (filter_congr fun a ha => ?_)
    rw [decide_eq_decide]
    exact not_congr ⟨hqp a ha, h a ha⟩

open Classical in
/-- A message that a bot is unlinked, from the link that leads to it: the calls of `unvia` end, and
the right bots and users go exactly where the names are spelled alike and no user is on a channel. -/
theorem unlinks_iff {idx : ℕ} {par : CStr} (h : Botnet.Inv ok s.net) (hunique : Unique s.party)
    (halive : s.crashed = false) (hx : x ∈ s.net.tandbot)
    (hfind : s.net.findbot (newsplit par).1 = some x.id)
    (hnext : s.net.nextbot (newsplit par).1 = some idx) :
    (∀ m ≥ s.net.fresh, unviaRec m x.id s = s.unvia (some x.id)) ∧
      (Unlinks x s (s.botUnlinked idx par) ↔ SpelledAlike (newsplit par).1 x s) := by
  refine ⟨fun m hm => unviaRec_fuel _ m x s h hx (by omega) hm, ?_⟩
  have hrun : s.botUnlinked idx par = (s.unvia (some x.id)).rembot (newsplit par).1 := by
    simp only [botUnlinked]
    rw [if_pos hnext, hfind]
  obtain ⟨y, hy, hid, hname⟩ := h.findbot_eq_some.1 hfind
  obtain rfl := h.forest.eq_of_id hy hx hid
  obtain ⟨hsub, hmem, hswept⟩ := unvia_rembot_spec h hx
  have hinv : Botnet.Inv ok (s.unvia (some y.id)).net := by
    have hinv := inv_unvia h (newsplit par).1
    rwa [hfind] at hinv
  have hy1 : y ∈ (s.unvia (some y.id)).net.tandbot := (hmem y).2 ⟨hx, .inl rfl⟩
  have hself : HangsFrom s y y := ⟨hx, .self rfl⟩
  rw [hrun]
  by_cases hspelled : strcaseEq (newsplit par).1 y.bot = true
  · have hnet : ((s.unvia (some y.id)).rembot (newsplit par).1).net =
        (s.unvia (some y.id)).net.rembot y.bot := rembot_congr hspelled
    have hshrinks : Botnet.Shrinks s.net ((s.unvia (some y.id)).rembot (newsplit par).1).net := by
      have hunvia := shrinks_unvia h (newsplit par).1
      rw [hfind] at hunvia
      exact hunvia.trans (Botnet.shrinks_rembot _ _)
    have hqp : ∀ p ∈ s.party, (∃ t, HangsFrom s y t ∧ strcaseEq p.bot t.bot = true) →
        ∃ t, HangsFrom s y t ∧ rfcCaseEq p.bot t.bot = true :=
      fun p _ hq => hq.imp fun t ht => ⟨ht.1, rfcCaseEq_of_strcaseEq ht.2⟩
    constructor
    · intro hun
      refine ⟨hspelled, fun p hp t ht hrfc => ⟨?_, ?_⟩⟩
      · obtain ⟨u, hu, hpu⟩ :=
          (filter_perm_iff hqp).1 (hswept.symm.trans hun.party) p hp ⟨t, ht, hrfc⟩
        have hut : rfcCaseEq u.bot t.bot = true := by
          rw [rfcCaseEq_comm] at hrfc ⊢
          exact rfcCaseEq_trans hrfc (rfcCaseEq_of_strcaseEq hpu)
        rwa [h.eq_of_name hu.1 ht.1 hut] at hpu
      · refine Int.not_le.1 fun hchan => ?_
        -- a user on a channel would stay
        have hstays := ((unviaRec_keeps s.net.fresh y.id s) hun.alive).2 hunique |>.2 p hp hchan
        have hgoes := (mem_filter.1 (hun.party.mem_iff.1 hstays)).2
        exact of_decide_eq_true hgoes ⟨t, ht, hrfc⟩
    · intro hall
      refine ⟨?_, ?_, ?_, ⟨hshrinks.nick, hshrinks.dcc, hshrinks.fresh, ?_⟩, ?_⟩
      · refine eq_filter_of_sublist hshrinks.sub ?_ fun t ht => ?_
        · exact h.forest.pairwise_lt.imp fun hlt heq => absurd (heq ▸ hlt) (lt_irrefl _)
        · rw [hnet, hinv.mem_rembot_iff hy1, hmem, decide_eq_true_iff]
          constructor
          · exact fun hor => hor.1.2.resolve_left hor.2
          · intro hnot
            refine ⟨⟨ht, .inr hnot⟩, fun heq => hnot (heq ▸ hself)⟩
      · exact List.Perm.trans hswept ((filter_perm_iff hqp).2 fun p hp hq =>
          hq.imp fun t ht => ⟨ht.1, (hall.2 p hp t ht.1 ht.2).1⟩)
      · exact (hinv.toBase.rembot _).synced
      · exact fakesock_unviaRec _ _ s
      · have hsilent : Silent
            (fun i => ∃ t ∈ s.net.tandbot, t.id = i ∧ pointers.Through s.net.tandbot y.id t) s := by
          constructor
          · rintro t ht i ⟨u, hu, rfl, hthrough⟩ hup
            exact ⟨t, ht, rfl, .up hu (parent_eq_some.2 hup) hthrough⟩
          · rintro p hp hchan t ht ⟨u, hu, hid, hthrough⟩
            obtain rfl := h.forest.eq_of_id hu ht hid
            rw [← Bool.not_eq_true]
            intro hname
            have hoff := (hall.2 p hp u ⟨hu, hthrough⟩ (rfcCaseEq_of_strcaseEq hname)).2
            omega
        exact (calm_unviaRec _ y.id s ⟨y, hx, rfl, .self rfl⟩ hsilent).crashed.trans halive
  · refine iff_of_false ?_ fun hall => hspelled hall.1
    intro hun
    have hstays : y ∈ ((s.unvia (some y.id)).rembot (newsplit par).1).net.tandbot := by
      refine Botnet.mem_rembot hy1 ?_
      rw [strcaseEq_comm]
      simpa using hspelled
    rw [hun.bots] at hstays
    have hnot := (mem_filter.1 hstays).2
    simp [hself] at hnot

/-- A bot with a name of a brace or bracket is linked, and has a user that left all channels. -/
def bracketLink : PartyLine :=
  ⟨(Botnet.start "hub".toList).linked "foo[".toList 1100000,
    [newMember 0 "foo[".toList "joe".toList (-1) '-' 1 []], 2300, false⟩

/-- The entry of that bot. -/
def bracketBot : Tand := ⟨0, "foo[".toList, some 0, .me, '-', 1100000⟩

theorem inv_bracketLink : Botnet.Inv Sayable bracketLink.net :=
  (Botnet.inv_start Sayable (by decide)).linked (by decide) (by decide) (by decide) _

theorem unlinks_bracketLink :
    (∀ m ≥ bracketLink.net.fresh,
        unviaRec m bracketBot.id bracketLink = bracketLink.unvia (some bracketBot.id)) ∧
      (Unlinks bracketBot bracketLink (bracketLink.botUnlinked 0 "foo[".toList) ↔
        SpelledAlike (newsplit "foo[".toList).1 bracketBot bracketLink) :=
  unlinks_iff inv_bracketLink (pairwise_singleton _ _) rfl (by decide +kernel) (by decide +kernel)
    (by decide +kernel)

/-- Unlinked by a name that the table folds to its own, the bot stays. -/
theorem not_unlinks :
    ¬Unlinks bracketBot bracketLink (bracketLink.botUnlinked 0 "foo\x7b".toList) := by
  intro hun
  have hstays : bracketBot ∈ (bracketLink.botUnlinked 0 "foo\x7b".toList).net.tandbot := by
    decide +kernel
  rw [hun.bots] at hstays
  have hnot := (mem_filter.1 hstays).2
  have hmem : bracketBot ∈ bracketLink.net.tandbot := by decide +kernel
  have hself : HangsFrom bracketLink bracketBot bracketBot := ⟨hmem, .self rfl⟩
  simp [hself] at hnot

end PartyLine

end Eggdrop.Tandem
