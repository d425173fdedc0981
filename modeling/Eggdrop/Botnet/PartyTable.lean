import Mathlib.Data.List.Perm.Subperm
import Eggdrop.Botnet.Party

/-!
# PartyTable — what the operations on the table of users do to the records of a bot

The order of the table means nothing: a removal moves the last record, so tables are compared up to
permutation.

* `Unique`: a bot has one record for a socket; every operation keeps it.
* `LocalTo`: an operation changes the records of one bot, in a way that only they decide.
* `Drops`: a removal takes records of one bot.
-/

namespace Eggdrop.Tandem

open List

/-- The records of the users of a bot. -/
def records (bot : CStr) (party : List Member) : List Member :=
  party.filter fun p => strcaseEq p.bot bot

/-- Two records of the same socket of a bot. -/
def Member.Same (p q : Member) : Prop := strcaseEq p.bot q.bot = true ∧ p.sock = q.sock

/-- No socket of a bot has two records. -/
def Unique (party : List Member) : Prop := party.Pairwise fun p q => ¬ p.Same q

/-- On tables where sockets have one record, `op` keeps the records of the other bots, and what
becomes of those of `bot` depends on them only. -/
structure LocalTo (bot : CStr) (op : List Member → List Member) : Prop where
  unique : ∀ party, Unique party → Unique (op party)
  frame : ∀ party b, Unique party → strcaseEq bot b = false →
    records b (op party) ~ records b party
  own : ∀ party party', Unique party → Unique party' → records bot party ~ records bot party' →
    records bot (op party) ~ records bot (op party')

/-- Records of one bot are taken out. -/
structure Drops (bot : CStr) (party party' : List Member) : Prop where
  sub : party' <+~ party
  frame : ∀ b, strcaseEq bot b = false → records b party' ~ records b party

variable {bot b : CStr} {sock : Int} {party party' party'' : List Member} {p q : Member}

theorem Member.Same.symm (h : p.Same q) : q.Same p :=
  ⟨(strcaseEq_comm q.bot p.bot).trans h.1, h.2.symm⟩

theorem Unique.perm (h : Unique party) (hperm : party ~ party') : Unique party' :=
  (hperm.pairwise_iff fun hne hsame => hne hsame.symm).1 h

theorem Unique.subperm (h : Unique party) (hsub : party' <+~ party) : Unique party' := by
  obtain ⟨l, hperm, hl⟩ := hsub
  exact Unique.perm (h.sublist hl) hperm

theorem Member.isAt_iff : p.isAt bot sock = true ↔ strcaseEq p.bot bot = true ∧ p.sock = sock := by
  rw [isAt, Bool.and_eq_true, beq_iff_eq]

theorem Member.same_of_isAt (hp : p.isAt bot sock = true) (hq : q.isAt bot sock = true) :
    p.Same q := by
  rw [isAt_iff] at hp hq
  refine ⟨strcaseEq_trans hp.1 ?_, hp.2.trans hq.2.symm⟩
  rw [strcaseEq_comm]
  exact hq.1

theorem records_congr (h : strcaseEq bot b = true) (party : List Member) :
    records bot party = records b party := by
  refine filter_congr fun p _ => ?_
  rw [strcaseEq_comm p.bot, strcaseEq_comm p.bot, strcaseEq_congr_left h]

theorem strcaseEq_of_ne {name : CStr} (hb : strcaseEq bot b = false)
    (hname : strcaseEq name bot = true) : strcaseEq name b = false := by
  rw [strcaseEq_congr_left hname, hb]

theorem records_perm (h : party ~ party') (b : CStr) : records b party ~ records b party' :=
  h.filter _

/-! ### Operations on the records of one bot -/

theorem LocalTo.comp {f g : List Member → List Member} (hg : LocalTo bot g) (hf : LocalTo bot f) :
    LocalTo bot (g ∘ f) where
  unique party h := hg.unique _ (hf.unique party h)
  frame party b h hb := (hg.frame _ b (hf.unique party h) hb).trans (hf.frame party b h hb)
  own party party' h h' hperm :=
    hg.own _ _ (hf.unique party h) (hf.unique party' h') (hf.own party party' h h' hperm)

theorem records_modifyAll {sel : Member → Bool} {f : Member → Member}
    (hbot : ∀ m, (f m).bot = m.bot) (b : CStr) (party : List Member) :
    records b (modifyAll sel f party) = modifyAll sel f (records b party) := by
  rw [records, modifyAll, filter_map]
  refine congrArg (map _) (filter_congr fun m _ => ?_)
  show strcaseEq (if sel m then f m else m).bot b = _
  split
  · rw [hbot]
  · rfl

theorem localTo_modifyAll {sel : Member → Bool} {f : Member → Member}
    (hsel : ∀ m, sel m = true → strcaseEq m.bot bot = true) (hbot : ∀ m, (f m).bot = m.bot)
    (hsock : ∀ m, (f m).sock = m.sock) : LocalTo bot (modifyAll sel f) where
  unique party h := by
    refine pairwise_map.2 (h.imp fun {m n} hne hsame => hne ?_)
    have hkeep (m : Member) : (if sel m then f m else m).bot = m.bot ∧
        (if sel m then f m else m).sock = m.sock := by
      split
      · exact ⟨hbot m, hsock m⟩
      · exact ⟨rfl, rfl⟩
    rw [Member.Same, (hkeep m).1, (hkeep n).1, (hkeep m).2, (hkeep n).2] at hsame
    exact hsame
  frame party b _ hb := by
    rw [records_modifyAll hbot]
    refine .of_eq (map_congr_left (fun m hm => ?_) |>.trans (map_id _))
    refine if_neg fun hs => ?_
    have hne := strcaseEq_of_ne hb (hsel m hs)
    rw [(mem_filter.1 hm).2] at hne
    cases hne
  own party party' _ _ hperm := by
    rw [records_modifyAll hbot, records_modifyAll hbot]
    exact hperm.map _

theorem modifyFirst_eq (h : Unique party) (f : Member → Member) :
    modifyFirst (Member.isAt bot sock) f party = modifyAll (Member.isAt bot sock) f party := by
  induction party with
  | nil => rfl
  | cons m party ih =>
    obtain ⟨hm, hrest⟩ := pairwise_cons.1 h
    rw [modifyFirst, modifyAll, map_cons]
    split
    · next hsel =>
      refine congrArg (f m :: ·) ((map_congr_left fun n hn => ?_).trans (map_id _)).symm
      exact if_neg fun hn' => hm n hn (Member.same_of_isAt hsel hn')
    · exact congrArg (m :: ·) (ih hrest)

theorem LocalTo.congr {f g : List Member → List Member} (hg : LocalTo bot g)
    (hfg : ∀ party, Unique party → f party = g party) : LocalTo bot f where
  unique party h := hfg party h ▸ hg.unique party h
  frame party b h hb := hfg party h ▸ hg.frame party b h hb
  own party party' h h' hperm := hfg party h ▸ hfg party' h' ▸ hg.own party party' h h' hperm

theorem localTo_isAt {f : Member → Member} (hbot : ∀ m, (f m).bot = m.bot)
    (hsock : ∀ m, (f m).sock = m.sock) : LocalTo bot (modifyAll (Member.isAt bot sock) f) :=
  localTo_modifyAll (fun _ hm => (Member.isAt_iff.1 hm).1) hbot hsock

theorem localTo_partystat (add rem : BitVec 8) : LocalTo bot (partystat bot sock add rem) :=
  localTo_isAt (fun _ => rfl) fun _ => rfl

theorem localTo_partysetidle (now secs : Int) : LocalTo bot (partysetidle now bot sock secs) :=
  localTo_isAt (fun _ => rfl) fun _ => rfl

theorem localTo_partyaway (msg : CStr) : LocalTo bot (partyaway bot sock msg) :=
  localTo_isAt (fun _ => rfl) fun _ => rfl

theorem localTo_partyidle (now : Int) (nick : CStr) : LocalTo bot (partyidle now bot nick) :=
  localTo_modifyAll (fun _ hm => (Bool.and_eq_true_iff.1 hm).1) (fun _ => rfl) fun _ => rfl

theorem localTo_partynick (nick : CStr) : LocalTo bot (partynick bot sock nick) :=
  (localTo_isAt (f := fun p => { p with nick := nick.take handLen }) (fun _ => rfl)
    fun _ => rfl).congr fun _ h => modifyFirst_eq h _

theorem any_isAt_records (bot : CStr) (sock : Int) (party : List Member) :
    party.any (Member.isAt bot sock) = (records bot party).any (Member.isAt bot sock) := by
  rw [records, any_filter]
  refine congrArg (any party) (funext fun p => ?_)
  rw [Member.isAt, ← Bool.and_assoc, Bool.and_self]

theorem Member.rejoin_bot (now chan : Int) (flag : Char) (from_ : CStr) (m : Member) :
    (m.rejoin now chan flag from_).bot = m.bot ∧ (m.rejoin now chan flag from_).sock = m.sock := by
  unfold rejoin
  split <;> exact ⟨rfl, rfl⟩

theorem localTo_addparty (now : Int) (nick : CStr) (chan : Int) (flag : Char) (from_ : CStr)
    (hlen : bot.length ≤ handLen) : LocalTo bot (addparty now bot nick chan flag sock from_) := by
  have hold : LocalTo bot (modifyFirst (Member.isAt bot sock) (·.rejoin now chan flag from_)) :=
    (localTo_isAt (fun m => (m.rejoin_bot now chan flag from_).1)
      fun m => (m.rejoin_bot now chan flag from_).2).congr fun _ h => modifyFirst_eq h _
  generalize hnew : newMember now bot nick chan flag sock from_ = new
  have hbot : new.bot = bot := by
    rw [← hnew]
    exact take_of_length_le hlen
  have hsock : new.sock = sock := by
    rw [← hnew]
    rfl
  constructor
  · intro party h
    rw [addparty]
    split
    · exact hold.unique party h
    · next hany =>
      rw [hnew]
      refine pairwise_append.2 ⟨h, pairwise_singleton _ _, fun m hm n hn hsame => hany ?_⟩
      rw [mem_singleton.1 hn, Member.Same, hbot, hsock] at hsame
      exact any_eq_true.2 ⟨m, hm, Member.isAt_iff.2 hsame⟩
  · intro party b h hb
    rw [addparty]
    split
    · exact hold.frame party b h hb
    · rw [hnew, records, filter_append, filter_cons_of_neg (by rw [hbot, hb]; exact Bool.false_ne_true)]
      rw [filter_nil, append_nil]
      exact .refl _
  · intro party party' h h' hperm
    have hsame : party.any (Member.isAt bot sock) = party'.any (Member.isAt bot sock) := by
      rw [any_isAt_records, any_isAt_records bot sock party', Bool.eq_iff_iff, any_eq_true,
        any_eq_true]
      exact exists_congr fun m => and_congr_left fun _ => hperm.mem_iff
    rw [addparty, addparty, hsame]
    split
    · exact hold.own party party' h h' hperm
    · rw [records, records, filter_append, filter_append]
      exact hperm.append_right _

/-! ### Removals -/

theorem removeAt_perm {i : Nat} (hi : i < party.length) : removeAt i party ~ party.eraseIdx i := by
  obtain rfl | ⟨init, last, rfl⟩ := party.eq_nil_or_concat'
  · exact .refl _
  · have heq : removeAt i (init ++ [last]) = init.set i last := by
      rw [removeAt, getLast?_concat, dropLast_concat]
    rw [heq]
    by_cases hlt : i < init.length
    · rw [eraseIdx_append_of_lt_length hlt, set_eq_take_append_cons_drop, if_pos hlt,
        eraseIdx_eq_take_drop_succ, append_assoc]
      exact (perm_append_singleton last _).symm.append_left _
    · rw [length_append, length_singleton] at hi
      obtain rfl : i = init.length := by omega
      rw [set_eq_of_length_le le_rfl, eraseIdx_append_of_length_le le_rfl, Nat.sub_self]
      exact .of_eq (append_nil init).symm

theorem Drops.refl (bot : CStr) (party : List Member) : Drops bot party party :=
  ⟨Subperm.refl _, fun _ _ => .refl _⟩

theorem Drops.trans (h : Drops bot party party') (h' : Drops bot party' party'') :
    Drops bot party party'' :=
  ⟨h'.sub.trans h.sub, fun b hb => (h'.frame b hb).trans (h.frame b hb)⟩

theorem drops_removeAt {i : Nat} (hp : party[i]? = some p) (hbot : strcaseEq p.bot bot = true) :
    Drops bot party (removeAt i party) := by
  obtain ⟨hi, rfl⟩ := List.getElem?_eq_some_iff.1 hp
  have hperm := removeAt_perm hi
  refine ⟨hperm.subperm.trans (eraseIdx_sublist party i).subperm, fun b hb => ?_⟩
  refine (records_perm hperm b).trans (.of_eq ?_)
  have hsplit : party = party.take i ++ party[i] :: party.drop (i + 1) := by
    rw [getElem_cons_drop, take_append_drop]
  conv_rhs => rw [hsplit]
  rw [eraseIdx_eq_take_drop_succ, records, records, filter_append, filter_append,
    filter_cons_of_neg (by rw [strcaseEq_of_ne hb hbot]; exact Bool.false_ne_true)]

theorem drops_rempartyLoop (bot : CStr) (sock : Int) (fuel i : Nat) (party : List Member) :
    Drops bot party (rempartyLoop bot sock fuel i party) := by
  induction fuel generalizing i party with
  | zero => exact .refl bot party
  | succ fuel ih =>
    rw [rempartyLoop]
    split
    · exact .refl bot party
    · next p hp =>
      split
      · next hat => exact (drops_removeAt hp (Member.isAt_iff.1 hat).1).trans (ih _ _)
      · exact ih _ _

theorem drops_rempartybot (bot : CStr) (party : List Member) :
    Drops bot party (rempartybot bot party).1 := by
  suffices h : ∀ fuel i party, Drops bot party (rempartybotLoop bot fuel i party).1 from h _ _ _
  intro fuel
  induction fuel with
  | zero => exact fun _ party => .refl bot party
  | succ fuel ih =>
    intro i party
    rw [rempartybotLoop]
    split
    · exact .refl bot party
    · split
      · exact (drops_rempartyLoop bot _ _ _ party).trans (ih _ _)
      · exact ih _ _

theorem rempartybot_silent (h : ∀ p ∈ party, strcaseEq p.bot bot = true → p.chan < 0) :
    (rempartybot bot party).2 = false := by
  suffices hloop : ∀ fuel i (party : List Member),
      (∀ p ∈ party, strcaseEq p.bot bot = true → p.chan < 0) →
      (rempartybotLoop bot fuel i party).2 = false from hloop _ _ _ h
  intro fuel
  induction fuel with
  | zero => exact fun _ _ _ => rfl
  | succ fuel ih =>
    intro i party h
    rw [rempartybotLoop]
    split
    · rfl
    · next p hp =>
      split
      · next hbot =>
        have hsub := (drops_rempartyLoop bot p.sock party.length 0 party).sub.subset
        have hrest := ih i (remparty bot p.sock party) fun q hq => h q (hsub hq)
        have hchan : ¬ 0 ≤ p.chan := Int.not_le.2 (h p (mem_of_getElem? hp) hbot)
        simp only [hrest, hchan, decide_false, Bool.or_false]
      · exact ih _ party h

theorem rempartyLoop_of_none (h : ∀ m ∈ party, m.isAt bot sock = false) (fuel i : Nat) :
    rempartyLoop bot sock fuel i party = party := by
  induction fuel generalizing i with
  | zero => rfl
  | succ fuel ih =>
    rw [rempartyLoop]
    split
    · rfl
    · next p hp =>
      rw [h p (mem_of_getElem? hp), if_neg Bool.false_ne_true]
      exact ih _

theorem filter_isAt_eq_self {i : Nat} (hi : party.length ≤ i)
    (hbefore : ∀ j m, j < i → party[j]? = some m → m.isAt bot sock = false) :
    (party.filter fun m => !m.isAt bot sock) = party := by
  refine filter_eq_self.2 fun m hm => ?_
  obtain ⟨j, hj, rfl⟩ := mem_iff_getElem.1 hm
  rw [hbefore j _ (by omega) (getElem?_eq_getElem hj), Bool.not_false]

theorem rempartyLoop_perm (h : Unique party) {fuel i : Nat} (hfuel : party.length ≤ i + fuel)
    (hbefore : ∀ j m, j < i → party[j]? = some m → m.isAt bot sock = false) :
    rempartyLoop bot sock fuel i party ~ party.filter fun m => !m.isAt bot sock := by
  induction fuel generalizing i with
  | zero => exact .of_eq (filter_isAt_eq_self hfuel hbefore).symm
  | succ fuel ih =>
    rw [rempartyLoop]
    split
    · next hnone =>
      exact .of_eq (filter_isAt_eq_self (List.getElem?_eq_none_iff.1 hnone) hbefore).symm
    · next p hp =>
      split
      · next hat =>
        obtain ⟨hi, rfl⟩ := List.getElem?_eq_some_iff.1 hp
        have hperm := removeAt_perm hi
        have hsplit : party = party.take i ++ party[i] :: party.drop (i + 1) := by
          rw [getElem_cons_drop, take_append_drop]
        have hother : ∀ m ∈ party.eraseIdx i, m.isAt bot sock = false := by
          intro m hm
          rw [← Bool.not_eq_true]
          intro hm'
          have hu : Unique (party.take i ++ party[i] :: party.drop (i + 1)) := hsplit ▸ h
          obtain ⟨-, hpost, hpre⟩ := pairwise_append.1 hu
          rw [eraseIdx_eq_take_drop_succ] at hm
          rcases mem_append.1 hm with hm | hm
          · exact hpre m hm _ mem_cons_self (Member.same_of_isAt hm' hat)
          · exact (pairwise_cons.1 hpost).1 m hm (Member.same_of_isAt hat hm')
        rw [rempartyLoop_of_none (fun m hm => hother m (hperm.mem_iff.1 hm))]
        refine hperm.trans (.of_eq ?_)
        rw [eraseIdx_eq_take_drop_succ] at hother ⊢
        conv_rhs => rw [hsplit]
        rw [filter_append, filter_cons_of_neg (by rw [hat]; exact Bool.false_ne_true),
          ← filter_append]
        exact (filter_eq_self.2 fun m hm => by rw [hother m hm, Bool.not_false]).symm
      · next hat =>
        refine ih (by omega) fun j m hj hm => ?_
        rcases Nat.lt_succ_iff_lt_or_eq.1 hj with hj | rfl
        · exact hbefore j m hj hm
        · rw [hp] at hm
          rw [← Option.some.inj hm]
          simpa using hat

theorem localTo_remparty : LocalTo bot (remparty bot sock) := by
  have hall {party : List Member} (h : Unique party) :
      remparty bot sock party ~ party.filter fun m => !m.isAt bot sock :=
    rempartyLoop_perm h (by omega) fun j _ hj => absurd hj (Nat.not_lt_zero j)
  refine ⟨fun party h => h.subperm (drops_rempartyLoop _ _ _ _ _).sub,
    fun party b h hb => (drops_rempartyLoop _ _ _ _ _).frame b hb,
    fun party party' h h' hperm => ?_⟩
  have hswap (party : List Member) : records bot (party.filter fun m => !m.isAt bot sock) =
      (records bot party).filter fun m => !m.isAt bot sock := by
    rw [records, records, filter_filter, filter_filter]
    exact filter_congr fun m _ => Bool.and_comm _ _
  refine (records_perm (hall h) bot).trans (.trans ?_ (records_perm (hall h') bot).symm)
  rw [hswap, hswap]
  exact hperm.filter _

end Eggdrop.Tandem
