import Eggdrop.Irc.MemberTable

/-!
# MemberRuns — the members of a channel over its life

* `Good`: a nick that is stored is one, fits into its buffer, and is plain while `strcasecmp`
  compares.
* `Inv.step`: a handler keeps the hash table and the counter to the list.
* `consistent_throughout_members`: `ismember` answers like a search through the list, the counter is the
  length of the list, and no two nicks are equal.
-/

namespace Eggdrop.Members

open List

/-- A nick that may be stored beside those of the listed members, where nobody has it: there is one,
and no part of it is cut off that makes it different. -/
def Stores (rfc : Bool) (listed : List Member) (nick : CStr) : Prop :=
  nick.take nickMax ≠ [] ∧ (rfc = true ∨ isPlain (nick.take nickMax) = true) ∧
    (nick.length ≤ nickMax ∨ ∀ m ∈ listed, caseEq rfc m.nick (nick.take nickMax) = false)

/-- The same for a nick that a member changes to. -/
def Renames (rfc : Bool) (listed : List Member) (nick new : CStr) : Prop :=
  (∀ m ∈ listed, caseEq rfc m.nick nick = false) ∨
    (new.take nickMax ≠ [] ∧ (rfc = true ∨ isPlain (new.take nickMax) = true) ∧
      (new.length ≤ nickMax ∨ ∀ m ∈ listed, caseEq rfc m.nick (new.take nickMax) = true →
        caseEq rfc m.nick nick = true))

/-- An event that makes `gotjoin` look at the members. -/
def State.Joins (s : State) (nick : CStr) : Prop :=
  s.inactive = false ∧ s.pending = false ∧ (s.active = true ∨ s.matchMyNick nick = true)

/-- What a step needs. -/
def Good (s : State) : Event → Prop
  | .join origin =>
    s.Joins (splitnick (origin.take uhostMax)).1 →
      Stores s.rfc s.table.listed (splitnick (origin.take uhostMax)).1
  | .nick origin msg => Renames s.rfc s.table.listed (splitnick (origin.take uhostMax)).1 msg
  | .who r => Stores s.rfc s.table.listed r.nick
  | .names prefixchars words =>
    Machine.Along State.got352or4 (fun s r => Stores s.rfc s.table.listed r.nick) s
      (namesReplies prefixchars none (words.takeWhile (· ≠ [])))
  | .twitchNames nick => s.twitch = true → Stores s.rfc s.table.listed nick
  | .rfcCasecmp rfc => rfc = true ∨ ∀ m ∈ s.table.listed, isPlain m.nick = true
  | .part _ | .kick _ | .quit _ _ _ | .chghost _ _ _ | .endOfWho | .notOnChannel | .reset _ _ _
  | .checkExpired _ _ | .setStatus _ _ _ | .setBotname _ => True

instance (rfc : Bool) (listed : List Member) (nick : CStr) : Decidable (Stores rfc listed nick) := by
  unfold Stores
  infer_instance

instance (rfc : Bool) (listed : List Member) (nick new : CStr) :
    Decidable (Renames rfc listed nick new) := by
  unfold Renames
  infer_instance

instance (s : State) (nick : CStr) : Decidable (s.Joins nick) := by
  unfold State.Joins
  infer_instance

instance (s : State) : ∀ e, Decidable (Good s e)
  | .join origin => inferInstanceAs (Decidable (s.Joins (splitnick (origin.take uhostMax)).1 →
      Stores s.rfc s.table.listed (splitnick (origin.take uhostMax)).1))
  | .nick origin msg => inferInstanceAs (Decidable
      (Renames s.rfc s.table.listed (splitnick (origin.take uhostMax)).1 msg))
  | .who r => inferInstanceAs (Decidable (Stores s.rfc s.table.listed r.nick))
  | .names prefixchars words => inferInstanceAs (Decidable (Machine.Along State.got352or4
      (fun s r => Stores s.rfc s.table.listed r.nick) s
      (namesReplies prefixchars none (words.takeWhile (· ≠ [])))))
  | .twitchNames nick => inferInstanceAs (Decidable
      (s.twitch = true → Stores s.rfc s.table.listed nick))
  | .rfcCasecmp rfc => inferInstanceAs (Decidable
      (rfc = true ∨ ∀ m ∈ s.table.listed, isPlain m.nick = true))
  | .part _ | .kick _ | .quit _ _ _ | .chghost _ _ _ | .endOfWho | .notOnChannel | .reset _ _ _
  | .checkExpired _ _ | .setStatus _ _ _ | .setBotname _ => isTrue trivial

variable {rfc : Bool} {t : Table} {ms rest : List Member} {nick : CStr} {s : State}

theorem Stores.fresh (h : Stores rfc ms nick) (hk : Keyed rfc ms) (hsub : rest ⊆ ms)
    (hno : ∀ m ∈ rest, istrFold m.nick ≠ istrFold nick) : Fresh rfc rest nick := by
  refine ⟨h.1, h.2.1, fun m hm hfold => ?_⟩
  rcases h.2.2 with hlen | hfree
  · rw [take_of_length_le hlen] at hfold
    exact hno m hm hfold
  · have hsame := (hk.caseEq_iff (hsub hm) _).2 hfold
    rw [hfree m (hsub hm)] at hsame
    cases hsame

/-- The table of a channel is that of a list of members. -/
def Inv (s : State) : Prop := ∃ ms, Holds s.rfc s.table ms

namespace Inv

theorem init (botname : CStr) (twitch : Bool) : Inv (.init botname twitch) := ⟨[], .init 0⟩

theorem lookup {k : Option ℕ → Except Fault State} (h : Holds s.rfc s.table ms)
    (hnone : (∀ m ∈ ms, istrFold m.nick ≠ istrFold nick) → Gives (k none) Inv)
    (hsome : ∀ m ∈ ms, istrFold m.nick = istrFold nick → Gives (k (some m.addr)) Inv) :
    Gives (s.table.ismember nick >>= k) Inv := by
  rcases h.ismember_cases nick with ⟨hr, hno⟩ | ⟨m, hm, hr, hfold⟩
  · rw [hr]
    exact hnone hno
  · rw [hr]
    exact hsome m hm hfold

section Handlers

variable (h : Inv s)

include h

theorem clearChannel (who : Bool) : Inv (s.clearChannel who) := by
  obtain ⟨ms, h⟩ := h
  cases who with
  | false => exact ⟨ms, h⟩
  | true => exact ⟨[], h.clear _⟩

theorem resetChanInfo (who away doReset : Bool) : Inv (s.resetChanInfo who away doReset) := by
  unfold State.resetChanInfo
  split
  · exact h
  · have hclear : Inv (if doReset then s.clearChannel who else s) := by
      split
      · exact h.clearChannel who
      · exact h
    dsimp only
    split
    · exact hclear
    · exact hclear

theorem leave : Inv s.leave := h.clearChannel true

theorem confused : Inv s.confused :=
  resetChanInfo (s := { s with active := true, pending := false }) h true true true

theorem killmember (nick : CStr) {f : Table → State} (hf : ∀ t, (∃ ms, Holds s.rfc t ms) → Inv (f t)) :
    Gives (s.table.killmember s.rfc nick >>= fun t => .ok (f t)) Inv := by
  obtain ⟨ms, h⟩ := h
  exact (h.killmember nick).bind fun t ht => Gives.ok (hf t ⟨_, ht⟩)

theorem got352or4 {r : Reply} (hok : Stores s.rfc s.table.listed r.nick) :
    Gives (s.got352or4 r) Inv := by
  obtain ⟨ms, h⟩ := h
  rw [h.listed_eq] at hok
  rw [State.got352or4, Table.whoEntry]
  rcases h.ismember_cases r.nick with ⟨hr, hno⟩ | ⟨m, hm, hr, hfold⟩
  · obtain ⟨z, t₁, hnew, hchain, hht⟩ :=
      h.newmember (fun m => { m with split := 0, whoSynced := false }) fun _ => rfl
    rw [hr]
    refine Gives.bind (P := fun p => p = (z.addr, t₁.update z.addr
      fun m => { m with split := 0, whoSynced := false })) ?_ ?_
    · refine Gives.bind (Gives.ok rfl) ?_
      rintro _ rfl
      dsimp only
      rw [hnew]
      exact Gives.ok rfl
    rintro _ rfl
    refine (hchain.enter h.keyed (hht ▸ h.filed)
      (hok.fresh h.keyed (Subset.refl ms) hno)).bind fun t₂ h₂ => Gives.ok ?_
    exact h₂.fill (mem_append_right _ (mem_singleton_self _)) _
  · rw [hr]
    refine Gives.bind (P := fun p => p = (m.addr, s.table)) ?_ ?_
    · refine Gives.bind (Gives.ok rfl) ?_
      rintro _ rfl
      exact Gives.ok rfl
    rintro _ rfl
    refine (h.rewrite hm hfold).bind fun t₂ h₂ => Gives.ok ?_
    exact h₂.fill ((edit_perm h.chain.nodup_ms hm _).mem_iff.2 mem_cons_self) _

theorem gotNames {prefixchars : CStr} {words : List CStr}
    (hok : Good s (.names prefixchars words)) : Gives (s.gotNames prefixchars words) Inv := by
  rw [Good] at hok
  rw [State.gotNames]
  cases hw : words.takeWhile (· ≠ []) with
  | nil => exact Gives.ok h
  | cons w ws =>
    rw [hw] at hok
    have hrun := Gives.run_along (fun s r hs hr => got352or4 hs hr) h hok
    exact hrun.bind fun s' hs' => Gives.ok hs'

theorem endOfWho : Gives s.endOfWho Inv := by
  obtain ⟨ms, h⟩ := h
  rw [State.endOfWho]
  refine Gives.ite (fun _ => ?_) fun _ => Gives.ok ⟨ms, h⟩
  refine h.syncMembers.bind ?_
  rintro t ⟨ms', ht⟩
  have hdedup : t.dedup s.rfc t.listed = .ok t :=
    dedup_of_pairwise (ht.listed_eq.symm ▸ ht.keyed.pairwise)
  rw [hdedup]
  refine Gives.bind (Gives.ok rfl) ?_
  rintro _ rfl
  have hinv : Inv { s with table := t, active := true, pending := false } := ⟨ms', ht⟩
  refine lookup (s := { s with table := t, active := true, pending := false }) ht
    (fun _ => Gives.ok ?_) fun _ _ _ => Gives.ok hinv
  split
  · exact hinv
  · exact hinv.clearChannel true

theorem twitchNames (hok : Good s (.twitchNames nick)) : Gives (s.twitchNames nick) Inv := by
  rw [State.twitchNames]
  refine Gives.ite (fun htwitch => ?_) fun _ => Gives.ok h
  exact (got352or4 (s := { s with pending := true }) h (hok htwitch)).bind fun s' hs' => hs'.endOfWho

theorem gotjoin {origin : CStr} (hok : Good s (.join origin)) : Gives (s.gotjoin origin) Inv := by
  rw [Good] at hok
  rw [State.gotjoin]
  dsimp only
  generalize splitnick (origin.take uhostMax) = p at hok
  obtain ⟨nick, uhost⟩ := p
  refine Gives.ite (fun _ => Gives.ok h) fun hidle => ?_
  refine Gives.ite (fun _ => Gives.ok h.confused) fun hmine => ?_
  rw [not_or, Bool.not_eq_true, Bool.not_eq_true] at hidle
  rw [Decidable.not_and_iff_not_or_not, not_not, not_not] at hmine
  obtain ⟨ms, h⟩ := h
  have hstores : Stores s.rfc ms nick := h.listed_eq ▸ hok ⟨hidle.1, hidle.2, hmine⟩
  -- what is left to do where the nick is not listed
  have hjoined : ∀ {t : Table} {rest : List Member}, Holds s.rfc t rest → rest ⊆ ms →
      (∀ m ∈ rest, istrFold m.nick ≠ istrFold nick) → Gives (s.joined t nick uhost) Inv := by
    intro t rest ht hsub hno
    refine (ht.join (hstores.fresh h.keyed hsub hno) uhost).bind fun t' ht' => Gives.ok ?_
    have hinv : Inv { s with table := t' } := ht'
    split
    · exact hinv.resetChanInfo _ _ _
    · exact hinv
  refine lookup h (fun hno => hjoined h (Subset.refl ms) hno) fun m hm _ => ?_
  dsimp only
  rw [h.chain.deref_eq hm]
  refine Gives.bind (Gives.ok rfl) ?_
  rintro _ rfl
  refine Gives.ite (fun _ => Gives.ok ?_) fun _ => ?_
  · exact ⟨_, h.update hm (f := fun m => { m with split := 0, whoSynced := false })
      fun _ => ⟨rfl, rfl⟩⟩
  · refine (h.killmember nick).bind fun t ht => hjoined ht (filter_subset_self ms) fun x hx => ?_
    exact of_decide_eq_true (mem_filter.1 hx).2

theorem gotpart (origin : CStr) : Gives (s.gotpart origin) Inv := by
  rw [State.gotpart]
  refine Gives.ite (fun _ => Gives.ok h.leave) fun _ => Gives.ite (fun _ => Gives.ok h) fun _ => ?_
  have hs : Inv (if s.active then s else s.confused) := by
    split
    · exact h
    · exact h.confused
  generalize (if s.active then s else s.confused) = s' at hs
  obtain ⟨ms, h⟩ := h
  have hend : ∀ t, (∃ ms, Holds s'.rfc t ms) →
      Inv (if State.matchMyNick { s' with table := t } (splitnick origin).1 then
        State.leave { s' with table := t } else { s' with table := t }) := by
    intro t ht
    have hinv : Inv { s' with table := t } := ht
    split
    · exact hinv.leave
    · exact hinv
  refine lookup h (fun _ => ?_) fun m _ _ => ?_
  · exact Gives.ok (hend _ hs)
  · exact hs.killmember _ hend

theorem gotkick (nick : CStr) : Gives (s.gotkick nick) Inv := by
  rw [State.gotkick]
  refine Gives.ite (fun _ => Gives.ok h.leave) fun _ => ?_
  refine Gives.ite (fun _ => ?_) fun _ => Gives.ok h
  exact Gives.ite (fun _ => Gives.ok h.leave) fun _ => h.killmember nick fun _ ht => ht

theorem gotnick {origin msg : CStr} (hok : Good s (.nick origin msg)) :
    Gives (s.gotnick origin msg) Inv := by
  rw [Good] at hok
  rw [State.gotnick]
  dsimp only
  generalize (splitnick (origin.take uhostMax)).1 = nick at hok
  obtain ⟨ms, h⟩ := h
  rw [h.listed_eq] at hok
  refine lookup h (fun _ => Gives.ok ⟨ms, h⟩) fun m hm hfold => ?_
  obtain hno | ⟨hne, hplain, hfit⟩ := hok
  · have hsame := (h.keyed.caseEq_iff hm nick).2 hfold
    rw [hno m hm] at hsame
    cases hsame
  -- after somebody else with the new nick is gone, it is new to the other members
  have hrename : ∀ {t : Table} {rest : List Member}, Holds s.rfc t rest → m ∈ rest → rest ⊆ ms →
      (∀ x ∈ rest, x ≠ m → istrFold x.nick ≠ istrFold msg) →
      Gives (t.rename m.addr msg >>= fun t => .ok { s with table := t }) Inv := by
    intro t rest ht hmr hsub hno
    refine (ht.rename hmr ⟨hne, hplain, fun x hx hxm => ?_⟩).bind fun t' ht' => Gives.ok ⟨_, ht'⟩
    obtain ⟨hx, hxa⟩ := mem_filter.1 hx
    have hxne : x ≠ m := fun heq => of_decide_eq_true hxa (heq ▸ rfl)
    rcases hfit with hlen | hfree
    · rw [take_of_length_le hlen] at hxm
      exact hno x hx hxne hxm
    · have hsame := hfree x (hsub hx) ((h.keyed.caseEq_iff (hsub hx) _).2 hxm)
      have hxfold := (h.keyed.caseEq_iff (hsub hx) nick).1 hsame
      exact hxne (h.keyed.eq_of_fold (hsub hx) hm (hxfold.trans hfold.symm))
  dsimp only
  by_cases hcap : caseEq s.rfc nick msg = true
  · rw [if_pos hcap]
    refine hrename h hm (Subset.refl ms) fun x hx hxm hxfold => hxm ?_
    exact h.keyed.eq_of_fold hx hm (hxfold.trans ((istrFold_of_caseEq hcap).symm.trans hfold.symm))
  · rw [if_neg hcap]
    refine (h.evict msg).bind fun t ht => hrename ht ?_ (filter_subset_self ms) fun x hx _ => ?_
    · refine mem_filter.2 ⟨hm, decide_eq_true fun hmsg => hcap ?_⟩
      have hplain' : s.rfc = true ∨ isPlain nick = true := (h.keyed.plain m hm).imp_right fun hp => by
        rw [← isPlain_congr (strcaseEq_of_istrFold hp hfold)]
        exact hp
      exact (caseEq_iff hplain').2 (hfold.symm.trans hmsg)
    · exact of_decide_eq_true (mem_filter.1 hx).2

theorem gotquit (origin msg : CStr) (now : ℤ) : Gives (s.gotquit origin msg now) Inv := by
  rw [State.gotquit]
  have hinv := h
  obtain ⟨ms, h⟩ := h
  refine lookup h (fun _ => Gives.ok hinv) fun m hm _ => ?_
  refine Gives.ite (fun _ => Gives.ok ?_) fun _ => hinv.killmember _ fun _ ht => ht
  exact ⟨_, h.update hm (f := fun m => { m with split := now }) fun _ => ⟨rfl, rfl⟩⟩

theorem gotchghost (origin ident host : CStr) : Gives (s.gotchghost origin ident host) Inv := by
  rw [State.gotchghost]
  have hinv := h
  obtain ⟨ms, h⟩ := h
  refine lookup h (fun _ => Gives.ok hinv) fun m hm _ => Gives.ok ?_
  exact ⟨_, h.update hm (f := Member.setUserhost (ident ++ '@' :: host)) fun _ => ⟨rfl, rfl⟩⟩

theorem checkExpired (now waitSplit : ℤ) : Gives (s.checkExpired now waitSplit) Inv := by
  rw [State.checkExpired]
  refine Gives.ite (fun _ => ?_) fun _ => Gives.ok h
  obtain ⟨ms, h⟩ := h
  exact (h.expire now waitSplit _).bind fun t ht => Gives.ok ht

theorem rfcCasecmp {rfc : Bool} (hok : Good s (.rfcCasecmp rfc)) : Inv { s with rfc := rfc } := by
  obtain ⟨ms, h⟩ := h
  rw [Good, h.listed_eq] at hok
  exact ⟨ms, h.chain, ⟨h.keyed.named, h.keyed.fits, fun m hm => hok.imp_right fun hp => hp m hm,
    h.keyed.folds⟩, h.filed⟩

theorem step {e : Event} (hok : Good s e) : Gives (s.step e) Inv := by
  cases e with
  | join origin => exact h.gotjoin hok
  | part origin => exact h.gotpart origin
  | kick nick => exact h.gotkick nick
  | quit origin msg now => exact h.gotquit origin msg now
  | nick origin msg => exact h.gotnick hok
  | chghost origin ident host => exact h.gotchghost origin ident host
  | who r => exact h.got352or4 hok
  | names prefixchars words => exact h.gotNames hok
  | endOfWho => exact h.endOfWho
  | twitchNames nick => exact h.twitchNames hok
  | notOnChannel =>
    refine Gives.ok ?_
    unfold State.notOnChannel
    split
    · exact h
    · exact h.clearChannel true
  | reset who away doReset => exact Gives.ok (h.resetChanInfo who away doReset)
  | checkExpired now waitSplit => exact h.checkExpired now waitSplit
  | setStatus inactive active pending => exact Gives.ok h
  | setBotname nick => exact Gives.ok h
  | rfcCasecmp rfc => exact Gives.ok (h.rfcCasecmp hok)

end Handlers

end Inv

/-! ### What the table answers -/

/-- `ismember` gives what a search through the list finds, the counter is the length of the list, and
no two nicks are equal. -/
structure Consistent (s : State) : Prop where
  ismember : ∀ nick, s.table.ismember nick =
    .ok ((s.table.listed.find? fun m => caseEq s.rfc m.nick nick).map Member.addr)
  members : s.table.members = s.table.listed.length
  distinct : s.table.listed.Pairwise fun m x => caseEq s.rfc m.nick x.nick = false

theorem Inv.consistent (h : Inv s) : Consistent s := by
  obtain ⟨ms, h⟩ := h
  refine ⟨fun nick => ?_, ?_, ?_⟩
  · rw [h.ismember, h.listed_eq, h.keyed.find_eq]
  · rw [h.listed_eq]
    exact h.chain.members
  · rw [h.listed_eq]
    exact h.keyed.pairwise

/-- The hash table answers like a search through the list, and the counter is right. -/
theorem consistent_throughout_members (botname : CStr) (twitch : Bool) (es : List Event)
    (h : Machine.Along State.step Good (.init botname twitch) es) :
    (∃ s, Machine.run State.step (.init botname twitch) es = .ok s) ∧
      Machine.Throughout State.step Consistent (.init botname twitch) es := by
  have hinit : Inv (.init botname twitch) := .init botname twitch
  obtain ⟨s, hs, -⟩ := Gives.run_along (fun _ _ hi hg => Inv.step hi hg) hinit h
  have hinv : Machine.Throughout State.step Inv (.init botname twitch) es := by
    refine Machine.throughout_of_along (fun s e s' hi hg hs => ?_) hinit h
    obtain ⟨t, ht, hinv⟩ := hi.step hg
    rw [hs] at ht
    exact Except.ok.inj ht ▸ hinv
  exact ⟨⟨s, hs⟩, hinv.imp fun _ => Inv.consistent⟩

/-- The bot joins, hears who is there, and sees somebody split off, return, and lose the nick to
somebody else. -/
theorem consistent_throughout_split :
    (∃ s, Machine.run State.step (.init "lamest".toList false)
      [.join "lamest!bot@egg.org".toList, .who ⟨['b'], ['h'], "lamest".toList⟩,
        .names ['@', '+'] ["@foo[!u@h".toList, "Lamest!bot@egg.org".toList], .reset true false false,
        .who ⟨['b'], ['h'], "lamest".toList⟩, .who ⟨['u'], ['h'], "Foo\x7b".toList⟩, .endOfWho,
        .join "bar!u@h".toList, .quit "bar!u@h".toList "a.net b.net".toList 5,
        .join "BAR!u@h".toList, .nick "foo[!u@h".toList "bar".toList, .rfcCasecmp false,
        .kick "Bar".toList, .part "lamest!bot@egg.org".toList] = .ok s) ∧
      Machine.Throughout State.step Consistent (.init "lamest".toList false)
        [.join "lamest!bot@egg.org".toList, .who ⟨['b'], ['h'], "lamest".toList⟩,
          .names ['@', '+'] ["@foo[!u@h".toList, "Lamest!bot@egg.org".toList],
          .reset true false false, .who ⟨['b'], ['h'], "lamest".toList⟩,
          .who ⟨['u'], ['h'], "Foo\x7b".toList⟩, .endOfWho, .join "bar!u@h".toList,
          .quit "bar!u@h".toList "a.net b.net".toList 5, .join "BAR!u@h".toList,
          .nick "foo[!u@h".toList "bar".toList, .rfcCasecmp false, .kick "Bar".toList,
          .part "lamest!bot@egg.org".toList] :=
  consistent_throughout_members "lamest".toList false _ (by decide +kernel)

/-- A nick that does not fit is not found again, and listed twice.  `strcasecmp` is not asked where
the hash table has found somebody else, so that a nick change frees the member it is for.  And a member
without a nick is counted but not listed. -/
theorem not_consistent_long_nick :
    (¬ Machine.Throughout State.step Consistent (.init "lamest".toList false)
      [.setStatus false true false, .join (List.replicate 33 'a' ++ "!u@h".toList),
        .join (List.replicate 33 'a' ++ "!u@h".toList)]) ∧
    (¬ Machine.Throughout State.step Consistent (.init "lamest".toList false)
      [.setStatus false true false, .rfcCasecmp false, .join "foo[!u@h".toList]) ∧
    (¬ Machine.Throughout State.step Consistent (.init "lamest".toList false)
      [.setStatus false true false, .join "irc.egg.org".toList]) ∧
    Machine.run State.step (.init "lamest".toList false)
      [.setStatus false true false, .rfcCasecmp false, .join "foo[!u@h".toList,
        .nick "foo[!u@h".toList "foo\x7b".toList] = .error .useAfterFree := by
  refine ⟨fun h => ?_, fun h => ?_, fun h => ?_, rfl⟩
  · obtain ⟨s, hrun, hs⟩ : Gives (Machine.run State.step (.init "lamest".toList false)
        [.setStatus false true false, .join (List.replicate 33 'a' ++ "!u@h".toList),
          .join (List.replicate 33 'a' ++ "!u@h".toList)]) fun s =>
        (!decide (s.table.listed.Pairwise fun m x => caseEq s.rfc m.nick x.nick = false)) = true :=
      Gives.of_any (by decide +kernel)
    have hdistinct := (h.last hrun).distinct
    rw [decide_eq_true hdistinct] at hs
    cases hs
  · have hrun : ∃ s, Machine.run State.step (.init "lamest".toList false)
        [.setStatus false true false, .rfcCasecmp false, .join "foo[!u@h".toList] = .ok s ∧
        s.table.ismember "foo\x7b".toList = .ok (some 0) ∧
        (s.table.listed.find? fun m => caseEq s.rfc m.nick "foo\x7b".toList) = none :=
      ⟨_, rfl, by decide +kernel⟩
    obtain ⟨s, hs, hismember, hnone⟩ := hrun
    have heq := (h.last hs).ismember "foo\x7b".toList
    rw [hismember, hnone] at heq
    cases heq
  · obtain ⟨s, hrun, hs⟩ : Gives (Machine.run State.step (.init "lamest".toList false)
        [.setStatus false true false, .join "irc.egg.org".toList]) fun s =>
        (!decide (s.table.members = s.table.listed.length)) = true :=
      Gives.of_any (by decide +kernel)
    rw [decide_eq_true (h.last hrun).members] at hs
    cases hs

end Eggdrop.Members
