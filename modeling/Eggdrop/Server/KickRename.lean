import Eggdrop.Server.Msgq

/-!
# KickRename — a change of nick in the kicks that wait

`check_queues` takes the list of nicks of each kick apart and puts it together again.  A nick that
matches is written behind the new one, not in its place, and one that does not match starts the list
anew, so the only kicks that come out right are those that stay as they are.

* `overNicks_eq_foldl`: a pass over a list of nicks is a fold over its entries.
* `renameNicks_unchanged_iff`: when the pass changes nothing.
* `not_renamed_of_changed`: once something is changed, the list is not the one asked for.
* `checkQueues_renamed_iff`: so a queue is renamed as it should where each kick has to stay.
-/

namespace Eggdrop.Msgq

/-! ### The entries of a list of nicks -/

/-- The nicks of a list, each with what follows it. -/
def entries (nicks : CStr) : List (CStr × CStr) :=
  overNicks (fun l nick rest => l ++ [(nick, rest)]) nicks.length [] nicks

section Entries

variable {β : Type} {f : β → (nick rest : CStr) → β} {b : β} {n m : Nat} {s nicks : CStr}
  {e : CStr × CStr}

theorem length_splitnicks (hne : s ≠ []) : (splitnicks s).2.length < s.length := by
  have hpos : 0 < s.length := List.length_pos_iff.2 hne
  have hle : (s.dropWhile (· ≠ ',')).length ≤ s.length := List.length_dropWhile_le _ _
  show ((s.dropWhile (· ≠ ',')).drop 1).length < s.length
  rw [List.length_drop]
  omega

theorem overNicks_fuel (hn : s.length ≤ n) (hm : s.length ≤ m) :
    overNicks f n b s = overNicks f m b s := by
  induction n generalizing m b s with
  | zero =>
    obtain rfl : s = [] := List.length_eq_zero_iff.1 (by omega)
    cases m <;> rfl
  | succ n ih =>
    by_cases hs : s = []
    · subst hs
      cases m <;> rfl
    have hlt := length_splitnicks hs
    have hpos : 0 < s.length := List.length_pos_iff.2 hs
    obtain ⟨m, rfl⟩ : ∃ k, m = k + 1 := ⟨m - 1, by omega⟩
    rw [overNicks, overNicks, if_neg hs, if_neg hs]
    exact ih (by omega) (by omega)

theorem overNicks_snoc (n : Nat) (l : List (CStr × CStr)) (s : CStr) :
    overNicks (fun l nick rest => l ++ [(nick, rest)]) n l s =
      l ++ overNicks (fun l nick rest => l ++ [(nick, rest)]) n [] s := by
  induction n generalizing l s with
  | zero => rw [overNicks, overNicks, List.append_nil]
  | succ n ih =>
    rw [overNicks, overNicks]
    split
    · rw [List.append_nil]
    · rw [ih (l ++ _), ih ([] ++ _), List.append_assoc, List.nil_append]

theorem entries_of_ne (hne : s ≠ []) : entries s = splitnicks s :: entries (splitnicks s).2 := by
  have hlt := length_splitnicks hne
  have hpos : 0 < s.length := List.length_pos_iff.2 hne
  rw [entries, overNicks_fuel (m := s.length - 1 + 1) le_rfl (by omega), overNicks, if_neg hne,
    overNicks_snoc, entries, overNicks_fuel (m := s.length - 1) le_rfl (by omega)]
  rfl

theorem overNicks_eq_foldl (b : β) (s : CStr) :
    overNicks f s.length b s = (entries s).foldl (fun b e => f b e.1 e.2) b := by
  induction hk : s.length using Nat.strong_induction_on generalizing b s with
  | _ k ih =>
    subst hk
    by_cases hne : s = []
    · subst hne
      rfl
    have hlt := length_splitnicks hne
    have hpos : 0 < s.length := List.length_pos_iff.2 hne
    rw [overNicks_fuel (m := s.length - 1 + 1) le_rfl (by omega), overNicks, if_neg hne,
      overNicks_fuel (m := (splitnicks s).2.length) (by omega) le_rfl, entries_of_ne hne,
      List.foldl_cons]
    exact ih _ hlt _ _ rfl

theorem foldl_snoc (l : List CStr) (es : List (CStr × CStr)) :
    es.foldl (fun l e => l ++ [e.1]) l = l ++ es.map Prod.fst := by
  induction es generalizing l with
  | nil => simp
  | cons e es ih => simp [ih]

theorem nickList_eq (s : CStr) : nickList s = (entries s).map Prod.fst := by
  rw [nickList, overNicks_eq_foldl]
  exact foldl_snoc [] (entries s)

theorem clean_of_mem_entries (he : e ∈ entries s) : ',' ∉ e.1 ∧ (' ' ∉ s → ' ' ∉ e.1) := by
  induction hk : s.length using Nat.strong_induction_on generalizing s with
  | _ k ih =>
    subst hk
    by_cases hne : s = []
    · subst hne
      cases he
    rw [entries_of_ne hne, List.mem_cons] at he
    obtain rfl | he := he
    · refine ⟨fun hc => ?_, fun hs hb => hs (List.takeWhile_subset _ hb)⟩
      simpa using List.mem_takeWhile_imp hc
    · obtain ⟨hcomma, hblank⟩ := ih _ (length_splitnicks hne) he rfl
      exact ⟨hcomma, fun hs => hblank fun hb =>
        hs ((List.dropWhile_suffix _).subset (List.mem_of_mem_drop hb))⟩

theorem ne_comma {a : CStr} (hcomma : ',' ∉ a) : ∀ c ∈ a, decide (c ≠ ',') = true :=
  fun _ hc => decide_eq_true fun h => hcomma (h ▸ hc)

theorem splitnicks_word {a : CStr} (hcomma : ',' ∉ a) : splitnicks a = (a, []) := by
  rw [splitnicks, List.takeWhile_eq_self_iff.2 (ne_comma hcomma),
    List.dropWhile_eq_nil_iff.2 (ne_comma hcomma), List.drop_nil]

theorem splitnicks_append {a : CStr} (hcomma : ',' ∉ a) (s : CStr) :
    splitnicks (a ++ ',' :: s) = (a, s) := by
  rw [splitnicks, List.takeWhile_append_of_pos (ne_comma hcomma),
    List.dropWhile_append_of_pos (ne_comma hcomma), List.takeWhile_cons_of_neg (by simp),
    List.dropWhile_cons_of_neg (by simp), List.append_nil]
  rfl

theorem nickList_word {a : CStr} (hcomma : ',' ∉ a) : nickList a = if a = [] then [] else [a] := by
  split
  · rename_i ha
    subst ha
    rfl
  · rename_i ha
    rw [nickList_eq, entries_of_ne ha, splitnicks_word hcomma]
    rfl

theorem nickList_cons {a : CStr} (hcomma : ',' ∉ a) (s : CStr) :
    nickList (a ++ ',' :: s) = a :: nickList s := by
  rw [nickList_eq, entries_of_ne (by simp), splitnicks_append hcomma, nickList_eq]
  rfl

theorem nickList_commaed {l : List CStr} (hl : ∀ a ∈ l, ',' ∉ a) :
    nickList ((commaed l).drop 1) = l ∨ (nickList ((commaed l).drop 1)).length < l.length := by
  match l with
  | [] => exact .inl rfl
  | [a] =>
    have ha : (commaed [a]).drop 1 = a := by simp [commaed]
    rw [ha, nickList_word (hl a (by simp))]
    split
    · exact .inr (by simp)
    · exact .inl rfl
  | a :: b :: l =>
    have ha : (commaed (a :: b :: l)).drop 1 = a ++ ',' :: (commaed (b :: l)).drop 1 := by
      simp [commaed]
    rw [ha, nickList_cons (hl a (by simp))]
    obtain h | h := nickList_commaed (l := b :: l) fun c hc => hl c (by simp [List.mem_cons.1 hc])
    · exact .inl (by rw [h])
    · exact .inr (by simpa using h)

end Entries

/-! ### The pass over one kick -/

/-- The guard of `parse_q`: the new nick still goes into the line. -/
def HasRoom (newnick : CStr) (kick : Kick) (newnicks rest : CStr) : Prop :=
  9 + kick.chan.length + newnicks.length + newnick.length + rest.length + kick.reason.length <
    sendLineMax - 1

instance (newnick : CStr) (kick : Kick) (newnicks rest : CStr) :
    Decidable (HasRoom newnick kick newnicks rest) :=
  inferInstanceAs (Decidable (_ < _))

/-- The list while nothing is changed: each nick starts it anew. -/
def lastListed (before : List (CStr × CStr)) : CStr :=
  (before.getLast?.map fun e => ',' :: e.1).getD []

/-- The pass changes nothing: no entry matches the old nick while there is room. -/
def Untouched (oldnick newnick : CStr) (kick : Kick) : Prop :=
  ∀ before e after, entries kick.nicks = before ++ e :: after → strcaseEq e.1 oldnick = true →
    ¬ HasRoom newnick kick (lastListed before) e.2

section Pass

variable {oldnick newnick : CStr} {kick : Kick} {before es : List (CStr × CStr)} {e : CStr × CStr}

/-- What the loop does with one nick. -/
def renameEntry (oldnick newnick : CStr) (kick : Kick) (acc : CStr × Bool) (e : CStr × CStr) :
    CStr × Bool :=
  if strcaseEq e.1 oldnick ∧ HasRoom newnick kick acc.1 e.2 then
    (acc.1 ++ ',' :: newnick ++ e.1, true)
  else (',' :: e.1, acc.2)

theorem renameNicks_eq (oldnick newnick : CStr) (kick : Kick) :
    renameNicks oldnick newnick kick =
      (entries kick.nicks).foldl (renameEntry oldnick newnick kick) ([], false) :=
  overNicks_eq_foldl ([], false) kick.nicks

theorem lastListed_snoc (before : List (CStr × CStr)) (e : CStr × CStr) :
    lastListed (before ++ [e]) = ',' :: e.1 := by
  rw [lastListed, List.getLast?_append]
  rfl

theorem foldl_renameEntry_true {acc : CStr × Bool} (hacc : acc.2 = true) :
    (es.foldl (renameEntry oldnick newnick kick) acc).2 = true := by
  induction es generalizing acc with
  | nil => exact hacc
  | cons e es ih =>
    refine ih ?_
    unfold renameEntry
    split
    · rfl
    · exact hacc

theorem foldl_renameEntry_false_iff :
    (es.foldl (renameEntry oldnick newnick kick) (lastListed before, false)).2 = false ↔
      ∀ mid e after, es = mid ++ e :: after → strcaseEq e.1 oldnick = true →
        ¬ HasRoom newnick kick (lastListed (before ++ mid)) e.2 := by
  induction es generalizing before with
  | nil => simp
  | cons e es ih =>
    rw [List.foldl_cons]
    by_cases hmatch : strcaseEq e.1 oldnick = true ∧ HasRoom newnick kick (lastListed before) e.2
    · -- a match with room is a change for good
      rw [renameEntry, if_pos hmatch]
      refine iff_of_false ?_ ?_
      · rw [foldl_renameEntry_true rfl]
        exact Bool.noConfusion
      · intro h
        exact h [] e es rfl hmatch.1 (by simpa using hmatch.2)
    · rw [renameEntry, if_neg hmatch, ← lastListed_snoc before e, ih]
      constructor
      · intro h mid e' after hsplit
        match mid with
        | [] =>
          obtain ⟨rfl, rfl⟩ := List.cons.inj hsplit
          rw [List.append_nil]
          exact fun hold hroom => hmatch ⟨hold, hroom⟩
        | d :: mid =>
          obtain ⟨rfl, rfl⟩ := List.cons.inj hsplit
          simpa using h mid e' after rfl
      · intro h mid e' after hsplit
        simpa using h (e :: mid) e' after (by rw [hsplit]; rfl)

theorem renameNicks_unchanged_iff :
    (renameNicks oldnick newnick kick).2 = false ↔ Untouched oldnick newnick kick := by
  rw [renameNicks_eq]
  exact @foldl_renameEntry_false_iff oldnick newnick kick [] (entries kick.nicks)

theorem exists_match_of_changed (h : (renameNicks oldnick newnick kick).2 = true) :
    ∃ e ∈ entries kick.nicks, strcaseEq e.1 oldnick = true := by
  by_contra hnone
  have hfalse : (renameNicks oldnick newnick kick).2 = false := by
    rw [renameNicks_unchanged_iff]
    intro before e after hsplit hold
    exact absurd ⟨e, by simp [hsplit], hold⟩ hnone
  rw [hfalse] at h
  cases h

end Pass

/-- The nick that a nick of a kick becomes. -/
def renamed (oldnick newnick nick : CStr) : CStr := if strcaseEq nick oldnick then newnick else nick

section Changed

variable {oldnick newnick : CStr} {kick : Kick} {es done : List (CStr × CStr)} {acc : CStr × Bool}

/-- The list in the pass over the entries `done`: nicks with a comma before each, and once something
is changed they are not those asked for. -/
structure Listed (oldnick newnick : CStr) (done : List (CStr × CStr)) (acc : CStr × Bool)
    (l : List CStr) : Prop where
  text : acc.1 = commaed l
  length : l.length ≤ done.length
  clean : ∀ a ∈ l, ∀ c ∈ a, c ∈ newnick ∨ ∃ e ∈ done, c ∈ e.1
  differs : acc.2 = true → done ≠ [] ∧ l ≠ done.map fun e => renamed oldnick newnick e.1

theorem Listed.step {l : List CStr} (h : Listed oldnick newnick done acc l) (hold : oldnick ≠ [])
    (kick : Kick) (e : CStr × CStr) :
    ∃ l', Listed oldnick newnick (done ++ [e]) (renameEntry oldnick newnick kick acc e) l' := by
  unfold renameEntry
  split
  · rename_i hmatch
    refine ⟨l ++ [newnick ++ e.1], ?_, ?_, ?_, ?_⟩
    · simp [h.text, commaed]
    · simpa using h.length
    · intro a ha c hc
      obtain ha | ha := List.mem_append.1 ha
      · obtain hnew | ⟨d, hd, hcd⟩ := h.clean a ha c hc
        · exact .inl hnew
        · exact .inr ⟨d, by simp [hd], hcd⟩
      · obtain rfl := List.mem_singleton.1 ha
        obtain hnew | he := List.mem_append.1 hc
        · exact .inl hnew
        · exact .inr ⟨e, by simp, he⟩
    · -- the old nick stands behind the new one
      refine fun _ => ⟨by simp, fun heq => ?_⟩
      have hlast : newnick ++ e.1 = renamed oldnick newnick e.1 := by
        simpa using congrArg List.getLast? heq
      rw [renamed, if_pos hmatch.1, List.append_right_eq_self] at hlast
      have hmap := strcaseEq_iff.1 hmatch.1
      rw [hlast, List.map_nil, eq_comm, List.map_eq_nil_iff] at hmap
      exact hold hmap
  · refine ⟨[e.1], ?_, ?_, ?_, ?_⟩
    · simp [commaed]
    · simp
    · intro a ha c hc
      obtain rfl := List.mem_singleton.1 ha
      exact .inr ⟨e, by simp, hc⟩
    · -- the list starts anew, and something came before
      intro hchanged
      obtain ⟨hne, -⟩ := h.differs hchanged
      refine ⟨by simp, fun heq => ?_⟩
      have hlen := congrArg List.length heq
      have hpos : 0 < done.length := List.length_pos_iff.2 hne
      simp only [List.length_map, List.length_append, List.length_singleton] at hlen
      omega

theorem Listed.run {l : List CStr} (h : Listed oldnick newnick done acc l) (hold : oldnick ≠ [])
    (es : List (CStr × CStr)) :
    ∃ l', Listed oldnick newnick (done ++ es) (es.foldl (renameEntry oldnick newnick kick) acc)
      l' := by
  induction es generalizing done acc l with
  | nil => exact ⟨l, by simpa using h⟩
  | cons e es ih =>
    obtain ⟨l₁, h₁⟩ := h.step hold kick e
    simpa using ih h₁

theorem listed_renameNicks (hold : oldnick ≠ []) (newnick : CStr) (kick : Kick) :
    ∃ l, Listed oldnick newnick (entries kick.nicks) (renameNicks oldnick newnick kick) l := by
  have hstart : Listed oldnick newnick [] ([], false) [] :=
    ⟨rfl, le_rfl, fun _ ha => (List.not_mem_nil ha).elim, Bool.noConfusion⟩
  rw [renameNicks_eq]
  exact hstart.run hold (entries kick.nicks)

end Changed

/-! ### A queue after a change of nick -/

/-- What a change of nick should make of a message: in a kick each entry that is the old nick becomes
the new one, with everything else as it was; other messages stay. -/
def Renamed (oldnick newnick msg msg' : CStr) : Prop :=
  if hasPrefix "KICK " msg = true then
    hasPrefix "KICK " msg' = true ∧ (parseKick msg').chan = (parseKick msg).chan ∧
      (parseKick msg').reason = (parseKick msg).reason ∧
      nickList (parseKick msg').nicks =
        (nickList (parseKick msg).nicks).map (renamed oldnick newnick)
  else msg' = msg

/-- The same for all messages of the queues, each in its place. -/
def QueuesRenamed (oldnick newnick : CStr) (st st' : State) : Prop :=
  ∀ which, List.Forall₂ (fun c c' : Nat × CStr => c'.1 = c.1 ∧ Renamed oldnick newnick c.2 c'.2)
    (st.queue which).cells (st'.queue which).cells

/-- The condition on a kick: an entry that is the old nick is spelt like the new one already, and
there is no room to change it. -/
def Kept (oldnick newnick : CStr) (kick : Kick) : Prop :=
  ∀ before e after, entries kick.nicks = before ++ e :: after → strcaseEq e.1 oldnick = true →
    e.1 = newnick ∧ ¬ HasRoom newnick kick (lastListed before) e.2

section Renaming

variable {oldnick newnick msg : CStr} {kick : Kick} {st : State} {t : Moment}

theorem map_renamed_eq_self_iff {l : List CStr} :
    l.map (renamed oldnick newnick) = l ↔
      ∀ a ∈ l, strcaseEq a oldnick = true → a = newnick := by
  have hid : l.map (renamed oldnick newnick) = l ↔ l.map (renamed oldnick newnick) = l.map id := by
    rw [List.map_id]
  rw [hid, List.map_inj_left]
  refine forall₂_congr fun a _ => ?_
  show (if strcaseEq a oldnick = true then newnick else a) = a ↔ _
  split
  · rename_i h
    exact ⟨fun heq _ => heq.symm, fun heq => (heq h).symm⟩
  · rename_i h
    exact iff_of_true rfl fun h' => absurd h' h

theorem map_renamed_nickList (s : CStr) : (nickList s).map (renamed oldnick newnick) =
    (entries s).map fun e => renamed oldnick newnick e.1 := by
  rw [nickList_eq, List.map_map]
  rfl

theorem kept_iff : Kept oldnick newnick kick ↔
    Untouched oldnick newnick kick ∧
      (nickList kick.nicks).map (renamed oldnick newnick) = nickList kick.nicks := by
  rw [map_renamed_eq_self_iff, nickList_eq]
  constructor
  · intro h
    refine ⟨fun before e after hsplit hold => (h before e after hsplit hold).2, ?_⟩
    intro a ha hold
    obtain ⟨e, he, rfl⟩ := List.mem_map.1 ha
    obtain ⟨before, after, hsplit⟩ := List.append_of_mem he
    exact (h before e after hsplit hold).1
  · rintro ⟨huntouched, hsame⟩ before e after hsplit hold
    refine ⟨hsame e.1 (List.mem_map_of_mem ?_) hold, huntouched before e after hsplit hold⟩
    rw [hsplit]
    simp

theorem parseKick_kickLine {chan newnicks : CStr} (hchan : chan ≠ []) (hblank : ' ' ∉ chan)
    (hnicks : ' ' ∉ newnicks.drop 1) (reason : CStr) :
    (parseKick (kickLine chan newnicks reason)).chan = chan ∧
      (newnicks.drop 1 ≠ [] →
        parseKick (kickLine chan newnicks reason) = ⟨chan, newnicks.drop 1, reason⟩) ∧
      (newnicks.drop 1 = [] →
        parseKick (kickLine chan newnicks reason) = ⟨chan, (newsplit reason).1, (newsplit reason).2⟩) := by
  have hkick : newsplit (kickLine chan newnicks reason) =
      ("KICK".toList, chan ++ ' ' :: (newnicks.drop 1 ++ ' ' :: reason)) := by
    have hline : kickLine chan newnicks reason =
        "KICK".toList ++ ' ' :: (chan ++ ' ' :: (newnicks.drop 1 ++ ' ' :: reason)) := by
      have hword : "KICK ".toList = "KICK".toList ++ [' '] := by decide
      show "KICK ".toList ++ chan ++ ' ' :: newnicks.drop 1 ++ ' ' :: reason = _
      rw [hword]
      simp only [List.append_assoc, List.cons_append, List.nil_append]
    rw [hline, newsplit_word _ (by decide) (by decide)]
  have hparse : parseKick (kickLine chan newnicks reason) =
      ⟨chan, (newsplit (newnicks.drop 1 ++ ' ' :: reason)).1,
        (newsplit (newnicks.drop 1 ++ ' ' :: reason)).2⟩ := by
    rw [parseKick, hkick]
    dsimp only
    rw [newsplit_word _ hchan hblank]
  rw [hparse]
  refine ⟨rfl, fun hne => ?_, fun hnil => ?_⟩
  · rw [newsplit_word _ hne hnicks]
  · rw [hnil, List.nil_append, newsplit_blank]

theorem not_renamed_of_changed (hold : oldnick ≠ []) (hkick : hasPrefix "KICK " msg = true)
    (hchanged : (renameNicks oldnick newnick (parseKick msg)).2 = true) :
    ¬ Renamed oldnick newnick msg (kickLine (parseKick msg).chan
      (renameNicks oldnick newnick (parseKick msg)).1 (parseKick msg).reason) := by
  obtain ⟨l, htext, hlength, hclean, hdiffers⟩ := listed_renameNicks hold newnick (parseKick msg)
  obtain ⟨hne, hl⟩ := hdiffers hchanged
  rw [Renamed, if_pos hkick]
  rintro ⟨-, -, hreason, hnicks⟩
  rw [map_renamed_nickList] at hnicks
  have hblank : ' ' ∉ (parseKick msg).nicks := space_notMem_newsplit _
  have hchan : (parseKick msg).chan ≠ [] := by
    intro hnil
    have hrest : (newsplit (newsplit msg).2).2 = [] := newsplit_nil_of_fst hnil
    refine hne ?_
    show entries (newsplit (newsplit (newsplit msg).2).2).1 = []
    rw [hrest]
    rfl
  -- the new nick is in a list that is read, so it has no comma and no blank
  have hnew : ',' ∉ newnick ∧ ' ' ∉ newnick := by
    obtain ⟨e, he, hmatch⟩ := exists_match_of_changed hchanged
    have hmem := List.mem_map_of_mem (f := fun e => renamed oldnick newnick e.1) he
    rw [← hnicks, nickList_eq, renamed, if_pos hmatch] at hmem
    obtain ⟨e, he, rfl⟩ := List.mem_map.1 hmem
    obtain ⟨hcomma, hspace⟩ := clean_of_mem_entries he
    exact ⟨hcomma, hspace (space_notMem_newsplit _)⟩
  have hcommas : ∀ a ∈ l, ',' ∉ a := by
    intro a ha hc
    obtain h | ⟨e, he, hce⟩ := hclean a ha _ hc
    · exact hnew.1 h
    · exact (clean_of_mem_entries he).1 hce
  have hblanks : ' ' ∉ (commaed l).drop 1 := by
    intro hc
    obtain ⟨a, ha, hc⟩ := List.mem_flatMap.1 (List.mem_of_mem_drop hc)
    obtain h | ⟨e, he, hce⟩ := hclean a ha _ (List.mem_of_ne_of_mem (by decide) hc)
    · exact hnew.2 h
    · exact (clean_of_mem_entries he).2 hblank hce
  rw [← htext] at hblanks
  obtain ⟨-, hread, hempty⟩ := parseKick_kickLine hchan (space_notMem_newsplit _) hblanks
    (parseKick msg).reason
  by_cases hnil : (renameNicks oldnick newnick (parseKick msg)).1.drop 1 = []
  · -- no nick is left, so the first word of the reason is read as the list
    rw [hempty hnil] at hreason hnicks
    dsimp only at hreason hnicks
    by_cases hword : (newsplit (parseKick msg).reason).1 = []
    · rw [hword] at hnicks
      exact hne (List.map_eq_nil_iff.1 hnicks.symm)
    · have hlt := length_newsplit hword
      rw [hreason] at hlt
      exact hlt.false
  · rw [hread hnil, htext] at hnicks
    dsimp only at hnicks
    obtain h | h := nickList_commaed hcommas
    · exact hl (h.symm.trans hnicks)
    · rw [hnicks, List.length_map] at h
      omega

theorem renamed_self_iff : Renamed oldnick newnick msg msg ↔
    (hasPrefix "KICK " msg = true → (nickList (parseKick msg).nicks).map (renamed oldnick newnick) =
      nickList (parseKick msg).nicks) := by
  unfold Renamed
  split
  · rename_i hkick
    exact ⟨fun h _ => h.2.2.2.symm, fun h => ⟨hkick, rfl, rfl, (h hkick).symm⟩⟩
  · rename_i hkick
    exact iff_of_true rfl fun h => absurd h hkick

/-- A message is renamed as it should exactly where it has to stay. -/
theorem renamed_renameKick_iff (hold : oldnick ≠ []) :
    Renamed oldnick newnick msg ((renameKick oldnick newnick msg).getD msg) ↔
      (hasPrefix "KICK " msg = true → Kept oldnick newnick (parseKick msg)) := by
  by_cases hkick : hasPrefix "KICK " msg = true
  · rw [kept_iff, ← renameNicks_unchanged_iff]
    cases hchanged : (renameNicks oldnick newnick (parseKick msg)).2 with
    | false =>
      have hstay : renameKick oldnick newnick msg = some msg := by
        rw [renameKick, if_pos hkick]
        dsimp only
        rw [hchanged, if_pos Bool.noConfusion]
      rw [hstay, Option.getD_some, renamed_self_iff]
      simp only [true_and]
    | true =>
      have hnot := not_renamed_of_changed hold hkick hchanged
      have hsome := renameKick_isSome oldnick newnick msg
      refine iff_of_false ?_ fun h => Bool.noConfusion (h hkick).1
      rw [renameKick, if_pos hkick] at hsome ⊢
      dsimp only at hsome ⊢
      rw [hchanged, if_neg (by simp)] at hsome ⊢
      split at hsome
      · cases hsome
      · rename_i hne
        rw [if_neg hne]
        exact hnot
  · have hstay : renameKick oldnick newnick msg = some msg := by
      rw [renameKick, if_neg hkick]
    rw [hstay, Option.getD_some, renamed_self_iff]
    exact iff_of_true (fun h => absurd h hkick) fun h => absurd h hkick

theorem cells_parseQ (st : State) (which which' : Which) :
    ((st.parseQ oldnick newnick which).queue which').cells =
      if which' = which then
        (st.queue which).cells.map fun c => (c.1, (renameKick oldnick newnick c.2).getD c.2)
      else (st.queue which').cells := by
  unfold State.parseQ
  dsimp only
  split
  · rename_i h
    subst h
    rw [queue_setQueue]
    exact TailQueue.sweep_eq_map (renameKick_isSome oldnick newnick) _
  · rename_i h
    rw [queue_setQueue_of_ne _ _ h]

theorem cells_checkQueues (h2 : t.cfg.optimizeKicks = 2) (which : Which) :
    ((st.checkQueues t oldnick newnick).queue which).cells =
      (st.queue which).cells.map fun c => (c.1, (renameKick oldnick newnick c.2).getD c.2) := by
  rw [State.checkQueues, if_pos h2]
  cases which <;> simp [cells_parseQ]

/-- Kicks are renamed as they should exactly where they have to stay. -/
theorem checkQueues_renamed_iff (st : State) (t : Moment) (oldnick newnick : CStr)
    (h2 : t.cfg.optimizeKicks = 2) (hold : oldnick ≠ []) :
    QueuesRenamed oldnick newnick st (st.checkQueues t oldnick newnick) ↔
      ∀ which, ∀ c ∈ (st.queue which).cells, hasPrefix "KICK " c.2 = true →
        Kept oldnick newnick (parseKick c.2) := by
  refine forall_congr' fun which => ?_
  rw [cells_checkQueues h2, List.forall₂_map_right_iff, List.forall₂_same]
  refine forall₂_congr fun c _ => ?_
  simp only [true_and]
  exact renamed_renameKick_iff hold

theorem kept_of_no_match
    (h : ∀ nick ∈ nickList kick.nicks, strcaseEq nick oldnick = false) :
    Kept oldnick newnick kick := by
  intro before e after hsplit hold
  rw [h e.1 (by simp [nickList_eq, hsplit])] at hold
  cases hold

end Renaming

/-! ### A kick that waits -/

/-- Kicks are kept up to date, and one waits. -/
def late : Moment := { evening with cfg := { evening.cfg with optimizeKicks := 2 } }

def waiting : State := { State.start with mq := ⟨[(0, "KICK #c joe,ann :out".toList)], some 0, 1⟩ }

theorem checkQueues_renamed_other :
    late.cfg.optimizeKicks = 2 ∧ "bob".toList ≠ [] ∧
      QueuesRenamed "bob".toList "rob".toList waiting
        (waiting.checkQueues late "bob".toList "rob".toList) := by
  have h2 : late.cfg.optimizeKicks = 2 := rfl
  have hold : "bob".toList ≠ [] := by decide
  refine ⟨h2, hold, (checkQueues_renamed_iff waiting late "bob".toList "rob".toList h2 hold).2 ?_⟩
  have hall : ∀ which, ∀ c ∈ (waiting.queue which).cells, ∀ nick ∈ nickList (parseKick c.2).nicks,
      strcaseEq nick "bob".toList = false := by
    intro which
    cases which <;> decide +kernel
  exact fun which c hc _ => kept_of_no_match (hall which c hc)

/-- The nick that changes comes out behind the new one, and the one after it alone is left. -/
theorem not_checkQueues_renamed :
    ¬ ∀ (st : State) (t : Moment) (oldnick newnick : CStr), t.cfg.optimizeKicks = 2 →
      oldnick ≠ [] → QueuesRenamed oldnick newnick st (st.checkQueues t oldnick newnick) := by
  intro h
  have hrun : ((waiting.checkQueues late "joe".toList "jim".toList).queue .server).cells =
      [(0, "KICK #c ann :out".toList)] := by
    decide +kernel
  have hserver := h waiting late "joe".toList "jim".toList rfl (by decide) .server
  rw [hrun] at hserver
  obtain ⟨-, hrenamed⟩ := (List.forall₂_cons.1 hserver).1
  rw [Renamed, if_pos (by decide)] at hrenamed
  exact absurd hrenamed.2.2.2 (by decide)

end Eggdrop.Msgq
