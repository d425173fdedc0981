import Eggdrop.Channels.ChansetTables

/-!
# ChansetLookup — when the tables and the list agree

* `linked_run`: no run reads a channel that is gone.
* `Clear`: no two display names are folded alike, and while `strcasecmp` compares, all names are
  plain.
* `Consistent`: what a lookup should give, and that no two display names are equal.
* `consistent_throughout`: so it is, as long as long names are not cut off to one that is there and
  names that are not plain stay away from `strcasecmp`.
-/

namespace Eggdrop.Chanset

open List

variable {s s' : State} {c : Chan} {chname : CStr} {rejoin : Bool}

/-! ### Any run -/

theorem Linked.readChannels (h : Linked s) (reload : Bool) (lines : List Line) :
    Gives (s.readChannels reload lines) Linked := by
  have hstart : Linked (if reload then s.flagAll else s) := by
    by_cases hr : reload
    · rw [if_pos hr]
      exact (h.relabel (g := fun c => { c with flagged := true }) fun _ => ⟨rfl, rfl, rfl⟩).1
    · rw [if_neg hr]
      exact h
  have hrun : Gives (Machine.run (State.channelAdd · true) (if reload then s.flagAll else s) lines)
      Linked :=
    Gives.run (fun t l ht => (ht.channelAdd true l).mono fun _ => And.left) hstart lines
  refine hrun.bind fun t ht => Gives.ite (fun _ => ?_) fun _ => Gives.ok ht
  exact (ht.sweep ht.nodup fun _ hc => hc).mono fun _ => And.left

theorem Linked.step (h : Linked s) (e : Event) : Gives (step s e) Linked := by
  cases e with
  | add l => exact (h.channelAdd false l).mono fun _ => And.left
  | remove name => exact (h.remove name).mono fun _ => And.left
  | readChannels reload lines => exact h.readChannels reload lines
  | join chname rejoin => exact (h.gotjoin chname rejoin).mono fun _ => And.left
  | setStatus a inactive pending =>
    exact Gives.ok (h.update (f := fun c => { c with inactive := inactive, pending := pending })
      (fun _ => ⟨rfl, rfl, rfl⟩) a).1
  | rfcCasecmp rfc => exact Gives.ok ⟨h.nodup, h.young, h.byName, h.byDname⟩

theorem linked_run (es : List Event) : Gives (Machine.run step init es) Linked :=
  Gives.run (fun _ e hs => hs.step e) Linked.init es

/-! ### Names that the tables and the comparison take for the same -/

/-- The tables see different display names, and where `strcasecmp` compares, so does it. -/
structure Clear (s : State) : Prop where
  distinct : (s.chanset.map fun c => istrFold c.dname).Nodup
  plain : s.rfc = false → ∀ c ∈ s.chanset, isPlain c.dname = true ∧ isPlain c.name = true

theorem sameName_refl (s : State) (a : CStr) : s.sameName a a = true := by
  unfold State.sameName
  split
  · exact rfcCaseEq_refl a
  · exact strcaseEq_refl a

/-- Where the first name is plain, or RFC 1459 compares. -/
theorem sameName_iff {a b : CStr} (h : s.rfc = false → isPlain a = true) :
    s.sameName a b = true ↔ istrFold a = istrFold b := by
  refine ⟨istrFold_of_sameName, fun hfold => ?_⟩
  unfold State.sameName
  by_cases hrfc : s.rfc
  · rw [if_pos hrfc]
    exact istrFold_eq_iff_rfc.1 hfold
  · rw [if_neg hrfc]
    exact strcaseEq_of_istrFold (h (by simpa using hrfc)) hfold

namespace Clear

theorem init : Clear init := ⟨nodup_nil, nofun⟩

theorem sheds (h : Clear s) (hs : Sheds s s') : Clear s' := by
  refine ⟨?_, fun hrfc c hc => ?_⟩
  · have hsub := hs.names.map fun p => istrFold p.1
    rw [map_map, map_map] at hsub
    exact h.distinct.sublist hsub
  · obtain ⟨d, hd, heq⟩ := mem_map.1 (hs.names.subset (mem_map_of_mem hc))
    obtain ⟨hdn, hn⟩ := Prod.mk.inj heq
    rw [← hdn, ← hn]
    exact h.plain (hs.rfc ▸ hrfc) d hd

theorem sameDname_iff (h : Clear s) (hc : c ∈ s.chanset) (name : CStr) :
    s.sameName c.dname name = true ↔ istrFold c.dname = istrFold name :=
  sameName_iff fun hrfc => (h.plain hrfc c hc).1

theorem sameName_iff (h : Clear s) (hc : c ∈ s.chanset) (name : CStr) :
    s.sameName c.name name = true ↔ istrFold c.name = istrFold name :=
  Chanset.sameName_iff fun hrfc => (h.plain hrfc c hc).2

end Clear

/-- What is added fits into its buffer or is not cut off to a display name that is there; and it is
plain, if `strcasecmp` compares. -/
def LineOk (hack : Bool) (s : State) (l : Line) : Prop :=
  l.rejected = true ∨ ¬ (l.modifyOk ∨ hack) ∨
    ((l.newname.length ≤ channelLen ∨
      ∀ c ∈ s.chanset, s.sameName c.dname (l.newname.take channelLen) = false) ∧
    (s.rfc = true ∨ isPlain (l.newname.take channelLen) = true))

/-- The server's name of a channel that is joined is plain, if `strcasecmp` compares. -/
def JoinOk (s : State) (chname : CStr) (rejoin : Bool) : Prop :=
  s.rfc = true ∨ isPlain (chname.take channelLen) = true ∨
    ∀ c ∈ s.chanset, s.sameName c.dname (State.chDname chname) = true →
      (c.inactive ∨ c.pending ∨ rejoin)

/-- Names are plain when `strcasecmp` is to compare them. -/
def RuleOk (s : State) (rfc : Bool) : Prop :=
  rfc = true ∨ ∀ c ∈ s.chanset, isPlain c.dname = true ∧ isPlain c.name = true

/-- What a step needs. -/
def Good (s : State) : Event → Prop
  | .add l => LineOk false s l
  | .readChannels reload lines =>
    Machine.Along (State.channelAdd · true) (LineOk true) (if reload then s.flagAll else s) lines
  | .join chname rejoin => JoinOk s chname rejoin
  | .rfcCasecmp rfc => RuleOk s rfc
  | .remove _ | .setStatus _ _ _ => True

instance (hack : Bool) (s : State) (l : Line) : Decidable (LineOk hack s l) := by
  unfold LineOk
  infer_instance

instance (s : State) (chname : CStr) (rejoin : Bool) : Decidable (JoinOk s chname rejoin) := by
  unfold JoinOk
  infer_instance

instance (s : State) (rfc : Bool) : Decidable (RuleOk s rfc) := by
  unfold RuleOk
  infer_instance

instance (s : State) : ∀ e, Decidable (Good s e)
  | .add l => inferInstanceAs (Decidable (LineOk false s l))
  | .readChannels reload lines => inferInstanceAs (Decidable (Machine.Along
      (State.channelAdd · true) (LineOk true) (if reload then s.flagAll else s) lines))
  | .join chname rejoin => inferInstanceAs (Decidable (JoinOk s chname rejoin))
  | .rfcCasecmp rfc => inferInstanceAs (Decidable (RuleOk s rfc))
  | .remove _ | .setStatus _ _ _ => isTrue trivial

/-- The invariant of the runs whose steps are good. -/
structure Inv (s : State) : Prop where
  linked : Linked s
  clear : Clear s

namespace Inv

variable (h : Inv s)

include h

theorem channelAdd {hack : Bool} {l : Line} (hok : LineOk hack s l) :
    Gives (s.channelAdd hack l) Inv := by
  by_cases hrej : l.rejected
  · rw [State.channelAdd, if_pos hrej]
    exact Gives.ok h
  refine (h.linked.channelAdd hack l).mono ?_
  rintro s' ⟨hl, hshed | ⟨hmod, hno, hshed⟩⟩
  · exact ⟨hl, h.clear.sheds hshed⟩
  obtain hrej' | hmod' | ⟨hfit, hplain⟩ := hok
  · exact absurd hrej' hrej
  · exact absurd hmod hmod'
  -- the name in the buffer is not folded to one that is there
  have hnew : ∀ c ∈ s.chanset, istrFold c.dname ≠ istrFold (l.newname.take channelLen) := by
    intro c hc hfold
    have hsame := (h.clear.sameDname_iff hc _).2 hfold
    rcases hfit with hlen | hfree
    · rw [take_of_length_le hlen, hno c hc] at hsame
      cases hsame
    · rw [hfree c hc] at hsame
      cases hsame
  have hclear : Clear { s with chanset := s.chanset ++ [s.newChan l.newname] } := by
    refine ⟨?_, fun hrfc c hc => ?_⟩
    · rw [map_append, nodup_append]
      refine ⟨h.clear.distinct, nodup_singleton _, ?_⟩
      intro f hf g hg
      obtain ⟨c, hc, rfl⟩ := mem_map.1 hf
      obtain rfl := mem_singleton.1 hg
      exact hnew c hc
    · rcases mem_append.1 hc with hc | hc
      · exact h.clear.plain hrfc c hc
      · obtain rfl := mem_singleton.1 hc
        refine ⟨hplain.resolve_left fun hr => ?_, rfl⟩
        rw [show s.rfc = false from hrfc] at hr
        cases hr
  exact ⟨hl, hclear.sheds hshed⟩

theorem gotjoin {chname : CStr} {rejoin : Bool} (hok : JoinOk s chname rejoin) :
    Gives (s.gotjoin chname rejoin) Inv := by
  refine (h.linked.gotjoin chname rejoin).mono ?_
  rintro s' ⟨hl, hshed | ⟨⟨c, hc, hgo, hname⟩, hrfc', a, hchanset⟩⟩
  · exact ⟨hl, h.clear.sheds hshed⟩
  have hplain : s.rfc = false → isPlain (chname.take channelLen) = true := by
    intro hrfc
    have htake : isPlain chname = true → isPlain (chname.take channelLen) = true := fun hp =>
      all_eq_true.2 fun x hx => all_eq_true.1 hp x (mem_of_mem_take hx)
    obtain hr | hp | hnone := hok
    · rw [hrfc] at hr
      cases hr
    · exact hp
    · rcases hname with hfold | hfold
      · -- then it is the display name of a channel, up to case
        refine htake ?_
        rw [← isPlain_congr (strcaseEq_of_istrFold (h.clear.plain hrfc c hc).1 hfold)]
        exact (h.clear.plain hrfc c hc).1
      · exact absurd (hnone c hc ((h.clear.sameDname_iff hc _).2 hfold)) hgo
  refine ⟨hl, ?_, fun hrfc d hd => ?_⟩
  · have hdnames : (s'.chanset.map fun c => istrFold c.dname) =
        s.chanset.map fun c => istrFold c.dname := by
      rw [hchanset, State.setName, State.update, map_map]
      refine map_congr_left fun d _ => ?_
      by_cases hd : d.addr = a
      · simp [hd, Chan.setName]
      · simp [hd]
    rw [hdnames]
    exact h.clear.distinct
  · rw [hrfc'] at hrfc
    rw [hchanset] at hd
    obtain ⟨e, he, rfl⟩ := mem_map.1 hd
    by_cases hea : e.addr = a
    · rw [if_pos hea]
      exact ⟨(h.clear.plain hrfc e he).1, hplain hrfc⟩
    · rw [if_neg hea]
      exact h.clear.plain hrfc e he

theorem rfcCasecmp {rfc : Bool} (hok : RuleOk s rfc) : Inv { s with rfc := rfc } := by
  refine ⟨⟨h.linked.nodup, h.linked.young, h.linked.byName, h.linked.byDname⟩, h.clear.distinct,
    fun hrfc => hok.resolve_left fun hr => ?_⟩
  rw [show rfc = false from hrfc] at hr
  cases hr

theorem readChannels {reload : Bool} {lines : List Line}
    (hok : Machine.Along (State.channelAdd · true) (LineOk true)
      (if reload then s.flagAll else s) lines) : Gives (s.readChannels reload lines) Inv := by
  have hstart : Inv (if reload then s.flagAll else s) := by
    by_cases hr : reload
    · obtain ⟨hl, hshed⟩ := h.linked.relabel (g := fun c => { c with flagged := true })
        fun _ => ⟨rfl, rfl, rfl⟩
      rw [if_pos hr]
      exact ⟨hl, h.clear.sheds hshed⟩
    · rw [if_neg hr]
      exact h
  have hrun := Gives.run_along (fun t l ht htl => ht.channelAdd htl) hstart hok
  refine hrun.bind fun t ht => Gives.ite (fun _ => ?_) fun _ => Gives.ok ht
  refine (ht.linked.sweep ht.linked.nodup fun _ hc => hc).mono ?_
  rintro t' ⟨hl, hshed⟩
  exact ⟨hl, ht.clear.sheds hshed⟩

theorem step {e : Event} (hok : Good s e) : Gives (step s e) Inv := by
  cases e with
  | add l => exact h.channelAdd hok
  | remove name =>
    refine (h.linked.remove name).mono ?_
    rintro s' ⟨hl, hshed⟩
    exact ⟨hl, h.clear.sheds hshed⟩
  | readChannels reload lines => exact h.readChannels hok
  | join chname rejoin => exact h.gotjoin hok
  | setStatus a inactive pending =>
    obtain ⟨hl, hshed⟩ := h.linked.update
      (f := fun c => { c with inactive := inactive, pending := pending })
      (fun _ => ⟨rfl, rfl, rfl⟩) a
    exact Gives.ok ⟨hl, h.clear.sheds hshed⟩
  | rfcCasecmp rfc => exact Gives.ok (h.rfcCasecmp hok)

end Inv

/-! ### What lookups give -/

/-- A lookup gives a listed channel whose name equals the one it looks for, or none where no listed
channel has such a name. -/
def FindsBy (s : State) (field : Chan → CStr) (find : CStr → Except Fault (Option ℕ)) : Prop :=
  ∀ name, (∃ c ∈ s.chanset, find name = .ok (some c.addr) ∧ s.sameName (field c) name = true) ∨
    (find name = .ok none ∧ ∀ c ∈ s.chanset, s.sameName (field c) name = false)

structure Consistent (s : State) : Prop where
  findchan : FindsBy s Chan.name s.findchan
  findchanByDname : FindsBy s Chan.dname s.findchanByDname
  distinct : s.chanset.Pairwise fun c d => s.sameName c.dname d.dname = false

theorem Inv.consistent (h : Inv s) : Consistent s := by
  refine ⟨fun name => ?_, fun name => ?_, ?_⟩
  · obtain ⟨_, hr, ⟨c, hc, rfl, hfold⟩ | ⟨rfl, hno⟩⟩ := h.linked.findchan name
    · exact .inl ⟨c, hc, hr, (h.clear.sameName_iff hc name).2 hfold⟩
    · exact .inr ⟨hr, hno⟩
  · obtain ⟨_, hr, ⟨c, hc, rfl, hfold⟩ | ⟨rfl, hno⟩⟩ := h.linked.findchanByDname name
    · exact .inl ⟨c, hc, hr, (h.clear.sameDname_iff hc name).2 hfold⟩
    · exact .inr ⟨hr, hno⟩
  · refine (pairwise_map.1 h.clear.distinct).imp_of_mem fun {c d} hc _ hne => ?_
    rw [Bool.eq_false_iff]
    exact fun hsame => hne ((h.clear.sameDname_iff hc _).1 hsame)

/-- The tables answer like a search through the list, and no two display names are equal. -/
theorem consistent_throughout (es : List Event) (h : Machine.Along step Good init es) :
    (∃ s, Machine.run step init es = .ok s) ∧ Machine.Throughout step Consistent init es := by
  have hinit : Inv init := ⟨Linked.init, Clear.init⟩
  obtain ⟨s, hs, -⟩ := Gives.run_along (fun _ _ hi hg => Inv.step hi hg) hinit h
  have hinv : Machine.Throughout step Inv init es := by
    refine Machine.throughout_of_along (fun s e s' hi hg hs => ?_) hinit h
    obtain ⟨t, ht, hinv⟩ := hi.step hg
    rw [hs] at ht
    exact Except.ok.inj ht ▸ hinv
  exact ⟨⟨s, hs⟩, hinv.imp fun _ => Inv.consistent⟩

/-- A channel with a unique name is joined, another one added by a rehash, and the comparison
changes. -/
theorem consistent_throughout_join :
    (∃ s, Machine.run step init
      [.add ⟨"!eggs".toList, true, true, false⟩, .join "!ABCDEeggs".toList false,
        .readChannels true [⟨"!Eggs".toList, true, true, false⟩, ⟨"#lamest".toList, true, false, false⟩],
        .rfcCasecmp false, .add ⟨"#a[".toList, true, false, false⟩, .remove "!EGGS".toList] = .ok s) ∧
      Machine.Throughout step Consistent init
        [.add ⟨"!eggs".toList, true, true, false⟩, .join "!ABCDEeggs".toList false,
          .readChannels true
            [⟨"!Eggs".toList, true, true, false⟩, ⟨"#lamest".toList, true, false, false⟩],
          .rfcCasecmp false, .add ⟨"#a[".toList, true, false, false⟩, .remove "!EGGS".toList] :=
  consistent_throughout _ (by decide +kernel)

/-- A name that does not fit is not found again: added twice, it is there twice.  And `strcasecmp`
is not asked where the tables have found a name of another channel. -/
theorem not_consistent_long_name :
    (¬ Machine.Throughout step Consistent init
      [.add ⟨'#' :: List.replicate 200 'a', true, true, false⟩,
        .add ⟨'#' :: List.replicate 200 'a', true, true, false⟩]) ∧
    ¬ Machine.Throughout step Consistent init
      [.rfcCasecmp false, .add ⟨['#', 'a', '['], true, true, false⟩] := by
  refine ⟨fun h => ?_, fun h => ?_⟩
  · obtain ⟨s, hrun, hs⟩ : Gives (Machine.run step init
        [.add ⟨'#' :: List.replicate 200 'a', true, true, false⟩,
          .add ⟨'#' :: List.replicate 200 'a', true, true, false⟩]) fun s =>
        (s.chanset.map Chan.dname ==
          List.replicate 2 (List.take channelLen ('#' :: List.replicate 200 'a'))) = true :=
      Gives.of_any (by decide +kernel)
    have hpair : (s.chanset.map Chan.dname).Pairwise fun a b => s.sameName a b = false :=
      pairwise_map.2 (h.last hrun).distinct
    rw [beq_iff_eq.1 hs, replicate_succ, pairwise_cons] at hpair
    have hself := hpair.1 _ (mem_replicate.2 ⟨Nat.one_ne_zero, rfl⟩)
    rw [sameName_refl] at hself
    cases hself
  · have hrun : ∃ s, Machine.run step init
        [.rfcCasecmp false, .add ⟨['#', 'a', '['], true, true, false⟩] = .ok s ∧
        s.findchanByDname ['#', 'a', '\x7b'] = .ok (some 0) ∧
        ∀ c ∈ s.chanset, s.sameName c.dname ['#', 'a', '\x7b'] = false :=
      ⟨_, rfl, by decide +kernel⟩
    obtain ⟨s, hs, hfind, hno⟩ := hrun
    rcases (h.last hs).findchanByDname ['#', 'a', '\x7b'] with ⟨c, hc, -, hsame⟩ | ⟨hnone, -⟩
    · rw [hno c hc] at hsame
      cases hsame
    · rw [hfind] at hnone
      cases hnone

end Eggdrop.Chanset
