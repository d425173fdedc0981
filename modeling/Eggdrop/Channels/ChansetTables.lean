import Eggdrop.Channels.Chanset
import Eggdrop.Lib.Ensures

/-!
# ChansetTables — the two tables follow the channel list

* `Linked`: what a slot points at is a listed channel with the name the slot is for.
* `Linked.findchan`: a lookup finds such a channel, or there is none with an equal name.
* `Linked.channelAdd`, `Linked.removeChannel`, `Linked.gotjoin` and their like: so it stays, and
  which names there are then.
-/

namespace Eggdrop.Chanset

open List

/-- The names that the server has, where they are known. -/
def State.names (s : State) : List (ℕ × CStr) :=
  (s.chanset.filter (·.name ≠ [])).map fun c => (c.addr, c.name)

def State.dnames (s : State) : List (ℕ × CStr) := s.chanset.map fun c => (c.addr, c.dname)

/-- The addresses are different ones, and the tables point at listed channels. -/
structure Linked (s : State) : Prop where
  nodup : (s.chanset.map Chan.addr).Nodup
  young : ∀ c ∈ s.chanset, c.addr < s.next
  byName : Htab.Points istrHash istrFold s.names s.byName
  byDname : Htab.Points istrHash istrFold s.dnames s.byDname

/-- No name is in `s'` that is not in `s`. -/
structure Sheds (s s' : State) : Prop where
  rfc : s'.rfc = s.rfc
  names : (s'.chanset.map fun c => (c.dname, c.name)).Sublist
    (s.chanset.map fun c => (c.dname, c.name))

theorem Sheds.refl (s : State) : Sheds s s := ⟨rfl, Sublist.refl _⟩

theorem Sheds.trans {s s' s'' : State} (h : Sheds s s') (h' : Sheds s' s'') : Sheds s s'' :=
  ⟨h'.rfc.trans h.rfc, h'.names.trans h.names⟩

variable {s s' : State} {c d : Chan} {a : ℕ} {name : CStr}

theorem Linked.init : Linked init := ⟨nodup_nil, by simp [Chanset.init], .nil, .nil⟩

theorem istrFold_of_sameName {a b : CStr} (h : s.sameName a b = true) :
    istrFold a = istrFold b := by
  unfold State.sameName at h
  split at h
  · exact istrFold_eq_iff_rfc.2 h
  · exact istrFold_of_strcaseEq h

theorem unheld_nil (s : State) :
    Htab.Unheld istrHash istrFold s.names s.byName (istrFold []) := by
  rintro t - ⟨-, ⟨p, hp, -, hfold⟩, -⟩
  obtain ⟨c, hc, rfl⟩ := mem_map.1 hp
  have hne : c.name ≠ [] := by simpa using (mem_filter.1 hc).2
  exact hne (by simpa [istrFold] using hfold)

/-- The answer to a lookup of a name: a channel whose name is folded alike, or none where no name
compares equal. -/
def Found (s : State) (field : Chan → CStr) (name : CStr) (r : Option ℕ) : Prop :=
  (∃ c ∈ s.chanset, r = some c.addr ∧ istrFold (field c) = istrFold name) ∨
    (r = none ∧ ∀ c ∈ s.chanset, s.sameName (field c) name = false)

theorem found_lookup {field : Chan → CStr} {read : ℕ → Option CStr} {recs : List (ℕ × CStr)}
    {slots : List Slot} (hp : Htab.Points istrHash istrFold recs slots)
    (hread : Htab.Reads read recs) (hnd : (recs.map Prod.fst).Nodup)
    (hrecs : ∀ r ∈ recs, ∃ c ∈ s.chanset, r = (c.addr, field c)) (name : CStr) :
    Gives (orFreed (Htab.get istrHash istrFold read slots name)) fun r =>
      Found s field name (r.or (s.scan field name)) := by
  rcases hp.get_spec hread hnd name with ⟨hget, -⟩ | ⟨q, hq, hget, hfold⟩
  · rw [hget]
    refine Gives.ok ?_
    rw [Option.none_or, State.scan]
    cases hf : s.chanset.find? fun c => s.sameName (field c) name with
    | none =>
      rw [find?_eq_none] at hf
      exact .inr ⟨rfl, fun c hc => by simpa using hf c hc⟩
    | some c =>
      have hsame : s.sameName (field c) name = true := by simpa using find?_some hf
      exact .inl ⟨c, mem_of_find?_eq_some hf, rfl, istrFold_of_sameName hsame⟩
  · rw [hget]
    obtain ⟨c, hc, rfl⟩ := hrecs q hq
    exact Gives.ok (.inl ⟨c, hc, rfl, hfold⟩)

namespace Linked

variable (h : Linked s)

include h

theorem find_addr (hc : c ∈ s.chanset) : s.chanset.find? (·.addr = c.addr) = some c := by
  cases hf : s.chanset.find? (·.addr = c.addr) with
  | none =>
    rw [find?_eq_none] at hf
    have := hf c hc
    simp at this
  | some d =>
    have haddr : d.addr = c.addr := by simpa using find?_some hf
    rw [inj_on_of_nodup_map h.nodup (mem_of_find?_eq_some hf) hc haddr]

theorem deref_eq (hc : c ∈ s.chanset) : s.deref c.addr = .ok c := by
  rw [State.deref, h.find_addr hc]
  rfl

theorem reads_names : Htab.Reads s.nameAt s.names := by
  rintro r hr
  obtain ⟨c, hc, rfl⟩ := mem_map.1 hr
  rw [State.nameAt, h.find_addr (mem_filter.1 hc).1]
  rfl

theorem reads_dnames : Htab.Reads s.dnameAt s.dnames := by
  rintro r hr
  obtain ⟨c, hc, rfl⟩ := mem_map.1 hr
  rw [State.dnameAt, h.find_addr hc]
  rfl

theorem nodup_names : (s.names.map Prod.fst).Nodup := by
  rw [State.names, map_map]
  exact h.nodup.sublist (filter_sublist.map Chan.addr)

theorem nodup_dnames : (s.dnames.map Prod.fst).Nodup := by
  rw [State.dnames, map_map]
  exact h.nodup

theorem findchan (name : CStr) : Gives (s.findchan name) (Found s Chan.name name) := by
  have hrecs : ∀ r ∈ s.names, ∃ c ∈ s.chanset, r = (c.addr, c.name) := by
    rintro r hr
    obtain ⟨c, hc, rfl⟩ := mem_map.1 hr
    exact ⟨c, (mem_filter.1 hc).1, rfl⟩
  exact (found_lookup h.byName h.reads_names h.nodup_names hrecs name).bind fun _ hr => Gives.ok hr

theorem findchanByDname (name : CStr) :
    Gives (s.findchanByDname name) (Found s Chan.dname name) := by
  have hrecs : ∀ r ∈ s.dnames, ∃ c ∈ s.chanset, r = (c.addr, c.dname) := by
    rintro r hr
    obtain ⟨c, hc, rfl⟩ := mem_map.1 hr
    exact ⟨c, hc, rfl⟩
  exact (found_lookup h.byDname h.reads_dnames h.nodup_dnames hrecs name).bind
    fun _ hr => Gives.ok hr

/-! ### The tables change -/

theorem chanHtabAdd (hc : c ∈ s.chanset) :
    Gives (s.chanHtabAdd c) fun s' =>
      (∃ n d, s' = { s with byName := n, byDname := d }) ∧ Linked s' := by
  have hd : (c.addr, c.dname) ∈ s.dnames := mem_map_of_mem hc
  obtain ⟨d, hsetd, hpd⟩ := h.byDname.set h.reads_dnames h.nodup_dnames hd
  rw [State.chanHtabAdd, hsetd]
  refine Gives.bind (Gives.ok rfl) ?_
  rintro _ rfl
  by_cases hname : c.name = []
  · rw [if_pos hname]
    exact Gives.ok ⟨⟨_, _, rfl⟩, h.nodup, h.young, h.byName, hpd⟩
  · have hn : (c.addr, c.name) ∈ s.names :=
      mem_map.2 ⟨c, mem_filter.2 ⟨hc, by simpa using hname⟩, rfl⟩
    obtain ⟨n, hsetn, hpn⟩ := h.byName.set h.reads_names h.nodup_names hn
    rw [if_neg hname, hsetn]
    exact Gives.ok ⟨⟨_, _, rfl⟩, h.nodup, h.young, hpn, hpd⟩

theorem chanHtabDel (c : Chan) :
    Gives (s.chanHtabDel c) fun s' =>
      (∃ n d, s' = { s with byName := n, byDname := d }) ∧ Linked s' ∧
        Htab.Unheld istrHash istrFold s.names s'.byName (istrFold c.name) ∧
        Htab.Unheld istrHash istrFold s.dnames s'.byDname (istrFold c.dname) := by
  obtain ⟨d, hdeld, hpd, hnod, -⟩ := h.byDname.del h.reads_dnames h.nodup_dnames c.dname
  rw [State.chanHtabDel, hdeld]
  refine Gives.bind (Gives.ok rfl) ?_
  rintro _ rfl
  by_cases hname : c.name = []
  · rw [if_pos hname, hname]
    exact Gives.ok ⟨⟨_, _, rfl⟩, ⟨h.nodup, h.young, h.byName, hpd⟩, unheld_nil s, hnod⟩
  · obtain ⟨n, hdeln, hpn, hnon, -⟩ := h.byName.del h.reads_names h.nodup_names c.name
    rw [if_neg hname, hdeln]
    exact Gives.ok ⟨⟨_, _, rfl⟩, ⟨h.nodup, h.young, hpn, hpd⟩, hnon, hnod⟩

theorem relist (hc : c ∈ s.chanset)
    (hname : Htab.Unheld istrHash istrFold s.names s.byName (istrFold c.name))
    (hdname : Htab.Unheld istrHash istrFold s.dnames s.byDname (istrFold c.dname))
    {chanset : List Chan} (hnd : (chanset.map Chan.addr).Nodup)
    (hyoung : ∀ d ∈ chanset, d.addr < s.next)
    (hkeep : ∀ d ∈ s.chanset, d.addr ≠ c.addr → d ∈ chanset) :
    Linked { s with chanset := chanset } := by
  have hother : ∀ d ∈ s.chanset, d ≠ c → d.addr ≠ c.addr := fun d hd hne haddr =>
    hne (inj_on_of_nodup_map h.nodup hd hc haddr)
  have hnames : ((State.names { s with chanset := chanset }).map Prod.fst).Nodup := by
    rw [State.names, map_map]
    exact hnd.sublist (filter_sublist.map Chan.addr)
  have hdnames : ((State.dnames { s with chanset := chanset }).map Prod.fst).Nodup := by
    rw [State.dnames, map_map]
    exact hnd
  refine ⟨hnd, hyoung, (h.byName.transfer hnames fun f hheld r hr hf => ?_).1,
    (h.byDname.transfer hdnames fun f hheld r hr hf => ?_).1⟩
  · obtain ⟨d, hd, rfl⟩ := mem_map.1 hr
    have hne : d ≠ c := by
      rintro rfl
      exact hheld (hf ▸ hname)
    obtain ⟨hd, hdn⟩ := mem_filter.1 hd
    exact mem_map.2 ⟨d, mem_filter.2 ⟨hkeep d hd (hother d hd hne), hdn⟩, rfl⟩
  · obtain ⟨d, hd, rfl⟩ := mem_map.1 hr
    have hne : d ≠ c := by
      rintro rfl
      exact hheld (hf ▸ hdname)
    exact mem_map.2 ⟨d, hkeep d hd (hother d hd hne), rfl⟩

theorem relabel {g : Chan → Chan}
    (hg : ∀ c, (g c).addr = c.addr ∧ (g c).dname = c.dname ∧ (g c).name = c.name) :
    Linked { s with chanset := s.chanset.map g } ∧ Sheds s { s with chanset := s.chanset.map g } := by
  have hnames : State.names { s with chanset := s.chanset.map g } = s.names := by
    simp only [State.names, filter_map, map_map, Function.comp_def, hg]
  have hdnames : State.dnames { s with chanset := s.chanset.map g } = s.dnames := by
    simp only [State.dnames, map_map, Function.comp_def, hg]
  refine ⟨⟨?_, ?_, by rw [hnames]; exact h.byName, by rw [hdnames]; exact h.byDname⟩, rfl, ?_⟩
  · rw [map_map]
    exact (map_congr_left fun c _ => (hg c).1).symm ▸ h.nodup
  · intro c hc
    obtain ⟨d, hd, rfl⟩ := mem_map.1 hc
    rw [(hg d).1]
    exact h.young d hd
  · simp only [map_map, Function.comp_def, hg]
    exact Sublist.refl _

theorem update {f : Chan → Chan}
    (hf : ∀ c, (f c).addr = c.addr ∧ (f c).dname = c.dname ∧ (f c).name = c.name) (a : ℕ) :
    Linked (s.update a f) ∧ Sheds s (s.update a f) := by
  refine h.relabel fun c => ?_
  by_cases hc : c.addr = a
  · rw [if_pos hc]
    exact hf c
  · rw [if_neg hc]
    exact ⟨rfl, rfl, rfl⟩

theorem removeChannel (hc : c ∈ s.chanset) :
    Gives (s.removeChannel c.addr) fun s' => Linked s' ∧ s'.rfc = s.rfc ∧
      s'.chanset = s.chanset.filter (·.addr ≠ c.addr) := by
  rw [State.removeChannel, h.deref_eq hc]
  refine (h.chanHtabDel c).bind ?_
  rintro _ ⟨⟨n, d, rfl⟩, h', hname, hdname⟩
  refine Gives.ok ⟨h'.relist hc hname hdname ?_ ?_ ?_, rfl, rfl⟩
  · exact h.nodup.sublist (filter_sublist.map Chan.addr)
  · exact fun d hd => h.young d (mem_filter.1 hd).1
  · exact fun d hd hne => mem_filter.2 ⟨hd, by simpa using hne⟩

theorem modify (hc : c ∈ s.chanset) (hack : Bool) (l : Line) :
    Gives (s.modify hack l c.addr) fun s' => Linked s' ∧ Sheds s s' ∧
      ((l.modifyOk ∨ hack) ∨
        Sheds { s with chanset := s.chanset.filter (·.addr ≠ c.addr) } s') := by
  obtain ⟨h₁, hshed⟩ := h.update (f := fun c => { c with inactive := l.inactive })
    (fun _ => ⟨rfl, rfl, rfl⟩) c.addr
  rw [State.modify]
  refine Gives.ite (fun hok => Gives.ok ⟨h₁, hshed, .inl hok⟩) fun _ => ?_
  have hmem : ({ c with inactive := l.inactive } : Chan) ∈
      (s.update c.addr fun c => { c with inactive := l.inactive }).chanset :=
    mem_map.2 ⟨c, hc, if_pos rfl⟩
  refine (h₁.removeChannel hmem).mono ?_
  rintro s' ⟨h', hrfc, hchanset⟩
  refine ⟨h', hshed.trans ⟨hrfc, ?_⟩, .inr ⟨hrfc, ?_⟩⟩
  · rw [hchanset]
    exact filter_sublist.map _
  · have hkeep : ∀ d ∈ s.chanset.filter (·.addr ≠ c.addr),
        (if d.addr = c.addr then { d with inactive := l.inactive } else d) = d := by
      intro d hd
      exact if_neg (by simpa using (mem_filter.1 hd).2)
    have hfilter : s'.chanset = s.chanset.filter (·.addr ≠ c.addr) := by
      rw [hchanset, State.update, filter_map]
      have hsame : ((fun d : Chan => decide (d.addr ≠ c.addr)) ∘ fun d : Chan =>
          if d.addr = c.addr then { d with inactive := l.inactive } else d) =
          fun d => decide (d.addr ≠ c.addr) := by
        funext d
        by_cases hd : d.addr = c.addr
        · simp [hd]
        · simp [hd]
      rw [hsame, map_congr_left hkeep]
      exact map_id _
    rw [hfilter]

/-! ### Channels come -/

theorem append (newname : CStr) :
    Linked { s with chanset := s.chanset ++ [s.newChan newname], next := s.next + 1 } := by
  have hnd : ((s.chanset ++ [s.newChan newname]).map Chan.addr).Nodup := by
    rw [map_append, nodup_append]
    refine ⟨h.nodup, nodup_singleton _, ?_⟩
    intro a ha b hb
    obtain ⟨c, hc, rfl⟩ := mem_map.1 ha
    obtain rfl : b = s.next := by simpa [State.newChan] using hb
    exact (h.young c hc).ne
  refine ⟨hnd, ?_, ?_, ?_⟩
  · intro c hc
    rcases mem_append.1 hc with hc | hc
    · exact (h.young c hc).trans s.next.lt_succ_self
    · obtain rfl := mem_singleton.1 hc
      exact s.next.lt_succ_self
  · have hnames : State.names { s with
        chanset := s.chanset ++ [s.newChan newname], next := s.next + 1 } = s.names := by
      simp [State.names, State.newChan]
    rw [hnames]
    exact h.byName
  · have hdnames : State.dnames { s with
        chanset := s.chanset ++ [s.newChan newname], next := s.next + 1 } =
        s.dnames ++ [(s.next, newname.take channelLen)] := by
      simp [State.dnames, State.newChan]
    rw [hdnames]
    refine (h.byDname.transfer ?_ fun f _ r hr _ => mem_append_left _ hr).1
    rw [State.dnames, map_append, map_map]
    simpa [State.newChan, Function.comp_def] using hnd

theorem channelAdd (hack : Bool) (l : Line) :
    Gives (s.channelAdd hack l) fun s' => Linked s' ∧
      (Sheds s s' ∨ ((l.modifyOk ∨ hack) ∧
        (∀ c ∈ s.chanset, s.sameName c.dname l.newname = false) ∧
        Sheds { s with chanset := s.chanset ++ [s.newChan l.newname] } s')) := by
  rw [State.channelAdd]
  refine Gives.ite (fun _ => Gives.ok ⟨h, .inl (.refl s)⟩) fun _ => ?_
  refine (h.findchanByDname l.newname).bind ?_
  rintro r (⟨c, hc, rfl, -⟩ | ⟨rfl, hno⟩)
  · obtain ⟨h₁, hshed⟩ := h.update (f := fun c => { c with flagged := false })
      (fun _ => ⟨rfl, rfl, rfl⟩) c.addr
    have hmem : ({ c with flagged := false } : Chan) ∈
        (s.update c.addr fun c => { c with flagged := false }).chanset :=
      mem_map.2 ⟨c, hc, if_pos rfl⟩
    refine (h₁.modify hmem hack l).mono ?_
    rintro s' ⟨h', hshed', -⟩
    exact ⟨h', .inl (hshed.trans hshed')⟩
  · refine ((h.append l.newname).chanHtabAdd (mem_append_right _ (mem_singleton_self _))).bind ?_
    rintro _ ⟨⟨n, d, rfl⟩, h₁⟩
    refine (h₁.modify (mem_append_right _ (mem_singleton_self _)) hack l).mono ?_
    rintro s' ⟨h', hshed, hok | hgone⟩
    · exact ⟨h', .inr ⟨hok, hno, hshed.rfc, hshed.names⟩⟩
    · refine ⟨h', .inl ⟨hgone.rfc, hgone.names.trans ?_⟩⟩
      have hold : (s.chanset ++ [s.newChan l.newname]).filter (·.addr ≠ s.next) = s.chanset := by
        rw [filter_append, filter_eq_self.2 fun c hc => by simpa using (h.young c hc).ne]
        simp [State.newChan]
      exact (congrArg (map fun c => (c.dname, c.name)) hold) ▸ Sublist.refl _

/-! ### Channels go -/

theorem remove (name : CStr) :
    Gives (s.remove name) fun s' => Linked s' ∧ Sheds s s' := by
  refine (h.findchanByDname name).bind ?_
  rintro r (⟨c, hc, rfl, -⟩ | ⟨rfl, -⟩)
  · refine (h.removeChannel hc).mono ?_
    rintro s' ⟨h', hrfc, hchanset⟩
    refine ⟨h', hrfc, ?_⟩
    rw [hchanset]
    exact filter_sublist.map _
  · exact Gives.ok ⟨h, .refl s⟩

end Linked

theorem Linked.sweep (h : Linked s) {cs : List Chan} (hnd : (cs.map Chan.addr).Nodup)
    (hcs : ∀ c ∈ cs, c ∈ s.chanset) :
    Gives (State.sweep cs s) fun s' => Linked s' ∧ Sheds s s' := by
  induction cs generalizing s with
  | nil => exact Gives.ok ⟨h, .refl s⟩
  | cons c cs ih =>
    obtain ⟨hc, hcs⟩ := forall_mem_cons.1 hcs
    obtain ⟨hcnd, hnd⟩ := nodup_cons.1 hnd
    rw [State.sweep]
    by_cases hflag : c.flagged
    · rw [if_pos hflag]
      refine (h.removeChannel hc).bind ?_
      rintro s' ⟨h', hrfc, hchanset⟩
      have hshed : Sheds s s' := by
        refine ⟨hrfc, ?_⟩
        rw [hchanset]
        exact filter_sublist.map _
      refine (ih h' hnd fun d hd => ?_).mono fun s'' ⟨h'', hshed'⟩ => ⟨h'', hshed.trans hshed'⟩
      rw [hchanset]
      have hne : d.addr ≠ c.addr := fun heq => hcnd (heq ▸ mem_map_of_mem hd)
      exact mem_filter.2 ⟨hcs d hd, by simpa using hne⟩
    · rw [if_neg hflag]
      exact ih h hnd hcs

/-! ### A channel gets its name -/

/-- The server's name of a channel is `chname` now. -/
structure Renames (s : State) (chname : CStr) (s' : State) : Prop where
  rfc : s'.rfc = s.rfc
  chanset : ∃ a, s'.chanset = (s.setName a chname).chanset

namespace Linked

variable (h : Linked s)

include h

theorem assign (hc : c ∈ s.chanset) (chname : CStr) :
    Gives (s.assign c.addr chname) fun s' => Linked s' ∧ Renames s chname s' := by
  rw [State.assign, h.deref_eq hc]
  refine (h.chanHtabDel c).bind ?_
  rintro _ ⟨⟨n, d, rfl⟩, h₁, hname, hdname⟩
  have haddr : (s.setName c.addr chname).chanset.map Chan.addr = s.chanset.map Chan.addr := by
    rw [State.setName, State.update, map_map]
    refine map_congr_left fun d _ => ?_
    by_cases hd : d.addr = c.addr
    · simp [hd, Chan.setName]
    · simp [hd]
  have h₂ : Linked (State.setName { s with byName := n, byDname := d } c.addr chname) := by
    refine h₁.relist hc hname hdname (haddr ▸ h.nodup) (fun d hd => ?_) fun d hd hne => ?_
    · have hmem : d.addr ∈ (s.setName c.addr chname).chanset.map Chan.addr := mem_map_of_mem hd
      rw [haddr] at hmem
      obtain ⟨e, he, hed⟩ := mem_map.1 hmem
      exact hed ▸ h.young e he
    · exact mem_map.2 ⟨d, hd, if_neg hne⟩
  have hmem : c.setName chname ∈
      (State.setName { s with byName := n, byDname := d } c.addr chname).chanset :=
    mem_map.2 ⟨c, hc, if_pos rfl⟩
  have hderef : (State.setName { s with byName := n, byDname := d } c.addr chname).deref c.addr =
      .ok (c.setName chname) := h₂.deref_eq hmem
  rw [State.register, hderef]
  refine (h₂.chanHtabAdd hmem).mono ?_
  rintro _ ⟨⟨n', d', rfl⟩, h'⟩
  exact ⟨h', rfl, c.addr, rfl⟩

theorem joined (hc : c ∈ s.chanset) (chname dname : CStr) (rejoin : Bool) :
    Gives (s.joined chname dname rejoin c.addr) fun s' => Linked s' ∧
      (Sheds s s' ∨ (¬ (c.inactive ∨ c.pending ∨ rejoin) ∧ Renames s chname s')) := by
  rw [State.joined, h.deref_eq hc]
  refine Gives.ite (fun _ => Gives.ok ⟨h, .inl (.refl s)⟩) fun hgo => ?_
  refine (h.findchan chname).bind ?_
  rintro r (⟨d, hd, rfl, -⟩ | ⟨rfl, -⟩)
  · exact (h.assign hd chname).mono fun s' ⟨h', hre⟩ => ⟨h', .inr ⟨hgo, hre⟩⟩
  · refine (h.findchanByDname dname).bind ?_
    rintro r (⟨d, hd, rfl, -⟩ | ⟨rfl, -⟩)
    · exact (h.assign hd chname).mono fun s' ⟨h', hre⟩ => ⟨h', .inr ⟨hgo, hre⟩⟩
    · exact Gives.ok ⟨h, .inl (.refl s)⟩

/-- No name comes in, or the name of the join, where a channel is joined that has it as its
display name, as it is or without the unique part. -/
theorem gotjoin (chname : CStr) (rejoin : Bool) :
    Gives (s.gotjoin chname rejoin) fun s' => Linked s' ∧
      (Sheds s s' ∨ ((∃ c ∈ s.chanset, ¬ (c.inactive ∨ c.pending ∨ rejoin) ∧
        (istrFold c.dname = istrFold chname ∨ istrFold c.dname = istrFold (State.chDname chname))) ∧
        Renames s chname s')) := by
  have hjoined : ∀ c ∈ s.chanset, ∀ dname, (istrFold c.dname = istrFold chname ∨
      istrFold c.dname = istrFold (State.chDname chname)) →
      Gives (s.joined chname dname rejoin c.addr) fun s' => Linked s' ∧
        (Sheds s s' ∨ ((∃ c ∈ s.chanset, ¬ (c.inactive ∨ c.pending ∨ rejoin) ∧
          (istrFold c.dname = istrFold chname ∨
            istrFold c.dname = istrFold (State.chDname chname))) ∧ Renames s chname s')) := by
    intro c hc dname hname
    refine (h.joined hc chname dname rejoin).mono ?_
    rintro s' ⟨h', hshed | ⟨hgo, hre⟩⟩
    · exact ⟨h', .inl hshed⟩
    · exact ⟨h', .inr ⟨⟨c, hc, hgo, hname⟩, hre⟩⟩
  refine (h.findchanByDname chname).bind ?_
  rintro r (⟨c, hc, rfl, hfold⟩ | ⟨rfl, -⟩)
  · exact hjoined c hc chname (.inl hfold)
  · refine Gives.ite (fun _ => ?_) fun _ => ?_
    · refine (h.findchanByDname (State.chDname chname)).bind ?_
      rintro r (⟨c, hc, rfl, hfold⟩ | ⟨rfl, -⟩)
      · exact hjoined c hc (State.chDname chname) (.inr hfold)
      · refine (h.findchanByDname chname).bind ?_
        rintro r (⟨c, hc, rfl, -⟩ | ⟨rfl, -⟩)
        · obtain ⟨h', hshed⟩ := h.update (f := fun c => { c with inactive := true })
            (fun _ => ⟨rfl, rfl, rfl⟩) c.addr
          exact Gives.ok ⟨h', .inl hshed⟩
        · exact Gives.ok ⟨h, .inl (.refl s)⟩
    · refine (h.findchanByDname chname).bind ?_
      rintro r (⟨c, hc, rfl, hfold⟩ | ⟨rfl, -⟩)
      · exact hjoined c hc chname (.inl hfold)
      · exact Gives.ok ⟨h, .inl (.refl s)⟩

end Linked

end Eggdrop.Chanset
