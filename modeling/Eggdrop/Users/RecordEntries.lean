import Eggdrop.Lib.Ensures
import Eggdrop.Users.UserFile

/-!
# RecordEntries — what the functions on one record do to its entries

A property of single entries that the setters keep is kept by all that happens to a record, from
`adduser` and the lines of the userfile to the unpacking.

* `getUser_spec`: a lookup finds nothing and the record is untouched, or the entry it finds is a
  typed one that then stands first.
* `setUser_forall`, `newUser_forall`: the entries after `set_user` and `adduser`.
* `Load.run_forall`: the entries of the users of a file, line by line.
-/

namespace Eggdrop.Users

theorem eq_of_name {t t' : EntryType} (h : strcaseEq t.name t'.name = true) : t = t' := by
  cases t <;> cases t' <;> first | rfl | (revert h; decide)

/-- The setter of `et` makes entries with the property from such entries and from nothing. -/
def SetKeeps (env : Env) (E : Entry EntryType Value → Prop) (et : EntryType) : Prop :=
  ∀ flags d u v r, (u = .null ∨ E (.typed et u)) → et.set env.hooks flags d u = some (v, r) →
    v.isNull = false → E (.typed et v)

/-- Two records that differ in their entries only. -/
def Userrec.SameBut (u u' : Userrec) : Prop :=
  u' = { u with entries := u'.entries, dirty := u'.dirty }

section Lookup

variable (env : Env) {flags : FlagWord} {et : EntryType} {es : List (Entry EntryType Value)}

theorem findUserEntry_spec :
    Ensures (findUserEntry (entryOps env.hooks flags) et es) fun r =>
      (r = none ∧ Untouched (entryOps env.hooks flags) et es) ∨
      ∃ v rest, r = some (.typed et v, rest) ∧ (Entry.typed et v :: rest).Perm es := by
  induction es with
  | nil => exact .ok (.inl ⟨rfl, by simp [Untouched]⟩)
  | cons e es ih =>
    cases e with
    | named n u => exact .error
    | typed t u =>
      rw [findUserEntry]
      refine .ite (fun ht => .ok ?_) fun ht => .map (ih.mono fun r hr => ?_)
      · obtain rfl : t = et := eq_of_name ht
        exact .inr ⟨u, es, rfl, .refl _⟩
      · rcases hr with ⟨rfl, hno⟩ | ⟨v, rest, rfl, hperm⟩
        · refine .inl ⟨rfl, List.forall_mem_cons.2 ⟨⟨rfl, ?_⟩, hno⟩⟩
          simpa [Entry.isFor, Entry.name] using ht
        · refine .inr ⟨v, _, rfl, ?_⟩
          exact (List.Perm.swap _ _ rest).trans (hperm.cons _)

theorem getUser_of_untouched {u : Userrec}
    (h : Untouched (entryOps env.hooks u.flags) et u.entries) :
    u.getUser env et = .ok (.null, u) := by
  unfold Userrec.getUser Users.getUser
  rw [findUserEntry_of_clear _ _ h.clear, h.find?]
  rfl

theorem getUser_spec (u : Userrec) :
    Ensures (u.getUser env et) fun r =>
      r.2 = { u with entries := r.2.entries } ∧ (∀ e, e ∈ r.2.entries ↔ e ∈ u.entries) ∧
        ((r.1 = .null ∧ Untouched (entryOps env.hooks u.flags) et u.entries) ∨
          ∃ rest, r.2.entries = .typed et r.1 :: rest) := by
  unfold Userrec.getUser Users.getUser
  refine .bind (P := fun r => (r = (none, u.entries) ∧
      Untouched (entryOps env.hooks u.flags) et u.entries) ∨
    ∃ v rest, r = (some v, .typed et v :: rest) ∧ (Entry.typed et v :: rest).Perm u.entries)
    (.map ((findUserEntry_spec env).mono ?_)) ?_
  · rintro r (⟨rfl, hno⟩ | ⟨v, rest, rfl, hperm⟩)
    · exact .inl ⟨rfl, hno⟩
    · exact .inr ⟨v, rest, rfl, hperm⟩
  · rintro r (⟨rfl, hno⟩ | ⟨v, rest, rfl, hperm⟩)
    · exact .pure ⟨rfl, fun e => .rfl, .inl ⟨rfl, hno⟩⟩
    · exact .pure ⟨rfl, fun e => hperm.mem_iff, .inr ⟨rest, rfl⟩⟩

end Lookup

/-! ### Setting -/

section Set

variable {env : Env} {E : Entry EntryType Value → Prop} {flags : FlagWord}

theorem entryFor_spec {et : EntryType} {es : List (Entry EntryType Value)} (h : ∀ e ∈ es, E e) :
    Ensures (entryFor (entryOps env.hooks flags) et es) fun r =>
      (∃ v, r.1 = .typed et v ∧ (v = .null ∨ E (.typed et v))) ∧ ∀ e ∈ r.2, E e := by
  refine .map ((findUserEntry_spec env).mono ?_)
  rintro r (⟨rfl, -⟩ | ⟨v, rest, rfl, hperm⟩)
  · exact ⟨⟨.null, rfl, .inl rfl⟩, h⟩
  · have hall : ∀ e ∈ Entry.typed et v :: rest, E e := fun e he => h e (hperm.mem_iff.1 he)
    exact ⟨⟨v, rfl, .inr (hall _ List.mem_cons_self)⟩,
      fun e he => hall e (List.mem_cons_of_mem _ he)⟩

theorem setOne_spec {et : EntryType} (hset : SetKeeps env E et) {d : SetData} {v : Value}
    (hv : v = .null ∨ E (.typed et v)) :
    Ensures (setOne (entryOps env.hooks flags) et d (.typed et v)) fun r =>
      ∀ e ∈ r.1.toList, E e := by
  unfold setOne
  intro r hr
  cases hs : (entryOps env.hooks flags).set et d v with
  | none =>
    rw [Entry.u, hs] at hr
    cases hr
  | some p =>
    rw [Entry.u, hs] at hr
    obtain rfl := Except.ok.inj hr
    intro e he
    by_cases hn : p.1.isNull = true
    · have : (entryOps env.hooks flags).isNull p.1 = true := hn
      simp [this] at he
    · have hn' : (entryOps env.hooks flags).isNull p.1 = false := eq_false_of_ne_true hn
      simp only [hn', Bool.false_eq_true, if_false, Option.toList_some, List.mem_singleton] at he
      subst he
      exact hset flags d v p.1 p.2 hv hs (eq_false_of_ne_true hn)

theorem setEntry_spec {et : EntryType} (hset : SetKeeps env E et) {d : SetData}
    {es : List (Entry EntryType Value)} (h : ∀ e ∈ es, E e) :
    Ensures (setEntry (entryOps env.hooks flags) et d es) fun r =>
      (∀ e ∈ r.1.toList, E e) ∧ ∀ e ∈ r.2.1, E e := by
  unfold setEntry
  refine .bind (entryFor_spec h) ?_
  rintro ⟨e, rest⟩ ⟨⟨v, rfl, hv⟩, hrest⟩
  refine .bind (setOne_spec hset hv) fun r hr => .pure ?_
  exact ⟨hr, hrest⟩

theorem setUser_spec {et : EntryType} (hset : SetKeeps env E et) (hpass : SetKeeps env E .pass2)
    {d : SetData} {es : List (Entry EntryType Value)} (h : ∀ e ∈ es, E e) :
    Ensures (Users.setUser (entryOps env.hooks flags) et d es) fun r => ∀ e ∈ r.1, E e := by
  unfold Users.setUser
  refine .bind (entryFor_spec h) ?_
  rintro ⟨e, rest⟩ ⟨⟨v, rfl, hv⟩, hrest⟩
  dsimp only
  cases ha : (entryOps env.hooks flags).also et d (Entry.typed et v).u with
  | none =>
    refine .bind (setOne_spec hset hv) fun r hr => .pure ?_
    intro e he
    exact (List.mem_append.1 he).elim (hr e) (hrest e)
  | some p =>
    obtain ⟨t', d'⟩ := p
    obtain ⟨-, rfl⟩ := also_fst ha
    refine .bind (setEntry_spec hpass hrest) ?_
    rintro ⟨second, rest', r'⟩ ⟨hsecond, hrest'⟩
    refine .bind (setOne_spec hset hv) fun r hr => .pure ?_
    intro e he
    rcases List.mem_append.1 he with he | he
    · exact (List.mem_append.1 he).elim (hsecond e) (hr e)
    · exact hrest' e he

theorem setUser_forall {et : EntryType} (hset : SetKeeps env E et) (hpass : SetKeeps env E .pass2)
    {d : SetData} {u : Userrec} (h : ∀ e ∈ u.entries, E e) :
    Ensures (u.setUser env et d) fun u' => u.SameBut u' ∧ ∀ e ∈ u'.entries, E e := by
  unfold Userrec.setUser
  refine .bind (setUser_spec hset hpass h) fun r hr => .pure ?_
  exact ⟨rfl, hr⟩

end Set

/-! ### New users and the lines of a file -/

/-- The entries that `adduser` and the lines of a file set keep the property, and a line of a name
that passes `ok` starts or continues an entry that has it. -/
structure EntryInv (env : Env) (ok : CStr → Prop) (E : Entry EntryType Value → Prop) : Prop where
  set : ∀ et ∈ [EntryType.pass, .pass2, .xtra, .hosts], SetKeeps env E et
  named : ∀ n s, ok n → E (.named n (.list [s]))
  append : ∀ n l s, E (.named n (.list l)) → E (.named n (.list (l ++ [s])))

section Lines

variable {env : Env} {ok : CStr → Prop} {E : Entry EntryType Value → Prop}

/-- All entries of all records. -/
def AllEntries (E : Entry EntryType Value → Prop) (l : List Userrec) : Prop :=
  ∀ u ∈ l, ∀ e ∈ u.entries, E e

theorem newUser_forall (hE : EntryInv env ok E) (st : State) (noxtra : Bool) (handle : CStr)
    (host pass : Option CStr) (flags : FlagWord) :
    Ensures (st.newUser env noxtra handle host pass flags) fun u =>
      (u.id = st.fresh ∧ u.handle = handle.take handLen) ∧ ∀ e ∈ u.entries, E e := by
  have hpass2 := hE.set .pass2 (by simp)
  have hset (et : EntryType) (hm : et ∈ [EntryType.pass, .pass2, .xtra, .hosts]) (d : SetData)
      (u : Userrec) (hu : (u.id = st.fresh ∧ u.handle = handle.take handLen) ∧
        ∀ e ∈ u.entries, E e) :
      Ensures (u.setUser env et d) fun u' =>
        (u'.id = st.fresh ∧ u'.handle = handle.take handLen) ∧ ∀ e ∈ u'.entries, E e := by
    refine (setUser_forall (hE.set et hm) hpass2 hu.2).mono fun u' hu' => ⟨?_, hu'.2⟩
    rw [hu'.1]
    exact hu.1
  unfold State.newUser
  refine .bind (hset .pass (by simp) _ _ ⟨⟨rfl, rfl⟩, by simp⟩) fun u hu => ?_
  refine .bind (.ite (fun _ => .pure hu) fun _ => hset .xtra (by simp) _ _ hu) fun u hu => ?_
  split <;> exact hset .hosts (by simp) _ _ hu

/-- What the lines leave alone: the list and the dictionary of accounts. -/
def State.SameLists (st st' : State) : Prop :=
  st'.userlist = st.userlist ∧ st'.userAccountDict = st.userAccountDict

theorem State.SameLists.rfl {st : State} : st.SameLists st := ⟨Eq.refl _, Eq.refl _⟩

theorem State.SameLists.trans {st st' st'' : State} (h : st.SameLists st')
    (h' : st'.SameLists st'') : st.SameLists st'' :=
  ⟨h'.1.trans h.1, h'.2.trans h.2⟩

theorem getUserByHandle_sameLists (st : State) (bu : Option (List Userrec)) (handle : CStr) :
    Ensures (st.getUserByHandle bu handle) fun r => st.SameLists r.2 := by
  unfold State.getUserByHandle
  dsimp only
  refine .ite (fun _ => .pure .rfl) fun _ => ?_
  cases bu with
  | some l => exact .pure .rfl
  | none =>
    refine .bind' fun b _ => .ite (fun _ => .pure .rfl) fun _ => ?_
    cases st.checkDcclistHand (rmspace handle) with
    | some id => exact .pure .rfl
    | none =>
      unfold State.lookupDict
      refine .bind (P := fun st' => st.SameLists st') (.ite (fun _ => ?_) fun _ => .pure .rfl)
        fun st' hst' => ?_
      · exact .bind' fun slots _ => .pure .rfl
      · cases st'.userHandleDict with
        | none => exact .pure (hst'.trans ⟨rfl, rfl⟩)
        | some slots => exact .bind' fun ret _ => .pure (hst'.trans ⟨rfl, rfl⟩)

theorem dictSet_sameLists (st : State) (u : Userrec) :
    Ensures (st.dictSet u) fun st' => st.SameLists st' := by
  unfold State.dictSet
  cases st.userHandleDict with
  | none => exact .pure .rfl
  | some slots => exact .bind' fun slots _ => .pure .rfl

theorem addmaskFully_sameLists (st : State) (kind : MaskKind) (chan : Option Nat) (m : Maskrec) :
    st.SameLists (st.addmaskFully kind chan m) := by
  cases chan with
  | none => cases kind <;> exact .rfl
  | some i => exact .rfl

theorem restoreMask_sameLists (st : State) (kind : MaskKind) (chan : Option Nat) (host : CStr) :
    Ensures (st.restoreMask kind chan host) fun st' => st.SameLists st' := by
  refine .bind' fun m _ => .pure ?_
  cases m with
  | none => exact .rfl
  | some m => exact addmaskFully_sameLists st kind chan m

theorem restoreIgnore_sameLists (st : State) (host : CStr) :
    Ensures (st.restoreIgnore host) fun st' => st.SameLists st' := by
  refine .bind' fun ig _ => .pure ?_
  cases ig with
  | none => exact .rfl
  | some ig => exact .rfl

theorem adduser_forall (hE : EntryInv env ok E) {st : State} {bu : Option (List Userrec)}
    (hbu : AllEntries E (bu.getD [])) (hst : AllEntries E st.userlist) (noxtra : Bool)
    (handle : CStr) (host pass : Option CStr) (flags : FlagWord) :
    Ensures (st.adduser env bu noxtra handle host pass flags) fun r =>
      AllEntries E (r.2.getD []) ∧ AllEntries E r.1.userlist ∧
        r.1.userAccountDict = st.userAccountDict := by
  refine .bind (newUser_forall hE st noxtra handle host pass flags) fun u hu => ?_
  have hsnoc {l : List Userrec} (hl : AllEntries E l) : AllEntries E (l ++ [u]) := by
    intro v hv
    rcases List.mem_append.1 hv with hv | hv
    · exact hl v hv
    · rw [List.mem_singleton.1 hv]
      exact hu.2
  cases bu with
  | some l => exact .pure ⟨hsnoc hbu, hst, rfl⟩
  | none =>
    refine .ite (fun _ => .pure ⟨hsnoc (l := []) (by simp [AllEntries]), hst, rfl⟩) fun _ => ?_
    refine .bind' fun _ _ => .bind (dictSet_sameLists _ u) fun st' hst' => .pure ?_
    exact ⟨by simp [AllEntries], by rw [hst'.1]; exact hsnoc hst, hst'.2⟩

/-- What holds while the lines of a file are read. -/
structure Load.Entries (E : Entry EntryType Value → Prop) (ld : Load) : Prop where
  bu : AllEntries E (ld.bu.getD [])
  userlist : AllEntries E ld.st.userlist
  dict : ld.st.userAccountDict = none

namespace Load

variable {ld : Load}

theorem Entries.users (h : ld.Entries E) : AllEntries E ld.users := by
  have hbu := h.bu
  unfold Load.users
  cases hb : ld.bu with
  | none => exact h.userlist
  | some l => rwa [hb] at hbu

theorem Entries.of_sameLists (h : ld.Entries E) {ld' : Load} (hst : ld.st.SameLists ld'.st)
    (hbu : ld'.bu = ld.bu) : ld'.Entries E :=
  ⟨hbu ▸ h.bu, hst.1 ▸ h.userlist, hst.2.trans h.dict⟩

theorem modifyUser_entries (h : ld.Entries E) (id : Nat) {f : Userrec → Except Fault Userrec}
    (hf : ∀ u, (∀ e ∈ u.entries, E e) → Ensures (f u) fun u' => ∀ e ∈ u'.entries, E e) :
    Ensures (ld.modifyUser id f) fun ld' => ld'.Entries E := by
  unfold modifyUser
  refine .bind (P := AllEntries E) (.mapM_forall fun u hu => ?_) fun l hl => .pure ?_
  · exact .ite (fun _ => hf u (h.users u hu)) fun _ => .pure (h.users u hu)
  · obtain ⟨hbu, huserlist, hdict⟩ := h
    unfold withUsers
    cases hb : ld.bu with
    | none =>
      refine ⟨?_, hl, hdict⟩
      simp [AllEntries]
    | some l' => exact ⟨hl, huserlist, hdict⟩

theorem setHosts_entries (hE : EntryInv env ok E) (h : ld.Entries E) (s : CStr) :
    Ensures (ld.setHosts env s) fun ld' => ld'.Entries E := by
  unfold setHosts
  cases ld.u with
  | none => exact .pure h
  | some id =>
    refine modifyUser_entries h id fun u hu => ?_
    exact (setUser_forall (hE.set .hosts (by simp)) (hE.set .pass2 (by simp)) hu).mono
      fun u' hu' => hu'.2

theorem setCommaHosts_entries (hE : EntryInv env ok E) (pieces : List CStr) (h : ld.Entries E) :
    Ensures (setCommaHosts env pieces ld) fun ld' => ld'.Entries E := by
  induction pieces generalizing ld with
  | nil => exact .pure h
  | cons p ps ih =>
    rw [setCommaHosts]
    refine .bind (.ite (fun _ => .pure h) fun _ => setHosts_entries hE h _) fun ld' h' => ih h'

theorem dashLine_entries (hE : EntryInv env ok E) (h : ld.Entries E) (s : CStr) :
    Ensures (ld.dashLine env s) fun ld' => ld'.Entries E := by
  unfold dashLine
  refine .ite (fun _ => .pure h) fun _ => ?_
  dsimp only
  refine .bind (setCommaHosts_entries hE _ h) fun ld' h' => ?_
  split
  · exact .pure h'
  · exact .pure h'
  · refine .ite (fun _ => ?_) fun _ => .ite (fun _ => ?_) fun _ => setHosts_entries hE h' _
    · exact .bind (restoreMask_sameLists _ _ _ _) fun st hst => .pure (h'.of_sameLists hst rfl)
    · refine .bind (P := fun st => ld'.st.SameLists st) (.ite (fun _ => ?_) fun _ => ?_)
        fun st hst => .pure (h'.of_sameLists hst rfl)
      · exact restoreIgnore_sameLists _ _
      · exact restoreMask_sameLists _ _ _ _

theorem maskLine_entries (h : ld.Entries E) (kind : MaskKind) (letter : Char) (s : CStr) :
    Ensures (ld.maskLine kind letter s) fun ld' => ld'.Entries E := by
  unfold maskLine
  split
  · exact .pure h
  · exact .pure h
  · refine .ite (fun _ => ?_) fun _ => .ite (fun _ => ?_) fun _ => .pure h
    · exact .bind (restoreMask_sameLists _ _ _ _) fun st hst => .pure (h.of_sameLists hst rfl)
    · exact .bind (restoreMask_sameLists _ _ _ _) fun st hst => .pure (h.of_sameLists hst rfl)

theorem addChanrec_entries (chname st fl info : CStr) (u : Userrec) :
    (addChanrec chname st fl info u).entries = u.entries := by
  unfold addChanrec
  dsimp only
  split <;> rfl

theorem chanLine_entries (h : ld.Entries E) (s : CStr) :
    Ensures (ld.chanLine s) fun ld' => ld'.Entries E := by
  unfold chanLine
  cases ld.u with
  | none => exact .pure h
  | some id =>
    refine .ite (fun _ => ?_) fun _ => .pure h
    refine modifyUser_entries h id fun u hu => .pure ?_
    rw [addChanrec_entries]
    exact hu

theorem sectionLine_entries (h : ld.Entries E) (kind : MaskKind) (name : CStr) :
    (ld.sectionLine kind name).Entries E := by
  unfold sectionLine
  dsimp only
  cases ld.st.findchanByDname name with
  | none => exact h.of_sameLists .rfl rfl
  | some i =>
    dsimp only
    split <;> exact h.of_sameLists ⟨rfl, rfl⟩ rfl

theorem addLine_forall (hE : EntryInv env ok E) {name : CStr} (hname : ok name) (s : CStr)
    {es : List (Entry EntryType Value)} (h : ∀ e ∈ es, E e) : ∀ e ∈ addLine name s es, E e := by
  unfold addLine
  dsimp only
  split
  · rw [ListEdit.forall_mem_modifyFirst_iff h]
    intro e he
    have hEe := h e (List.mem_of_find?_eq_some he)
    split
    · exact hE.append _ _ s hEe
    · exact hEe
  · exact List.forall_mem_cons.2 ⟨hE.named name s hname, h⟩

theorem entryLine_entries (hE : EntryInv env ok E) (h : ld.Entries E) {name : CStr}
    (hname : ok name) (s : CStr) : Ensures (ld.entryLine name s) fun ld' => ld'.Entries E := by
  unfold entryLine
  cases ld.u with
  | none => exact .pure h
  | some id =>
    exact modifyUser_entries h id fun u hu => .pure (addLine_forall hE hname s hu)

theorem addUser_entries (hE : EntryInv env ok E) (h : ld.Entries E) (code pass attr : CStr) :
    Ensures (ld.addUser env code pass attr) fun ld' => ld'.Entries E := by
  unfold addUser
  dsimp only
  refine .bind (adduser_forall hE h.bu h.userlist _ _ _ _ _) ?_
  rintro ⟨st, bu⟩ ⟨hbu, hst, hdict⟩
  refine .bind (getUserByHandle_sameLists st bu _) ?_
  rintro ⟨u, st'⟩ hst'
  cases u with
  | none => exact .error
  | some id =>
    refine modifyUser_entries ⟨hbu, ?_, ?_⟩ id fun u hu => .pure hu
    · exact hst'.1 ▸ hst
    · exact (hst'.2.trans hdict).trans h.dict

theorem userLine_entries (hE : EntryInv env ok E) (h : ld.Entries E) (code s : CStr) :
    Ensures (ld.userLine env code s) fun ld' => ld'.Entries E := by
  unfold userLine
  dsimp only
  refine .ite (fun _ => .pure (h.of_sameLists .rfl rfl)) fun _ => ?_
  refine .bind (getUserByHandle_sameLists ld.st ld.bu _) ?_
  rintro ⟨u, st⟩ hst
  have h' : ({ ld with st := st } : Load).Entries E := h.of_sameLists hst rfl
  cases u with
  | some id => exact .bind' fun _ _ => .pure (h'.of_sameLists .rfl rfl)
  | none => exact addUser_entries hE h' _ _ _

/-- The name of the entry a line continues or starts, if it is such a line. -/
def entryName (buf : CStr) : Option CStr :=
  let code := (newsplit buf).1
  if code.take 2 = "--".toList then some (code.drop 2) else none

theorem line_entries (hE : EntryInv env ok E) (h : ld.Entries E) (buf : CStr)
    (hok : ∀ n, entryName buf = some n → ok n) :
    Ensures (ld.line env buf) fun ld' => ld'.Entries E := by
  unfold line
  split
  · exact .pure h
  · exact .pure h
  · exact .pure h
  · dsimp only
    refine .ite (fun _ => dashLine_entries hE h _) fun _ => ?_
    refine .ite (fun _ => maskLine_entries h _ _ _) fun _ => ?_
    refine .ite (fun _ => maskLine_entries h _ _ _) fun _ => ?_
    refine .ite (fun _ => chanLine_entries h _) fun _ => ?_
    refine .ite (fun _ => .pure (sectionLine_entries h _ _)) fun _ => ?_
    refine .ite (fun _ => .pure (sectionLine_entries h _ _)) fun _ => ?_
    refine .ite (fun _ => .pure (sectionLine_entries h _ _)) fun _ => ?_
    refine .ite (fun hentry => ?_) fun _ => ?_
    · exact entryLine_entries hE h (hok _ (if_pos hentry)) _
    refine .ite (fun _ => .pure (h.of_sameLists .rfl rfl)) fun _ => ?_
    refine .ite (fun _ => .pure (h.of_sameLists .rfl rfl)) fun _ => userLine_entries hE h _ _

theorem run_entries (hE : EntryInv env ok E) (h : ld.Entries E) {lines : List CStr}
    (hok : ∀ buf ∈ lines, ∀ n, entryName buf = some n → ok n) :
    Ensures (Machine.run (Load.line env) ld lines) fun ld' => ld'.Entries E :=
  .run_forall (fun _ buf hb h => line_entries hE h buf (hok buf hb)) h

end Load

theorem orHalt_ensures {α : Type} {x : Except Fault α} {Q : α → Prop} (h : Ensures x Q) :
    Ensures (orHalt x) Q := by
  cases x with
  | error f => exact .error
  | ok a => exact .ok (h a rfl)

/-! ### After the lines -/

section Finish

variable {E' : Entry EntryType Value → Prop}

theorem unpackUsers_forall (hunpack : ∀ e, E e → Ensures (unpackEntry env e) E')
    {l : List Userrec} (h : AllEntries E l) :
    Ensures (unpackUsers env l) (AllEntries E') :=
  .mapM_forall fun u hu =>
    .bind (.mapM_forall fun e he => hunpack e (h u hu e he)) fun _ hes => .pure hes

theorem migratePassword_forall {u : Userrec}
    (h : ∀ e ∈ u.entries, E' e) :
    Ensures (migratePassword env u) fun u' => ∀ e ∈ u'.entries, E' e := by
  unfold migratePassword
  cases env.hooks.encryptPass2 with
  | none => exact .pure h
  | some encryptPass2 =>
    refine .ite (fun _ => .pure h) fun _ => .bind (getUser_spec env u) ?_
    rintro ⟨cmp, u'⟩ ⟨-, hmem, -⟩
    have h' : ∀ e ∈ u'.entries, E' e := fun e he => h e ((hmem e).1 he)
    dsimp only
    split
    · exact .pure h'
    · exact .pure h'
    · exact .pure h'
    · exact .pure h'
    · split
      · exact .pure h'
      · exact .bind' fun _ _ => .error
    · exact .error

theorem cleanupPass_forall {u : Userrec} (h : ∀ e ∈ u.entries, E' e) :
    Ensures (cleanupPass u) fun u' => ∀ e ∈ u'.entries, E' e := by
  unfold cleanupPass
  refine .ite (fun _ => .error) fun _ => ?_
  dsimp only
  split
  · split
    · exact .pure fun e he => h e ((ListEdit.eraseLast_sublist _ _).subset he)
    · exact .error
    · exact .error
  · exact .pure h

theorem finishLoad_forall (hunpack : ∀ e, E e → Ensures (unpackEntry env e) E')
    {ld : Load} (h : ld.Entries E) :
    Ensures (finishLoad env ld) fun st =>
      AllEntries E' st.userlist ∧ st.userAccountDict = none := by
  unfold finishLoad
  refine .bind (unpackUsers_forall hunpack h.users) fun l hl => ?_
  have hdirty : AllEntries E' (l.map fun u => { u with dirty := true }) := by
    intro u hu
    obtain ⟨v, hv, rfl⟩ := List.mem_map.1 hu
    exact hl v hv
  refine .bind (.mapM_forall fun u hu => migratePassword_forall (hdirty u hu)) fun l hl => ?_
  refine .bind (P := AllEntries E') (.ite (fun _ => ?_) fun _ => .pure hl) fun l hl => ?_
  · exact .mapM_forall fun u hu => cleanupPass_forall (hl u hu)
  · exact .pure ⟨hl, h.dict⟩

theorem readuserfile_forall (hE : EntryInv env ok E)
    (hunpack : ∀ e, E e → Ensures (unpackEntry env e) E')
    {st : State} (hlist : st.userlist = []) (hdict : st.userAccountDict = none)
    {file : Option CStr}
    (hok : ∀ text, file = some text → ∀ buf ∈ (fileLines text).tail, ∀ n,
      Load.entryName buf = some n → ok n) :
    Ensures (readuserfile env st file) fun r =>
      AllEntries E' r.2.userlist ∧ r.2.userAccountDict = none := by
  unfold readuserfile
  cases file with
  | none => exact .ok ⟨by simp [AllEntries, State.forgetMasks, hlist], hdict⟩
  | some text =>
    refine .bind' fun _ _ => .bind (orHalt_ensures ?_) fun ld hld =>
      .bind (orHalt_ensures (finishLoad_forall hunpack hld)) fun st hst => .pure hst
    refine Load.run_entries hE ⟨?_, ?_, hdict⟩ (hok text rfl)
    · simp [AllEntries, Load.start]
    · simp [AllEntries, Load.start, State.forgetMasks, hlist]

end Finish

end Lines

end Eggdrop.Users
