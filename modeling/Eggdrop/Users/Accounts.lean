import Eggdrop.Users.RecordEntries

/-!
# Accounts — the users by IRC account

`user_account_dict` maps account names to records.  It is built from the `ACCOUNT` entries, which
`account_set` and the unpacking keep as vectors; the functions that build and maintain it read
them as linked lists.

* `Inv`: a dictionary that exists is empty, and was built when no user had an account.
* `right_iff`: in such a state the lookups are right, and all walks read what is stored, exactly
  when no user has an account or an entry without a type.
* `right_throughout`: so in every state of every run; and a run that stores no account never gets
  into another state.
-/

namespace Eggdrop.Users.Accounts

variable (env : Env)

/-! ### The runs -/

inductive Event where
  | adduser (handle : CStr) (host pass : Option CStr) (flags : FlagWord)
  | deluser (handle : CStr)
  | addaccount (handle acct : CStr)
  | delaccount (handle acct : CStr)
  | addhost (handle host : CStr)
  | delhost (handle host : CStr)
  | load (file : Option CStr)
  | byAccount (acct : CStr)
  | byHandle (handle : CStr)
  | byHost (host : CStr)
deriving DecidableEq, Repr

/-- `reload`: the old list goes before the file is read, and without a file the bot ends. -/
def reload (st : State) (file : Option CStr) : Except Halt State := do
  let (ok, st) ← readuserfile env st.clearUserlist file
  if ok then pure st else .error .fatal

def step (st : State) : Event → Except Halt State
  | .adduser handle host pass flags => orHalt do
    let (st, bu) ← st.adduser env none false handle host pass flags
    pure (st.setUserlist bu)
  | .deluser handle => orHalt (st.deluser env handle)
  | .addaccount handle acct => orHalt (st.addHostOrAccount env handle acct true)
  | .delaccount handle acct => orHalt (st.delHostOrAccount env handle acct true)
  | .addhost handle host => orHalt (st.addHostOrAccount env handle host false)
  | .delhost handle host => orHalt (st.delHostOrAccount env handle host false)
  | .load file => reload env st file
  | .byAccount acct => orHalt ((st.getUserByAccount env acct).map Prod.snd)
  | .byHandle handle => orHalt ((st.getUserByHandle none handle).map Prod.snd)
  | .byHost host => orHalt ((st.getUserByHost env host).map Prod.snd)

/-! ### What the lookup is for -/

/-- The accounts of a record, in whatever form they are stored. -/
def accountsOf (u : Userrec) : List CStr :=
  match u.entries.find? (Entry.isFor (entryOps env.hooks u.flags) .account) with
  | none => []
  | some e =>
    match e.u with
    | .vec v => v
    | .list l => l
    | _ => []

/-- The first user with that account, up to a comparison. -/
def owner (same : CStr → CStr → Bool) (st : State) (acct : CStr) : Option Nat :=
  (st.userlist.find? fun u => (accountsOf env u).any (same acct)).map (·.id)

/-- The lookup finds the owner of every account, by the comparison of `account_set` and by that
of `del_host_or_account`. -/
def LookupsRight (st : State) : Prop :=
  ∀ acct, ∃ st', st.getUserByAccount env acct = .ok (owner env strcaseEq st acct, st') ∧
    owner env strcaseEq st acct = owner env rfcCaseEq st acct

/-- The events that walk the hostmasks or the accounts of users. -/
def Event.walks : Event → Bool
  | .deluser _ | .delaccount _ _ | .delhost _ _ | .byAccount _ | .byHost _ => true
  | _ => false

/-- No walk reads a value as something it is not. -/
def WalksRight (st : State) : Prop :=
  ∀ e : Event, e.walks = true → step env st e ≠ .error (.fault .badRepr)

/-- No user has an account, or an entry that a lookup of accounts cannot pass. -/
def NoAccounts (st : State) : Prop :=
  ∀ u ∈ st.userlist, Untouched (entryOps env.hooks u.flags) .account u.entries

/-! ### The invariant -/

/-- The values that entries have: text as it was read, vectors for hostmasks and accounts. -/
def Fits : Entry EntryType Value → Prop
  | .named _ u => ∃ s l, u = .list (s :: l)
  | .typed .account u | .typed .hosts u => ∃ v, u = .vec v
  | .typed _ _ => True

/-- An entry with a type other than that of accounts. -/
def Other (e : Entry EntryType Value) : Prop := ∃ t v, e = .typed t v ∧ t ≠ .account

structure Inv (st : State) : Prop where
  fits : AllEntries Fits st.userlist
  dict : ∀ slots, st.userAccountDict = some slots →
    slots = [] ∧ AllEntries Other st.userlist

section Entries

variable {env} {flags : FlagWord}

theorem untouched_iff {es : List (Entry EntryType Value)} :
    Untouched (entryOps env.hooks flags) .account es ↔ ∀ e ∈ es, Other e := by
  refine forall₂_congr fun e _ => ?_
  cases e with
  | named n v => simp [Entry.isTyped, Other]
  | typed t v =>
    have hfor : Entry.isFor (entryOps env.hooks flags) .account (.typed t v) =
        strcaseEq t.name EntryType.account.name := rfl
    rw [hfor]
    constructor
    · rintro ⟨-, h⟩
      refine ⟨t, v, rfl, ?_⟩
      rintro rfl
      simp at h
    · rintro ⟨t', v', heq, hne⟩
      obtain ⟨rfl, rfl⟩ := Entry.typed.inj heq
      refine ⟨rfl, ?_⟩
      by_contra h
      exact hne (eq_of_name (eq_true_of_ne_false h))

theorem noAccounts_iff {st : State} : NoAccounts env st ↔ AllEntries Other st.userlist :=
  forall₂_congr fun _ _ => untouched_iff

theorem vecSet_vec {covered : CStr → CStr → Bool} {d : Option CStr} {u v : Value}
    (h : vecSet covered d u = some v) (hnull : v.isNull = false) : ∃ w, v = .vec w := by
  unfold vecSet at h
  split at h
  · obtain rfl := Option.some.inj h
    cases hnull
  · obtain rfl := Option.some.inj h
    cases hnull
  · obtain rfl := Option.some.inj h
    split at hnull
    · cases hnull
    · next hs => exact ⟨_, if_neg hs⟩
  · obtain rfl := Option.some.inj h
    split at hnull
    · cases hnull
    · next hs => exact ⟨_, if_neg hs⟩
  · cases h

theorem setKeeps_fits (et : EntryType) : SetKeeps env Fits et := by
  intro flags d u v r _ hset hnull
  have hvec (covered : CStr → CStr → Bool) (d : Option CStr)
      (h : (vecSet covered d u).map (·, true) = some (v, r)) : ∃ w, v = .vec w := by
    obtain ⟨v', hv', heq⟩ := Option.map_eq_some_iff.1 h
    obtain rfl : v' = v := congrArg Prod.fst heq
    exact vecSet_vec hv' hnull
  cases et with
  | hosts =>
    cases d with
    | string d => exact hvec _ d hset
    | _ => cases hset
  | account =>
    cases d with
    | string d => exact hvec _ d hset
    | _ => cases hset
  | _ => trivial

theorem entryInv_fits : EntryInv env (fun _ => True) Fits where
  set et _ := setKeeps_fits et
  named _ s _ := ⟨s, [], rfl⟩
  append n l s h := by
    obtain ⟨t, l', hl⟩ := h
    obtain rfl := Value.list.inj hl
    exact ⟨t, l' ++ [s], rfl⟩

theorem unpackEntry_fits (e : Entry EntryType Value) (h : Fits e) :
    Ensures (unpackEntry env e) Fits := by
  cases e with
  | typed t u => exact .ok h
  | named n u =>
    rw [unpackEntry]
    cases findEntryType env n with
    | none => exact .ok h
    | some et =>
      obtain ⟨s, l, rfl⟩ := h
      refine .map fun v hv => ?_
      cases et with
      | hosts =>
        obtain rfl := Except.ok.inj hv
        exact ⟨s :: l, rfl⟩
      | account =>
        obtain rfl := Except.ok.inj hv
        exact ⟨s :: l, rfl⟩
      | _ => trivial

theorem setKeeps_other {et : EntryType} (h : et ≠ .account) : SetKeeps env Other et :=
  fun _ _ _ v _ _ _ _ => ⟨et, v, rfl, h⟩

/-- The name of a type that is loaded, other than that of accounts. -/
def OtherName (env : Env) (n : CStr) : Prop := ∃ t, findEntryType env n = some t ∧ t ≠ .account

/-- While a file is read: an entry with such a type, or with the name of one. -/
def OtherLoad (env : Env) : Entry EntryType Value → Prop
  | .named n _ => OtherName env n
  | .typed t _ => t ≠ .account

theorem entryInv_other : EntryInv env (OtherName env) (OtherLoad env) where
  set et h := by
    intro _ _ _ _ _ _ _ _
    have : et ≠ .account := by
      rintro rfl
      simp at h
    exact this
  named _ _ h := h
  append _ _ _ h := h

theorem unpackEntry_other (e : Entry EntryType Value) (h : OtherLoad env e) :
    Ensures (unpackEntry env e) Other := by
  cases e with
  | typed t u => exact .ok ⟨t, u, rfl, h⟩
  | named n u =>
    obtain ⟨t, ht, hne⟩ := h
    rw [unpackEntry, ht]
    exact .map fun v _ => ⟨t, v, rfl, hne⟩

end Entries

/-! ### Every step keeps the invariant -/

section Steps

variable {env} {st : State}

theorem Inv.of_sameLists (h : Inv st) {st' : State} (hs : st.SameLists st') : Inv st' :=
  ⟨hs.1 ▸ h.fits, fun slots hd => hs.1 ▸ h.dict slots (hs.2 ▸ hd)⟩

/-- A property of entries that all events keep but those that set accounts or read a file. -/
structure Kept (env : Env) (E : Entry EntryType Value → Prop) : Prop where
  inv : EntryInv env (fun _ => False) E
  vec : ∀ v, E (.typed .hosts (.vec v))

theorem kept_fits : Kept env Fits :=
  ⟨⟨fun et _ => setKeeps_fits et, fun _ _ h => h.elim,
    (entryInv_fits : EntryInv env _ _).append⟩, fun v => ⟨v, rfl⟩⟩

theorem kept_other : Kept env Other where
  inv :=
    { set := fun et h => setKeeps_other (by
        rintro rfl
        simp at h)
      named := fun _ _ h => h.elim
      append := by
        rintro n l s ⟨t, v, heq, -⟩
        cases heq }
  vec v := ⟨_, _, rfl, by decide⟩

/-- What holds of all entries before still does, and the dictionary of accounts is the same. -/
structure Follows (env : Env) (st st' : State) : Prop where
  entries : ∀ E, Kept env E → AllEntries E st.userlist → AllEntries E st'.userlist
  dict : st'.userAccountDict = st.userAccountDict

theorem Follows.of_sameLists {st' : State} (h : st.SameLists st') : Follows env st st' :=
  ⟨fun _ _ hall => h.1 ▸ hall, h.2⟩

theorem Follows.trans {st' st'' : State} (h : Follows env st st') (h' : Follows env st' st'') :
    Follows env st st'' :=
  ⟨fun E hE hall => h'.entries E hE (h.entries E hE hall), h'.dict.trans h.dict⟩

theorem Inv.follow (h : Inv st) {st' : State} (hf : Follows env st st') : Inv st' :=
  ⟨hf.entries _ kept_fits h.fits, fun slots hs =>
    ⟨(h.dict slots (hf.dict ▸ hs)).1, hf.entries _ kept_other (h.dict slots (hf.dict ▸ hs)).2⟩⟩

theorem allEntries_put {E : Entry EntryType Value → Prop} (h : AllEntries E st.userlist)
    {u : Userrec} (hu : ∀ e ∈ u.entries, E e) : AllEntries E (st.putRecord u).userlist := by
  intro v hv
  obtain ⟨w, hw, rfl⟩ := List.mem_map.1 hv
  split
  · exact hu
  · exact h w hw

theorem recordAt_mem {id : Nat} : Ensures (st.recordAt id) fun u => u ∈ st.userlist := by
  unfold State.recordAt
  cases hf : st.userlist.find? fun u => u.id = id with
  | none => exact .error
  | some u => exact .ok (List.mem_of_find?_eq_some hf)

/-- A walk through the accounts of a user succeeds only where there is nothing to read. -/
theorem walkAccounts_spec {u : Userrec} (h : ∀ e ∈ u.entries, Fits e) :
    Ensures (do
      let (v, u) ← u.getUser env .account
      let q ← walkList v
      pure (u, q)) fun r =>
      (∀ e, e ∈ r.1.entries ↔ e ∈ u.entries) ∧ r.2 = [] ∧ ∀ e ∈ u.entries, Other e := by
  refine .bind (getUser_spec env u) ?_
  rintro ⟨v, u'⟩ ⟨-, hmem, ⟨rfl, hno⟩ | ⟨rest, hrest⟩⟩
  · exact .bind' fun q hq => .pure ⟨hmem, (Except.ok.inj hq).symm, untouched_iff.1 hno⟩
  · obtain ⟨w, rfl⟩ : Fits (.typed .account v) := by
      refine h _ ((hmem _).1 ?_)
      rw [hrest]
      exact List.mem_cons_self
    exact .bind' fun q hq => nomatch hq

theorem accountLists_spec (h : AllEntries Fits st.userlist) :
    Ensures (st.accountLists env) fun lists =>
      List.Forall₂ (fun u p => (∀ e, e ∈ p.1.entries ↔ e ∈ u.entries) ∧ p.2 = [] ∧
        ∀ e ∈ u.entries, Other e) st.userlist lists :=
  .mapM fun u hu => walkAccounts_spec (h u hu)

theorem exists_of_forall₂ {α β : Type} {R : α → β → Prop} {l : List α} {l' : List β}
    (h : List.Forall₂ R l l') {b : β} (hb : b ∈ l') : ∃ a ∈ l, R a b := by
  obtain ⟨i, hi, rfl⟩ := List.mem_iff_getElem.1 hb
  have hi' : i < l.length := h.length_eq ▸ hi
  exact ⟨l[i], List.getElem_mem hi', h.get hi' hi⟩

theorem forall₂_left {α β : Type} {R : α → β → Prop} {P : α → Prop} {l : List α} {l' : List β}
    (h : List.Forall₂ R l l') (hP : ∀ a b, R a b → P a) : ∀ a ∈ l, P a := by
  intro a ha
  obtain ⟨i, hi, rfl⟩ := List.mem_iff_getElem.1 ha
  exact hP _ _ (h.get hi (h.length_eq ▸ hi))

/-- A rebuilt dictionary is empty. -/
theorem rebuild_spec (h : Inv st) : Ensures (st.userAccountDictRebuild env) fun st' =>
    Inv st' ∧ AllEntries Other st.userlist := by
  refine .bind (accountLists_spec h.fits) fun lists hl => .pure ?_
  have hpairs : lists.flatMap (fun p => (p.2.filter (· ≠ "none".toList)).map fun a => (a, p.1.id)) =
      [] := by
    rw [List.flatMap_eq_nil_iff]
    intro p hp
    obtain ⟨u, -, -, hq, -⟩ := exists_of_forall₂ hl hp
    rw [hq]
    rfl
  have hfrom {E : Entry EntryType Value → Prop} (hE : AllEntries E st.userlist) :
      AllEntries E (lists.map Prod.fst) := by
    intro v hv e he
    obtain ⟨p, hp, rfl⟩ := List.mem_map.1 hv
    obtain ⟨u, hu, hmem, -⟩ := exists_of_forall₂ hl hp
    exact hE u hu e ((hmem e).1 he)
  have hother : AllEntries Other st.userlist := forall₂_left hl fun u p hp => hp.2.2
  have hdict : some (List.foldl (fun slots (p : CStr × Nat) =>
      (Htab.set istrHash istrFold some slots p.1 p.1 p.2).getD slots) []
      (lists.flatMap fun p => (p.2.filter (· ≠ "none".toList)).map fun a => (a, p.1.id))) =
      some ([] : List AccountSlot) := by
    rw [hpairs]
    rfl
  refine ⟨⟨hfrom h.fits, fun slots hs => ?_⟩, hother⟩
  exact ⟨Option.some.inj (hs.symm.trans hdict), hfrom hother⟩

theorem getUserByAccount_inv (h : Inv st) (acct : CStr) :
    Ensures (st.getUserByAccount env acct) fun r => Inv r.2 := by
  unfold State.getUserByAccount
  refine .ite (fun _ => .pure h) fun _ => ?_
  refine .bind (P := Inv) (.ite (fun _ => ?_) fun _ => .pure h) fun st' h' => ?_
  · exact (rebuild_spec h).mono fun st' h' => h'.1
  · split
    · exact .bind' fun _ _ => .pure h'
    · exact .bind' fun _ _ => .pure h'

theorem getUserByHost_follows (st : State) (host : CStr) :
    Ensures (st.getUserByHost env host) fun r => Follows env st r.2 := by
  unfold State.getUserByHost
  dsimp only
  refine .ite (fun _ => .pure (.of_sameLists .rfl)) fun _ => ?_
  refine .bind (P := List.Forall₂ (fun (u : Userrec) (p : Userrec × List CStr) =>
    ∀ e, e ∈ p.1.entries ↔ e ∈ u.entries) st.userlist) (.mapM fun u hu => ?_) fun lists hl => ?_
  · refine .bind (getUser_spec env u) ?_
    rintro ⟨v, u'⟩ ⟨-, hmem, -⟩
    exact .bind' fun masks _ => .pure hmem
  · refine .pure ⟨fun E _ hE v hv e he => ?_, rfl⟩
    obtain ⟨p, hp, rfl⟩ := List.mem_map.1 hv
    obtain ⟨u, hu, hmem⟩ := exists_of_forall₂ hl hp
    exact hE u hu e ((hmem e).1 he)

theorem adduser_follows (st : State) (handle : CStr) (host pass : Option CStr)
    (flags : FlagWord) :
    Ensures (do
      let (st, bu) ← st.adduser env none false handle host pass flags
      pure (st.setUserlist bu)) (Follows env st) := by
  refine .bind' ?_
  rintro ⟨st', bu⟩ hr
  have hnone (E : Entry EntryType Value → Prop) :
      AllEntries E ((none : Option (List Userrec)).getD []) := by simp [AllEntries]
  have hspec (E : Entry EntryType Value → Prop) (hE : Kept env E)
      (hall : AllEntries E st.userlist) :=
    adduser_forall hE.inv (hnone E) hall false handle host pass flags _ hr
  have htrue : EntryInv env (fun _ => False) fun _ => True :=
    ⟨fun _ _ _ _ _ _ _ _ _ _ => trivial, fun _ _ _ => trivial, fun _ _ _ _ => trivial⟩
  have hdict : st'.userAccountDict = st.userAccountDict :=
    (adduser_forall htrue (hnone _) (fun _ _ _ _ => trivial) false handle host pass flags _ hr).2.2
  cases bu with
  | none => exact .pure ⟨fun E hE hall => (hspec E hE hall).2.1, hdict⟩
  | some l => exact .pure ⟨fun E hE hall => (hspec E hE hall).1, hdict⟩

theorem dictDel_sameLists (st : State) (handle : CStr) :
    Ensures (st.dictDel handle) fun st' => st.SameLists st' := by
  unfold State.dictDel
  cases st.userHandleDict with
  | none => exact .pure .rfl
  | some slots => exact .bind' fun slots _ => .pure .rfl

/-- A dictionary that exists is left as it is: no user on the list has an account. -/
theorem accountDictDel_spec (h : Inv st) {u : Userrec} (hu : u ∈ st.userlist) :
    Ensures (st.accountDictDel env u) fun st' => st' = st := by
  unfold State.accountDictDel
  cases hd : st.userAccountDict with
  | none => exact .pure rfl
  | some slots =>
    obtain ⟨rfl, hother⟩ := h.dict slots hd
    rw [getUser_of_untouched env (untouched_iff.2 (hother u hu))]
    refine .bind' fun r hr => ?_
    obtain rfl := Except.ok.inj hr
    refine .bind' fun q hq => .pure ?_
    obtain rfl := Except.ok.inj hq
    show { st with userAccountDict := some [] } = st
    rw [← hd]

theorem deluser_follows (h : Inv st) (handle : CStr) :
    Ensures (st.deluser env handle) (Follows env st) := by
  unfold State.deluser
  cases hf : st.userlist.find? fun u => strcaseEq u.handle handle with
  | none => exact .pure (.of_sameLists .rfl)
  | some u =>
    dsimp only
    refine .bind (dictDel_sameLists _ handle) fun st' hst' => ?_
    have hsame : st.SameLists st' := State.SameLists.trans ⟨rfl, rfl⟩ hst'
    refine .bind (accountDictDel_spec (h.of_sameLists hsame) ?_) fun st'' hst'' => .pure ?_
    · rw [hst'.1]
      exact List.mem_of_find?_eq_some hf
    · rw [hst'']
      refine (Follows.of_sameLists hsame).trans ⟨fun E _ hall v hv => hall v ?_, rfl⟩
      exact List.eraseP_subset hv

theorem addaccount_inv (h : Inv st) (handle acct : CStr) :
    Ensures (st.addHostOrAccount env handle acct true) Inv := by
  refine .bind (getUserByHandle_sameLists st none handle) ?_
  rintro ⟨id, st'⟩ hst'
  have h' := h.of_sameLists hst'
  cases id with
  | none => exact .error
  | some id =>
    refine .bind recordAt_mem fun u hu => ?_
    refine .bind (setUser_forall (setKeeps_fits .account) (setKeeps_fits .pass2) (h'.fits u hu))
      fun u' hu' => .pure ?_
    refine ⟨allEntries_put h'.fits hu'.2, fun slots hs => nomatch hs⟩

theorem addhost_follows (st : State) (handle host : CStr) :
    Ensures (st.addHostOrAccount env handle host false) (Follows env st) := by
  refine .bind (getUserByHandle_sameLists st none handle) ?_
  rintro ⟨id, st'⟩ hst'
  cases id with
  | none => exact .error
  | some id =>
    refine .bind recordAt_mem fun u hu => .bind' fun u' hset => .pure ?_
    refine (Follows.of_sameLists hst').trans ⟨fun E hE hall => allEntries_put hall ?_, rfl⟩
    exact (setUser_forall (hE.inv.set _ (by simp)) (hE.inv.set _ (by simp)) (hall u hu) _ hset).2

theorem delAccount_spec {u : Userrec} (h : ∀ e ∈ u.entries, Fits e) (acct : CStr) :
    Ensures (State.delAccount env u acct) fun r => (∀ e ∈ r.1.entries, Fits e) ∧ r.2 = true := by
  refine .bind (getUser_spec env u) ?_
  rintro ⟨v, u'⟩ ⟨-, hmem, ⟨rfl, -⟩ | ⟨rest, hrest⟩⟩
  · refine .bind' fun q hq => ?_
    obtain rfl := Except.ok.inj hq
    refine .ite (fun hany => nomatch hany) fun _ => .ite (fun _ => ?_) fun hne => absurd rfl hne
    refine .bind (setUser_forall (setKeeps_fits .account) (setKeeps_fits .pass2)
      fun e he => h e ((hmem e).1 he)) fun u'' hu'' => .pure ⟨hu''.2, rfl⟩
  · obtain ⟨w, rfl⟩ : Fits (.typed .account v) := by
      refine h _ ((hmem _).1 ?_)
      rw [hrest]
      exact List.mem_cons_self
    exact .bind' fun q hq => nomatch hq

theorem delaccount_inv (h : Inv st) (handle acct : CStr) :
    Ensures (st.delHostOrAccount env handle acct true) Inv := by
  refine .bind (getUserByHandle_sameLists st none handle) ?_
  rintro ⟨id, st'⟩ hst'
  have h' := h.of_sameLists hst'
  cases id with
  | none => exact .pure h'
  | some id =>
    refine .bind recordAt_mem fun u hu => .bind (delAccount_spec (h'.fits u hu) acct) ?_
    rintro ⟨u', drop⟩ ⟨hu', rfl⟩
    exact .pure ⟨allEntries_put h'.fits hu', fun slots hs => nomatch hs⟩

theorem delHost_forall {E : Entry EntryType Value → Prop} (hE : Kept env E) {u : Userrec}
    (h : ∀ e ∈ u.entries, E e) (host : CStr) :
    Ensures (State.delHost env u host) fun u' => ∀ e ∈ u'.entries, E e := by
  refine .bind (getUser_spec env u) ?_
  rintro ⟨v, u'⟩ ⟨-, hmem, hor⟩
  have h' : ∀ e ∈ u'.entries, E e := fun e he => h e ((hmem e).1 he)
  refine .bind' fun masks hmasks => ?_
  dsimp only
  refine .ite (fun _ => ?_) fun hi => .pure ?_
  · exact (setUser_forall (hE.inv.set _ (by simp)) (hE.inv.set _ (by simp)) h').mono
      fun u'' hu'' => hu''.2
  · rcases hor with ⟨rfl, -⟩ | ⟨rest, hrest⟩
    · obtain rfl := Except.ok.inj hmasks
      exact absurd rfl hi
    · dsimp only at hrest h'
      rw [hrest] at h'
      show ∀ e ∈ u'.entries.modifyHead _, E e
      rw [hrest]
      exact List.forall_mem_cons.2 ⟨hE.vec _, (List.forall_mem_cons.1 h').2⟩

theorem delhost_follows (st : State) (handle host : CStr) :
    Ensures (st.delHostOrAccount env handle host false) (Follows env st) := by
  refine .bind (getUserByHandle_sameLists st none handle) ?_
  rintro ⟨id, st'⟩ hst'
  cases id with
  | none => exact .pure (.of_sameLists hst')
  | some id =>
    refine .bind recordAt_mem fun u hu => .bind' fun u' hdel => .pure ?_
    refine (Follows.of_sameLists hst').trans ⟨fun E hE hall => allEntries_put hall ?_, rfl⟩
    exact delHost_forall hE (hall u hu) host _ hdel

/-- What holds of the entries after a reload. -/
theorem reload_spec {ok : CStr → Prop} {E E' : Entry EntryType Value → Prop}
    (hE : EntryInv env ok E) (hunpack : ∀ e, E e → Ensures (unpackEntry env e) E')
    (st : State) {file : Option CStr}
    (hok : ∀ text, file = some text → ∀ buf ∈ (fileLines text).tail, ∀ n,
      Load.entryName buf = some n → ok n) :
    Ensures (reload env st file) fun st' =>
      AllEntries E' st'.userlist ∧ st'.userAccountDict = none := by
  refine .bind (readuserfile_forall hE hunpack (show st.clearUserlist.userlist = [] from rfl) rfl hok) ?_
  rintro ⟨ok, st'⟩ hst'
  exact .ite (fun _ => .pure hst') fun _ => .error

theorem reload_inv (st : State) (file : Option CStr) : Ensures (reload env st file) Inv :=
  (reload_spec entryInv_fits unpackEntry_fits st
    fun _ _ _ _ _ _ => trivial).mono fun st' h => ⟨h.1, fun slots hs => by
      rw [h.2] at hs
      cases hs⟩

theorem step_inv (h : Inv st) (e : Event) : Ensures (step env st e) Inv := by
  cases e with
  | adduser handle host pass flags =>
    exact orHalt_ensures ((adduser_follows st handle host pass flags).mono fun _ => h.follow)
  | deluser handle => exact orHalt_ensures ((deluser_follows h handle).mono fun _ => h.follow)
  | addaccount handle acct => exact orHalt_ensures (addaccount_inv h handle acct)
  | delaccount handle acct => exact orHalt_ensures (delaccount_inv h handle acct)
  | addhost handle host =>
    exact orHalt_ensures ((addhost_follows st handle host).mono fun _ => h.follow)
  | delhost handle host =>
    exact orHalt_ensures ((delhost_follows st handle host).mono fun _ => h.follow)
  | load file => exact reload_inv st file
  | byAccount acct => exact orHalt_ensures (.map (getUserByAccount_inv h acct))
  | byHandle handle =>
    exact orHalt_ensures (.map ((getUserByHandle_sameLists st none handle).mono
      fun r hr => h.of_sameLists hr))
  | byHost host =>
    exact orHalt_ensures (.map ((getUserByHost_follows st host).mono fun _ => h.follow))

end Steps

/-! ### When the lookups and walks are right -/

section Right

variable {env} {st : State}

theorem mapM_eq_map {α β ε : Type} {f : α → Except ε β} {g : α → β} {l : List α}
    (h : ∀ a ∈ l, f a = .ok (g a)) : l.mapM f = .ok (l.map g) := by
  induction l with
  | nil => rfl
  | cons a l ih =>
    rw [List.mapM_cons, h a List.mem_cons_self, ih fun b hb => h b (List.mem_cons_of_mem a hb)]
    rfl

theorem accountLists_of_other (h : AllEntries Other st.userlist) :
    st.accountLists env = .ok (st.userlist.map fun u => (u, [])) := by
  refine mapM_eq_map fun u hu => ?_
  rw [getUser_of_untouched env (untouched_iff.2 (h u hu))]
  rfl

theorem owner_of_other (h : AllEntries Other st.userlist) (same : CStr → CStr → Bool)
    (acct : CStr) : owner env same st acct = none := by
  have hfind : st.userlist.find? (fun u => (accountsOf env u).any (same acct)) = none := by
    rw [List.find?_eq_none]
    intro u hu
    have hno : accountsOf env u = [] := by
      rw [accountsOf, (untouched_iff.2 (h u hu)).find?]
    rw [hno]
    exact Bool.false_ne_true
  rw [owner, hfind, Option.map_none]

theorem getUserByAccount_of_other (hinv : Inv st) (h : AllEntries Other st.userlist)
    (acct : CStr) : ∃ st', st.getUserByAccount env acct = .ok (none, st') := by
  unfold State.getUserByAccount
  split
  · exact ⟨st, rfl⟩
  · by_cases hc : (st.userAccountDict.isNone && !st.userlist.isEmpty) = true
    · rw [if_pos hc]
      have hpairs : (st.userlist.map fun u => (u, ([] : List CStr))).flatMap
          (fun p => (p.2.filter (· ≠ "none".toList)).map fun a => (a, p.1.id)) = [] := by
        rw [List.flatMap_eq_nil_iff]
        intro p hp
        obtain ⟨u, -, rfl⟩ := List.mem_map.1 hp
        rfl
      have hrebuild : st.userAccountDictRebuild env = .ok
          { st with
            userlist := (st.userlist.map fun u => (u, ([] : List CStr))).map Prod.fst
            userAccountDict := some [] } := by
        unfold State.userAccountDictRebuild
        rw [accountLists_of_other h]
        simp only [Bind.bind, Except.bind]
        rw [hpairs]
        rfl
      rw [hrebuild]
      exact ⟨_, rfl⟩
    · rw [if_neg hc]
      cases hd : st.userAccountDict with
      | some slots =>
        obtain ⟨rfl, -⟩ := hinv.dict slots hd
        refine ⟨st, ?_⟩
        simp only [Bind.bind, Except.bind, pure, Except.pure, hd]
        rfl
      | none =>
        refine ⟨st, ?_⟩
        simp only [Bind.bind, Except.bind, pure, Except.pure, hd, accountLists_of_other h]
        rw [List.find?_map]
        simp

theorem lookupsRight_of_other (hinv : Inv st) (h : AllEntries Other st.userlist) :
    LookupsRight env st := by
  intro acct
  obtain ⟨st', hst'⟩ := getUserByAccount_of_other hinv h acct
  refine ⟨st', ?_, ?_⟩
  · rw [owner_of_other h, hst']
  · rw [owner_of_other h, owner_of_other h]

theorem findUserEntry_ne_badRepr {flags : FlagWord} {et : EntryType}
    {es : List (Entry EntryType Value)} :
    findUserEntry (entryOps env.hooks flags) et es ≠ .error .badRepr := by
  by_cases h : Clear (entryOps env.hooks flags) et es
  · rw [findUserEntry_of_clear _ _ h]
    exact fun h => nomatch h
  · rw [findUserEntry_of_not_clear _ _ h]
    exact fun h => nomatch h

theorem getUser_ne_badRepr {et : EntryType} {u : Userrec} :
    u.getUser env et ≠ .error .badRepr :=
  bind_ne_error (map_ne_error findUserEntry_ne_badRepr) fun _ _ h => nomatch h

theorem orFreed_ne_badRepr {α : Type} {x : Option α} : orFreed x ≠ .error .badRepr := by
  cases x <;> exact fun h => nomatch h

theorem setNone_ne_badRepr {et : EntryType} (het : et = .hosts ∨ et = .account) {u : Userrec}
    (h : ∀ e ∈ u.entries, Fits e) :
    u.setUser env et (.string (some "none".toList)) ≠ .error .badRepr := by
  refine bind_ne_error ?_ fun _ _ h => by cases h
  refine bind_ne_error (map_ne_error findUserEntry_ne_badRepr) ?_
  rintro ⟨e, rest⟩ he
  obtain ⟨⟨v, hv, hfits⟩, -⟩ := entryFor_spec h _ he
  dsimp only at hv
  subst hv
  have halso : (entryOps env.hooks u.flags).also et (.string (some "none".toList))
      (Entry.typed et v).u = none := by
    rcases het with rfl | rfl <;> rfl
  dsimp only
  rw [halso]
  refine bind_ne_error (map_ne_error ?_) fun _ _ h => by cases h
  have hset : ∃ r, (entryOps env.hooks u.flags).set et (.string (some "none".toList)) v = some r := by
    rcases hfits with rfl | hfits
    · rcases het with rfl | rfl <;> exact ⟨_, rfl⟩
    · rcases het with rfl | rfl
      · obtain ⟨w, rfl⟩ := hfits
        exact ⟨_, rfl⟩
      · obtain ⟨w, rfl⟩ := hfits
        exact ⟨_, rfl⟩
  obtain ⟨r, hr⟩ := hset
  rw [Entry.u, hr]
  intro h
  cases h

theorem walkVec_ne_badRepr {u u' : Userrec} {v : Value} (h : ∀ e ∈ u.entries, Fits e)
    (hget : u.getUser env .hosts = .ok (v, u')) : walkVec v ≠ .error .badRepr := by
  obtain ⟨-, hmem, ⟨hv, -⟩ | ⟨rest, hrest⟩⟩ := getUser_spec env u _ hget
  · dsimp only at hv
    subst hv
    exact fun h => nomatch h
  · obtain ⟨w, rfl⟩ : Fits (.typed .hosts v) := by
      refine h _ ((hmem _).1 ?_)
      rw [hrest]
      exact List.mem_cons_self
    exact fun h => nomatch h

theorem getUserByHandle_ne_badRepr (st : State) (handle : CStr) :
    st.getUserByHandle none handle ≠ .error .badRepr := by
  unfold State.getUserByHandle
  dsimp only
  refine ite_ne_error (fun _ h => nomatch h) fun _ => bind_ne_error ?_ fun b _ =>
    ite_ne_error (fun _ h => nomatch h) fun _ => ?_
  · unfold State.isLastuser
    cases st.lastuser with
    | none => exact fun h => nomatch h
    | some id => exact bind_ne_error orFreed_ne_badRepr fun _ _ h => nomatch h
  · cases st.checkDcclistHand (rmspace handle) with
    | some id => exact fun h => nomatch h
    | none =>
      refine bind_ne_error (ite_ne_error (fun _ => ?_) fun _ h => nomatch h) fun st' _ => ?_
      · exact bind_ne_error orFreed_ne_badRepr fun _ _ h => nomatch h
      · cases st'.userHandleDict with
        | none => exact fun h => nomatch h
        | some slots => exact bind_ne_error orFreed_ne_badRepr fun _ _ h => nomatch h

theorem orHalt_ne {α : Type} {x : Except Fault α} (h : x ≠ .error .badRepr) :
    orHalt x ≠ .error (.fault .badRepr) := by
  cases x with
  | ok a => exact fun h => nomatch h
  | error f =>
    intro heq
    obtain rfl : f = .badRepr := by simpa [orHalt] using heq
    exact h rfl

theorem deluser_ne_badRepr (hinv : Inv st) (handle : CStr) :
    st.deluser env handle ≠ .error .badRepr := by
  unfold State.deluser
  cases hf : st.userlist.find? fun u => strcaseEq u.handle handle with
  | none => exact fun h => nomatch h
  | some u =>
    dsimp only
    refine bind_ne_error ?_ fun st' hst' => bind_ne_error ?_ fun _ _ h => nomatch h
    · unfold State.dictDel
      dsimp only
      cases st.userHandleDict with
      | none => exact fun h => nomatch h
      | some slots => exact bind_ne_error orFreed_ne_badRepr fun _ _ h => nomatch h
    · have hsame := dictDel_sameLists _ handle _ hst'
      have h' : Inv st' := hinv.of_sameLists (State.SameLists.trans ⟨rfl, rfl⟩ hsame)
      unfold State.accountDictDel
      cases hd : st'.userAccountDict with
      | none => exact fun h => nomatch h
      | some slots =>
        have hu : u ∈ st'.userlist := by
          rw [hsame.1]
          exact List.mem_of_find?_eq_some hf
        dsimp only
        rw [getUser_of_untouched env (untouched_iff.2 ((h'.dict slots hd).2 u hu))]
        exact fun h => nomatch h

theorem delHostOrAccount_ne_badRepr (hinv : Inv st) (hother : AllEntries Other st.userlist)
    (handle arg : CStr) (account : Bool) :
    st.delHostOrAccount env handle arg account ≠ .error .badRepr := by
  refine bind_ne_error (getUserByHandle_ne_badRepr st handle) ?_
  rintro ⟨id, st'⟩ hget
  have hsame := getUserByHandle_sameLists st none handle _ hget
  have h' := hinv.of_sameLists hsame
  cases id with
  | none => exact fun h => nomatch h
  | some id =>
    refine bind_ne_error orFreed_ne_badRepr fun u hu => ?_
    have hu' : u ∈ st'.userlist := recordAt_mem _ hu
    refine ite_ne_error (fun _ => ?_) fun _ => ?_
    · refine bind_ne_error (bind_ne_error getUser_ne_badRepr ?_) fun _ _ h => nomatch h
      rintro ⟨v, u'⟩ hv
      have huo : u ∈ st.userlist := hsame.1 ▸ hu'
      rw [getUser_of_untouched env (untouched_iff.2 (hother u huo))] at hv
      obtain ⟨rfl, rfl⟩ := Prod.mk.inj (Except.ok.inj hv)
      refine bind_ne_error (fun h => nomatch h) fun q hq => ?_
      refine ite_ne_error (fun _ h => nomatch h) fun _ => ?_
      refine ite_ne_error (fun _ => bind_ne_error ?_ fun _ _ h => nomatch h) fun _ h => nomatch h
      obtain rfl := Except.ok.inj hq
      exact setNone_ne_badRepr (.inr rfl) (h'.fits u hu')
    · refine bind_ne_error (bind_ne_error getUser_ne_badRepr ?_) fun _ _ h => nomatch h
      rintro ⟨v, u'⟩ hv
      refine bind_ne_error (walkVec_ne_badRepr (h'.fits u hu') hv) fun masks _ => ?_
      refine ite_ne_error (fun _ => ?_) fun _ h => nomatch h
      refine setNone_ne_badRepr (.inl rfl) fun e he => h'.fits u hu' e ?_
      exact ((getUser_spec env u _ hv).2.1 e).1 he

theorem getUserByHost_ne_badRepr (hinv : Inv st) (host : CStr) :
    st.getUserByHost env host ≠ .error .badRepr := by
  refine ite_ne_error (fun _ h => nomatch h) fun _ => bind_ne_error ?_ fun _ _ h => nomatch h
  refine mapM_ne_error fun u hu => bind_ne_error getUser_ne_badRepr ?_
  rintro ⟨v, u'⟩ hv
  exact bind_ne_error (walkVec_ne_badRepr (hinv.fits u hu) hv) fun _ _ h => nomatch h

theorem walksRight_of_other (hinv : Inv st) (h : AllEntries Other st.userlist) :
    WalksRight env st := by
  intro e hwalks
  cases e with
  | deluser handle => exact orHalt_ne (deluser_ne_badRepr hinv handle)
  | delaccount handle acct => exact orHalt_ne (delHostOrAccount_ne_badRepr hinv h handle acct true)
  | delhost handle host => exact orHalt_ne (delHostOrAccount_ne_badRepr hinv h handle host false)
  | byAccount acct =>
    obtain ⟨st', hst'⟩ := getUserByAccount_of_other hinv h acct
    rw [step, hst']
    exact fun h => nomatch h
  | byHost host => exact orHalt_ne (map_ne_error (getUserByHost_ne_badRepr hinv host))
  | adduser | addaccount | addhost | load | byHandle => cases hwalks

theorem other_of_lookupsRight (hinv : Inv st) (h : LookupsRight env st) :
    AllEntries Other st.userlist := by
  by_cases hnil : st.userlist = []
  · rw [hnil]
    simp [AllEntries]
  · cases hd : st.userAccountDict with
    | some slots => exact (hinv.dict slots hd).2
    | none =>
      obtain ⟨st', hst', -⟩ := h "x".toList
      have hc : (st.userAccountDict.isNone && !st.userlist.isEmpty) = true := by
        simp [hd, hnil]
      have hx : ¬ ("x".toList = [] ∨ "x".toList = "*".toList) := by decide
      rw [State.getUserByAccount, if_neg hx, if_pos hc] at hst'
      cases hr : st.userAccountDictRebuild env with
      | error f =>
        rw [hr] at hst'
        cases hst'
      | ok st₁ => exact (rebuild_spec hinv st₁ hr).2

theorem right_iff (hinv : Inv st) :
    (LookupsRight env st ∧ WalksRight env st) ↔ NoAccounts env st := by
  rw [noAccounts_iff]
  refine ⟨fun h => other_of_lookupsRight hinv h.1, fun h => ?_⟩
  exact ⟨lookupsRight_of_other hinv h, walksRight_of_other hinv h⟩

end Right

/-! ### Runs -/

/-- The step stores no account, and no entry that has no type. -/
def StoresNone (env : Env) (_ : State) : Event → Prop
  | .addaccount _ acct => strcaseEq acct "none".toList = true
  | .load file => ∀ text, file = some text → ∀ buf ∈ (fileLines text).tail, ∀ n,
      Load.entryName buf = some n → OtherName env n
  | _ => True

section Runs

variable {env} {st : State}

theorem setAccountNone_other {u : Userrec} (h : ∀ e ∈ u.entries, Other e) {acct : CStr}
    (hnone : strcaseEq acct "none".toList = true) :
    Ensures (u.setUser env .account (.string (some acct))) fun u' => ∀ e ∈ u'.entries, Other e := by
  have hno : Untouched (entryOps env.hooks u.flags) .account u.entries := untouched_iff.2 h
  obtain ⟨e, he, hu⟩ := entryFor_of_clear _ EntryType.account hno.clear
  rw [hno.find?] at hu
  have hset : EntryType.set env.hooks u.flags .account (.string (some acct)) .null =
      some (.null, true) := by
    show (vecSet strcaseEq (some acct) .null).map (·, true) = _
    rw [vecSet, if_pos hnone]
    rfl
  have hone : setOne (entryOps env.hooks u.flags) .account (.string (some acct)) e =
      .ok (none, true) := by
    have hu' : e.u = .null := hu
    have hset' : (entryOps env.hooks u.flags).set .account (.string (some acct)) e.u =
        some (.null, true) := hu' ▸ hset
    rw [setOne, hset']
    rfl
  have hset' := setUser_of_entryFor _ EntryType.account he (.string (some acct))
  unfold Userrec.setUser
  rw [hset']
  show Ensures (((setOne (entryOps env.hooks u.flags) .account (.string (some acct)) e).map _) >>= _) _
  rw [hone]
  exact .pure fun x hx => h x (List.eraseP_subset hx)

theorem delAccount_other {u : Userrec} (h : ∀ e ∈ u.entries, Other e) (acct : CStr) :
    Ensures (State.delAccount env u acct) fun r => ∀ e ∈ r.1.entries, Other e := by
  unfold State.delAccount
  rw [getUser_of_untouched env (untouched_iff.2 h)]
  refine .bind' fun r hr => ?_
  obtain rfl := Except.ok.inj hr
  refine .bind' fun q hq => ?_
  obtain rfl := Except.ok.inj hq
  refine .ite (fun hany => nomatch hany) fun _ => .ite (fun _ => ?_) fun hne => absurd rfl hne
  exact .bind (setAccountNone_other h (by decide)) fun u' hu' => .pure hu'

theorem step_other (hinv : Inv st) (h : AllEntries Other st.userlist) {e : Event}
    (hs : StoresNone env st e) :
    Ensures (step env st e) fun st' => AllEntries Other st'.userlist := by
  have hfollow (st' : State) (hf : Follows env st st') : AllEntries Other st'.userlist :=
    hf.entries _ kept_other h
  cases e with
  | adduser handle host pass flags =>
    exact orHalt_ensures ((adduser_follows st handle host pass flags).mono hfollow)
  | deluser handle => exact orHalt_ensures ((deluser_follows hinv handle).mono hfollow)
  | addhost handle host => exact orHalt_ensures ((addhost_follows st handle host).mono hfollow)
  | delhost handle host => exact orHalt_ensures ((delhost_follows st handle host).mono hfollow)
  | load file =>
    exact (reload_spec entryInv_other unpackEntry_other st hs).mono
      fun st' hst' => hst'.1
  | byAccount acct =>
    refine orHalt_ensures (.map ?_)
    unfold State.getUserByAccount
    refine .ite (fun _ => .pure h) fun _ => ?_
    refine .bind (P := fun st' => AllEntries Other st'.userlist) (.ite (fun _ => ?_)
      fun _ => .pure h) fun st' h' => ?_
    · exact .bind (accountLists_spec hinv.fits) fun lists hl => .pure (by
        intro v hv e he
        obtain ⟨p, hp, rfl⟩ := List.mem_map.1 hv
        obtain ⟨u, hu, hmem, -⟩ := exists_of_forall₂ hl hp
        exact h u hu e ((hmem e).1 he))
    · split
      · exact .bind' fun _ _ => .pure h'
      · exact .bind' fun _ _ => .pure h'
  | byHandle handle =>
    exact orHalt_ensures (.map ((getUserByHandle_sameLists st none handle).mono
      fun r hr => hr.1 ▸ h))
  | byHost host => exact orHalt_ensures (.map ((getUserByHost_follows st host).mono
      fun r hr => hfollow r.2 hr))
  | addaccount handle acct =>
    refine orHalt_ensures (.bind (getUserByHandle_sameLists st none handle) ?_)
    rintro ⟨id, st'⟩ hst'
    have h' : AllEntries Other st'.userlist := hst'.1 ▸ h
    cases id with
    | none => exact .error
    | some id =>
      refine .bind recordAt_mem fun u hu => .bind (setAccountNone_other (h' u hu) hs)
        fun u' hu' => .pure (allEntries_put h' hu')
  | delaccount handle acct =>
    refine orHalt_ensures (.bind (getUserByHandle_sameLists st none handle) ?_)
    rintro ⟨id, st'⟩ hst'
    have h' : AllEntries Other st'.userlist := hst'.1 ▸ h
    cases id with
    | none => exact .pure h'
    | some id =>
      refine .bind recordAt_mem fun u hu => .bind (delAccount_other (h' u hu) acct) ?_
      rintro ⟨u', drop⟩ hu'
      refine .pure ?_
      cases drop <;> exact allEntries_put h' hu'

/-- From an empty list, in every state of every run: the lookups and the walks are right exactly
when no user has an account or an entry without a type.  A run whose steps store neither never
gets into another state. -/
theorem right_throughout (env : Env) {st : State} (hlist : st.userlist = [])
    (hdict : st.userAccountDict = none) (es : List Event) :
    Machine.Throughout (step env)
        (fun s => (LookupsRight env s ∧ WalksRight env s) ↔ NoAccounts env s) st es ∧
      (Machine.Along (step env) (StoresNone env) st es →
        Machine.Throughout (step env) (fun s => LookupsRight env s ∧ WalksRight env s) st es) := by
  have hinv : Inv st := ⟨by simp [AllEntries, hlist], fun slots hs => by
    rw [hdict] at hs
    cases hs⟩
  constructor
  · exact (Machine.throughout_of_step (fun s e s' h hs => step_inv h e s' hs) hinv es).imp
      fun s h => right_iff h
  · intro halong
    have hboth : Inv st ∧ AllEntries Other st.userlist := ⟨hinv, by simp [AllEntries, hlist]⟩
    have hkeep (s : State) (e : Event) (s' : State) (h : Inv s ∧ AllEntries Other s.userlist)
        (hsafe : StoresNone env s e) (hs : step env s e = .ok s') :
        Inv s' ∧ AllEntries Other s'.userlist :=
      ⟨step_inv h.1 e s' hs, step_other h.1 h.2 hsafe s' hs⟩
    exact (Machine.throughout_of_along hkeep hboth halong).imp fun s h =>
      (right_iff h.1).2 (noAccounts_iff.2 h.2)

end Runs

/-- A bot without modules. -/
def plainEnv : Env := ⟨plainHooks, [], fun _ _ => 0, 0, 0⟩

/-- Before anything is loaded. -/
def emptyState : State := ⟨[], 0, none, [], none, none, [], [], [], [], [], 0⟩

/-- A user, a lookup and a reload, and no accounts. -/
theorem right_reload :
    Machine.Throughout (step plainEnv)
      (fun s => LookupsRight plainEnv s ∧ WalksRight plainEnv s) emptyState
      [.adduser "joe".toList (some "*!*@a".toList) none 0, .delaccount "joe".toList "x".toList,
        .byAccount "x".toList, .load (some "#4v: x\njoe - h\n--HOSTS *!*@b\n".toList)] := by
  refine (right_throughout plainEnv rfl rfl _).2 ⟨trivial, fun _ _ => ⟨trivial, fun _ _ =>
    ⟨trivial, fun _ _ => ⟨?_, fun _ _ => trivial⟩⟩⟩⟩
  rintro text ⟨⟩ buf hbuf n hn
  have hlines : (fileLines "#4v: x\njoe - h\n--HOSTS *!*@b\n".toList).tail =
      ["joe - h\n".toList, "--HOSTS *!*@b\n".toList] := by decide
  rw [hlines] at hbuf
  have hnames : ∀ buf ∈ ["joe - h\n".toList, "--HOSTS *!*@b\n".toList],
      Load.entryName buf = none ∨ Load.entryName buf = some "HOSTS".toList := by decide
  rcases hnames buf hbuf with h | h
  · rw [h] at hn
    cases hn
  · rw [h] at hn
    obtain rfl := Option.some.inj hn
    exact ⟨.hosts, by decide, by decide⟩

/-- A user with an account: the next lookup of any account reads the vector as a list. -/
theorem not_right_after_addaccount :
    ¬ Machine.Throughout (step plainEnv)
      (fun s => LookupsRight plainEnv s ∧ WalksRight plainEnv s) emptyState
      [.adduser "joe".toList none none 0, .addaccount "joe".toList "acc".toList] := by
  intro h
  have hrun : (match Machine.run (step plainEnv) emptyState
      [.adduser "joe".toList none none 0, .addaccount "joe".toList "acc".toList] with
    | .ok s => decide ((s.getUserByAccount plainEnv "acc".toList).map Prod.fst = .error .badRepr)
    | .error _ => false) = true := by decide +kernel
  cases hr : Machine.run (step plainEnv) emptyState
      [.adduser "joe".toList none none 0, .addaccount "joe".toList "acc".toList] with
  | error f => rw [hr] at hrun; cases hrun
  | ok s =>
    rw [hr] at hrun
    obtain ⟨st', hst', -⟩ := (h.last hr).1 "acc".toList
    have hfault := of_decide_eq_true hrun
    rw [hst'] at hfault
    cases hfault

end Eggdrop.Users.Accounts
