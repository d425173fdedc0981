import Mathlib.Data.List.Find
import Eggdrop.Irc.Members
import Eggdrop.Lib.Ensures
import Eggdrop.Lib.HtabFiled

/-!
# MemberTable — the hash table and the counter follow the member list

* `Chain`: the list of a channel is a list of members and a sentinel, and the counter is right.
* `Keyed`: the nicks of a list of members fit, and to the hash table they are different ones.
* `Holds`: both, and there is a slot for each member.
* `Holds.ismember`, `Holds.killmember`, `Holds.join`, `Holds.rename` and their like: what the
  operations answer, and which members there are then.
-/

namespace Eggdrop.Members

open List

/-- The members as records of the hash table. -/
def recs (ms : List Member) : List (ℕ × CStr) := ms.map fun m => (m.addr, m.nick)

/-- The members without the one at an address. -/
def without (a : ℕ) (ms : List Member) : List Member := ms.filter (·.addr ≠ a)

/-- The members with the one at an address changed. -/
def edit (a : ℕ) (f : Member → Member) (ms : List Member) : List Member :=
  ms.map fun m => if m.addr = a then f m else m

structure Chain (t : Table) (ms : List Member) : Prop where
  member : ∃ z : Member, t.member = ms ++ [z] ∧ z.nick = []
  lost : t.lost = []
  nodup : (t.member.map Member.addr).Nodup
  young : ∀ m ∈ t.member, m.addr < t.next
  members : t.members = ms.length

structure Keyed (rfc : Bool) (ms : List Member) : Prop where
  named : ∀ m ∈ ms, m.named = true
  fits : ∀ m ∈ ms, m.nick.length ≤ nickMax
  plain : ∀ m ∈ ms, rfc = true ∨ isPlain m.nick = true
  folds : (ms.map fun m => istrFold m.nick).Nodup

structure Holds (rfc : Bool) (t : Table) (ms : List Member) : Prop where
  chain : Chain t ms
  keyed : Keyed rfc ms
  filed : Htab.Filed istrHash istrFold (recs ms) t.memberHt

variable {rfc : Bool} {t t' : Table} {ms rest : List Member} {m x z : Member} {a : ℕ} {nick : CStr}

/-! ### Lists of members -/

theorem without_append_cons {l₁ l₂ : List Member} (hnd : ((l₁ ++ m :: l₂).map Member.addr).Nodup) :
    without m.addr (l₁ ++ m :: l₂) = l₁ ++ l₂ := by
  rw [map_append, map_cons, nodup_middle, nodup_cons, ← map_append] at hnd
  have hother : ∀ x ∈ l₁ ++ l₂, x.addr ≠ m.addr := fun x hx hxm =>
    hnd.1 (mem_map.2 ⟨x, hx, hxm⟩)
  rw [without, filter_append, filter_cons_of_neg (by simp), ← filter_append, filter_eq_self]
  exact fun x hx => decide_eq_true (hother x hx)

theorem perm_without (hnd : (ms.map Member.addr).Nodup) (hm : m ∈ ms) :
    ms.Perm (m :: without m.addr ms) := by
  obtain ⟨l₁, l₂, rfl⟩ := mem_iff_append.1 hm
  rw [without_append_cons hnd]
  exact perm_middle

theorem edit_perm (hnd : (ms.map Member.addr).Nodup) (hm : m ∈ ms) (f : Member → Member) :
    (edit m.addr f ms).Perm (f m :: without m.addr ms) := by
  have hkeep : edit m.addr f (without m.addr ms) = without m.addr ms := by
    rw [edit]
    refine (map_congr_left fun x hx => ?_).trans (map_id _)
    exact if_neg (of_decide_eq_true (mem_filter.1 hx).2)
  have hmap := (perm_without hnd hm).map fun x => if x.addr = m.addr then f x else x
  rw [map_cons, if_pos rfl] at hmap
  rw [← hkeep]
  exact hmap

theorem edit_append_singleton (h : ∀ m ∈ ms, m.addr ≠ z.addr) (f : Member → Member) :
    edit z.addr f (ms ++ [z]) = ms ++ [f z] := by
  rw [edit, map_append, map_congr_left fun m hm => if_neg (h m hm)]
  simp

theorem recs_perm (hp : ms.Perm rest) : (recs ms).Perm (recs rest) := hp.map _

theorem length_edit (f : Member → Member) : (edit a f ms).length = ms.length := length_map _

namespace Keyed

theorem nil : Keyed rfc [] := ⟨nofun, nofun, nofun, nodup_nil⟩

theorem perm (h : Keyed rfc ms) (hp : ms.Perm rest) : Keyed rfc rest :=
  ⟨fun m hm => h.named m (hp.mem_iff.2 hm), fun m hm => h.fits m (hp.mem_iff.2 hm),
    fun m hm => h.plain m (hp.mem_iff.2 hm), (hp.map _).nodup_iff.1 h.folds⟩

theorem sublist (h : Keyed rfc ms) (hs : rest.Sublist ms) : Keyed rfc rest :=
  ⟨fun m hm => h.named m (hs.subset hm), fun m hm => h.fits m (hs.subset hm),
    fun m hm => h.plain m (hs.subset hm), h.folds.sublist (hs.map _)⟩

theorem cons (h : Keyed rfc ms) (hnamed : x.named = true) (hfits : x.nick.length ≤ nickMax)
    (hplain : rfc = true ∨ isPlain x.nick = true)
    (hnew : ∀ m ∈ ms, istrFold m.nick ≠ istrFold x.nick) : Keyed rfc (x :: ms) := by
  refine ⟨forall_mem_cons.2 ⟨hnamed, h.named⟩, forall_mem_cons.2 ⟨hfits, h.fits⟩,
    forall_mem_cons.2 ⟨hplain, h.plain⟩, ?_⟩
  rw [map_cons, nodup_cons]
  refine ⟨fun hx => ?_, h.folds⟩
  obtain ⟨m, hm, hmx⟩ := mem_map.1 hx
  exact hnew m hm hmx

/-- The comparison that is set sees what the hash table sees. -/
theorem caseEq_iff (h : Keyed rfc ms) (hm : m ∈ ms) (nick : CStr) :
    caseEq rfc m.nick nick = true ↔ istrFold m.nick = istrFold nick :=
  Eggdrop.caseEq_iff (h.plain m hm)

theorem find_eq (h : Keyed rfc ms) (nick : CStr) :
    (ms.find? fun m => caseEq rfc m.nick nick) =
      ms.find? fun m => istrFold m.nick = istrFold nick := by
  refine find?_congr fun m hm => ?_
  rw [Bool.eq_iff_iff, h.caseEq_iff hm, decide_eq_true_iff]

theorem eq_of_fold (h : Keyed rfc ms) (hm : m ∈ ms) (hx : x ∈ ms)
    (hfold : istrFold m.nick = istrFold x.nick) : m = x := inj_on_of_nodup_map h.folds hm hx hfold

end Keyed

/-! ### The list -/

namespace Chain

theorem init (lost : List Member) (hlost : lost = []) (n : ℕ) :
    Chain (.initChannel lost n) [] := by
  refine ⟨⟨_, rfl, rfl⟩, hlost, nodup_singleton _, ?_, rfl⟩
  intro m hm
  obtain rfl := mem_singleton.1 hm
  exact n.lt_succ_self

variable (h : Chain t ms)

include h

theorem subset : ms ⊆ t.member := by
  obtain ⟨z, hz, -⟩ := h.member
  rw [hz]
  exact subset_append_left _ _

theorem nodup_ms : (ms.map Member.addr).Nodup := by
  obtain ⟨z, hz, -⟩ := h.member
  exact h.nodup.sublist ((hz ▸ sublist_append_left _ _ : ms.Sublist t.member).map _)

theorem listed_eq (hnamed : ∀ m ∈ ms, m.named = true) : t.listed = ms := by
  obtain ⟨z, hz, hznick⟩ := h.member
  have hzn : z.named = false := by rw [Member.named, hznick]; rfl
  rw [Table.listed, hz, takeWhile_append_of_pos hnamed, takeWhile_cons_of_neg (by simp [hzn]),
    append_nil]

theorem find_eq (hm : m ∈ ms) : t.find m.addr = some m := by
  rw [Table.find, h.lost, append_nil]
  cases hf : t.member.find? (·.addr = m.addr) with
  | none =>
    rw [find?_eq_none] at hf
    exact absurd (decide_eq_true rfl) (hf m (h.subset hm))
  | some x =>
    have haddr : x.addr = m.addr := by simpa using find?_some hf
    rw [inj_on_of_nodup_map h.nodup (mem_of_find?_eq_some hf) (h.subset hm) haddr]

theorem deref_eq (hm : m ∈ ms) : t.deref m.addr = .ok m := by
  rw [Table.deref, h.find_eq hm]
  rfl

theorem reads (hsub : rest ⊆ ms) : Htab.Reads t.nickAt (recs rest) := by
  intro r hr
  obtain ⟨m, hm, rfl⟩ := mem_map.1 hr
  rw [Table.nickAt, h.find_eq (hsub hm)]
  rfl

theorem newmember (hnamed : ∀ m ∈ ms, m.named = true) :
    ∃ z t', t.newmember = .ok (z.addr, t') ∧ Chain t' (ms ++ [z]) ∧ t'.memberHt = t.memberHt := by
  obtain ⟨z, hz, hznick⟩ := h.member
  have hzn : z.named = false := by rw [Member.named, hznick]; rfl
  have hdrop : t.member.dropWhile Member.named = [z] := by
    rw [hz, dropWhile_append_of_pos hnamed, dropWhile_cons_of_neg (by simp [hzn])]
  refine ⟨z, { t with
    member := t.listed ++ [z, .malloc t.next]
    lost := [] ++ t.lost
    members := t.members + 1
    next := t.next + 1 }, by rw [Table.newmember, hdrop], ?_, rfl⟩
  have hmember : t.listed ++ [z, .malloc t.next] = ms ++ [z] ++ [.malloc t.next] := by
    rw [h.listed_eq hnamed, append_assoc]
    rfl
  refine ⟨⟨_, hmember, rfl⟩, h.lost, ?_, ?_, ?_⟩
  · dsimp only
    rw [hmember, ← hz, map_append, nodup_append]
    refine ⟨h.nodup, nodup_singleton _, fun a ha b hb => ?_⟩
    obtain ⟨m, hm, rfl⟩ := mem_map.1 ha
    obtain rfl : b = t.next := by simpa [Member.malloc] using hb
    exact (h.young m hm).ne
  · dsimp only
    rw [hmember, ← hz]
    intro m hm
    rcases mem_append.1 hm with hm | hm
    · exact (h.young m hm).trans t.next.lt_succ_self
    · obtain rfl := mem_singleton.1 hm
      exact t.next.lt_succ_self
  · dsimp only
    rw [h.members, length_append, length_singleton]
    omega

theorem update (hm : m ∈ ms) {f : Member → Member} (hf : ∀ m, (f m).addr = m.addr) :
    Chain (t.update m.addr f) (edit m.addr f ms) := by
  obtain ⟨z, hz, hznick⟩ := h.member
  have hne : z.addr ≠ m.addr := by
    have hnd := h.nodup
    rw [hz, map_append, nodup_append] at hnd
    exact fun heq => hnd.2.2 _ (mem_map_of_mem hm) _ (mem_singleton_self _) heq.symm
  have haddr : (t.update m.addr f).member.map Member.addr = t.member.map Member.addr := by
    rw [Table.update, map_map]
    refine map_congr_left fun x _ => ?_
    by_cases hx : x.addr = m.addr
    · simp [hx, hf]
    · simp [hx]
  refine ⟨⟨z, ?_, hznick⟩, by rw [Table.update, h.lost]; rfl, by rw [haddr]; exact h.nodup, ?_, ?_⟩
  · rw [Table.update, hz, map_append, edit, map_singleton, if_neg hne]
  · intro x hx
    obtain ⟨y, hy, hyx⟩ := mem_map.1 (haddr ▸ mem_map_of_mem hx : x.addr ∈ t.member.map Member.addr)
    rw [← hyx]
    exact h.young y hy
  · rw [length_edit]
    exact h.members

theorem unlink (hm : m ∈ ms) : Chain (t.unlink m.addr) (without m.addr ms) := by
  obtain ⟨z, hz, hznick⟩ := h.member
  have hne : z.addr ≠ m.addr := by
    have hnd := h.nodup
    rw [hz, map_append, nodup_append] at hnd
    exact fun heq => hnd.2.2 _ (mem_map_of_mem hm) _ (mem_singleton_self _) heq.symm
  refine ⟨⟨z, ?_, hznick⟩, h.lost, h.nodup.sublist (filter_sublist.map _),
    fun x hx => h.young x (mem_filter.1 hx).1, ?_⟩
  · have hkeep : [z].filter (·.addr ≠ m.addr) = [z] := by
      rw [filter_eq_self]
      intro x hx
      obtain rfl := mem_singleton.1 hx
      exact decide_eq_true hne
    rw [Table.unlink, hz, filter_append, hkeep, without]
  · have hlen := (perm_without h.nodup_ms hm).length_eq
    rw [length_cons] at hlen
    have hmembers := h.members
    show t.members - 1 = _
    omega

theorem correct_eq : t.correct = t := by
  obtain ⟨z, hz, -⟩ := h.member
  have hmembers : ¬ t.members < 0 := by
    rw [h.members]
    omega
  have hmember : t.member ≠ [] := by
    rw [hz]
    exact append_ne_nil_of_right_ne_nil _ (cons_ne_nil _ _)
  rw [Table.correct, if_neg hmembers, if_neg hmember]

theorem withHt (ht : List Slot) : Chain { t with memberHt := ht } ms :=
  ⟨h.member, h.lost, h.nodup, h.young, h.members⟩

/-! ### The table -/

theorem htSet (hp : ms.Perm (x :: rest))
    (hf : Htab.Filed istrHash istrFold (recs rest) t.memberHt)
    (hnew : ∀ m ∈ rest, istrFold m.nick ≠ istrFold x.nick) :
    Gives (t.htSet x.addr) fun t' => Chain t' ms ∧
      Htab.Filed istrHash istrFold (recs ms) t'.memberHt := by
  have hx : x ∈ ms := hp.mem_iff.2 mem_cons_self
  have hreads : Htab.Reads t.nickAt (recs rest) :=
    h.reads fun m hm => hp.mem_iff.2 (mem_cons_of_mem x hm)
  obtain ⟨ht, hset, hfiled⟩ := hf.set (r := (x.addr, x.nick)) hreads fun q hq => by
    obtain ⟨m, hm, rfl⟩ := mem_map.1 hq
    exact hnew m hm
  rw [Table.htSet, h.deref_eq hx]
  refine Gives.bind (Gives.ok rfl) ?_
  rintro _ rfl
  rw [hset]
  exact Gives.ok ⟨h.withHt ht, hfiled.perm (recs_perm hp.symm)⟩

theorem htDel (hp : ms.Perm (x :: rest)) (hfolds : (ms.map fun m => istrFold m.nick).Nodup)
    (hf : Htab.Filed istrHash istrFold (recs ms) t.memberHt) :
    Gives (t.htDel x.nick) fun t' => (∃ ht, t' = { t with memberHt := ht }) ∧
      Htab.Filed istrHash istrFold (recs rest) t'.memberHt := by
  have hfiled : Htab.Filed istrHash istrFold ((x.addr, x.nick) :: recs rest) t.memberHt :=
    hf.perm (recs_perm hp)
  have hreads : Htab.Reads t.nickAt (recs (x :: rest)) := h.reads hp.symm.subset
  have hnd : ((recs (x :: rest)).map fun r => istrFold r.2).Nodup := by
    rw [recs, map_map]
    exact (hp.map _).nodup_iff.1 hfolds
  obtain ⟨ht, hdel, hrest⟩ := hfiled.del (k := x.nick) hreads hnd rfl
  rw [Table.htDel, hdel]
  exact Gives.ok ⟨⟨ht, rfl⟩, hrest⟩

end Chain

/-! ### The operations -/

namespace Holds

theorem init (n : ℕ) : Holds rfc (.initChannel [] n) [] := ⟨.init [] rfl n, .nil, .nil⟩

variable (h : Holds rfc t ms)

include h

theorem listed_eq : t.listed = ms := h.chain.listed_eq h.keyed.named

theorem ismember (nick : CStr) :
    t.ismember nick = .ok ((ms.find? fun m => istrFold m.nick = istrFold nick).map Member.addr) := by
  have hnd : ((recs ms).map fun r => istrFold r.2).Nodup := by
    rw [recs, map_map]
    exact h.keyed.folds
  rw [Table.ismember, h.filed.get_eq (h.chain.reads (Subset.refl ms)) hnd nick, recs, find?_map,
    Option.map_map]
  rfl

theorem ismember_cases (nick : CStr) :
    (t.ismember nick = .ok none ∧ ∀ m ∈ ms, istrFold m.nick ≠ istrFold nick) ∨
      ∃ m ∈ ms, t.ismember nick = .ok (some m.addr) ∧ istrFold m.nick = istrFold nick := by
  rw [h.ismember]
  cases hf : ms.find? fun m => istrFold m.nick = istrFold nick with
  | none =>
    rw [find?_eq_none] at hf
    exact .inl ⟨rfl, fun m hm hfold => hf m hm (decide_eq_true hfold)⟩
  | some m =>
    exact .inr ⟨m, mem_of_find?_eq_some hf, rfl, by simpa using find?_some hf⟩

theorem clear (n : ℕ) : Holds rfc (.initChannel t.lost n) [] :=
  ⟨.init _ h.chain.lost n, .nil, .nil⟩

theorem update (hm : m ∈ ms) {f : Member → Member}
    (hf : ∀ m, (f m).addr = m.addr ∧ (f m).nick = m.nick) :
    Holds rfc (t.update m.addr f) (edit m.addr f ms) := by
  have hrecs : recs (edit m.addr f ms) = recs ms := by
    rw [recs, recs, edit, map_map]
    refine map_congr_left fun x _ => ?_
    by_cases hx : x.addr = m.addr
    · simp [hx, hf]
    · simp [hx]
  have hnicks : ∀ x ∈ edit m.addr f ms, ∃ y ∈ ms, y.nick = x.nick := by
    intro x hx
    obtain ⟨y, hy, rfl⟩ := mem_map.1 hx
    refine ⟨y, hy, ?_⟩
    by_cases hym : y.addr = m.addr
    · rw [if_pos hym, (hf y).2]
    · rw [if_neg hym]
  refine ⟨h.chain.update hm fun m => (hf m).1, ⟨fun x hx => ?_, fun x hx => ?_, fun x hx => ?_, ?_⟩,
    by rw [hrecs]; exact h.filed⟩
  · obtain ⟨y, hy, hyx⟩ := hnicks x hx
    rw [Member.named, ← hyx]
    exact h.keyed.named y hy
  · obtain ⟨y, hy, hyx⟩ := hnicks x hx
    rw [← hyx]
    exact h.keyed.fits y hy
  · obtain ⟨y, hy, hyx⟩ := hnicks x hx
    rw [← hyx]
    exact h.keyed.plain y hy
  · have hfolds := congrArg (map fun r : ℕ × CStr => istrFold r.2) hrecs
    rw [recs, recs, map_map, map_map] at hfolds
    exact hfolds ▸ h.keyed.folds

theorem remove (hm : m ∈ ms) :
    Gives (t.remove m) fun t' => Holds rfc t' (without m.addr ms) := by
  refine (h.chain.htDel (perm_without h.chain.nodup_ms hm) h.keyed.folds h.filed).bind ?_
  rintro _ ⟨⟨ht, rfl⟩, hfiled⟩
  exact Gives.ok ⟨(h.chain.withHt ht).unlink hm, h.keyed.sublist filter_sublist, hfiled⟩

theorem killmember (nick : CStr) :
    Gives (t.killmember rfc nick) fun t' =>
      Holds rfc t' (ms.filter fun m => istrFold m.nick ≠ istrFold nick) := by
  rw [Table.killmember, h.listed_eq, h.keyed.find_eq]
  cases hf : ms.find? fun m => istrFold m.nick = istrFold nick with
  | none =>
    rw [find?_eq_none] at hf
    have hfilter : (ms.filter fun m => istrFold m.nick ≠ istrFold nick) = ms :=
      filter_eq_self.2 fun m hm => decide_eq_true fun hfold => hf m hm (decide_eq_true hfold)
    rw [hfilter]
    exact Gives.ok h
  | some x =>
    have hx : x ∈ ms := mem_of_find?_eq_some hf
    have hfold : istrFold x.nick = istrFold nick := by simpa using find?_some hf
    have hfilter : (ms.filter fun m => istrFold m.nick ≠ istrFold nick) = without x.addr ms := by
      refine filter_congr fun m hm => decide_eq_decide.2 (not_congr ⟨fun hmn => ?_, fun hmx => ?_⟩)
      · rw [h.keyed.eq_of_fold hm hx (hmn.trans hfold.symm)]
      · rw [inj_on_of_nodup_map h.chain.nodup_ms hm hx hmx, hfold]
    refine (h.remove hx).bind fun t' h' => Gives.ok ?_
    rw [h'.chain.correct_eq, hfilter]
    exact h'

/-- `killmember` for the nick of a member that `ismember` gives. -/
theorem evict (nick : CStr) :
    Gives (t.evict rfc nick) fun t' =>
      Holds rfc t' (ms.filter fun m => istrFold m.nick ≠ istrFold nick) := by
  rw [Table.evict]
  rcases h.ismember_cases nick with ⟨hr, hno⟩ | ⟨m, hm, hr, hfold⟩
  · have hfilter : (ms.filter fun m => istrFold m.nick ≠ istrFold nick) = ms :=
      filter_eq_self.2 fun m hm => decide_eq_true (hno m hm)
    rw [hr, hfilter]
    exact Gives.ok h
  · rw [hr]
    refine Gives.bind (Gives.ok rfl) ?_
    rintro _ rfl
    dsimp only
    rw [h.chain.deref_eq hm, ← hfold]
    exact h.killmember m.nick

end Holds

/-- A nick can be stored beside those of the members. -/
structure Fresh (rfc : Bool) (ms : List Member) (nick : CStr) : Prop where
  ne_nil : nick.take nickMax ≠ []
  plain : rfc = true ∨ isPlain (nick.take nickMax) = true
  new : ∀ m ∈ ms, istrFold m.nick ≠ istrFold (nick.take nickMax)

theorem Keyed.setNick (h : Keyed rfc ms) (hfresh : Fresh rfc ms nick) (x : Member) :
    Keyed rfc (x.setNick nick :: ms) := by
  refine h.cons ?_ (length_take_le _ _) hfresh.plain hfresh.new
  rw [Member.named, Member.setNick]
  simpa using hfresh.ne_nil

theorem Chain.enter (h : Chain t (ms ++ [z])) (hk : Keyed rfc ms)
    (hf : Htab.Filed istrHash istrFold (recs ms) t.memberHt) (hfresh : Fresh rfc ms nick) :
    Gives ((t.update z.addr (Member.setNick nick)).htSet z.addr) fun t' =>
      Holds rfc t' (ms ++ [z.setNick nick]) := by
  have hne : ∀ m ∈ ms, m.addr ≠ z.addr := by
    have hnd := h.nodup_ms
    rw [map_append, nodup_append] at hnd
    exact fun m hm => hnd.2.2 _ (mem_map_of_mem hm) _ (mem_singleton_self _)
  have h₁ := h.update (mem_append_right _ (mem_singleton_self z)) (f := Member.setNick nick)
    fun _ => rfl
  rw [edit_append_singleton hne] at h₁
  have hp : (ms ++ [z.setNick nick]).Perm (z.setNick nick :: ms) := perm_append_singleton _ _
  refine (h₁.htSet hp hf hfresh.new).mono ?_
  rintro t' ⟨hchain, hfiled⟩
  exact ⟨hchain, (hk.setNick hfresh z).perm hp.symm, hfiled⟩

namespace Holds

theorem newmember (h : Holds rfc t ms) (f : Member → Member) (hf : ∀ m, (f m).addr = m.addr) :
    ∃ z t', t.newmember = .ok (z.addr, t') ∧ Chain (t'.update z.addr f) (ms ++ [f z]) ∧
      (t'.update z.addr f).memberHt = t.memberHt := by
  obtain ⟨z, t', hnew, hchain, hht⟩ := h.chain.newmember h.keyed.named
  have hne : ∀ m ∈ ms, m.addr ≠ z.addr := by
    have hnd := hchain.nodup_ms
    rw [map_append, nodup_append] at hnd
    exact fun m hm => hnd.2.2 _ (mem_map_of_mem hm) _ (mem_singleton_self _)
  refine ⟨z, t', hnew, ?_, hht⟩
  rw [← edit_append_singleton hne]
  exact hchain.update (mem_append_right _ (mem_singleton_self z)) hf

theorem join (h : Holds rfc t ms) (hfresh : Fresh rfc ms nick) (uhost : CStr) :
    Gives (t.join nick uhost) fun t' => ∃ ms', Holds rfc t' ms' := by
  obtain ⟨z, t₁, hnew, hchain, hht⟩ :=
    h.newmember (fun m => { m with split := 0, whoSynced := false }) fun _ => rfl
  rw [Table.join, hnew]
  refine Gives.bind (Gives.ok rfl) ?_
  rintro _ rfl
  refine (hchain.enter h.keyed (hht ▸ h.filed) hfresh).bind fun t₂ h₂ => Gives.ok ?_
  exact ⟨_, h₂.update (f := Member.setUserhost uhost)
    (mem_append_right _ (mem_singleton_self _)) fun _ => ⟨rfl, rfl⟩⟩

/-- `got352or4` fills a member in. -/
theorem fill (h : Holds rfc t ms) (hm : m ∈ ms) (uhost : CStr) :
    ∃ ms', Holds rfc ((t.update m.addr (Member.setUserhost uhost)).update m.addr
      fun m => { m with whoSynced := true }) ms' := by
  have h₁ := h.update hm (f := Member.setUserhost uhost) fun _ => ⟨rfl, rfl⟩
  have hm₁ : m.setUserhost uhost ∈ edit m.addr (Member.setUserhost uhost) ms :=
    (edit_perm h.chain.nodup_ms hm _).mem_iff.2 mem_cons_self
  exact ⟨_, h₁.update hm₁ (f := fun m => { m with whoSynced := true }) fun _ => ⟨rfl, rfl⟩⟩

theorem rewrite (h : Holds rfc t ms) (hm : m ∈ ms) (hfold : istrFold m.nick = istrFold nick) :
    Gives ((t.update m.addr (Member.setNick nick)).htSet m.addr) fun t' =>
      Holds rfc t' (edit m.addr (Member.setNick nick) ms) := by
  have hlen : m.nick.length = nick.length := by
    have := congrArg length hfold
    simpa [istrFold] using this
  have htake : nick.take nickMax = nick := take_of_length_le (hlen ▸ h.keyed.fits m hm)
  have hp := edit_perm h.chain.nodup_ms hm (Member.setNick nick)
  have hp' := perm_without h.chain.nodup_ms hm
  have hfresh : Fresh rfc (without m.addr ms) nick := by
    refine ⟨?_, ?_, fun x hx hxn => ?_⟩
    · rw [htake]
      rintro rfl
      have hnamed := h.keyed.named m hm
      rw [Member.named, length_eq_zero_iff.1 hlen] at hnamed
      cases hnamed
    · rw [htake]
      refine (h.keyed.plain m hm).imp_right fun hplain => ?_
      rw [← isPlain_congr (strcaseEq_of_istrFold hplain hfold)]
      exact hplain
    · rw [htake, ← hfold] at hxn
      obtain ⟨hx, hne⟩ := mem_filter.1 hx
      exact of_decide_eq_true hne (congrArg Member.addr (h.keyed.eq_of_fold hx hm hxn))
  have hkeyed : Keyed rfc (edit m.addr (Member.setNick nick) ms) :=
    ((h.keyed.sublist filter_sublist).setNick hfresh m).perm hp.symm
  have hchain := h.chain.update hm (f := Member.setNick nick) fun _ => rfl
  have hfiled : Htab.Filed istrHash istrFold (recs (edit m.addr (Member.setNick nick) ms))
      t.memberHt := by
    have hslot : Htab.slotOf istrHash istrFold (m.addr, m.nick) =
        Htab.slotOf istrHash istrFold (m.addr, nick.take nickMax) := by
      rw [Htab.slotOf, Htab.slotOf, htake, hfold]
    have hf : Htab.Filed istrHash istrFold (recs (m :: without m.addr ms)) t.memberHt :=
      h.filed.perm (recs_perm hp')
    have hf' : Htab.Filed istrHash istrFold
        (recs (m.setNick nick :: without m.addr ms)) t.memberHt := by
      rw [Htab.Filed, recs, map_cons, map_cons, hslot] at hf
      exact hf
    exact hf'.perm (recs_perm hp.symm)
  have hmem : m.setNick nick ∈ edit m.addr (Member.setNick nick) ms :=
    hp.mem_iff.2 mem_cons_self
  have hnd : ((recs (edit m.addr (Member.setNick nick) ms)).map fun r => istrFold r.2).Nodup := by
    rw [recs, map_map]
    exact hkeyed.folds
  have hset := hfiled.set_self (hchain.reads (Subset.refl _)) hnd
    (mem_map_of_mem (f := fun m => (m.addr, m.nick)) hmem)
  rw [Table.htSet, show (t.update m.addr (Member.setNick nick)).deref m.addr = .ok (m.setNick nick)
    from hchain.deref_eq hmem]
  refine Gives.bind (Gives.ok rfl) ?_
  rintro _ rfl
  rw [show Htab.set istrHash istrFold (t.update m.addr (Member.setNick nick)).nickAt
    (t.update m.addr (Member.setNick nick)).memberHt m.addr (m.setNick nick).nick m.addr =
      some t.memberHt from hset]
  exact Gives.ok ⟨hchain.withHt _, hkeyed, hfiled⟩

theorem rename (h : Holds rfc t ms) (hm : m ∈ ms) (hfresh : Fresh rfc (without m.addr ms) nick) :
    Gives (t.rename m.addr nick) fun t' =>
      Holds rfc t' (edit m.addr (Member.setNick nick) ms) := by
  have hp := edit_perm h.chain.nodup_ms hm (Member.setNick nick)
  rw [Table.rename, h.chain.deref_eq hm]
  refine Gives.bind (Gives.ok rfl) ?_
  rintro _ rfl
  rw [if_pos (h.keyed.named _ hm)]
  refine (h.chain.htDel (perm_without h.chain.nodup_ms hm) h.keyed.folds h.filed).bind ?_
  rintro _ ⟨⟨ht, rfl⟩, hfiled⟩
  have hchain := (h.chain.withHt ht).update hm (f := Member.setNick nick) fun _ => rfl
  refine (hchain.htSet hp hfiled hfresh.new).mono ?_
  rintro t' ⟨hchain', hfiled'⟩
  exact ⟨hchain', ((h.keyed.sublist filter_sublist).setNick hfresh _).perm hp.symm, hfiled'⟩

/-! ### The loops -/

theorem removeAll (p : Member → Bool) {l : List Member} (h : Holds rfc t ms) (hl : l ⊆ ms)
    (hnd : (l.map Member.addr).Nodup) :
    Gives (Table.removeAll p l t) fun t' => ∃ ms', Holds rfc t' ms' := by
  induction l generalizing t ms with
  | nil => exact Gives.ok ⟨ms, h⟩
  | cons m l ih =>
    rw [map_cons, nodup_cons] at hnd
    rw [Table.removeAll]
    by_cases hp : p m = true
    · rw [if_pos hp]
      refine (h.remove (hl mem_cons_self)).bind fun t' h' => ih h' (fun x hx => ?_) hnd.2
      refine mem_filter.2 ⟨hl (mem_cons_of_mem m hx), decide_eq_true fun hxm => ?_⟩
      exact hnd.1 (hxm ▸ mem_map_of_mem hx)
    · rw [if_neg hp]
      exact ih h (fun x hx => hl (mem_cons_of_mem m hx)) hnd.2

theorem syncMembers (h : Holds rfc t ms) :
    Gives t.syncMembers fun t' => ∃ ms', Holds rfc t' ms' := by
  rw [Table.syncMembers, h.listed_eq]
  exact h.removeAll _ (Subset.refl ms) h.chain.nodup_ms

theorem expire (now waitSplit : ℤ) (l : List Member) (h : Holds rfc t ms) :
    Gives (Table.expire rfc now waitSplit l t) fun t' => ∃ ms', Holds rfc t' ms' := by
  induction l generalizing t ms with
  | nil => exact Gives.ok ⟨ms, h⟩
  | cons m l ih =>
    rw [Table.expire]
    by_cases hlost : m.split ≠ 0 ∧ waitSplit < now - m.split
    · rw [if_pos hlost]
      exact (h.killmember m.nick).bind fun t' h' => ih h'
    · rw [if_neg hlost]
      exact ih h

end Holds

theorem removeAll_of_false {p : Member → Bool} {l : List Member} (h : ∀ m ∈ l, p m = false) :
    Table.removeAll p l t = .ok t := by
  induction l with
  | nil => rfl
  | cons m l ih =>
    rw [Table.removeAll, if_neg (by simp [h m])]
    exact ih fun x hx => h x (mem_cons_of_mem m hx)

/-- Where no two nicks are equal, `got315` takes nobody out. -/
theorem dedup_of_pairwise {l : List Member}
    (h : l.Pairwise fun mi mj => caseEq rfc mi.nick mj.nick = false) :
    Table.dedup rfc l t = .ok t := by
  induction l with
  | nil => rfl
  | cons mi l ih =>
    rw [pairwise_cons] at h
    have hkeep : Table.removeAll (fun mj => t.member.any (·.addr = mj.addr) &&
        caseEq rfc mi.nick mj.nick) l t = .ok t :=
      removeAll_of_false fun mj hmj => by rw [h.1 mj hmj, Bool.and_false]
    rw [Table.dedup, hkeep, ite_self]
    exact ih h.2

theorem Keyed.pairwise (h : Keyed rfc ms) :
    ms.Pairwise fun mi mj => caseEq rfc mi.nick mj.nick = false := by
  refine (pairwise_map.1 h.folds).imp_of_mem fun {mi mj} hmi _ hne => ?_
  exact Bool.eq_false_iff.2 fun hsame => hne ((h.caseEq_iff hmi _).1 hsame)

end Eggdrop.Members
