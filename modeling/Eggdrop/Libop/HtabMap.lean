import Mathlib.Data.List.Pairwise
import Eggdrop.Libop.HtabProbe

/-!
# HtabMap — the hash table as a map

Abstractly a table is a map from keys, as far as the equality of keys tells them apart, to values.

* `Refines`: a table that is in order, and the map it stands for.
* `set_refines`, `del_refines`, `get_refines`, `compact_refines`, `iterDel_refines`: the operations
  end, and do what they should.
* `Run.refines`: a table stays in order whatever is done with it.
-/

namespace Eggdrop.OpHtab

open Function Slots List

variable {κ ν : Type*}

/-! ### Lists of entries -/

/-- The value under a key. -/
def lookup (K : Keys κ) (l : List (Slot κ ν)) (key : κ) : Option ν :=
  (l.find? fun s => K.eqFn s.key key).map (·.val)

/-- Each entry has the hash of its key, and no two have equal keys. -/
structure Good (K : Keys κ) (l : List (Slot κ ν)) : Prop where
  hashed : ∀ s ∈ l, s.hash = fixHash (K.hashFn s.key)
  once : l.Pairwise fun a b => K.eqFn a.key b.key = false

variable {K : Keys κ} {l l' : List (Slot κ ν)} {s : Slot κ ν} {key : κ} {val : ν}

theorem eqFn_comm (K : Keys κ) (a b : κ) : K.eqFn a b = K.eqFn b a :=
  Bool.eq_iff_iff.2 ⟨K.symm, K.symm⟩

theorem eqFn_congr {a b : κ} (h : K.eqFn a b = true) (c : κ) : K.eqFn a c = K.eqFn b c :=
  Bool.eq_iff_iff.2 ⟨fun hc => K.trans (K.symm h) hc, fun hc => K.trans h hc⟩

theorem good_nil (K : Keys κ) : Good K ([] : List (Slot κ ν)) :=
  ⟨fun _ hs => absurd hs not_mem_nil, .nil⟩

theorem Good.perm (h : Good K l) (hp : l.Perm l') : Good K l' where
  hashed s hs := h.hashed s (hp.mem_iff.2 hs)
  once := by
    refine (hp.pairwise_iff fun {a b} hab => ?_).1 h.once
    rwa [eqFn_comm]

theorem good_cons_iff : Good K (s :: l) ↔
    s.hash = fixHash (K.hashFn s.key) ∧ (∀ x ∈ l, K.eqFn x.key s.key = false) ∧ Good K l := by
  constructor
  · intro h
    obtain ⟨hs, hl⟩ := forall_mem_cons.1 h.hashed
    obtain ⟨hne, honce⟩ := pairwise_cons.1 h.once
    exact ⟨hs, fun x hx => (eqFn_comm K _ _).trans (hne x hx), hl, honce⟩
  · rintro ⟨hs, hne, hl⟩
    exact ⟨forall_mem_cons.2 ⟨hs, hl.hashed⟩,
      pairwise_cons.2 ⟨fun x hx => (eqFn_comm K _ _).trans (hne x hx), hl.once⟩⟩

theorem lookup_cons (K : Keys κ) (s : Slot κ ν) (l : List (Slot κ ν)) (key : κ) :
    lookup K (s :: l) key = if K.eqFn s.key key = true then some s.val else lookup K l key := by
  rw [lookup, find?_cons]
  cases K.eqFn s.key key with
  | true => rfl
  | false => rfl

theorem lookup_of_none (h : ∀ s ∈ l, K.eqFn s.key key = false) : lookup K l key = none := by
  rw [lookup, find?_eq_none.2 fun s hs => Bool.eq_false_iff.1 (h s hs)]
  rfl

theorem lookup_perm (h : Good K l) (hp : l.Perm l') (key : κ) :
    lookup K l key = lookup K l' key := by
  induction hp with
  | nil => rfl
  | cons s hp ih => rw [lookup_cons, lookup_cons, ih (good_cons_iff.1 h).2.2]
  | swap a b l =>
    rw [lookup_cons, lookup_cons, lookup_cons, lookup_cons]
    have hne := (good_cons_iff.1 h).2.1 a mem_cons_self
    by_cases ha : K.eqFn a.key key = true
    · have hb : ¬K.eqFn b.key key = true := by
        intro hb
        rw [K.trans ha (K.symm hb)] at hne
        cases hne
      rw [if_pos ha, if_neg hb, if_pos ha]
    · rw [if_neg ha, if_neg ha]
  | trans hp _ ih ih' => rw [ih h, ih' (h.perm hp)]

theorem countP_eq_one (h : Good K l) (hs : s ∈ l) :
    l.countP (fun x => K.eqFn x.key s.key) = 1 := by
  induction l with
  | nil => exact absurd hs not_mem_nil
  | cons x l ih =>
    obtain ⟨-, hne, hl⟩ := good_cons_iff.1 h
    rw [countP_cons]
    rcases mem_cons.1 hs with rfl | hs
    · have hrest : l.countP (fun x => K.eqFn x.key s.key) = 0 :=
        countP_eq_zero.2 fun y hy => Bool.eq_false_iff.1 (hne y hy)
      rw [hrest, if_pos (K.refl s.key)]
    · have hx : ¬K.eqFn x.key s.key = true := by
        rw [eqFn_comm, hne s hs]
        exact Bool.false_ne_true
      rw [if_neg hx, ih hl hs]

/-! ### Tables in order -/

/-- A table in order: it has room, searches may end early, and its entries are good. -/
structure Inv (K : Keys κ) (t : Table κ ν) : Prop where
  cap : 16 ≤ t.cap
  count : t.count = (entries t.cap t.slots).length
  room : t.count < t.cap
  robin : Robin t.cap t.slots
  good : Good K (entries t.cap t.slots)

/-- A table in order, and the map it stands for. -/
structure Refines (K : Keys κ) (t : Table κ ν) (m : κ → Option ν) : Prop where
  inv : Inv K t
  eq : ∀ key, lookup K (entries t.cap t.slots) key = m key

/-- The map with a value under a key. -/
def mapSet (K : Keys κ) (m : κ → Option ν) (key : κ) (val : ν) : κ → Option ν :=
  fun k => if K.eqFn key k = true then some val else m k

/-- The map without a key. -/
def mapDel (K : Keys κ) (m : κ → Option ν) (key : κ) : κ → Option ν :=
  fun k => if K.eqFn key k = true then none else m k

variable {t t' : Table κ ν} {m : κ → Option ν}

theorem Inv.of_perm (h : Inv K t) (hcap : 16 ≤ t'.cap) (hcount : t'.count = t.count)
    (hroom : t.count < t'.cap) (hrobin : Robin t'.cap t'.slots)
    (hperm : (entries t'.cap t'.slots).Perm (entries t.cap t.slots)) : Inv K t' where
  cap := hcap
  count := by rw [hcount, h.count, hperm.length_eq]
  room := hcount ▸ hroom
  robin := hrobin
  good := h.good.perm hperm.symm

/-- A search ends, and finds an entry with the key if there is one. -/
theorem findIdx_spec (h : Inv K t) (key : κ) :
    (findIdx K t key (fixHash (K.hashFn key)) = some none ∧
      ∀ s ∈ entries t.cap t.slots, K.eqFn s.key key = false) ∨
    ∃ i s, findIdx K t key (fixHash (K.hashFn key)) = some (some i) ∧ i < t.cap ∧
      t.slots i = some s ∧ K.eqFn s.key key = true := by
  have hcap := h.cap
  have hhome := home_lt (by omega : 0 < t.cap) (fixHash (K.hashFn key))
  rw [findIdx]
  obtain ⟨r, hr⟩ : ∃ r, findLoop K t.cap t.slots key (fixHash (K.hashFn key)) (t.cap + 1)
      (home t.cap (fixHash (K.hashFn key))) 0 = some r :=
    findLoop_ends hhome (Nat.zero_le _) (by omega)
  cases r with
  | none =>
    refine .inl ⟨hr, fun s hs => ?_⟩
    obtain ⟨j, hj, hslot⟩ := mem_entries.1 hs
    rw [← Bool.not_eq_true]
    intro hkey
    have hhash : s.hash = fixHash (K.hashFn key) := by rw [h.good.hashed s hs, K.hash_eq hkey]
    have hfound := findLoop_complete (f := t.cap + 1) h.robin hj hslot hkey (Nat.zero_le _)
    have hat : wrap t.cap (home t.cap s.hash + 0) = home t.cap s.hash :=
      if_pos (home_lt (by omega : 0 < t.cap) s.hash)
    rw [hat, hhash] at hfound
    exact hfound hr
  | some i =>
    obtain ⟨hi, s, hslot, -, hkey⟩ := findLoop_sound hhome hr
    exact .inr ⟨i, s, hr, hi, hslot, hkey⟩

theorem get_refines (h : Refines K t m) (key : κ) : get K t key = some (m key) := by
  rw [get, ← h.eq key]
  rcases findIdx_spec h.inv key with ⟨hnone, hno⟩ | ⟨i, s, hfound, hi, hslot, hkey⟩
  · rw [hnone, lookup_of_none hno]
    rfl
  · rw [hfound, lookup_perm h.inv.good (perm_erase hi hslot).symm, lookup_cons, if_pos hkey]
    show some ((t.slots i).map (·.val)) = _
    rw [hslot]
    rfl

/-! ### The operations -/

theorem le_nextPow2 (n : ℕ) : n ≤ nextPow2 n ∧ 16 ≤ nextPow2 n := by
  unfold nextPow2
  split
  · omega
  · next hn =>
    have hle : n - 1 ≤ nextPow2 n - 1 := by
      unfold nextPow2
      rw [if_neg hn]
      exact (((((Nat.left_le_or.trans Nat.left_le_or).trans Nat.left_le_or).trans
        Nat.left_le_or).trans Nat.left_le_or).trans Nat.left_le_or)
    unfold nextPow2 at hle
    rw [if_neg hn] at hle
    dsimp only at hle ⊢
    omega

theorem foldlM_insertSlot {newCap : ℕ} (hcap : 1 < newCap) (slots : ℕ → Option (Slot κ ν))
    {is : List ℕ} {new : ℕ → Option (Slot κ ν)} (hr : Robin newCap new)
    (hroom : (is.filterMap slots).length + (entries newCap new).length < newCap) :
    ∃ new', is.foldlM (moveSlot newCap slots) new = some new' ∧ Robin newCap new' ∧
      (entries newCap new').Perm (is.filterMap slots ++ entries newCap new) := by
  induction is generalizing new with
  | nil => exact ⟨new, rfl, hr, .refl _⟩
  | cons i is ih =>
    rw [foldlM_cons, moveSlot]
    cases hslot : slots i with
    | none =>
      rw [filterMap_cons_none hslot] at hroom ⊢
      exact ih hr hroom
    | some s =>
      rw [filterMap_cons_some hslot] at hroom ⊢
      rw [length_cons] at hroom
      obtain ⟨new₁, hrun, hr₁, hperm⟩ := insertSlot_spec hcap hr (by omega) s
      have hlen := hperm.length_eq
      rw [length_cons] at hlen
      obtain ⟨new', hrun', hr', hperm'⟩ := ih hr₁ (by omega)
      refine ⟨new', ?_, hr', ?_⟩
      · show (insertSlot newCap new s).bind _ = _
        rw [hrun]
        exact hrun'
      · exact (hperm'.trans (hperm.append_left _)).trans perm_middle

theorem resize_spec (h : Inv K t) {newCap : ℕ} (hcap : 16 ≤ newCap) (hroom : t.count < newCap) :
    ∃ t', resize t newCap = some t' ∧ t'.cap = newCap ∧ t'.count = t.count ∧
      Robin newCap t'.slots ∧ (entries newCap t'.slots).Perm (entries t.cap t.slots) := by
  have hentries : (range' 0 t.cap).filterMap t.slots = entries t.cap t.slots := rfl
  have hlen : ((range' 0 t.cap).filterMap t.slots).length +
      (entries newCap fun _ => (none : Option (Slot κ ν))).length < newCap := by
    rw [hentries, entries_empty, length_nil, ← h.count]
    exact hroom
  obtain ⟨new, hrun, hr, hperm⟩ := foldlM_insertSlot (by omega) t.slots (robin_empty newCap) hlen
  rw [hentries, entries_empty, append_nil] at hperm
  refine ⟨{ t with slots := new, cap := newCap }, ?_, rfl, rfl, hr, hperm⟩
  rw [resize, hrun]
  rfl

theorem resize_refines (h : Refines K t m) {newCap : ℕ} (hcap : 16 ≤ newCap)
    (hroom : t.count < newCap) :
    ∃ t', resize t newCap = some t' ∧ t'.cap = newCap ∧ t'.count = t.count ∧ Refines K t' m := by
  obtain ⟨t', hrun, hc, hcount, hr, hperm⟩ := resize_spec h.inv hcap hroom
  subst hc
  refine ⟨t', hrun, rfl, hcount, h.inv.of_perm hcap hcount hroom hr hperm, fun key => ?_⟩
  rw [← h.eq key, lookup_perm h.inv.good hperm.symm]

theorem compact_refines (h : Refines K t m) : ∃ t', compact t = some t' ∧ Refines K t' m := by
  have hpow := le_nextPow2 (t.count * 2 + 1)
  rw [compact]
  split
  · obtain ⟨t', hrun, -, -, href⟩ := resize_refines h hpow.2 (by omega)
    exact ⟨t', hrun, href⟩
  · exact ⟨t, rfl, h⟩

theorem maybeGrow_refines (h : Refines K t m) :
    ∃ t', maybeGrow t = some t' ∧ t'.count + 1 < t'.cap ∧ Refines K t' m := by
  have hcap := h.inv.cap
  have hroom := h.inv.room
  rw [maybeGrow]
  split
  · obtain ⟨t', hrun, hc, hcount, href⟩ :=
      resize_refines h (by omega : 16 ≤ t.cap * 2) (by omega)
    exact ⟨t', hrun, by omega, href⟩
  · exact ⟨t, rfl, by omega, h⟩

theorem set_refines (h : Refines K t m) (key : κ) (val : ν) :
    ∃ t', set K t key val = some (t', m key) ∧ Refines K t' (mapSet K m key val) := by
  have hold := h.eq key
  rw [set]
  rcases findIdx_spec h.inv key with ⟨hnone, hno⟩ | ⟨i, s, hfound, hi, hslot, hkey⟩
  · obtain ⟨t₁, hgrow, hroom, h₁⟩ := maybeGrow_refines h
    have hcap := h₁.inv.cap
    have hno₁ : ∀ x ∈ entries t₁.cap t₁.slots, K.eqFn x.key key = false := by
      intro x hx
      rw [← Bool.not_eq_true]
      intro hxk
      -- the table is the same map before and after it grows
      have hlook : (lookup K (entries t₁.cap t₁.slots) key).isSome = true := by
        rw [lookup, Option.isSome_map, find?_isSome]
        exact ⟨x, hx, hxk⟩
      rw [h₁.eq key, ← hold, lookup_of_none hno] at hlook
      cases hlook
    obtain ⟨slots, hins, hr, hperm⟩ := insertSlot_spec (by omega) h₁.inv.robin
      (h₁.inv.count ▸ h₁.inv.room) ⟨fixHash (K.hashFn key), key, val⟩
    have hgood : Good K (⟨fixHash (K.hashFn key), key, val⟩ :: entries t₁.cap t₁.slots) :=
      good_cons_iff.2 ⟨rfl, hno₁, h₁.inv.good⟩
    refine ⟨{ t₁ with slots, count := t₁.count + 1 }, ?_, ⟨hcap, ?_, hroom, hr, hgood.perm hperm.symm⟩,
      fun k => ?_⟩
    · rw [hnone, ← hold, lookup_of_none hno]
      show (maybeGrow t).bind _ = _
      rw [hgrow]
      show Option.map _ (insertSlot t₁.cap t₁.slots _) = _
      rw [hins]
      rfl
    · show t₁.count + 1 = (entries t₁.cap slots).length
      rw [hperm.length_eq, length_cons, h₁.inv.count]
    · show lookup K (entries t₁.cap slots) k = _
      rw [lookup_perm (hgood.perm hperm.symm) hperm, lookup_cons, h₁.eq k]
      rfl
  · -- the entry keeps its slot and its key
    have hout := perm_erase hi hslot
    have hin := perm_insert hi t.slots { s with val := val }
    have hgood := good_cons_iff.1 (h.inv.good.perm hout.symm)
    have hgood' : Good K (entries t.cap (update t.slots i (some { s with val := val }))) :=
      (good_cons_iff.2 ⟨hgood.1, hgood.2.1, hgood.2.2⟩ : Good K ({ s with val := val } :: _)).perm hin
    refine ⟨{ t with slots := update t.slots i (some { s with val := val }) }, ?_,
      ⟨h.inv.cap, ?_, h.inv.room, fun j hj => ?_, hgood'⟩, fun k => ?_⟩
    · rw [hfound, ← hold, lookup_perm h.inv.good hout.symm, lookup_cons, if_pos hkey]
      show (t.slots i).map _ = _
      rw [hslot]
      rfl
    · show t.count = (entries t.cap (update t.slots i _)).length
      rw [h.inv.count, ← hout.length_eq, ← hin.length_eq, length_cons, length_cons]
    · have hsame (q : ℕ) : depth t.cap (update t.slots i (some { s with val := val })) q =
          depth t.cap t.slots q := by
        by_cases hq : q = i
        · rw [hq, depth_of_some (update_self _ _ _), depth_of_some hslot]
        · exact depth_congr (update_of_ne hq _ _)
      show depth t.cap (update t.slots i _) _ ≤ depth t.cap (update t.slots i _) _ + 1
      rw [hsame, hsame]
      exact h.inv.robin j hj
    · show lookup K (entries t.cap (update t.slots i _)) k = _
      rw [lookup_perm hgood' hin.symm, mapSet, ← h.eq k, lookup_perm h.inv.good hout.symm,
        lookup_cons, lookup_cons, eqFn_congr hkey]
      split <;> rfl

/-- What a deletion at a slot leaves. -/
theorem delAt_spec (h : Inv K t) {i : ℕ} (hi : i < t.cap) (hslot : t.slots i = some s) :
    ∃ n, Moves t.cap t.slots i n ∧
      delAt t i = some { t with slots := deleted t.cap t.slots i n, count := t.count - 1 } ∧
      (s :: entries t.cap (deleted t.cap t.slots i n)).Perm (entries t.cap t.slots) := by
  have hcap := h.cap
  obtain ⟨e, he, hnone⟩ := exists_none (h.count ▸ h.room)
  have hne : e ≠ i := by
    rintro rfl
    rw [hnone] at hslot
    cases hslot
  have hpos : 0 < off t.cap i e := by
    rw [off]
    split <;> omega
  have hlt := off_lt hi he
  obtain ⟨n, hmoves, hrun⟩ := delLoop_spec (f := t.cap + 1) hi he hnone hpos (by omega)
    fun c hc => absurd hc (Nat.not_lt_zero c)
  have hstart : wrap t.cap (i + 0) = i := if_pos hi
  rw [shifted_zero, hstart] at hrun
  refine ⟨n, hmoves, ?_, ?_⟩
  · rw [delAt, hrun]
    rfl
  · exact ((delLoop_perm (by omega) hi hrun).cons s).trans (perm_erase hi hslot)

theorem delAt_refines (h : Refines K t m) {i : ℕ} (hi : i < t.cap) (hslot : t.slots i = some s)
    {key : κ} (hkey : K.eqFn s.key key = true) :
    ∃ t', delAt t i = some t' ∧ Refines K t' (mapDel K m key) := by
  obtain ⟨n, hmoves, hrun, hperm⟩ := delAt_spec h.inv hi hslot
  have hgood := h.inv.good.perm hperm.symm
  have hlen := hperm.length_eq
  have hroom := h.inv.room
  have hcount := h.inv.count
  rw [length_cons] at hlen
  refine ⟨_, hrun, ⟨h.inv.cap, ?_, ?_, robin_deleted h.inv.robin hi hmoves,
    (good_cons_iff.1 hgood).2.2⟩, fun k => ?_⟩
  · show t.count - 1 = (entries t.cap (deleted t.cap t.slots i n)).length
    omega
  · show t.count - 1 < t.cap
    omega
  · show lookup K (entries t.cap (deleted t.cap t.slots i n)) k = mapDel K m key k
    rw [mapDel, ← h.eq k, lookup_perm h.inv.good hperm.symm, lookup_cons, eqFn_congr hkey]
    split
    · next hk =>
      refine lookup_of_none fun x hx => ?_
      rw [← Bool.not_eq_true]
      intro hxk
      have hne := (good_cons_iff.1 hgood).2.1 x hx
      rw [K.trans hxk (K.symm (K.trans hkey hk))] at hne
      cases hne
    · rfl

theorem del_refines (h : Refines K t m) (key : κ) :
    ∃ t', del K t key = some (t', m key) ∧ Refines K t' (mapDel K m key) := by
  have hold := h.eq key
  rw [del]
  rcases findIdx_spec h.inv key with ⟨hnone, hno⟩ | ⟨i, s, hfound, hi, hslot, hkey⟩
  · refine ⟨t, ?_, h.inv, fun k => ?_⟩
    · rw [hnone, ← hold, lookup_of_none hno]
    · rw [mapDel, h.eq k]
      split
      · next hk =>
        rw [← h.eq k]
        refine lookup_of_none fun x hx => ?_
        rw [eqFn_comm, ← eqFn_congr hk, eqFn_comm]
        exact hno x hx
      · rfl
  · obtain ⟨t', hrun, href⟩ := delAt_refines h hi hslot hkey
    refine ⟨t', ?_, href⟩
    rw [hfound, ← hold, lookup_perm h.inv.good (perm_erase hi hslot).symm, lookup_cons, if_pos hkey]
    show (delAt t i).map _ = _
    rw [hrun]
    show some (t', (t.slots i).map (·.val)) = _
    rw [hslot]
    rfl

/-- The map without the key of what was removed, if anything was. -/
def mapRemove (K : Keys κ) (m : κ → Option ν) : Option (Slot κ ν) → κ → Option ν
  | none => m
  | some s => mapDel K m s.key

theorem iterDel_refines (h : Refines K t m) (it : Iter) :
    ∃ t' it' removed, iterDel t it = some (t', it', removed) ∧
      Refines K t' (mapRemove K m removed) := by
  rw [iterDel]
  cases hcur : it.cur.filter (· < t.cap) with
  | none => exact ⟨t, it, none, rfl, h⟩
  | some i =>
    dsimp only
    have hi : i < t.cap := of_decide_eq_true (Option.filter_eq_some_iff.1 hcur).2
    cases hslot : t.slots i with
    | none => exact ⟨t, it, none, rfl, h⟩
    | some s =>
      obtain ⟨t', hrun, href⟩ := delAt_refines h hi hslot (K.refl s.key)
      refine ⟨t', ⟨i, none⟩, some s, ?_, href⟩
      show (delAt t i).map _ = _
      rw [hrun]
      rfl

/-! ### Runs -/

/-- The tables that a table can become, each with the map it should stand for. -/
inductive Run (K : Keys κ) : Table κ ν → (κ → Option ν) → Prop
  | create (initialCap : ℕ) : Run K (create initialCap) fun _ => none
  | set {t t' : Table κ ν} {m : κ → Option ν} {key : κ} {val : ν} {old : Option ν} :
    Run K t m → OpHtab.set K t key val = some (t', old) → Run K t' (mapSet K m key val)
  | del {t t' : Table κ ν} {m : κ → Option ν} {key : κ} {old : Option ν} :
    Run K t m → OpHtab.del K t key = some (t', old) → Run K t' (mapDel K m key)
  | compact {t t' : Table κ ν} {m : κ → Option ν} :
    Run K t m → OpHtab.compact t = some t' → Run K t' m
  /-- wherever an iterator stands -/
  | iterDel {t t' : Table κ ν} {m : κ → Option ν} {it it' : Iter} {removed : Option (Slot κ ν)} :
    Run K t m → OpHtab.iterDel t it = some (t', it', removed) → Run K t' (mapRemove K m removed)

theorem create_refines (K : Keys κ) (initialCap : ℕ) :
    Refines K (create initialCap : Table κ ν) fun _ => none := by
  have hcap := (le_nextPow2 initialCap).2
  have hnone : entries (nextPow2 initialCap) (fun _ => (none : Option (Slot κ ν))) = [] :=
    entries_empty _
  refine ⟨⟨hcap, ?_, ?_, robin_empty _, ?_⟩, fun key => ?_⟩
  · show 0 = (entries (nextPow2 initialCap) fun _ => (none : Option (Slot κ ν))).length
    rw [hnone, length_nil]
  · show 0 < nextPow2 initialCap
    omega
  · show Good K (entries (nextPow2 initialCap) fun _ => none)
    rw [hnone]
    exact good_nil K
  · show lookup K (entries (nextPow2 initialCap) fun _ => none) key = none
    rw [hnone]
    rfl

theorem Run.refines (h : Run K t m) : Refines K t m := by
  induction h with
  | create n => exact create_refines K n
  | set _ hset ih =>
    obtain ⟨t', hrun, href⟩ := set_refines ih _ _
    rw [hset] at hrun
    cases hrun
    exact href
  | del _ hdel ih =>
    obtain ⟨t', hrun, href⟩ := del_refines ih _
    rw [hdel] at hrun
    cases hrun
    exact href
  | compact _ hcompact ih =>
    obtain ⟨t', hrun, href⟩ := compact_refines ih
    rw [hcompact] at hrun
    cases hrun
    exact href
  | iterDel _ hdel ih =>
    obtain ⟨t', it', removed, hrun, href⟩ := iterDel_refines ih _
    rw [hdel] at hrun
    cases hrun
    exact href

end Eggdrop.OpHtab
