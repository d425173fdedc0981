import Eggdrop.Base.CString
import Eggdrop.Libop.HtabMap

/-!
# HtabIter — iteration with deletion

An iteration visits the slots in order, and `op_htab_iter_del` goes back to the slot whose entry it
removes.  The entries behind it move back by one; where that goes around the end of the table, the
entry of the first slot, visited before, comes to lie in the last one.

* `between_deleted`: a deletion that does not go around keeps the entries ahead, in their order.
* `Walk.visits_ahead`, `Walk.twice`: what a whole iteration visits.
* `htab_iff`: a table is a map in all runs, and when an iteration visits each entry once.
-/

namespace Eggdrop.OpHtab

open Function Slots List

variable {κ ν : Type*}

/-- The deletion at `i` moves an entry from the first slot to the last. -/
def Wraps (t : Table κ ν) (i : ℕ) : Prop :=
  (∀ j, i < j → j < t.cap → 2 ≤ depth t.cap t.slots j) ∧ 2 ≤ depth t.cap t.slots 0

instance (t : Table κ ν) (i : ℕ) : Decidable (Wraps t i) := by
  unfold Wraps
  refine @instDecidableAnd _ _ (decidable_of_iff (∀ j < t.cap, i < j → 2 ≤ depth t.cap t.slots j) ?_) _
  exact ⟨fun h j hi hj => h j hj hi, fun h j hj hi => h j hi hj⟩

/-- An iteration to its end: what it visits, each with whether it is removed then, and whether one of
the deletions wraps. -/
inductive Walk : Table κ ν → Iter → List (Slot κ ν × Bool) → Prop → Prop
  | done {t : Table κ ν} {it it' : Iter} : iterNext t it = (none, it') → Walk t it [] False
  | keep {t : Table κ ν} {it it' : Iter} {s : Slot κ ν} {ys : List (Slot κ ν × Bool)} {w : Prop} :
    iterNext t it = (some s, it') → Walk t it' ys w → Walk t it ((s, false) :: ys) w
  | remove {t t' : Table κ ν} {it it' it'' : Iter} {s : Slot κ ν} {i : ℕ}
      {ys : List (Slot κ ν × Bool)} {w : Prop} :
    iterNext t it = (some s, it') → it'.cur = some i → iterDel t it' = some (t', it'', some s) →
      Walk t' it'' ys w → Walk t it ((s, true) :: ys) (Wraps t i ∨ w)

/-- How often a key is visited. -/
def visits (K : Keys κ) (ys : List (Slot κ ν × Bool)) (key : κ) : ℕ :=
  ys.countP fun y => K.eqFn y.1.key key

/-- Each entry of the table is visited once. -/
def EachOnce (K : Keys κ) (t : Table κ ν) (ys : List (Slot κ ν × Bool)) : Prop :=
  ∀ s ∈ entries t.cap t.slots, visits K ys s.key = 1

variable {K : Keys κ} {t t' : Table κ ν} {it it' : Iter} {s x : Slot κ ν} {i j f : ℕ}
  {slots : ℕ → Option (Slot κ ν)}

/-! ### A step -/

theorem nextLoop_none (h : nextLoop slots f i = none) : ∀ q, i ≤ q → q < i + f → slots q = none := by
  induction f generalizing i with
  | zero =>
    intro q hi hq
    omega
  | succ f ih =>
    rw [nextLoop] at h
    cases hslot : slots i with
    | some s =>
      rw [hslot] at h
      cases h
    | none =>
      rw [hslot] at h
      intro q hi hq
      rcases Nat.eq_or_lt_of_le hi with rfl | hi
      · exact hslot
      · exact ih h q hi (by omega)

theorem nextLoop_some (h : nextLoop slots f i = some (j, s)) :
    i ≤ j ∧ j < i + f ∧ slots j = some s ∧ ∀ q, i ≤ q → q < j → slots q = none := by
  induction f generalizing i with
  | zero => cases h
  | succ f ih =>
    rw [nextLoop] at h
    cases hslot : slots i with
    | some s' =>
      rw [hslot] at h
      cases h
      refine ⟨Nat.le_refl _, by omega, hslot, fun q hi hq => ?_⟩
      omega
    | none =>
      rw [hslot] at h
      obtain ⟨hij, hjf, hj, hbefore⟩ := ih h
      refine ⟨by omega, by omega, hj, fun q hi hq => ?_⟩
      rcases Nat.eq_or_lt_of_le hi with rfl | hi
      · exact hslot
      · exact hbefore q hi hq

theorem iterNext_none (h : iterNext t it = (none, it')) (hidx : it.idx ≤ t.cap) :
    between t.slots it.idx t.cap = [] := by
  rw [iterNext] at h
  cases hloop : nextLoop t.slots (t.cap - it.idx) it.idx with
  | some r =>
    rw [hloop] at h
    cases h
  | none =>
    have hnone := nextLoop_none hloop
    refine eq_nil_iff_forall_not_mem.2 fun x hx => ?_
    obtain ⟨q, hi, hq, hslot⟩ := mem_between.1 hx
    rw [hnone q hi (by omega)] at hslot
    cases hslot

theorem iterNext_some (h : iterNext t it = (some s, it')) :
    ∃ j, it' = ⟨j + 1, some j⟩ ∧ it.idx ≤ j ∧ j < t.cap ∧ t.slots j = some s ∧
      ∀ q, it.idx ≤ q → q < j → t.slots q = none := by
  rw [iterNext] at h
  cases hloop : nextLoop t.slots (t.cap - it.idx) it.idx with
  | none =>
    rw [hloop] at h
    cases h
  | some r =>
    obtain ⟨j, s'⟩ := r
    rw [hloop] at h
    cases h
    obtain ⟨hij, hjf, hslot, hbefore⟩ := nextLoop_some hloop
    exact ⟨j, rfl, hij, by omega, hslot, hbefore⟩

theorem between_skip (hij : i ≤ j) (hjc : j < t.cap) (hslot : t.slots j = some s)
    (hbefore : ∀ q, i ≤ q → q < j → t.slots q = none) :
    between t.slots i t.cap = s :: between t.slots (j + 1) t.cap := by
  have hnil : between t.slots i j = [] := by
    refine eq_nil_iff_forall_not_mem.2 fun x hx => ?_
    obtain ⟨q, hi, hq, hx⟩ := mem_between.1 hx
    rw [hbefore q hi hq] at hx
    cases hx
  rw [between_append hij hjc.le, hnil, nil_append, between_cons hjc, hslot]
  rfl

/-! ### A deletion -/

variable {n : ℕ}

/-- The deletion goes around the end as far as it moves the last slot. -/
theorem wraps_iff (hi : i < t.cap) (hmoves : Moves t.cap t.slots i n) :
    Wraps t i ↔ t.cap ≤ i + n := by
  have hlt := hmoves.lt
  constructor
  · intro hw
    by_contra hle
    have hstop := hmoves.stop
    have hdeep : 2 ≤ depth t.cap t.slots (wrap t.cap (i + n + 1)) := by
      rw [wrap]
      split
      · next hlast => exact hw.1 _ (by omega) hlast
      · rw [show i + n + 1 - t.cap = 0 by omega]
        exact hw.2
    omega
  · intro hle
    refine ⟨fun j hij hj => ?_, ?_⟩
    · have hdeep := hmoves.deep (j - i - 1) (by omega)
      rw [show i + (j - i - 1) + 1 = j by omega, wrap, if_pos hj] at hdeep
      exact hdeep
    · have hdeep := hmoves.deep (t.cap - i - 1) (by omega)
      rw [show i + (t.cap - i - 1) + 1 = t.cap by omega, wrap, if_neg (Nat.lt_irrefl _),
        Nat.sub_self] at hdeep
      exact hdeep

theorem between_deleted (hi : i < t.cap) (hmoves : Moves t.cap t.slots i n) (hw : ¬Wraps t i) :
    between (deleted t.cap t.slots i n) i t.cap = between t.slots (i + 1) t.cap := by
  have hlt := hmoves.lt
  rw [wraps_iff hi hmoves] at hw
  have hmoved : between (deleted t.cap t.slots i n) i (i + n) =
      between t.slots (i + 1) (i + n + 1) := by
    refine between_shift fun q hiq hq => ?_
    have hoff : off t.cap i q < n := by
      rw [off, if_pos hiq]
      omega
    rw [deleted_moved hi (by omega) (by omega) hoff, next_eq (by omega), if_neg (by omega)]
  have hhole : deleted t.cap t.slots i n (i + n) = none := by
    have hat : wrap t.cap (i + n) = i + n := if_pos (by omega)
    have hnone := deleted_hole t.cap t.slots i n
    rwa [hat] at hnone
  have hstays : between (deleted t.cap t.slots i n) (i + n + 1) t.cap =
      between t.slots (i + n + 1) t.cap := by
    refine between_congr fun q hiq _ => deleted_stays hi (by omega) ?_
    rw [off, if_pos (by omega)]
    omega
  rw [between_append (by omega : i ≤ i + n) (by omega), between_cons (by omega : i + n < t.cap),
    hmoved, hhole, hstays]
  exact (between_append (by omega) (by omega)).symm

theorem deleted_behind (hi : i < t.cap) (hmoves : Moves t.cap t.slots i n) (hw : ¬Wraps t i) {q : ℕ}
    (hq : q < i) : deleted t.cap t.slots i n q = t.slots q := by
  rw [wraps_iff hi hmoves] at hw
  refine deleted_stays hi (by have := hmoves.lt; omega) ?_
  rw [off, if_neg (by omega)]
  omega

theorem deleted_ahead (hi : i < t.cap) (hmoves : Moves t.cap t.slots i n) {q : ℕ} (hiq : i < q)
    (hq : q < t.cap) (hslot : t.slots q = some x) :
    x ∈ between (deleted t.cap t.slots i n) i t.cap := by
  have hlt := hmoves.lt
  rw [mem_between]
  by_cases hoff : q - 1 - i < n
  · refine ⟨q - 1, by omega, by omega, ?_⟩
    have hmoved : off t.cap i (q - 1) < n := by
      rw [off, if_pos (by omega)]
      omega
    rw [deleted_moved hi (by omega) (by omega) hmoved, next_eq (by omega), if_neg (by omega),
      Nat.sub_add_cancel (by omega), hslot]
  · refine ⟨q, hiq.le, hq, ?_⟩
    rw [deleted_stays hi (by omega) (by rw [off, if_pos hiq.le]; omega), hslot]

/-- A step of an iteration that removes what it visits. -/
structure Removes (K : Keys κ) (t : Table κ ν) (idx i : ℕ) (s : Slot κ ν) (t' : Table κ ν) : Prop where
  le : idx ≤ i
  lt : i < t.cap
  slot : t.slots i = some s
  before : ∀ q, idx ≤ q → q < i → t.slots q = none
  inv : Inv K t'
  cap : t'.cap = t.cap
  perm : (s :: entries t'.cap t'.slots).Perm (entries t.cap t.slots)
  deleted : ∃ n, Moves t.cap t.slots i n ∧
    t' = { t with slots := deleted t.cap t.slots i n, count := t.count - 1 }

theorem iterDel_slot (h : Inv K t) (hi : i < t.cap) (hslot : t.slots i = some s) (idx : ℕ) :
    ∃ n, Moves t.cap t.slots i n ∧ iterDel t ⟨idx, some i⟩ = some
      ({ t with slots := deleted t.cap t.slots i n, count := t.count - 1 }, ⟨i, none⟩, some s) ∧
      (s :: entries t.cap (deleted t.cap t.slots i n)).Perm (entries t.cap t.slots) := by
  obtain ⟨n, hmoves, hat, hperm⟩ := delAt_spec h hi hslot
  refine ⟨n, hmoves, ?_, hperm⟩
  have hfilter : (some i).filter (· < t.cap) = some i := by
    rw [Option.filter_some, if_pos (decide_eq_true hi)]
  rw [iterDel]
  dsimp only
  rw [hfilter]
  dsimp only
  rw [hslot]
  dsimp only
  rw [hat]
  rfl

theorem removes (h : Inv K t) {it'' : Iter} (hnext : iterNext t it = (some s, it'))
    (hcur : it'.cur = some i) (hdel : iterDel t it' = some (t', it'', some s)) :
    Removes K t it.idx i s t' ∧ it'' = ⟨i, none⟩ := by
  obtain ⟨j, rfl, hle, hlt, hslot, hbefore⟩ := iterNext_some hnext
  obtain rfl : j = i := Option.some.inj hcur
  obtain ⟨t₁, it₁, removed, hrun, href⟩ :=
    iterDel_refines (⟨h, fun _ => rfl⟩ : Refines K t (lookup K (entries t.cap t.slots))) ⟨j + 1, some j⟩
  rw [hdel] at hrun
  cases hrun
  obtain ⟨n, hmoves, hrun, hperm⟩ := iterDel_slot h hlt hslot (j + 1)
  rw [hdel] at hrun
  cases hrun
  exact ⟨⟨hle, hlt, hslot, hbefore, href.inv, rfl, hperm, n, hmoves, rfl⟩, rfl⟩

/-! ### A whole iteration -/

variable {ys : List (Slot κ ν × Bool)} {w : Prop}

/-- An iteration ends, whichever of the entries it visits are removed: a step that goes back leaves an
entry less. -/
theorem exists_walk (h : Inv K t) (hidx : it.idx ≤ t.cap) (choose : ℕ → Bool) :
    ∃ ys w, Walk t it ys w ∧ ys.map Prod.snd = (range ys.length).map choose := by
  generalize hsize : t.count + (t.cap - it.idx) = size
  induction size using Nat.strong_induction_on generalizing t it choose with
  | _ size ih =>
    cases hnext : iterNext t it with
    | mk r it' =>
      cases r with
      | none => exact ⟨[], False, .done hnext, rfl⟩
      | some s =>
        obtain ⟨j, rfl, hle, hlt, hslot, hbefore⟩ := iterNext_some hnext
        have hrange (n : ℕ) : (range (n + 1)).map choose =
            choose 0 :: (range n).map fun k => choose (k + 1) := by
          rw [range_succ_eq_map, map_cons, map_map]
          rfl
        cases hchoice : choose 0 with
        | false =>
          have hfewer : t.count + (t.cap - (j + 1)) < size := by omega
          have hnow : (⟨j + 1, some j⟩ : Iter).idx ≤ t.cap := hlt
          obtain ⟨ys, w, hwalk, hys⟩ := ih _ hfewer h hnow (fun k => choose (k + 1)) rfl
          refine ⟨(s, false) :: ys, w, .keep hnext hwalk, ?_⟩
          rw [length_cons, hrange, hchoice, map_cons, hys]
        | true =>
          obtain ⟨n, -, hdel, hperm⟩ := iterDel_slot h hlt hslot (j + 1)
          obtain ⟨hr, -⟩ := removes h hnext rfl hdel
          have hlen := hperm.length_eq
          rw [length_cons, ← h.count] at hlen
          have hfewer : t.count - 1 + (t.cap - j) < size := by omega
          have hnow : (⟨j, none⟩ : Iter).idx ≤ t.cap := hlt.le
          obtain ⟨ys, w, hwalk, hys⟩ := ih _ hfewer hr.inv hnow (fun k => choose (k + 1)) rfl
          refine ⟨(s, true) :: ys, _, .remove hnext rfl hdel hwalk, ?_⟩
          rw [length_cons, hrange, hchoice, map_cons, hys]

theorem Walk.visits_ahead (hwalk : Walk t it ys w) (h : Inv K t) (hidx : it.idx ≤ t.cap) (hw : ¬w) :
    ys.map Prod.fst = between t.slots it.idx t.cap := by
  induction hwalk with
  | done hnext => exact (iterNext_none hnext hidx).symm
  | keep hnext _ ih =>
    obtain ⟨j, rfl, hle, hlt, hslot, hbefore⟩ := iterNext_some hnext
    rw [map_cons, ih h hlt hw]
    exact (between_skip hle hlt hslot hbefore).symm
  | remove hnext hcur hdel _ ih =>
    obtain ⟨hr, rfl⟩ := removes h hnext hcur hdel
    obtain ⟨n, hmoves, rfl⟩ := hr.deleted
    rw [not_or] at hw
    rw [map_cons, ih hr.inv hr.lt.le hw.2, between_skip hr.le hr.lt hr.slot hr.before]
    exact congrArg _ (between_deleted hr.lt hmoves hw.1)

theorem Walk.mem_of_ahead (hwalk : Walk t it ys w) (h : Inv K t) (hidx : it.idx ≤ t.cap)
    (hx : x ∈ between t.slots it.idx t.cap) : x ∈ ys.map Prod.fst := by
  induction hwalk with
  | done hnext =>
    rw [iterNext_none hnext hidx] at hx
    exact absurd hx not_mem_nil
  | keep hnext _ ih =>
    obtain ⟨j, rfl, hle, hlt, hslot, hbefore⟩ := iterNext_some hnext
    rw [between_skip hle hlt hslot hbefore] at hx
    rcases mem_cons.1 hx with rfl | hx
    · exact mem_cons_self
    · exact mem_cons_of_mem _ (ih h hlt hx)
  | remove hnext hcur hdel _ ih =>
    obtain ⟨hr, rfl⟩ := removes h hnext hcur hdel
    obtain ⟨n, hmoves, rfl⟩ := hr.deleted
    rw [between_skip hr.le hr.lt hr.slot hr.before] at hx
    rcases mem_cons.1 hx with rfl | hx
    · exact mem_cons_self
    · obtain ⟨q, hiq, hq, hslot⟩ := mem_between.1 hx
      exact mem_cons_of_mem _ (ih hr.inv hr.lt.le (deleted_ahead hr.lt hmoves hiq hq hslot))

theorem visits_cons (K : Keys κ) (y : Slot κ ν × Bool) (ys : List (Slot κ ν × Bool)) (key : κ) :
    visits K (y :: ys) key = visits K ys key + if K.eqFn y.1.key key = true then 1 else 0 :=
  countP_cons

theorem visits_pos (hx : x ∈ ys.map Prod.fst) : 1 ≤ visits K ys x.key := by
  obtain ⟨y, hy, rfl⟩ := mem_map.1 hx
  exact countP_pos_iff.2 ⟨y, hy, K.refl _⟩

/-- A deletion that wraps is not the first one at slot 0, and takes the entry of slot 0, visited
before, to the last slot. -/
theorem wrapped (h : Inv K t) {idx : ℕ} (hr : Removes K t idx i s t') (hw : Wraps t i) :
    ∃ x, x ∈ between t.slots 0 idx ∧ x ∈ between t'.slots i t'.cap := by
  obtain ⟨n, hmoves, rfl⟩ := hr.deleted
  have hlt := hmoves.lt
  have hi := hr.lt
  have hcap := h.cap
  have hle := (wraps_iff hi hmoves).1 hw
  have hdeep := hw.2
  cases hzero : t.slots 0 with
  | none =>
    rw [depth_of_none hzero] at hdeep
    omega
  | some x =>
    have hidx : 0 < idx := by
      rw [Nat.pos_iff_ne_zero]
      rintro rfl
      have hfirst := hr.before 0 (Nat.le_refl 0)
      have hpos : 0 < i := by omega
      rw [hzero] at hfirst
      cases hfirst hpos
    refine ⟨x, mem_between.2 ⟨0, Nat.le_refl 0, hidx, hzero⟩, mem_between.2 ⟨t.cap - 1, ?_, ?_, ?_⟩⟩
    · omega
    · show t.cap - 1 < t.cap
      omega
    · have hmoved : off t.cap i (t.cap - 1) < n := by
        rw [off, if_pos (by omega)]
        omega
      show OpHtab.deleted t.cap t.slots i n (t.cap - 1) = some x
      rw [deleted_moved hi (by omega) (by omega) hmoved, next_eq (by omega), if_pos (by omega), hzero]

theorem Walk.twice (hwalk : Walk t it ys w) (h : Inv K t) (hidx : it.idx ≤ t.cap) (hw : w) :
    ∃ x ∈ entries t.cap t.slots, (x ∈ between t.slots 0 it.idx ∧ 1 ≤ visits K ys x.key) ∨
      2 ≤ visits K ys x.key := by
  induction hwalk with
  | done _ => exact hw.elim
  | @keep t it it' s ys w hnext _ ih =>
    obtain ⟨j, rfl, hle, hlt, hslot, hbefore⟩ := iterNext_some hnext
    obtain ⟨x, hx, hcase⟩ := ih h hlt hw
    refine ⟨x, hx, ?_⟩
    rw [visits_cons]
    rcases hcase with ⟨hseen, hvisit⟩ | htwice
    · have hsplit : between t.slots 0 (j + 1) = between t.slots 0 it.idx ++
          between t.slots it.idx (j + 1) := between_append (Nat.zero_le _) (by omega)
      rw [hsplit, mem_append] at hseen
      rcases hseen with hseen | hseen
      · exact .inl ⟨hseen, by omega⟩
      · -- it is the entry visited now
        obtain ⟨q, hq, hqj, hx⟩ := mem_between.1 hseen
        rcases Nat.lt_succ_iff_lt_or_eq.1 hqj with hqj | rfl
        · rw [hbefore q hq hqj] at hx
          cases hx
        · rw [hslot] at hx
          cases hx
          refine .inr ?_
          rw [if_pos (K.refl _)]
          omega
    · exact .inr (by omega)
  | @remove t t' it it' it'' s i ys w hnext hcur hdel hrest ih =>
    obtain ⟨hr, rfl⟩ := removes h hnext hcur hdel
    have hle : i ≤ t'.cap := hr.cap ▸ hr.lt.le
    by_cases hwrap : Wraps t i
    · obtain ⟨x, hseen, hahead⟩ := wrapped h hr hwrap
      have hvisit := visits_pos (K := K) (hrest.mem_of_ahead hr.inv hle hahead)
      obtain ⟨q, -, hq, hx⟩ := mem_between.1 hseen
      refine ⟨x, mem_entries.2 ⟨q, by omega, hx⟩, .inl ⟨hseen, ?_⟩⟩
      rw [visits_cons]
      omega
    · obtain ⟨x, hx, hcase⟩ := ih hr.inv hle (hw.resolve_left hwrap)
      refine ⟨x, hr.perm.subset (mem_cons_of_mem s hx), ?_⟩
      rw [visits_cons]
      rcases hcase with ⟨hseen, hvisit⟩ | htwice
      · -- the slots behind are as they were, and those passed over empty
        obtain ⟨n, hmoves, rfl⟩ := hr.deleted
        obtain ⟨q, -, hq, hxq⟩ := mem_between.1 hseen
        have hsame : t.slots q = some x := (deleted_behind hr.lt hmoves hwrap hq).symm.trans hxq
        refine .inl ⟨mem_between.2 ⟨q, Nat.zero_le q, ?_, hsame⟩, by omega⟩
        by_contra hge
        rw [hr.before q (Nat.le_of_not_lt hge) hq] at hsame
        cases hsame
      · exact .inr (by omega)

/-! ### The table in all its runs -/

/-- A table is a map in all runs: the operations and iterations end and do what they should, and the
probe distances allow lookups to end early.  An iteration visits each entry once if and only if no deletion in it
moves an entry from the first slot to the last. -/
theorem htab_iff {m : κ → Option ν} (h : Run K t m) :
    Robin t.cap t.slots ∧ (∀ key, get K t key = some (m key)) ∧
      (∀ key val, ∃ t', set K t key val = some (t', m key)) ∧
      (∀ key, ∃ t', del K t key = some (t', m key)) ∧ (∃ t', compact t = some t') ∧
      (∀ it, ∃ r, iterDel t it = some r) ∧
      (∀ choose : ℕ → Bool, ∃ ys w, Walk t iterInit ys w ∧
        ys.map Prod.snd = (range ys.length).map choose) ∧
      ∀ ys w, Walk t iterInit ys w → (EachOnce K t ys ↔ ¬w) := by
  have href := h.refines
  refine ⟨href.inv.robin, get_refines href, fun key val => ?_, fun key => ?_, ?_, fun it => ?_,
    exists_walk href.inv (Nat.zero_le _), fun ys w hwalk => ⟨fun honce hw => ?_, fun hw s hs => ?_⟩⟩
  · obtain ⟨t', hrun, -⟩ := set_refines href key val
    exact ⟨t', hrun⟩
  · obtain ⟨t', hrun, -⟩ := del_refines href key
    exact ⟨t', hrun⟩
  · obtain ⟨t', hrun, -⟩ := compact_refines href
    exact ⟨t', hrun⟩
  · obtain ⟨t', it', removed, hrun, -⟩ := iterDel_refines href it
    exact ⟨_, hrun⟩
  · obtain ⟨x, hx, ⟨hseen, -⟩ | htwice⟩ := hwalk.twice href.inv (Nat.zero_le _) hw
    · rw [show iterInit.idx = 0 from rfl, between_self] at hseen
      exact absurd hseen not_mem_nil
    · have hone := honce x hx
      omega
  · have hall : ys.map Prod.fst = entries t.cap t.slots :=
      hwalk.visits_ahead href.inv (Nat.zero_le _) hw
    have hcount : visits K ys s.key = (ys.map Prod.fst).countP fun x => K.eqFn x.key s.key := by
      rw [countP_map]
      rfl
    rw [hcount, hall, countP_eq_one href.inv.good hs]

/-! ### Two keys at the end of the table -/

/-- `op_htab_create_istr`. -/
def istrKeys : Keys CStr where
  hashFn key := istrHash (istrFold key)
  eqFn a b := istrFold a == istrFold b
  refl _ := beq_self_eq_true _
  symm h := by
    rw [beq_iff_eq] at h ⊢
    exact h.symm
  trans hab hbc := by
    rw [beq_iff_eq] at hab hbc ⊢
    exact hab.trans hbc
  hash_eq h := by
    rw [beq_iff_eq] at h
    rw [h]

/-- The home of both `0` and `p` is the last slot of 16. -/
def slotZero : Slot CStr ℕ := ⟨istrHash ['0'], ['0'], 1⟩

def slotP : Slot CStr ℕ := ⟨istrHash ['p'], ['p'], 2⟩

def tableZero : Table CStr ℕ := ⟨16, update (fun _ => none) 15 (some slotZero), 1⟩

/-- `p` comes after `0`, and so into the first slot. -/
def tableZeroP : Table CStr ℕ := ⟨16, update tableZero.slots 0 (some slotP), 2⟩

/-- What the removal of `0` leaves. -/
def tableP : Table CStr ℕ := ⟨16, update (update tableZeroP.slots 15 (some slotP)) 0 none, 1⟩

theorem run_tableZeroP : Run istrKeys tableZeroP
    (mapSet istrKeys (mapSet istrKeys (fun _ => none) ['0'] 1) ['p'] 2) := by
  have hzero : set istrKeys (create 16) ['0'] 1 = some (tableZero, none) := rfl
  have hp : set istrKeys tableZero ['p'] 2 = some (tableZeroP, none) := rfl
  exact ((Run.create 16).set hzero).set hp

theorem htab_iff_tableZeroP : Robin 16 tableZeroP.slots ∧
    get istrKeys tableZeroP ['P'] = some (some 2) := by
  obtain ⟨hrobin, hget, -⟩ := htab_iff run_tableZeroP
  exact ⟨hrobin, hget ['P']⟩

/-- Where `0` is removed once both are visited, `p` goes to its slot, and is visited again. -/
theorem not_eachOnce_wraps : ∃ (t : Table CStr ℕ) (m : CStr → Option ℕ)
    (ys : List (Slot CStr ℕ × Bool)) (w : Prop),
    Run istrKeys t m ∧ Walk t iterInit ys w ∧ ¬EachOnce istrKeys t ys := by
  have hfirst : iterNext tableZeroP iterInit = (some slotP, ⟨1, some 0⟩) := rfl
  have hsecond : iterNext tableZeroP ⟨1, some 0⟩ = (some slotZero, ⟨16, some 15⟩) := rfl
  have hdel : iterDel tableZeroP ⟨16, some 15⟩ = some (tableP, ⟨15, none⟩, some slotZero) := rfl
  have hagain : iterNext tableP ⟨15, none⟩ = (some slotP, ⟨16, some 15⟩) := rfl
  have hdone : iterNext tableP ⟨16, some 15⟩ = (none, ⟨16, none⟩) := rfl
  refine ⟨tableZeroP, _, _, _, run_tableZeroP,
    .keep hfirst (.remove hsecond rfl hdel (.keep hagain (.done hdone))), fun honce => ?_⟩
  have hone := honce slotP (mem_entries.2 ⟨0, by decide, rfl⟩)
  have htwo : visits istrKeys [(slotP, false), (slotZero, true), (slotP, false)] slotP.key = 2 := rfl
  omega

end Eggdrop.OpHtab
