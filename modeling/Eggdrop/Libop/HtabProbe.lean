import Eggdrop.Libop.Htab

/-!
# HtabProbe — probe distances in the table

An empty slot has depth 0 and one with an entry the probe distance and one.  The depth grows by one
at most from a slot to the next, all around the ring; this is what lets a search end early.

* `insertLoop_spec`: an insertion ends, keeps this and adds its entry.
* `findLoop_complete`: a search does not end before an entry it looks for.
* `delLoop_spec`: the entries that a deletion moves; `robin_deleted`: it keeps this.
-/

namespace Eggdrop.OpHtab

open Function Slots

variable {κ ν : Type*}

/-- The probe distance and one, or 0 for an empty slot. -/
def depth (cap : ℕ) (slots : ℕ → Option (Slot κ ν)) (i : ℕ) : ℕ :=
  match slots i with
  | none => 0
  | some s => dib cap i s.hash + 1

/-- Lookups may stop early: the depth grows by one at most. -/
def Robin (cap : ℕ) (slots : ℕ → Option (Slot κ ν)) : Prop :=
  ∀ i < cap, depth cap slots (next cap i) ≤ depth cap slots i + 1

variable {cap i e k dist f : ℕ} {slots : ℕ → Option (Slot κ ν)} {s x : Slot κ ν}

theorem depth_of_none (h : slots i = none) : depth cap slots i = 0 := by rw [depth, h]

theorem depth_of_some (h : slots i = some s) : depth cap slots i = dib cap i s.hash + 1 := by
  rw [depth, h]

theorem depth_congr {slots' : ℕ → Option (Slot κ ν)} (h : slots' i = slots i) :
    depth cap slots' i = depth cap slots i := by rw [depth, depth, h]

theorem robin_empty (cap : ℕ) : Robin cap fun _ => (none : Option (Slot κ ν)) :=
  fun _ _ => Nat.zero_le _

theorem depth_le (hr : Robin cap slots) (he : e < cap) (hnone : slots e = none) (hk : k < cap) :
    depth cap slots (wrap cap (e + k)) ≤ k := by
  induction k with
  | zero =>
    rw [Nat.add_zero, wrap, if_pos he, depth_of_none hnone]
  | succ k ih =>
    have hstep := hr (wrap cap (e + k)) (wrap_lt (by omega))
    rw [next_wrap (by omega)] at hstep
    have hprev := ih (by omega)
    rw [← Nat.add_assoc]
    omega

theorem robin_update (hcap : 1 < cap) (hr : Robin cap slots) (hi : i < cap) (o : Option (Slot κ ν))
    (hprev : ∀ j < cap, next cap j = i → depth cap (update slots i o) i ≤ depth cap slots j + 1)
    (hnext : depth cap slots (next cap i) ≤ depth cap (update slots i o) i + 1) :
    Robin cap (update slots i o) := by
  intro j hj
  have hother (q : ℕ) (hq : q ≠ i) : depth cap (update slots i o) q = depth cap slots q :=
    depth_congr (update_of_ne hq _ _)
  by_cases hji : j = i
  · subst hji
    rw [hother _ (next_ne hcap hj)]
    exact hnext
  · rw [hother j hji]
    by_cases hnj : next cap j = i
    · rw [hnj]
      exact hprev j hj hnj
    · rw [hother _ hnj]
      exact hr j hj

/-! ### Insertion -/

/-- An entry on its way, `k` slots behind an empty one: it is no deeper than the slot before allows, and
the loop ends before it comes round. -/
theorem insertLoop_spec (hcap : 1 < cap) (hr : Robin cap slots) (he : e < cap)
    (hnone : slots e = none) (hk : k < cap) (hfuel : cap ≤ k + f)
    (hdib : dib cap (wrap cap (e + k + 1)) x.hash = dist)
    (hprev : dist ≤ depth cap slots (wrap cap (e + k))) :
    ∃ slots', insertLoop cap f slots (wrap cap (e + k + 1)) x dist = some slots' ∧
      Robin cap slots' ∧ (entries cap slots').Perm (x :: entries cap slots) := by
  induction f generalizing k slots x dist with
  | zero => omega
  | succ f ih =>
    have hi : wrap cap (e + k + 1) < cap := wrap_lt (by omega)
    have hat : next cap (wrap cap (e + k)) = wrap cap (e + k + 1) := next_wrap (by omega)
    have hbefore (d : ℕ) (hd : d ≤ depth cap slots (wrap cap (e + k)) + 1) :
        ∀ j < cap, next cap j = wrap cap (e + k + 1) → d ≤ depth cap slots j + 1 := by
      intro j hj hnj
      rw [next_injective hj (wrap_lt (by omega)) (hnj.trans hat.symm)]
      exact hd
    have hstep := hr _ hi
    have hplaced : depth cap (update slots (wrap cap (e + k + 1)) (some x)) (wrap cap (e + k + 1)) =
        dist + 1 := by
      rw [depth_of_some (update_self _ _ _), hdib]
    rw [insertLoop]
    cases hslot : slots (wrap cap (e + k + 1)) with
    | none =>
      rw [depth_of_none hslot] at hstep
      refine ⟨_, rfl, robin_update hcap hr hi _ (hplaced ▸ hbefore _ (by omega)) (by omega), ?_⟩
      have hperm := perm_update hi slots (some x)
      rwa [hslot] at hperm
    | some s =>
      -- the empty slot is still ahead
      have hlast : k + 1 < cap := by
        by_contra hge
        have hwrap : wrap cap (e + k + 1) = e := by
          rw [wrap]
          split <;> omega
        rw [hwrap, hnone] at hslot
        cases hslot
      have hne : e ≠ wrap cap (e + k + 1) := by
        rintro heq
        rw [← heq, hnone] at hslot
        cases hslot
      have hdepth : dib cap (wrap cap (e + k + 1)) s.hash + 1 ≤ k + 1 := by
        rw [← depth_of_some hslot]
        exact depth_le hr he hnone hlast
      have hdist : dist ≤ k := hprev.trans (depth_le hr he hnone hk)
      have hnext : next cap (wrap cap (e + k + 1)) = wrap cap (e + (k + 1) + 1) := by
        rw [next_wrap (by omega)]
        rfl
      rw [depth_of_some hslot] at hstep
      dsimp only
      split
      · next hevict =>
        -- the entry takes the slot, and the one that was there goes on
        have hrobin : Robin cap (update slots (wrap cap (e + k + 1)) (some x)) :=
          robin_update hcap hr hi _ (hplaced ▸ hbefore _ (by omega)) (by omega)
        have hgoes : dib cap (wrap cap (e + (k + 1) + 1)) s.hash =
            dib cap (wrap cap (e + k + 1)) s.hash + 1 := by
          rw [← hnext]
          exact dib_next hi (by omega)
        have hbelow : dib cap (wrap cap (e + k + 1)) s.hash + 1 ≤
            depth cap (update slots (wrap cap (e + k + 1)) (some x)) (wrap cap (e + (k + 1))) := by
          show _ ≤ depth cap (update slots (wrap cap (e + k + 1)) (some x)) (wrap cap (e + k + 1))
          omega
        obtain ⟨slots', hrun, hrobin', hperm⟩ := ih hrobin ((update_of_ne hne _ _).trans hnone) hlast
          (by omega) hgoes hbelow
        refine ⟨slots', by rw [hnext]; exact hrun, hrobin', hperm.trans ?_⟩
        have hwritten := perm_update hi slots (some x)
        rwa [hslot] at hwritten
      · next hkeep =>
        have hgoes : dib cap (wrap cap (e + (k + 1) + 1)) x.hash = dist + 1 := by
          rw [← hnext, dib_next hi (by omega), hdib]
        have hbelow : dist + 1 ≤ depth cap slots (wrap cap (e + (k + 1))) := by
          show _ ≤ depth cap slots (wrap cap (e + k + 1))
          rw [depth_of_some hslot]
          omega
        obtain ⟨slots', hrun, hrobin', hperm⟩ := ih hr hnone hlast (by omega) hgoes hbelow
        exact ⟨slots', by rw [hnext]; exact hrun, hrobin', hperm⟩

theorem insertSlot_spec (hcap : 1 < cap) (hr : Robin cap slots)
    (hroom : (entries cap slots).length < cap) (x : Slot κ ν) :
    ∃ slots', insertSlot cap slots x = some slots' ∧ Robin cap slots' ∧
      (entries cap slots').Perm (x :: entries cap slots) := by
  obtain ⟨e, he, hnone⟩ := exists_none hroom
  have hh := home_lt (by omega : 0 < cap) x.hash
  -- the way from the empty slot to the home
  obtain ⟨k, hk, hat⟩ : ∃ k < cap, wrap cap (e + k + 1) = home cap x.hash := by
    by_cases hle : e < home cap x.hash
    · refine ⟨home cap x.hash - e - 1, by omega, ?_⟩
      rw [wrap]
      split <;> omega
    · refine ⟨home cap x.hash + cap - e - 1, by omega, ?_⟩
      rw [wrap]
      split <;> omega
  have hspec := insertLoop_spec (f := cap + 1) hcap hr he hnone hk (by omega)
    (hat ▸ dib_home (by omega) x.hash) (Nat.zero_le _)
  rw [hat] at hspec
  exact hspec

/-! ### Search -/

variable {K : Keys κ} {key : κ} {hash : UInt64} {j : ℕ}

theorem findLoop_ends (hi : i < cap) (hdist : dist ≤ cap) (hf : cap < dist + f) :
    ∃ r, findLoop K cap slots key hash f i dist = some r := by
  induction f generalizing i dist with
  | zero => omega
  | succ f ih =>
    rw [findLoop]
    cases slots i with
    | none => exact ⟨none, rfl⟩
    | some s =>
      have hlt := dib_lt hi s.hash
      dsimp only
      split
      · exact ⟨none, rfl⟩
      · split
        · exact ⟨some i, rfl⟩
        · exact ih (next_lt hi) (by omega) (by omega)

theorem findLoop_sound (hi : i < cap) (h : findLoop K cap slots key hash f i dist = some (some j)) :
    j < cap ∧ ∃ s, slots j = some s ∧ s.hash = hash ∧ K.eqFn s.key key = true := by
  induction f generalizing i dist with
  | zero => cases h
  | succ f ih =>
    rw [findLoop] at h
    cases hslot : slots i with
    | none =>
      rw [hslot] at h
      cases h
    | some s =>
      rw [hslot] at h
      dsimp only at h
      split at h
      · cases h
      · split at h
        · next hmatch =>
          cases h
          exact ⟨hi, s, hslot, hmatch⟩
        · exact ih (next_lt hi) h

theorem le_depth (hr : Robin cap slots) (hj : j < cap) (hslot : slots j = some s) {c : ℕ}
    (hc : c ≤ dib cap j s.hash) :
    dib cap j s.hash - c + 1 ≤
      depth cap slots (wrap cap (home cap s.hash + (dib cap j s.hash - c))) := by
  have hlt := dib_lt hj s.hash
  have hh := home_lt (by omega : 0 < cap) s.hash
  induction c with
  | zero => rw [Nat.sub_zero, wrap_dib hj, depth_of_some hslot]
  | succ c ih =>
    have hprev := ih (by omega)
    have hstep := hr (wrap cap (home cap s.hash + (dib cap j s.hash - (c + 1)))) (wrap_lt (by omega))
    rw [next_wrap (by omega)] at hstep
    have hat : home cap s.hash + (dib cap j s.hash - (c + 1)) + 1 =
        home cap s.hash + (dib cap j s.hash - c) := by omega
    rw [hat] at hstep
    omega

theorem findLoop_complete (hr : Robin cap slots) (hj : j < cap) (hslot : slots j = some s)
    (hkey : K.eqFn s.key key = true) (hdist : dist ≤ dib cap j s.hash) :
    findLoop K cap slots key s.hash f (wrap cap (home cap s.hash + dist)) dist ≠ some none := by
  have hlt := dib_lt hj s.hash
  have hh := home_lt (by omega : 0 < cap) s.hash
  induction f generalizing dist with
  | zero =>
    intro h
    cases h
  | succ f ih =>
    have hdeep := le_depth hr hj hslot (c := dib cap j s.hash - dist) (by omega)
    rw [Nat.sub_sub_self hdist] at hdeep
    rw [findLoop]
    cases hs : slots (wrap cap (home cap s.hash + dist)) with
    | none =>
      rw [depth_of_none hs] at hdeep
      omega
    | some s' =>
      rw [depth_of_some hs] at hdeep
      dsimp only
      rw [if_neg (by omega)]
      split
      · intro h
        cases h
      · next hother =>
        have hnext : next cap (wrap cap (home cap s.hash + dist)) =
            wrap cap (home cap s.hash + (dist + 1)) := next_wrap (by omega)
        rw [hnext]
        refine ih ?_
        by_contra hlast
        obtain rfl : dist = dib cap j s.hash := by omega
        rw [wrap_dib hj, hslot] at hs
        cases hs
        exact hother ⟨rfl, hkey⟩

/-! ### Deletion -/

/-- How far a slot is behind the slot `a`. -/
def off (cap a q : ℕ) : ℕ := if a ≤ q then q - a else q + cap - a

/-- The entries of `m` slots behind `a` are moved back by one. -/
def shifted (cap : ℕ) (slots : ℕ → Option (Slot κ ν)) (a m : ℕ) : ℕ → Option (Slot κ ν) :=
  fun q => if q < cap ∧ off cap a q < m then slots (next cap q) else slots q

/-- The slots after the deletion at `a`, which moves the entries of `m` slots. -/
def deleted (cap : ℕ) (slots : ℕ → Option (Slot κ ν)) (a m : ℕ) : ℕ → Option (Slot κ ν) :=
  update (shifted cap slots a m) (wrap cap (a + m)) none

/-- What a deletion at `a` moves: entries away from their homes, up to one that is not. -/
structure Moves (cap : ℕ) (slots : ℕ → Option (Slot κ ν)) (a m : ℕ) : Prop where
  lt : m + 1 < cap
  deep : ∀ c < m, 2 ≤ depth cap slots (wrap cap (a + c + 1))
  stop : depth cap slots (wrap cap (a + m + 1)) ≤ 1

variable {a m q : ℕ}

theorem off_wrap (ha : a < cap) (hm : m < cap) : off cap a (wrap cap (a + m)) = m := by
  rw [off, wrap]
  split_ifs <;> omega

theorem wrap_off (ha : a < cap) (hq : q < cap) : wrap cap (a + off cap a q) = q := by
  rw [off, wrap]
  split_ifs <;> omega

theorem off_lt (ha : a < cap) (hq : q < cap) : off cap a q < cap := by
  rw [off]
  split_ifs <;> omega

theorem off_next (ha : a < cap) (hq : q < cap) :
    off cap a (next cap q) = if off cap a q + 1 = cap then 0 else off cap a q + 1 := by
  rw [next_eq hq, off, off]
  split_ifs <;> omega

theorem shifted_zero (cap : ℕ) (slots : ℕ → Option (Slot κ ν)) (a : ℕ) :
    shifted cap slots a 0 = slots := by
  funext q
  rw [shifted, if_neg (by omega)]

theorem shifted_succ (ha : a < cap) (hm : m < cap) :
    update (shifted cap slots a m) (wrap cap (a + m)) (slots (next cap (wrap cap (a + m)))) =
      shifted cap slots a (m + 1) := by
  have hoff := off_wrap ha hm
  have hlt : wrap cap (a + m) < cap := wrap_lt (by omega)
  funext q
  by_cases hq : q = wrap cap (a + m)
  · rw [hq, update_self, shifted, if_pos ⟨hlt, by omega⟩]
  · rw [update_of_ne hq, shifted, shifted]
    refine if_congr (and_congr_right fun hqc => ?_) rfl rfl
    have hne : off cap a q ≠ m := fun heq => hq (by rw [← heq, wrap_off ha hqc])
    omega

/-- The loop goes on over entries away from their homes, and ends before an empty slot. -/
theorem delLoop_spec (ha : a < cap) (he : e < cap) (hnone : slots e = none)
    (hk : k < off cap a e) (hf : off cap a e ≤ k + f)
    (hdeep : ∀ c < k, 2 ≤ depth cap slots (wrap cap (a + c + 1))) :
    ∃ m, Moves cap slots a m ∧
      delLoop cap f (shifted cap slots a k) (wrap cap (a + k)) = some (deleted cap slots a m) := by
  have hlt := off_lt ha he
  induction f generalizing k with
  | zero => omega
  | succ f ih =>
    have hnext : next cap (wrap cap (a + k)) = wrap cap (a + k + 1) := next_wrap (by omega)
    have hread : shifted cap slots a k (wrap cap (a + k + 1)) = slots (wrap cap (a + k + 1)) := by
      have hoff := off_wrap ha (by omega : k + 1 < cap)
      rw [← Nat.add_assoc] at hoff
      rw [shifted, if_neg (by omega)]
    have hstop (h : depth cap slots (wrap cap (a + k + 1)) ≤ 1) : Moves cap slots a k :=
      ⟨by omega, hdeep, h⟩
    rw [delLoop, hnext, hread]
    cases hslot : slots (wrap cap (a + k + 1)) with
    | none => exact ⟨k, hstop (by rw [depth_of_none hslot]; omega), rfl⟩
    | some s =>
      dsimp only
      split
      · next hhome => exact ⟨k, hstop (by rw [depth_of_some hslot, hhome]), rfl⟩
      · next haway =>
        have hmore : k + 1 < off cap a e := by
          by_contra hge
          have heq : off cap a e = k + 1 := by omega
          rw [Nat.add_assoc, ← heq, wrap_off ha he, hnone] at hslot
          cases hslot
        have hmoved : update (shifted cap slots a k) (wrap cap (a + k)) (some s) =
            shifted cap slots a (k + 1) := by
          rw [← shifted_succ ha (by omega), hnext, hslot]
        rw [hmoved]
        refine ih hmore (by omega) fun c hc => ?_
        rcases Nat.lt_succ_iff_lt_or_eq.1 hc with hc | rfl
        · exact hdeep c hc
        · rw [depth_of_some hslot]
          omega

theorem deleted_stays (ha : a < cap) (hm : m < cap) (hq : m < off cap a q) :
    deleted cap slots a m q = slots q := by
  have hne : q ≠ wrap cap (a + m) := by
    rintro rfl
    rw [off_wrap ha hm] at hq
    omega
  rw [deleted, update_of_ne hne, shifted, if_neg (by omega)]

theorem deleted_moved (ha : a < cap) (hm : m < cap) (hqc : q < cap) (hq : off cap a q < m) :
    deleted cap slots a m q = slots (next cap q) := by
  have hne : q ≠ wrap cap (a + m) := by
    rintro rfl
    rw [off_wrap ha hm] at hq
    omega
  rw [deleted, update_of_ne hne, shifted, if_pos ⟨hqc, hq⟩]

theorem deleted_hole (cap : ℕ) (slots : ℕ → Option (Slot κ ν)) (a m : ℕ) :
    deleted cap slots a m (wrap cap (a + m)) = none := update_self _ _ _

theorem depth_deleted (ha : a < cap) (hmoves : Moves cap slots a m) (hq : q < cap) :
    depth cap (deleted cap slots a m) q =
      if off cap a q ≤ m then depth cap slots (next cap q) - 1 else depth cap slots q := by
  have hlt := hmoves.lt
  have hat := wrap_off ha hq
  have hnext : next cap q = wrap cap (a + off cap a q + 1) := by
    rw [← next_wrap (by have := off_lt ha hq; omega), hat]
  rcases Nat.lt_trichotomy (off cap a q) m with hoff | hoff | hoff
  · have hdeep := hmoves.deep _ hoff
    rw [← hnext] at hdeep
    rw [if_pos hoff.le]
    cases hslot : slots (next cap q) with
    | none =>
      rw [depth_of_none hslot] at hdeep
      omega
    | some s =>
      rw [depth_of_some hslot] at hdeep ⊢
      rw [depth_of_some ((deleted_moved ha (by omega) hq hoff).trans hslot)]
      have hprev := dib_prev (h := s.hash) hq (by omega)
      omega
  · have hstop := hmoves.stop
    rw [← hoff, ← hnext] at hstop
    rw [if_pos hoff.le]
    have hhole : deleted cap slots a m q = none := by
      rw [← hat, hoff]
      exact deleted_hole cap slots a m
    rw [depth_of_none hhole]
    omega
  · rw [if_neg (by omega)]
    exact depth_congr (deleted_stays ha (by omega) hoff)

theorem robin_deleted (hr : Robin cap slots) (ha : a < cap) (hmoves : Moves cap slots a m) :
    Robin cap (deleted cap slots a m) := by
  intro q hq
  have hlt := hmoves.lt
  have hnq := next_lt hq
  have hstep := hr q hq
  have hstep' := hr (next cap q) hnq
  have hoff := off_next ha hq
  rw [depth_deleted ha hmoves hq, depth_deleted ha hmoves hnq, hoff]
  have hnext : next cap q = wrap cap (a + off cap a q + 1) := by
    rw [← next_wrap (by have := off_lt ha hq; omega), wrap_off ha hq]
  rcases Nat.lt_trichotomy (off cap a q) m with hlt' | heq | hgt
  · have hdeep := hmoves.deep _ hlt'
    rw [← hnext] at hdeep
    split_ifs <;> omega
  · have hstop := hmoves.stop
    rw [← heq, ← hnext] at hstop
    split_ifs <;> omega
  · split_ifs <;> omega

theorem delLoop_perm {slots' : ℕ → Option (Slot κ ν)} (hcap : 1 < cap) (hi : i < cap)
    (h : delLoop cap f slots i = some slots') :
    (entries cap slots').Perm (entries cap (update slots i none)) := by
  induction f generalizing slots i with
  | zero => cases h
  | succ f ih =>
    have hn := next_lt hi
    rw [delLoop] at h
    cases hslot : slots (next cap i) with
    | none =>
      rw [hslot] at h
      cases h
      exact .refl _
    | some s =>
      rw [hslot] at h
      dsimp only at h
      split at h
      · cases h
        exact .refl _
      · have hne := next_ne hcap hi
        refine (ih hn h).trans ?_
        -- the entry is put in the slot before and taken out of its own
        have hout := perm_erase hn ((update_of_ne hne none slots).trans hslot)
        have hin := perm_insert hi (update slots (next cap i) none) s
        rw [update_comm hne, update_comm hne] at hin
        exact hin.symm.trans hout

end Eggdrop.OpHtab
