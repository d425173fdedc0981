import Eggdrop.Lib.Htab

/-!
# HtabFiled — a hash table with one slot for each record

The records have different folded keys, and each has the slot for the key it has now.  That is so
where a key is deleted before it changes in place, and set after.

* `Filed`: the slots are those of the records.
* `Filed.get_eq`: a lookup is a search through the records.
* `Filed.set`, `Filed.set_self`, `Filed.del`: how the table follows the records.
-/

namespace Htab

variable {η κ χ φ : Type*}

/-- The slot of a record. -/
def slotOf (hash : φ → η) (fold : χ → φ) (r : κ × χ) : Slot η κ κ := ⟨hash (fold r.2), r.1, r.1⟩

/-- There is one slot for each record and no other. -/
def Filed (hash : φ → η) (fold : χ → φ) (recs : List (κ × χ)) (slots : List (Slot η κ κ)) : Prop :=
  slots.Perm (recs.map (slotOf hash fold))

variable {hash : φ → η} {fold : χ → φ} {read : κ → Option χ} {recs recs' : List (κ × χ)}
  {slots : List (Slot η κ κ)} {r : κ × χ} {k : χ}

theorem Filed.nil : Filed hash fold ([] : List (κ × χ)) ([] : List (Slot η κ κ)) :=
  List.Perm.nil

theorem Filed.perm (h : Filed hash fold recs slots) (hp : recs.Perm recs') :
    Filed hash fold recs' slots := List.Perm.trans h (hp.map _)

theorem Filed.mem_iff (h : Filed hash fold recs slots) {s : Slot η κ κ} :
    s ∈ slots ↔ ∃ r ∈ recs, slotOf hash fold r = s := by
  rw [List.Perm.mem_iff h, List.mem_map]

theorem Filed.isSome (h : Filed hash fold recs slots) (hread : Reads read recs) :
    ∀ s ∈ slots, (read s.key).isSome := by
  intro s hs
  obtain ⟨r, hr, rfl⟩ := h.mem_iff.1 hs
  rw [slotOf, hread r hr]
  rfl

/-- A search for a key stops at the slot of the record with that key. -/
theorem slotOf_matches_iff (hr : read r.1 = some r.2) (k : χ) :
    (slotOf hash fold r).Matches hash fold read k ↔ fold r.2 = fold k := by
  refine ⟨?_, fun hk => ⟨by rw [slotOf, hk], r.2, hr, hk⟩⟩
  rintro ⟨-, t, ht, htk⟩
  have hrt : some r.2 = some t := hr.symm.trans ht
  rw [Option.some.inj hrt]
  exact htk

section Code

variable [DecidableEq η] [DecidableEq φ]

theorem Filed.get_eq (h : Filed hash fold recs slots) (hread : Reads read recs)
    (hd : (recs.map fun r => fold r.2).Nodup) (k : χ) :
    get hash fold read slots k =
      some ((recs.find? fun r => fold r.2 = fold k).map Prod.fst) := by
  rcases search_spec hash fold k (h.isSome hread) with ⟨hs, hno⟩ | ⟨pre, s, post, hs, hsplit, hm⟩
  · have hnone : (recs.find? fun r => fold r.2 = fold k) = none := by
      rw [List.find?_eq_none]
      intro r hr hk
      exact hno _ (h.mem_iff.2 ⟨r, hr, rfl⟩)
        ((slotOf_matches_iff (hread r hr) k).2 (of_decide_eq_true hk))
    rw [get, hs, hnone]
    rfl
  · obtain ⟨r, hr, rfl⟩ := h.mem_iff.1 (hsplit ▸ List.mem_append_right pre List.mem_cons_self)
    have hk := (slotOf_matches_iff (hread r hr) k).1 hm
    have hsome : (recs.find? fun r => fold r.2 = fold k) = some r := by
      cases hf : recs.find? fun r => fold r.2 = fold k with
      | none =>
        rw [List.find?_eq_none] at hf
        exact absurd (decide_eq_true hk) (hf r hr)
      | some q =>
        have hq : fold q.2 = fold k := by simpa using List.find?_some hf
        rw [List.inj_on_of_nodup_map hd (List.mem_of_find?_eq_some hf) hr (hq.trans hk.symm)]
    rw [get, hs, hsome]
    rfl

theorem Filed.set (h : Filed hash fold recs slots) (hread : Reads read recs)
    (hnew : ∀ q ∈ recs, fold q.2 ≠ fold r.2) :
    ∃ slots', set hash fold read slots r.1 r.2 r.1 = some slots' ∧
      Filed hash fold (r :: recs) slots' := by
  rcases search_spec hash fold r.2 (h.isSome hread) with
    ⟨hs, -⟩ | ⟨pre, s, post, -, hsplit, hm⟩
  · refine ⟨slots ++ [slotOf hash fold r], by rw [Htab.set, hs]; rfl, ?_⟩
    exact (List.perm_append_singleton _ _).trans (List.Perm.cons _ h)
  · obtain ⟨q, hq, rfl⟩ := h.mem_iff.1 (hsplit ▸ List.mem_append_right pre List.mem_cons_self)
    exact absurd ((slotOf_matches_iff (hread q hq) r.2).1 hm) (hnew q hq)

theorem Filed.set_self (h : Filed hash fold recs slots) (hread : Reads read recs)
    (hd : (recs.map fun r => fold r.2).Nodup) (hr : r ∈ recs) :
    Htab.set hash fold read slots r.1 r.2 r.1 = some slots := by
  rcases search_spec hash fold r.2 (h.isSome hread) with
    ⟨-, hno⟩ | ⟨pre, s, post, hs, hsplit, hm⟩
  · exact absurd ((slotOf_matches_iff (hread r hr) r.2).2 rfl) (hno _ (h.mem_iff.2 ⟨r, hr, rfl⟩))
  · obtain ⟨q, hq, rfl⟩ := h.mem_iff.1 (hsplit ▸ List.mem_append_right pre List.mem_cons_self)
    have hk := (slotOf_matches_iff (hread q hq) r.2).1 hm
    obtain rfl : q = r := List.inj_on_of_nodup_map hd hq hr hk
    rw [Htab.set, hs, hsplit]
    rfl

theorem Filed.del (h : Filed hash fold (r :: recs) slots) (hread : Reads read (r :: recs))
    (hd : ((r :: recs).map fun r => fold r.2).Nodup) (hk : fold k = fold r.2) :
    ∃ slots', del hash fold read slots k = some slots' ∧ Filed hash fold recs slots' := by
  have hr : r ∈ r :: recs := List.mem_cons_self
  obtain ⟨slots', hdel, ⟨rfl, hno⟩ | ⟨pre, s, post, hsplit, rfl, hm⟩⟩ :=
    del_spec hash fold k (h.isSome hread)
  · exact absurd ((slotOf_matches_iff (hread r hr) k).2 hk.symm)
      (hno _ (h.mem_iff.2 ⟨r, hr, rfl⟩))
  · obtain ⟨q, hq, rfl⟩ := h.mem_iff.1 (hsplit ▸ List.mem_append_right pre List.mem_cons_self)
    have hqk := (slotOf_matches_iff (hread q hq) k).1 hm
    obtain rfl : q = r := List.inj_on_of_nodup_map hd hq hr (hqk.trans hk)
    refine ⟨pre ++ post, hdel, ?_⟩
    have hperm : (slotOf hash fold q :: (pre ++ post)).Perm
        (slotOf hash fold q :: recs.map (slotOf hash fold)) := by
      refine List.perm_middle.symm.trans ?_
      rw [← hsplit]
      exact h
    exact List.Perm.cons_inv hperm

end Code

end Htab
