import Eggdrop.Lib.Htab

/-!
# HtabShared — a hash table over records that may have equal keys

Where two records have keys that are equal up to the folding, they share one slot: it keeps the
pointer to the key of the record that was set first, and the value is the record that was set last.
Nothing is left of either when the slot is deleted.

* `Points`: every slot is for one folded key, which its key and its value both have.
* `Points.get_spec`: a lookup finds a record with the key, or there is no slot for it.
* `Points.set`, `Points.del`: what the operations keep.
* `Points.transfer`: the records may change where there is no slot for them.
-/

namespace Htab

variable {η κ χ φ : Type*}

/-- The slot is for the folded key `f`. -/
structure Slot.Holds (hash : φ → η) (fold : χ → φ) (recs : List (κ × χ)) (s : Slot η κ κ)
    (f : φ) : Prop where
  hash_eq : s.hash = hash f
  key : ∃ p ∈ recs, p.1 = s.key ∧ fold p.2 = f
  val : ∃ q ∈ recs, q.1 = s.val ∧ fold q.2 = f

/-- Every slot is for a folded key, and no two are for the same. -/
structure Points (hash : φ → η) (fold : χ → φ) (recs : List (κ × χ))
    (slots : List (Slot η κ κ)) : Prop where
  holds : ∀ s ∈ slots, ∃ f, s.Holds hash fold recs f
  once : slots.Pairwise fun a b => ∀ f, a.Holds hash fold recs f → ¬ b.Holds hash fold recs f

/-- No slot is for the folded key `f`. -/
def Unheld (hash : φ → η) (fold : χ → φ) (recs : List (κ × χ)) (slots : List (Slot η κ κ))
    (f : φ) : Prop := ∀ s ∈ slots, ¬ s.Holds hash fold recs f

variable {hash : φ → η} {fold : χ → φ} {read : κ → Option χ} {recs recs' : List (κ × χ)}
  {slots : List (Slot η κ κ)}

theorem Points.nil : Points hash fold recs ([] : List (Slot η κ κ)) := ⟨by simp, .nil⟩

theorem Slot.Holds.eq (hnd : (recs.map Prod.fst).Nodup) {s : Slot η κ κ} {f : φ}
    (h : s.Holds hash fold recs f) {r : κ × χ} (hr : r ∈ recs) (hkey : r.1 = s.key) :
    fold r.2 = f := by
  obtain ⟨p, hp, hps, hpf⟩ := h.key
  rw [List.inj_on_of_nodup_map hnd hr hp (hkey.trans hps.symm), hpf]

theorem Points.transfer (h : Points hash fold recs slots) (hnd : (recs'.map Prod.fst).Nodup)
    (hkeep : ∀ f, ¬ Unheld hash fold recs slots f → ∀ r ∈ recs, fold r.2 = f → r ∈ recs') :
    Points hash fold recs' slots ∧
      ∀ f, Unheld hash fold recs slots f → Unheld hash fold recs' slots f := by
  have hto : ∀ s ∈ slots, ∀ f, s.Holds hash fold recs f → s.Holds hash fold recs' f := by
    rintro s hs f hf
    have hheld : ¬ Unheld hash fold recs slots f := fun hno => hno s hs hf
    obtain ⟨hhash, ⟨p, hp, hps, hpf⟩, q, hq, hqs, hqf⟩ := hf
    exact ⟨hhash, ⟨p, hkeep f hheld p hp hpf, hps, hpf⟩, q, hkeep f hheld q hq hqf, hqs, hqf⟩
  have hfrom : ∀ s ∈ slots, ∀ f, s.Holds hash fold recs' f → s.Holds hash fold recs f := by
    intro s hs f hf
    obtain ⟨g, hg⟩ := h.holds s hs
    obtain ⟨p, hp, hps, hpg⟩ := (hto s hs g hg).key
    have hfg : f = g := by rw [← hf.eq hnd hp hps, hpg]
    rw [hfg]
    exact hg
  refine ⟨⟨fun s hs => ?_, ?_⟩, fun f hno s hs hf => hno s hs (hfrom s hs f hf)⟩
  · obtain ⟨f, hf⟩ := h.holds s hs
    exact ⟨f, hto s hs f hf⟩
  · refine h.once.imp_of_mem fun {a b} ha hb hab f hfa hfb => ?_
    exact hab f (hfrom a ha f hfa) (hfrom b hb f hfb)

theorem Points.isSome (h : Points hash fold recs slots) (hread : Reads read recs) :
    ∀ s ∈ slots, (read s.key).isSome := by
  intro s hs
  obtain ⟨f, hf⟩ := h.holds s hs
  obtain ⟨p, hp, hps, -⟩ := hf.key
  rw [← hps, hread p hp]
  rfl

/-- A search for a key stops at the slot for it. -/
theorem Points.matches_iff (h : Points hash fold recs slots) (hread : Reads read recs)
    (hnd : (recs.map Prod.fst).Nodup) {s : Slot η κ κ} (hs : s ∈ slots) (k : χ) :
    s.Matches hash fold read k ↔ s.Holds hash fold recs (fold k) := by
  obtain ⟨f, hf⟩ := h.holds s hs
  obtain ⟨p, hp, hps, hpf⟩ := hf.key
  have hreadp : read s.key = some p.2 := by rw [← hps, hread p hp]
  refine ⟨?_, fun hk => ⟨hk.hash_eq, p.2, hreadp, hk.eq hnd hp hps⟩⟩
  rintro ⟨-, t, ht, htk⟩
  rw [hreadp] at ht
  obtain rfl := Option.some.inj ht
  rw [← htk, hpf]
  exact hf

section Code

variable [DecidableEq η] [DecidableEq φ]

/-- A lookup finds a record with the key, or no slot is for it. -/
theorem Points.get_spec (h : Points hash fold recs slots) (hread : Reads read recs)
    (hnd : (recs.map Prod.fst).Nodup) (k : χ) :
    (get hash fold read slots k = some none ∧ Unheld hash fold recs slots (fold k)) ∨
      ∃ q ∈ recs, get hash fold read slots k = some (some q.1) ∧ fold q.2 = fold k := by
  rcases search_spec hash fold k (h.isSome hread) with ⟨hs, hno⟩ | ⟨pre, s, post, hs, hsplit, hm⟩
  · refine .inl ⟨by rw [get, hs], fun s hsm hk => ?_⟩
    exact hno s hsm ((h.matches_iff hread hnd hsm k).2 hk)
  · have hsm : s ∈ slots := by rw [hsplit]; simp
    obtain ⟨q, hq, hqs, hqk⟩ := ((h.matches_iff hread hnd hsm k).1 hm).val
    refine .inr ⟨q, hq, ?_, hqk⟩
    rw [get, hs, hqs]

theorem Points.set (h : Points hash fold recs slots) (hread : Reads read recs)
    (hnd : (recs.map Prod.fst).Nodup) {r : κ × χ} (hr : r ∈ recs) :
    ∃ slots', set hash fold read slots r.1 r.2 r.1 = some slots' ∧
      Points hash fold recs slots' := by
  rcases search_spec hash fold r.2 (h.isSome hread) with
    ⟨hs, hno⟩ | ⟨pre, s, post, hs, hsplit, hm⟩
  · refine ⟨slots ++ [⟨hash (fold r.2), r.1, r.1⟩], by rw [Htab.set, hs], ?_, ?_⟩
    · intro t ht
      rcases List.mem_append.1 ht with ht | ht
      · exact h.holds t ht
      · obtain rfl := List.mem_singleton.1 ht
        exact ⟨fold r.2, rfl, ⟨r, hr, rfl, rfl⟩, r, hr, rfl, rfl⟩
    · rw [List.pairwise_append]
      refine ⟨h.once, List.pairwise_singleton _ _, ?_⟩
      rintro t ht u hu f hft hfu
      obtain rfl := List.mem_singleton.1 hu
      obtain rfl : fold r.2 = f := hfu.eq hnd hr rfl
      exact hno t ht ((h.matches_iff hread hnd ht r.2).2 hft)
  · have hsm : s ∈ slots := by rw [hsplit]; simp
    have hholds := (h.matches_iff hread hnd hsm r.2).1 hm
    -- only the value of the slot changes, to a record with the same key
    have hnew : ({ s with val := r.1 } : Slot η κ κ).Holds hash fold recs (fold r.2) :=
      ⟨hholds.hash_eq, hholds.key, r, hr, rfl, rfl⟩
    have hold : ∀ f, ({ s with val := r.1 } : Slot η κ κ).Holds hash fold recs f →
        s.Holds hash fold recs f := by
      intro f hf
      obtain ⟨p, hp, hps, hpf⟩ := hholds.key
      obtain rfl : f = fold r.2 := (hf.eq hnd hp hps).symm.trans hpf
      exact hholds
    refine ⟨pre ++ { s with val := r.1 } :: post, by rw [Htab.set, hs], ?_, ?_⟩
    · intro t ht
      rcases List.mem_append.1 ht with ht | ht
      · exact h.holds t (by rw [hsplit]; exact List.mem_append_left _ ht)
      · rcases List.mem_cons.1 ht with rfl | ht
        · exact ⟨_, hnew⟩
        · exact h.holds t (by rw [hsplit]; exact List.mem_append_right _ (List.mem_cons_of_mem s ht))
    · have honce := h.once
      rw [hsplit, List.pairwise_append, List.pairwise_cons] at honce
      obtain ⟨hpre, ⟨hs', hpost⟩, hcross⟩ := honce
      rw [List.pairwise_append, List.pairwise_cons]
      refine ⟨hpre, ⟨fun t ht f hf => hs' t ht f (hold f hf), hpost⟩, fun a ha b hb f hfa hfb => ?_⟩
      rcases List.mem_cons.1 hb with rfl | hb
      · exact hcross a ha s List.mem_cons_self f hfa (hold f hfb)
      · exact hcross a ha b (List.mem_cons_of_mem s hb) f hfa hfb

theorem Points.del (h : Points hash fold recs slots) (hread : Reads read recs)
    (hnd : (recs.map Prod.fst).Nodup) (k : χ) :
    ∃ slots', del hash fold read slots k = some slots' ∧ Points hash fold recs slots' ∧
      Unheld hash fold recs slots' (fold k) ∧ slots'.Sublist slots ∧
      ∀ s ∈ slots, ∀ f ≠ fold k, s.Holds hash fold recs f → s ∈ slots' := by
  obtain ⟨slots', hdel, ⟨rfl, hno⟩ | ⟨pre, s, post, hsplit, rfl, hm⟩⟩ :=
    del_spec hash fold k (h.isSome hread)
  · refine ⟨slots', hdel, h, fun s hs hk => ?_, List.Sublist.refl _, fun s hs _ _ _ => hs⟩
    exact hno s hs ((h.matches_iff hread hnd hs k).2 hk)
  · have hsm : s ∈ slots := by rw [hsplit]; simp
    have hholds := (h.matches_iff hread hnd hsm k).1 hm
    have hsub : (pre ++ post).Sublist slots := by
      rw [hsplit]
      exact (List.Sublist.refl pre).append (List.sublist_cons_self s post)
    refine ⟨pre ++ post, hdel, ⟨fun t ht => h.holds t (hsub.subset ht), h.once.sublist hsub⟩,
      fun t ht hk => ?_, hsub, fun t ht f hf hft => ?_⟩
    · have honce := h.once
      rw [hsplit, List.pairwise_append, List.pairwise_cons] at honce
      rcases List.mem_append.1 ht with ht | ht
      · exact honce.2.2 t ht s List.mem_cons_self _ hk hholds
      · exact honce.2.1.1 t ht _ hholds hk
    · rw [hsplit] at ht
      rcases List.mem_append.1 ht with ht | ht
      · exact List.mem_append_left _ ht
      · refine List.mem_append_right _ ((List.mem_cons.1 ht).resolve_left ?_)
        rintro rfl
        obtain ⟨p, hp, hps, hpf⟩ := hholds.key
        exact hf ((hft.eq hnd hp hps).symm.trans hpf)

end Code

end Htab
