import Mathlib.Data.List.Basic

/-!
# Forest — trees as lists with pointers to earlier entries

A list of nodes where every node points up to an earlier one or hangs from the root, and also
knows the first node on the way down to it.  Nodes have numbers that grow along the list.

* `Forest`: the invariant, by the one way such a list grows.
* `Forest.filter_leaf`, `Forest.erase_leaf`: a node that nothing points to may be taken out.
* `Forest.map`: a change of the nodes that keeps the pointers keeps the forest.
* `Forest.hangs_of_split`, `Forest.firstHop`: what the pointers of a node refer to.
* `Forest.id_eq_of_through`: the nodes below a node go with those that hang from it.
-/

/-- How nodes are numbered and what they point to. -/
structure Pointers (α : Type*) where
  id : α → ℕ
  /-- the node hangs from the root -/
  top : α → Prop
  /-- the node it hangs from otherwise -/
  parent : α → Option ℕ
  /-- the first node on the way from the root to it -/
  first : α → Option ℕ

namespace Pointers

variable {α : Type*} (P : Pointers α)

/-- A node hangs from the root and is its own first hop, or from a node of the list, whose first
hop it has. -/
def Hangs (L : List α) (t : α) : Prop :=
  P.top t ∧ P.parent t = none ∧ P.first t = some (P.id t) ∨
    ∃ u ∈ L, P.parent t = some (P.id u) ∧ P.first t = P.first u

inductive Forest : List α → Prop
  | nil : Forest []
  | snoc {L : List α} {t : α} (hL : Forest L) (hlt : ∀ u ∈ L, P.id u < P.id t)
      (ht : P.Hangs L t) : Forest (L ++ [t])

/-- Following the pointers from `t` up, `h` is the last node before the root. -/
inductive FirstHop (L : List α) : α → α → Prop
  | top {t : α} (ht : P.top t) : FirstHop L t t
  | up {t u h : α} (hu : u ∈ L) (hp : P.parent t = some (P.id u)) (hh : FirstHop L u h) :
      FirstHop L t h

/-- Following the pointers from `t` up, the node with the number `x` is reached, which may be `t`. -/
inductive Through (L : List α) (x : ℕ) : α → Prop
  | self {t : α} (ht : P.id t = x) : Through L x t
  | up {t u : α} (hu : u ∈ L) (hp : P.parent t = some (P.id u)) (hh : Through L x u) : Through L x t

variable {P} {L M : List α} {t u h : α}

theorem FirstHop.mono (hLM : ∀ u ∈ L, u ∈ M) (hh : P.FirstHop L t h) : P.FirstHop M t h := by
  induction hh with
  | top ht => exact .top ht
  | up hu hp _ ih => exact .up (hLM _ hu) hp ih

theorem Through.mono {x : ℕ} (hLM : ∀ u ∈ L, u ∈ M) (hh : P.Through L x t) : P.Through M x t := by
  induction hh with
  | self ht => exact .self ht
  | up hu hp _ ih => exact .up (hLM _ hu) hp ih

/-- What goes through a node that goes through `x` goes through `x`. -/
theorem Through.trans {x y : ℕ} (hh : P.Through L y t) (ht : t ∈ L)
    (hy : ∀ u ∈ L, P.id u = y → P.Through L x u) : P.Through L x t := by
  induction hh with
  | self hid => exact hy _ ht hid
  | up hu hp _ ih => exact .up hu hp (ih hu)

namespace Forest

theorem pairwise_lt (hL : P.Forest L) : L.Pairwise fun a b => P.id a < P.id b := by
  induction hL with
  | nil => exact List.Pairwise.nil
  | snoc _ hlt _ ih =>
    refine List.pairwise_append.2 ⟨ih, List.pairwise_singleton _ _, fun a ha b hb => ?_⟩
    rw [List.mem_singleton.1 hb]
    exact hlt a ha

theorem eq_of_id (hL : P.Forest L) (ht : t ∈ L) (hu : u ∈ L) (hid : P.id t = P.id u) : t = u := by
  induction hL with
  | nil => cases ht
  | snoc _ hlt _ ih =>
    rcases List.mem_append.1 ht with ht | ht <;> rcases List.mem_append.1 hu with hu | hu
    · exact ih ht hu
    · have := hlt t ht
      rw [List.mem_singleton.1 hu] at hid
      omega
    · have := hlt u hu
      rw [List.mem_singleton.1 ht] at hid
      omega
    · exact (List.mem_singleton.1 ht).trans (List.mem_singleton.1 hu).symm

theorem hangs_of_split (hL : P.Forest L) {pre post : List α} (hsplit : L = pre ++ t :: post) :
    P.Hangs pre t := by
  induction hL generalizing post with
  | nil => simp at hsplit
  | @snoc L a _ _ ha ih =>
    rcases List.eq_nil_or_concat post with rfl | ⟨post, b, rfl⟩
    · obtain ⟨rfl, hat⟩ := List.append_inj' hsplit rfl
      rw [← (List.cons.inj hat).1]
      exact ha
    · rw [List.concat_eq_append, ← List.cons_append, ← List.append_assoc] at hsplit
      exact ih (List.append_inj' hsplit rfl).1

theorem parent_mem (hL : P.Forest L) (ht : t ∈ L) {i : ℕ} (hp : P.parent t = some i) :
    ∃ u ∈ L, P.id u = i ∧ i < P.id t ∧ P.first t = P.first u := by
  induction hL with
  | nil => cases ht
  | snoc _ hlt hang ih =>
    rcases List.mem_append.1 ht with ht | ht
    · obtain ⟨u, hu, hrest⟩ := ih ht
      exact ⟨u, List.mem_append_left _ hu, hrest⟩
    · obtain rfl := List.mem_singleton.1 ht
      rcases hang with ⟨-, hnone, -⟩ | ⟨u, hu, hpar, hfirst⟩
      · rw [hnone] at hp
        cases hp
      · rw [hpar] at hp
        obtain rfl := Option.some.inj hp
        exact ⟨u, List.mem_append_left _ hu, rfl, hlt u hu, hfirst⟩

/-- Where nothing hangs from `x` any more, nothing goes through `x` but the node itself. -/
theorem id_eq_of_through (hL : P.Forest L) (hM : P.Forest M) (hML : ∀ u ∈ M, u ∈ L) {x : ℕ}
    (hleaf : ∀ u ∈ M, P.parent u ≠ some x) (hh : P.Through L x t) (ht : t ∈ M) : P.id t = x := by
  induction hh with
  | self hid => exact hid
  | @up t u hu hp _ ih =>
    exfalso
    obtain ⟨v, hv, hid, -⟩ := hM.parent_mem ht hp
    obtain rfl := hL.eq_of_id (hML v hv) hu hid
    exact hleaf t ht (ih hv ▸ hp)

theorem firstHop (hL : P.Forest L) (ht : t ∈ L) :
    ∃ h ∈ L, P.FirstHop L t h ∧ P.first t = some (P.id h) := by
  induction hL generalizing t with
  | nil => cases ht
  | snoc _ _ hang ih =>
    have hsub {L : List α} {a : α} (u : α) (hu : u ∈ L) : u ∈ L ++ [a] := List.mem_append_left _ hu
    rcases List.mem_append.1 ht with ht | ht
    · obtain ⟨h, hh, hhop, hfirst⟩ := ih ht
      exact ⟨h, hsub h hh, hhop.mono hsub, hfirst⟩
    · obtain rfl := List.mem_singleton.1 ht
      rcases hang with ⟨htop, -, hfirst⟩ | ⟨u, hu, hpar, hfirst⟩
      · exact ⟨t, List.mem_append_right _ ht, .top htop, hfirst⟩
      · obtain ⟨h, hh, hhop, hu'⟩ := ih hu
        exact ⟨h, hsub h hh, .up (hsub u hu) hpar (hhop.mono hsub), hfirst.trans hu'⟩

theorem filter_leaf (hL : P.Forest L) {x : ℕ} (hleaf : ∀ t ∈ L, P.parent t ≠ some x) :
    P.Forest (L.filter fun t => P.id t ≠ x) := by
  induction hL with
  | nil => exact .nil
  | @snoc L t _ hlt hang ih =>
    have hleaf' := fun u hu => hleaf u (List.mem_append_left _ hu)
    rw [List.filter_append]
    by_cases hx : P.id t = x
    · simpa [hx] using ih hleaf'
    · rw [List.filter_cons_of_pos (by simpa using hx), List.filter_nil]
      refine (ih hleaf').snoc (fun u hu => hlt u (List.mem_of_mem_filter hu)) ?_
      rcases hang with htop | ⟨u, hu, hpar, hfirst⟩
      · exact .inl htop
      · refine .inr ⟨u, List.mem_filter.2 ⟨hu, ?_⟩, hpar, hfirst⟩
        have hne := hleaf t (List.mem_append_right _ (List.mem_singleton_self t))
        rw [hpar] at hne
        simpa using fun h => hne (congrArg some h)

theorem erase_leaf {pre post : List α} (hL : P.Forest (pre ++ t :: post))
    (hleaf : ∀ u ∈ pre ++ t :: post, P.parent u ≠ some (P.id t)) : P.Forest (pre ++ post) := by
  have hrest : ((pre ++ t :: post).filter fun u => P.id u ≠ P.id t) = pre ++ post := by
    have hne {u : α} (hu : u ∈ pre ++ post) : P.id u ≠ P.id t := by
      obtain ⟨-, hpost, hpre⟩ := List.pairwise_append.1 hL.pairwise_lt
      rcases List.mem_append.1 hu with hu | hu
      · exact Nat.ne_of_lt (hpre u hu t List.mem_cons_self)
      · exact Nat.ne_of_gt ((List.pairwise_cons.1 hpost).1 u hu)
    rw [List.filter_append, List.filter_cons_of_neg (by simp), ← List.filter_append,
      List.filter_eq_self.2 fun u hu => by simpa using hne hu]
  rw [← hrest]
  exact hL.filter_leaf hleaf

theorem map (hL : P.Forest L) {f : α → α} (hid : ∀ t, P.id (f t) = P.id t)
    (htop : ∀ t, P.top t → P.top (f t)) (hparent : ∀ t, P.parent (f t) = P.parent t)
    (hfirst : ∀ t, P.first (f t) = P.first t) : P.Forest (L.map f) := by
  induction hL with
  | nil => exact .nil
  | snoc _ hlt hang ih =>
    rw [List.map_append]
    refine ih.snoc (fun u hu => ?_) ?_
    · obtain ⟨a, ha, rfl⟩ := List.mem_map.1 hu
      rw [hid, hid]
      exact hlt a ha
    · rcases hang with ⟨h1, h2, h3⟩ | ⟨u, hu, h2, h3⟩
      · exact .inl ⟨htop _ h1, by rw [hparent, h2], by rw [hfirst, hid, h3]⟩
      · exact .inr ⟨f u, List.mem_map_of_mem hu, by rw [hparent, hid, h2],
          by rw [hfirst, hfirst, h3]⟩

end Forest
end Pointers
