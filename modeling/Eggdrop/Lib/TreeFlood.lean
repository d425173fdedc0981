import Mathlib.Data.List.Basic
import Mathlib.Tactic.Common

/-!
# TreeFlood — messages passed on along the edges of a tree

Each node hands a message on to some of its neighbours, never towards the node that first said it.
An edge is a queue in each direction, and the queues are served in any order.

* `Routes`: which neighbour leads where.
* `Rules`: who hands what to whom, and who takes it.  `Comes m v`: the message comes to the node.
* `Inv.post`, `Inv.deliver`: what is logged, still under way and dropped adds up on every edge.
* `Inv.log_prefix`: a node logs the messages of another in the order they were said, each once and
  only those that come to it; `Inv.log_eq`: all of them, once nothing is under way.
* `comes_dest`, `Comes.onWay`: messages that are sent to one node.
-/

namespace TreeFlood

variable {V M : Type*}

/-- The ways through a tree: `next v a` is the neighbour of `v` on the way to `a`. -/
structure Routes (V : Type*) where
  next : V → V → Option V
  dist : V → V → ℕ
  next_self : ∀ v, next v v = none
  closer : ∀ {v a u}, next v a = some u → dist u a < dist v a
  adjacent : ∀ {v a u}, next v a = some u → next v u = some u
  /-- what does not lie behind a neighbour lies this way for the neighbour -/
  away : ∀ {u v a}, next u v = some v → next u a ≠ some v → next v a = some u

/-- Who hands a message on to whom, and who takes it from there. -/
structure Rules (V M : Type*) where
  src : M → V
  sends : V → M → V → Bool
  takes : V → V → M → Bool

/-- The message comes to a node. -/
inductive Comes (F : Rules V M) (m : M) : V → Prop
  | said : Comes F m (F.src m)
  | hop {u v : V} : Comes F m u → F.sends u m v = true → F.takes u v m = true → Comes F m v

/-- A node that has a message hands it to neighbours only, and not back to where it comes from. -/
def Rules.Outward (F : Rules V M) (R : Routes V) : Prop :=
  ∀ m v w, Comes F m v → F.sends v m w = true → R.next v w = some w ∧ R.next v (F.src m) ≠ some w

/-- What is under way from one node to another, and what each node has taken so far. -/
structure State (V M : Type*) where
  wire : V → V → List M
  log : V → List M

def State.init : State V M := ⟨fun _ _ => [], fun _ => []⟩

section Routes

variable {R : Routes V} {u v a : V}

theorem Routes.ne_of_next (h : R.next v a = some u) : u ≠ v := by
  rintro rfl
  exact Nat.lt_irrefl _ (R.closer h)

theorem Routes.next_back (h : R.next v a = some u) : R.next u v = some v := by
  refine R.away (R.adjacent h) ?_
  rw [R.next_self]
  exact (Option.some_ne_none _).symm

end Routes

/-! ### The way of a message -/

section Comes

variable {F : Rules V M} {R : Routes V} {m : M} {u v : V}

theorem Comes.next_of_sends (hF : F.Outward R) (h : Comes F m u) (hs : F.sends u m v = true) :
    R.next v (F.src m) = some u := by
  obtain ⟨hadj, hne⟩ := hF m u v h hs
  exact R.away hadj hne

theorem comes_iff_of_next (hF : F.Outward R) (hnext : R.next v (F.src m) = some u) :
    Comes F m v ↔ Comes F m u ∧ F.sends u m v = true ∧ F.takes u v m = true := by
  constructor
  · intro h
    cases h with
    | said =>
      rw [R.next_self] at hnext
      cases hnext
    | @hop u' _ hu' hs ht =>
      have hback := hu'.next_of_sends hF hs
      rw [hnext] at hback
      cases hback
      exact ⟨hu', hs, ht⟩
  · rintro ⟨hu, hs, ht⟩
    exact .hop hu hs ht

theorem comes_iff_of_none (hF : F.Outward R) (hnext : R.next v (F.src m) = none) :
    Comes F m v ↔ v = F.src m := by
  constructor
  · intro h
    cases h with
    | said => rfl
    | hop hu hs ht =>
      have hback := hu.next_of_sends hF hs
      rw [hnext] at hback
      cases hback
  · rintro rfl
    exact .said

/-- A message that every node on the way to `d` hands on and takes comes to `d`. -/
theorem comes_dest {d : V} (hway : ∀ u w, R.next u d = some w →
      F.sends u m w = true ∧ F.takes u w m = true)
    (hend : ∀ u, R.next u d = none → u = d) : Comes F m d := by
  have hfrom (n : ℕ) : ∀ u, R.dist u d < n → Comes F m u → Comes F m d := by
    induction n with
    | zero => exact fun u h => nomatch h
    | succ n ih =>
      intro u hu hcomes
      cases hnext : R.next u d with
      | none => exact hend u hnext ▸ hcomes
      | some w =>
        obtain ⟨hs, ht⟩ := hway u w hnext
        exact ih w (by have := R.closer hnext; omega) (.hop hcomes hs ht)
  exact hfrom _ _ (Nat.lt_succ_self _) .said

/-- A message that is only handed on towards `d` does not leave the way to `d`. -/
theorem Comes.onWay {d : V} (hto : ∀ u w, F.sends u m w = true → R.next u d = some w)
    (h : Comes F m v) :
    v = F.src m ∨ ∃ u, R.next v (F.src m) = some u ∧ R.next u d = some v := by
  induction h with
  | said => exact .inl rfl
  | @hop u v hu hs _ ih =>
    have hnext := hto u v hs
    refine .inr ⟨u, R.away (R.adjacent hnext) ?_, hnext⟩
    rcases ih with rfl | ⟨x, hx, hxu⟩
    · rw [R.next_self]
      exact (Option.some_ne_none _).symm
    · intro hv
      obtain rfl : x = v := Option.some.inj (hx.symm.trans hv)
      have h1 := R.closer hnext
      have h2 := R.closer hxu
      omega

theorem Comes.outward_dest {d w : V} (hto : ∀ u w, F.sends u m w = true → R.next u d = some w)
    (h : Comes F m v) (hs : F.sends v m w = true) :
    R.next v w = some w ∧ R.next v (F.src m) ≠ some w := by
  have hnext := hto v w hs
  refine ⟨R.adjacent hnext, fun hback => ?_⟩
  rcases h.onWay hto with rfl | ⟨u, hu, huv⟩
  · rw [R.next_self] at hback
    cases hback
  · obtain rfl : u = w := Option.some.inj (hu.symm.trans hback)
    have h1 := R.closer hnext
    have h2 := R.closer huv
    omega

end Comes

/-! ### Steps -/

section Steps

variable [DecidableEq V] (F : Rules V M)

/-- A node takes a message and hands it on. -/
def State.post (s : State V M) (v : V) (m : M) : State V M where
  wire x y := s.wire x y ++ if x = v ∧ F.sends v m y = true then [m] else []
  log x := s.log x ++ if x = v then [m] else []

def State.setWire (s : State V M) (u v : V) (q : List M) : State V M :=
  { s with wire := fun x y => if x = u ∧ y = v then q else s.wire x y }

/-- The first message from `u` to `v` arrives. -/
def State.deliver (s : State V M) (u v : V) : State V M :=
  match s.wire u v with
  | [] => s
  | m :: q =>
    if F.takes u v m then (s.setWire u v q).post F v m else s.setWire u v q

/-- The messages that were first said by `a`. -/
def ofSrc (a : V) (l : List M) : List M := l.filter fun m => F.src m = a

variable {F} {R : Routes V} {s : State V M} {u v a : V} {m : M}

theorem ofSrc_append (l l' : List M) : ofSrc F a (l ++ l') = ofSrc F a l ++ ofSrc F a l' :=
  List.filter_append ..

theorem ofSrc_singleton_of_ne (h : F.src m ≠ a) : ofSrc F a [m] = [] := by
  simp [ofSrc, h]

theorem mem_ofSrc {l : List M} : m ∈ ofSrc F a l ↔ m ∈ l ∧ F.src m = a := by
  simp [ofSrc]

/-- What a node has logged of another's messages, and what is still on the edge that they come by,
is what the neighbour has logged and handed on. -/
structure Inv (F : Rules V M) (R : Routes V) (s : State V M) : Prop where
  comes : ∀ {v m}, m ∈ s.log v → Comes F m v
  sent : ∀ {u v m}, m ∈ s.wire u v → Comes F m u ∧ F.sends u m v = true
  balance : ∀ {v a u}, R.next v a = some u →
    ofSrc F a (s.log v) ++ (ofSrc F a (s.wire u v)).filter (F.takes u v) =
      (ofSrc F a (s.log u)).filter fun m => F.sends u m v && F.takes u v m

theorem inv_init : Inv F R .init := ⟨nofun, nofun, fun _ => rfl⟩

theorem Inv.post (hcomes : ∀ {v m}, m ∈ s.log v → Comes F m v)
    (hsent : ∀ {u v m}, m ∈ s.wire u v → Comes F m u ∧ F.sends u m v = true)
    (hbalance : ∀ {x a u}, R.next x a = some u →
      (ofSrc F a (s.log x) ++ if x = v then ofSrc F a [m] else []) ++
          (ofSrc F a (s.wire u x)).filter (F.takes u x) =
        (ofSrc F a (s.log u)).filter fun m => F.sends u m x && F.takes u x m)
    (hm : Comes F m v) : Inv F R (s.post F v m) where
  comes {x m'} h := by
    rcases List.mem_append.1 h with h | h
    · exact hcomes h
    · split at h
      · next hx => exact List.mem_singleton.1 h ▸ hx ▸ hm
      · cases h
  sent {x y m'} h := by
    rcases List.mem_append.1 h with h | h
    · exact hsent h
    · split at h
      · next hx => exact List.mem_singleton.1 h ▸ hx.1 ▸ ⟨hm, hx.2⟩
      · cases h
  balance {x a u} hnext := by
    have hbal := hbalance hnext
    have hne := R.ne_of_next hnext
    simp only [State.post, ofSrc_append, List.filter_append]
    by_cases hu : u = v
    · -- the neighbour logs the message and hands it on, or does not
      subst hu
      rw [if_neg hne.symm] at hbal ⊢
      rw [if_pos rfl, ← hbal]
      simp only [List.append_nil, true_and, List.append_assoc, List.append_cancel_left_eq]
      by_cases hs : F.sends u m x = true
      · rw [if_pos hs]
        by_cases ha : F.src m = a <;> simp [ofSrc, ha, hs, List.filter_cons]
      · rw [if_neg hs]
        by_cases ha : F.src m = a <;> simp [ofSrc, ha, hs]
    · have hno : ¬(u = v ∧ F.sends v m x = true) := fun h => hu h.1
      have hnil : ofSrc F a ([] : List M) = [] := rfl
      rw [if_neg hno, if_neg hu, hnil, List.filter_nil, List.filter_nil, List.append_nil,
        List.append_nil, ← hbal]
      by_cases hx : x = v
      · rw [if_pos hx, if_pos hx]
      · rw [if_neg hx, if_neg hx, hnil]

theorem Inv.say (h : Inv F R s) (m : M) : Inv F R (s.post F (F.src m) m) := by
  refine Inv.post h.comes h.sent (fun {x a u} hnext => ?_) .said
  rw [← h.balance hnext]
  by_cases hx : x = F.src m
  · -- nobody is on the way from a node to itself
    have ha : F.src m ≠ a := by
      rintro rfl
      rw [hx, R.next_self] at hnext
      cases hnext
    rw [if_pos hx, ofSrc_singleton_of_ne ha, List.append_nil]
  · rw [if_neg hx, List.append_nil]

theorem Inv.deliver (hF : F.Outward R) (h : Inv F R s) (u v : V) : Inv F R (s.deliver F u v) := by
  rw [State.deliver]
  split
  · exact h
  · next m q hq =>
    obtain ⟨hu, hs⟩ := h.sent (v := v) (hq ▸ List.mem_cons_self)
    have hback := hu.next_of_sends hF hs
    have hsub : ∀ {x y m'}, m' ∈ (s.setWire u v q).wire x y → m' ∈ s.wire x y := by
      intro x y m' hm'
      by_cases hxy : x = u ∧ y = v
      · obtain ⟨rfl, rfl⟩ := hxy
        simp only [State.setWire, and_self, if_true] at hm'
        exact hq ▸ List.mem_cons_of_mem _ hm'
      · simpa only [State.setWire, if_neg hxy] using hm'
    have hsent : ∀ {x y m'}, m' ∈ (s.setWire u v q).wire x y → Comes F m' x ∧ F.sends x m' y = true :=
      fun hm' => h.sent (hsub hm')
    -- what the edge lacks now
    have hbalance : ∀ {x a y}, R.next x a = some y →
        (ofSrc F a (s.log x) ++ if x = v then (ofSrc F a [m]).filter (F.takes u v) else []) ++
            (ofSrc F a ((s.setWire u v q).wire y x)).filter (F.takes y x) =
          (ofSrc F a (s.log y)).filter fun m => F.sends y m x && F.takes y x m := by
      intro x a y hnext
      rw [← h.balance hnext]
      by_cases hx : x = v
      · subst hx
        by_cases hy : y = u
        · subst hy
          have hwire : (s.setWire y x q).wire y x = q := by simp [State.setWire]
          rw [if_pos rfl, hwire, hq, List.append_assoc, ← List.filter_append, ← ofSrc_append,
            List.singleton_append]
        · have ha : F.src m ≠ a := by
            rintro rfl
            exact hy (Option.some.inj (hnext.symm.trans hback))
          simp [State.setWire, hy, ofSrc_singleton_of_ne ha]
      · simp [State.setWire, hx]
    split
    · next ht =>
      refine Inv.post h.comes hsent (fun {x a y} hnext => ?_) (.hop hu hs ht)
      have hbal := hbalance hnext
      have htake : (ofSrc F a [m]).filter (F.takes u v) = ofSrc F a [m] := by
        by_cases ha : F.src m = a <;> simp [ofSrc, ha, ht]
      rw [htake] at hbal
      exact hbal
    · next ht =>
      refine ⟨h.comes, hsent, fun {x a y} hnext => ?_⟩
      have hbal := hbalance hnext
      have htake : (ofSrc F a [m]).filter (F.takes u v) = [] := by
        by_cases ha : F.src m = a <;> simp [ofSrc, ha, ht]
      rw [htake, ite_self, List.append_nil] at hbal
      exact hbal

/-! ### What comes of it -/

open Classical in
theorem filter_comes (hF : F.Outward R) (hnext : R.next v a = some u) (l : List M) :
    ((ofSrc F a l).filter fun m => Comes F m v) =
      ((ofSrc F a l).filter fun m => Comes F m u).filter fun m =>
        F.sends u m v && F.takes u v m := by
  rw [List.filter_filter]
  refine List.filter_congr fun m hm => ?_
  obtain ⟨-, rfl⟩ := mem_ofSrc.1 hm
  rw [Bool.eq_iff_iff, decide_eq_true_iff, comes_iff_of_next hF hnext]
  simp [and_comm]

open Classical in
theorem Inv.log_root (hF : F.Outward R) (h : Inv F R s) (hnext : R.next v a = none) :
    ofSrc F a (s.log v) = (ofSrc F a (s.log a)).filter fun m => Comes F m v := by
  have hcomes {m : M} (hm : F.src m = a) : Comes F m v ↔ v = a := by
    subst hm
    exact comes_iff_of_none hF hnext
  by_cases hv : v = a
  · rw [hv] at hcomes ⊢
    exact (List.filter_eq_self.2 fun m hm => decide_eq_true ((hcomes (mem_ofSrc.1 hm).2).2 rfl)).symm
  · have hno : ∀ m ∈ ofSrc F a (s.log a), ¬decide (Comes F m v) = true := fun m hm hc =>
      hv ((hcomes (mem_ofSrc.1 hm).2).1 (of_decide_eq_true hc))
    rw [List.filter_eq_nil_iff.2 hno]
    refine List.eq_nil_iff_forall_not_mem.2 fun m hm => hv ?_
    exact (hcomes (mem_ofSrc.1 hm).2).1 (h.comes (mem_ofSrc.1 hm).1)

open Classical in
theorem Inv.log_prefix (hF : F.Outward R) (h : Inv F R s) (v a : V) :
    ofSrc F a (s.log v) <+: (ofSrc F a (s.log a)).filter fun m => Comes F m v := by
  induction hn : R.dist v a using Nat.strongRecOn generalizing v with
  | ind n ih =>
    subst hn
    cases hnext : R.next v a with
    | none => exact h.log_root hF hnext ▸ List.prefix_rfl
    | some u =>
      have hpre : ofSrc F a (s.log v) <+:
          (ofSrc F a (s.log u)).filter fun m => F.sends u m v && F.takes u v m :=
        ⟨_, h.balance hnext⟩
      rw [filter_comes hF hnext]
      exact hpre.trans ((ih _ (R.closer hnext) u rfl).filter _)

open Classical in
theorem Inv.log_eq (hF : F.Outward R) (h : Inv F R s) (hquiet : ∀ u v, s.wire u v = []) (v a : V) :
    ofSrc F a (s.log v) = (ofSrc F a (s.log a)).filter fun m => Comes F m v := by
  induction hn : R.dist v a using Nat.strongRecOn generalizing v with
  | ind n ih =>
    subst hn
    cases hnext : R.next v a with
    | none => exact h.log_root hF hnext
    | some u =>
      have hbal := h.balance hnext
      have hnil : ofSrc F a ([] : List M) = [] := rfl
      rw [hquiet, hnil, List.filter_nil, List.append_nil, ih _ (R.closer hnext) u rfl] at hbal
      rw [hbal, filter_comes hF hnext]

end Steps
end TreeFlood
