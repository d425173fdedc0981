import Mathlib.Data.List.Nodup

/-!
# TailQueue — a linked queue with a pointer to its last cell

The cells that can be reached from the head are a list of addresses and values.  Beside them stand
the address that is kept as the last one, and a count.

* `Represents`: the last address and the count are those of the list.
* `pushBack_of_represents`: appending through the last pointer appends to the list.
* `Represents.popFront`, `Represents.pushFront`: the ends.
* `Represents.swept`: a pass that unlinks cells and leaves the last pointer alone keeps the
  representation where it does not unlink the last cell, or unlinks all.
-/

namespace TailQueue

variable {α β : Type*}

structure Queue (α : Type*) where
  cells : List (Nat × α)
  last : Option Nat
  tot : Int
deriving DecidableEq, Repr

/-- The address of the last cell. -/
def lastAddr (cells : List (Nat × α)) : Option Nat := cells.getLast?.map Prod.fst

/-- `last` is the last cell that can be reached, and `tot` the number of cells. -/
structure Represents (q : Queue α) : Prop where
  last : q.last = lastAddr q.cells
  tot : q.tot = q.cells.length
  nodup : (q.cells.map Prod.fst).Nodup

namespace Queue

def empty : Queue α := ⟨[], none, 0⟩

/-- Put a cell in front of the head. -/
def pushFront (q : Queue α) (x : Nat × α) : Queue α := ⟨x :: q.cells, q.last.or (some x.1), q.tot + 1⟩

/-- Link a cell behind the one at `last`, whatever follows there, or, without one, make it the head;
`none` where `last` points to no cell. -/
def pushBack (q : Queue α) (x : Nat × α) : Option (Queue α) :=
  match q.last with
  | none => some ⟨[x], some x.1, q.tot + 1⟩
  | some a =>
    if a ∈ q.cells.map Prod.fst then
      some ⟨(q.cells.take (q.cells.findIdx fun c => c.1 = a)) ++
        (q.cells.find? fun c => c.1 = a).toList ++ [x], some x.1, q.tot + 1⟩
    else none

/-- Unlink the head; an empty queue is left with the last pointer it had. -/
def dropHead (q : Queue α) : Queue α := ⟨q.cells.tail, q.last, q.tot - 1⟩

/-- An empty queue has no last cell. -/
def mendLast (q : Queue α) : Queue α := if q.cells = [] then { q with last := none } else q

/-- Unlink the head. -/
def popFront (q : Queue α) : Queue α := q.dropHead.mendLast

end Queue

/-! ### Passes -/

/-- Go through the cells with an accumulator; each keeps its place with a new value or goes. -/
@[grind =] def sweep (f : β → α → β × Option α) : β → List (Nat × α) → β × List (Nat × α)
  | b, [] => (b, [])
  | b, c :: cells =>
    match f b c.2 with
    | (b, some x) => ((sweep f b cells).1, (c.1, x) :: (sweep f b cells).2)
    | (b, none) => sweep f b cells

/-- The pass unlinks the last cell. -/
@[grind =] def dropsLast (f : β → α → β × Option α) : β → List (Nat × α) → Bool
  | _, [] => false
  | b, [c] => (f b c.2).2.isNone
  | b, c :: d :: cells => dropsLast f (f b c.2).1 (d :: cells)

/-- What a pass does to a queue whose last pointer it leaves alone, unless no cell is left. -/
@[grind =] def Queue.swept (q : Queue α) (cells : List (Nat × α)) : Queue α :=
  ⟨cells, if cells = [] then none else q.last, q.tot - (q.cells.length - cells.length : Nat)⟩

variable {q : Queue α} {x : Nat × α} {f : β → α → β × Option α} {b : β} {cells : List (Nat × α)}

theorem represents_empty : Represents (Queue.empty : Queue α) := ⟨rfl, rfl, List.nodup_nil⟩

theorem Represents.pushFront (h : Represents q) (hx : x.1 ∉ q.cells.map Prod.fst) :
    Represents (q.pushFront x) where
  last := by
    show q.last.or (some x.1) = lastAddr (x :: q.cells)
    rw [h.last]
    unfold lastAddr
    cases hc : q.cells with
    | nil => rfl
    | cons c cells =>
      rw [List.getLast?_cons_cons, List.getLast?_eq_some_getLast (by simp)]
      rfl
  tot := by
    show q.tot + 1 = ((x :: q.cells).length : Int)
    rw [h.tot, List.length_cons]
    omega
  nodup := by
    show ((x :: q.cells).map Prod.fst).Nodup
    rw [List.map_cons, List.nodup_cons]
    exact ⟨hx, h.nodup⟩

theorem take_last {a : Nat} (hnodup : (cells.map Prod.fst).Nodup) (ha : lastAddr cells = some a) :
    cells.take (cells.findIdx fun c => c.1 = a) ++ (cells.find? fun c => c.1 = a).toList =
      cells := by
  induction cells with
  | nil => cases ha
  | cons c cells ih =>
    rw [List.map_cons, List.nodup_cons] at hnodup
    cases cells with
    | nil =>
      obtain rfl : c.1 = a := Option.some.inj ha
      simp
    | cons d cells =>
      have ha' : lastAddr (d :: cells) = some a := by
        rw [← ha]
        unfold lastAddr
        rw [List.getLast?_cons_cons]
      have hca : c.1 ≠ a := by
        obtain ⟨e, he, rfl⟩ := Option.map_eq_some_iff.1 ha'
        intro h
        exact hnodup.1 (List.mem_map.2 ⟨e, List.mem_of_getLast? he, h.symm⟩)
      rw [List.findIdx_cons, List.find?_cons_of_neg (by simpa using hca)]
      simp only [hca, decide_false, cond_false, List.take_succ_cons, List.cons_append]
      rw [ih hnodup.2 ha']

theorem pushBack_of_represents (h : Represents q) (x : Nat × α) :
    q.pushBack x = some ⟨q.cells ++ [x], some x.1, q.tot + 1⟩ := by
  unfold Queue.pushBack
  cases hlast : q.last with
  | none =>
    have hnil : q.cells = [] := by
      rw [h.last] at hlast
      exact List.getLast?_eq_none_iff.1 (Option.map_eq_none_iff.1 hlast)
    rw [hnil]
    rfl
  | some a =>
    rw [h.last] at hlast
    have hmem : a ∈ q.cells.map Prod.fst := by
      obtain ⟨e, he, rfl⟩ := Option.map_eq_some_iff.1 hlast
      exact List.mem_map_of_mem (List.mem_of_getLast? he)
    dsimp only
    rw [if_pos hmem, take_last h.nodup hlast]

theorem Represents.append (h : Represents q) (hx : x.1 ∉ q.cells.map Prod.fst) :
    Represents ⟨q.cells ++ [x], some x.1, q.tot + 1⟩ where
  last := by
    unfold lastAddr
    rw [List.getLast?_append]
    rfl
  tot := by
    show q.tot + 1 = ((q.cells ++ [x]).length : Int)
    rw [h.tot, List.length_append, List.length_singleton]
    omega
  nodup := by
    show ((q.cells ++ [x]).map Prod.fst).Nodup
    rw [List.map_append, List.nodup_append]
    refine ⟨h.nodup, by simp, ?_⟩
    rintro a ha a' ha' rfl
    obtain rfl : a = x.1 := by simpa using ha'
    exact hx ha

theorem Represents.popFront (h : Represents q) (hne : q.cells ≠ []) : Represents q.popFront := by
  obtain ⟨c, cells, hc⟩ := List.exists_cons_of_ne_nil hne
  have htot := h.tot
  have hnodup := h.nodup
  rw [hc] at htot hnodup
  rw [List.map_cons, List.nodup_cons] at hnodup
  unfold Queue.popFront Queue.dropHead Queue.mendLast
  dsimp only
  rw [hc, List.tail_cons]
  cases hcells : cells with
  | nil =>
    rw [if_pos rfl]
    refine ⟨rfl, ?_, List.nodup_nil⟩
    rw [hcells] at htot
    show q.tot - 1 = 0
    simp only [List.length_cons, List.length_nil] at htot
    omega
  | cons d rest =>
    rw [if_neg (by simp), ← hcells]
    refine ⟨?_, ?_, hnodup.2⟩
    · show q.last = lastAddr cells
      rw [h.last, hc, hcells]
      unfold lastAddr
      rw [List.getLast?_cons_cons]
    · show q.tot - 1 = cells.length
      rw [htot, List.length_cons]
      omega

/-! ### What passes keep -/

theorem sweep_sublist (f : β → α → β × Option α) (b : β) (cells : List (Nat × α)) :
    ((sweep f b cells).2.map Prod.fst).Sublist (cells.map Prod.fst) := by
  induction cells generalizing b with
  | nil => exact List.Sublist.refl _
  | cons c cells ih =>
    rw [sweep]
    split
    · exact (ih _).cons_cons _
    · exact (ih _).cons _

theorem sweep_eq_map {g : α → Option α} (hg : ∀ x, (g x).isSome = true) (cells : List (Nat × α)) :
    (sweep (fun (u : Unit) x => (u, g x)) () cells).2 =
      cells.map fun c => (c.1, (g c.2).getD c.2) := by
  induction cells with
  | nil => rfl
  | cons c cells ih =>
    obtain ⟨x, hx⟩ := Option.isSome_iff_exists.1 (hg c.2)
    rw [sweep, hx, List.map_cons, hx]
    show (c.1, x) :: (sweep _ () cells).2 = _
    rw [ih]
    rfl

theorem dropsLast_eq_false (hf : ∀ b x, (f b x).2.isSome = true) (b : β)
    (cells : List (Nat × α)) : dropsLast f b cells = false := by
  induction cells generalizing b with
  | nil => rfl
  | cons c cells ih =>
    cases cells with
    | nil =>
      rw [dropsLast, Option.isNone_eq_false_iff]
      exact hf b c.2
    | cons d cells => exact ih _

theorem lastAddr_cons {c : Nat × α} (hne : cells ≠ []) : lastAddr (c :: cells) = lastAddr cells := by
  obtain ⟨d, rest, rfl⟩ := List.exists_cons_of_ne_nil hne
  unfold lastAddr
  rw [List.getLast?_cons_cons]

theorem lastAddr_sweep (hlast : dropsLast f b cells = false) :
    lastAddr (sweep f b cells).2 = lastAddr cells := by
  induction cells generalizing b with
  | nil => rfl
  | cons c cells ih =>
    cases cells with
    | nil =>
      rw [dropsLast] at hlast
      rw [sweep]
      split
      · rfl
      · rename_i hf
        rw [hf] at hlast
        cases hlast
    | cons d cells =>
      rw [dropsLast] at hlast
      have htail := ih hlast
      have hcons : lastAddr (c :: d :: cells) = lastAddr (d :: cells) := lastAddr_cons (by simp)
      have hne : (sweep f (f b c.2).1 (d :: cells)).2 ≠ [] := by
        intro hnil
        rw [hnil] at htail
        unfold lastAddr at htail
        rw [List.getLast?_eq_some_getLast (l := d :: cells) (by simp)] at htail
        cases htail
      rw [hcons, ← htail, sweep]
      split
      · rename_i b' y hf
        rw [hf] at hne ⊢
        obtain ⟨e, rest, he⟩ := List.exists_cons_of_ne_nil hne
        dsimp only at he ⊢
        rw [he]
        unfold lastAddr
        rw [List.getLast?_cons_cons]
      · rename_i b' hf
        rw [hf]

theorem lastAddr_cons_sweep (c : Nat × α) (hlast : dropsLast f b cells = false) :
    lastAddr (c :: (sweep f b cells).2) = lastAddr (c :: cells) := by
  have hsweep := lastAddr_sweep hlast
  by_cases hnil : cells = []
  · rw [hnil]
    rfl
  have hne : (sweep f b cells).2 ≠ [] := by
    intro h
    rw [h] at hsweep
    unfold lastAddr at hsweep
    rw [List.getLast?_eq_some_getLast hnil] at hsweep
    cases hsweep
  rw [lastAddr_cons hnil, lastAddr_cons hne, hsweep]

theorem tot_swept {cells' : List (Nat × α)} {n : Int} (htot : n = cells.length)
    (hsub : (cells'.map Prod.fst).Sublist (cells.map Prod.fst)) :
    n - (cells.length - cells'.length : Nat) = cells'.length := by
  have hle := hsub.length_le
  simp only [List.length_map] at hle
  omega

theorem Represents.swept (h : Represents q)
    (hsub : (cells.map Prod.fst).Sublist (q.cells.map Prod.fst))
    (hlast : cells = [] ∨ lastAddr cells = lastAddr q.cells) : Represents (q.swept cells) where
  last := by
    unfold Queue.swept
    dsimp only
    split
    · rename_i hnil
      rw [hnil]
      rfl
    · rename_i hne
      rw [hlast.resolve_left hne, h.last]
  tot := tot_swept h.tot hsub
  nodup := h.nodup.sublist hsub

end TailQueue
