import Mathlib.Data.List.Basic

/-!
# Assemble — units made of the bytes of a stream

A machine takes its input in units whose size depends on its state, and may come to an end.  Bytes are
kept until there are enough of them for a unit.

* `feeds_short`, `feeds_exact`: a part of a unit, and what completes it.
-/

open List

namespace Assemble

variable {σ β : Type*}

section Defs

variable (ended : σ → Bool) (size : σ → ℕ) (complete : σ → List β → σ)

/-- One byte, for a state and the bytes that are kept. -/
def feed (s : σ × List β) (b : β) : σ × List β :=
  if ended s.1 = true then s
  else if (s.2 ++ [b]).length = size s.1 then (complete s.1 (s.2 ++ [b]), [])
  else (s.1, s.2 ++ [b])

def feeds (s : σ × List β) (bs : List β) : σ × List β := bs.foldl (feed ended size complete) s

end Defs

variable {ended : σ → Bool} {size : σ → ℕ} {complete : σ → List β → σ} {s : σ} {c bs : List β}

theorem feeds_append (s : σ × List β) (bs cs : List β) :
    feeds ended size complete s (bs ++ cs) =
      feeds ended size complete (feeds ended size complete s bs) cs := foldl_append

theorem feeds_over (h : ended s = true) (c bs : List β) :
    feeds ended size complete (s, c) bs = (s, c) := by
  induction bs with
  | nil => rfl
  | cons b bs ih =>
    rw [feeds, foldl_cons, feed, if_pos h]
    exact ih

theorem feeds_short (h : ended s = false) (hlen : c.length + bs.length < size s) :
    feeds ended size complete (s, c) bs = (s, c ++ bs) := by
  induction bs generalizing c with
  | nil => rw [append_nil]; rfl
  | cons b bs ih =>
    rw [length_cons] at hlen
    have hne : (c ++ [b]).length ≠ size s := by
      rw [length_append, length_singleton]
      omega
    have hrest : (c ++ [b]).length + bs.length < size s := by
      rw [length_append, length_singleton]
      omega
    have hfeed : feed ended size complete (s, c) b = (s, c ++ [b]) := by
      rw [feed, if_neg (by simp [h]), if_neg hne]
    have hmore := ih hrest
    rw [append_assoc, singleton_append] at hmore
    rw [feeds, foldl_cons, hfeed]
    exact hmore

theorem feeds_exact (h : ended s = false) (hbs : bs ≠ []) (hlen : c.length + bs.length = size s) :
    feeds ended size complete (s, c) bs = (complete s (c ++ bs), []) := by
  have hsplit := dropLast_append_getLast hbs
  have hpos := length_pos_iff.2 hbs
  have hshort : c.length + bs.dropLast.length < size s := by
    rw [length_dropLast]
    omega
  have hall : (c ++ bs.dropLast) ++ [bs.getLast hbs] = c ++ bs := by rw [append_assoc, hsplit]
  have hsize : ((c ++ bs.dropLast) ++ [bs.getLast hbs]).length = size s := by
    rw [hall, length_append]
    exact hlen
  rw [← hsplit, feeds_append, feeds_short h hshort, hsplit]
  rw [feeds, foldl_cons, foldl_nil, feed, if_neg (by simp [h]), if_pos hsize, hall]

theorem feeds_kept (h : ended s = false) (hlen : c.length < size s) (bs : List β) :
    feeds ended size complete (s, c) bs = feeds ended size complete (s, []) (c ++ bs) := by
  have hshort : ([] : List β).length + c.length < size s := by rwa [length_nil, Nat.zero_add]
  rw [feeds_append, feeds_short h hshort, nil_append]

end Assemble
