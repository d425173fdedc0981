import Mathlib.Algebra.Order.Ring.Nat
import Mathlib.Algebra.Order.Group.Nat
import Mathlib.Data.Nat.ModEq
import Mathlib.Tactic.Common

/-!
# TokenBucket — a bucket that is refilled by whole tokens

A bucket holds up to `cap` tokens; each check adds one token for every full `rate` that has passed
since the last one, and takes one if there is any.

* `countP_window_le`: in a window of time, no more pass than fit into the bucket and are added.
* `checks_of_fast`: who always comes earlier than `rate` after the last time gets what is in the
  bucket, and then nothing any more.
* `checks_of_slow`: who never does always passes.
-/

namespace TokenBucket

variable (cap rate : ℕ)

structure Bucket where
  last : ℕ
  tokens : ℕ

/-- The tokens at a later time. -/
def refill (b : Bucket) (now : ℕ) : ℕ := min cap (b.tokens + (now - b.last) / rate)

/-- Whether one passes, and the bucket then. -/
def check (b : Bucket) (now : ℕ) : Bool × Bucket :=
  (decide (0 < refill cap rate b now), ⟨now, refill cap rate b now - 1⟩)

/-- The answers at the times of a list. -/
def checks (b : Bucket) : List ℕ → List Bool
  | [] => []
  | t :: ts => (check cap rate b t).1 :: checks (check cap rate b t).2 ts

variable {cap rate} {b : Bucket} {ts : List ℕ}

@[simp] theorem length_checks : (checks cap rate b ts).length = ts.length := by
  induction ts generalizing b with
  | nil => rfl
  | cons t ts ih => simp [checks, ih]

theorem refill_le {t : ℕ} : refill cap rate b t ≤ cap := min_le_left _ _

/-- The answers of those that pass between two times. -/
def passed (cap rate : ℕ) (b : Bucket) (ts : List ℕ) (lo hi : ℕ) : ℕ :=
  (ts.zip (checks cap rate b ts)).countP fun x => decide (lo ≤ x.1 ∧ x.1 ≤ hi) && x.2

theorem passed_cons (t lo hi : ℕ) :
    passed cap rate b (t :: ts) lo hi =
      passed cap rate (check cap rate b t).2 ts lo hi +
        if (lo ≤ t ∧ t ≤ hi) ∧ 0 < refill cap rate b t then 1 else 0 := by
  simp [passed, checks, check, List.countP_cons]

theorem passed_eq_zero {lo hi : ℕ} (hts : ∀ t ∈ ts, hi < t) : passed cap rate b ts lo hi = 0 := by
  refine List.countP_eq_zero.2 fun x hx => ?_
  have := hts x.1 (List.of_mem_zip hx).1
  simp only [Bool.and_eq_true, decide_eq_true_eq, not_and]
  omega

theorem passed_le_tokens (lo hi : ℕ) (hlast : ∀ t ∈ ts, b.last ≤ t)
    (hts : ts.Pairwise (· ≤ ·)) : passed cap rate b ts lo hi ≤ b.tokens + (hi - b.last) / rate := by
  induction ts generalizing b with
  | nil => exact Nat.zero_le _
  | cons t ts ih =>
    obtain ⟨hfirst, hrest⟩ := List.pairwise_cons.1 hts
    have hbt := hlast t List.mem_cons_self
    by_cases hthi : t ≤ hi
    · have hih := ih (b := (check cap rate b t).2) hfirst hrest
      have hadd : (t - b.last) / rate + (hi - t) / rate ≤ (hi - b.last) / rate := by
        refine Nat.div_add_div_le_add_div.trans_eq ?_
        rw [show t - b.last + (hi - t) = hi - b.last by omega]
      have hrefill : refill cap rate b t ≤ b.tokens + (t - b.last) / rate := min_le_right _ _
      rw [passed_cons]
      simp only [check] at hih ⊢
      split_ifs with hpass
      · have := hpass.2
        omega
      · omega
    · rw [passed_eq_zero]
      · exact Nat.zero_le _
      · intro u hu
        rcases List.mem_cons.1 hu with rfl | hu
        · omega
        · have := hfirst u hu
          omega

theorem countP_window_le (lo hi : ℕ) (hts : ts.Pairwise (· ≤ ·)) :
    passed cap rate b ts lo hi ≤ cap + (hi - lo) / rate := by
  induction ts generalizing b with
  | nil => exact Nat.zero_le _
  | cons t ts ih =>
    obtain ⟨hfirst, hrest⟩ := List.pairwise_cons.1 hts
    rw [passed_cons]
    by_cases hlo : lo ≤ t
    · -- the bucket is no more than full at the first check in the window
      have htail : passed cap rate (check cap rate b t).2 ts lo hi ≤
          (check cap rate b t).2.tokens + (hi - (check cap rate b t).2.last) / rate :=
        passed_le_tokens lo hi hfirst hrest
      have hmono : (hi - t) / rate ≤ (hi - lo) / rate := Nat.div_le_div_right (by omega)
      have hfull : refill cap rate b t ≤ cap := refill_le
      simp only [check] at htail ⊢
      split_ifs with hpass
      · have := hpass.2
        omega
      · omega
    · have := ih (b := (check cap rate b t).2) hrest
      rw [if_neg (by omega)]
      omega

/-- Less than `rate` after the last time, each time. -/
def Fast (rate : ℕ) : ℕ → List ℕ → Prop
  | _, [] => True
  | last, t :: ts => t - last < rate ∧ Fast rate t ts

/-- At least `rate` after the last time, each time. -/
def Slow (rate : ℕ) : ℕ → List ℕ → Prop
  | _, [] => True
  | last, t :: ts => rate ≤ t - last ∧ Slow rate t ts

theorem checks_of_fast (hcap : b.tokens ≤ cap) (h : Fast rate b.last ts) :
    checks cap rate b ts = (List.range ts.length).map fun i => decide (i < b.tokens) := by
  induction ts generalizing b with
  | nil => rfl
  | cons t ts ih =>
    obtain ⟨hgap, hrest⟩ := h
    have hrefill : refill cap rate b t = b.tokens := by
      rw [refill, Nat.div_eq_of_lt hgap, Nat.add_zero, min_eq_right hcap]
    have hsnd : (check cap rate b t).2 = ⟨t, b.tokens - 1⟩ := by rw [check, hrefill]
    rw [checks, hsnd, ih (b := ⟨t, b.tokens - 1⟩) (by dsimp only; omega) hrest, List.length_cons,
      List.range_succ_eq_map, List.map_cons, List.map_map]
    refine congrArg₂ _ (by rw [check, hrefill]) (List.map_congr_left fun i _ => ?_)
    simp only [Function.comp, decide_eq_decide]
    omega

theorem checks_of_slow (hcap : 0 < cap) (hrate : 0 < rate) (h : Slow rate b.last ts) :
    checks cap rate b ts = List.replicate ts.length true := by
  induction ts generalizing b with
  | nil => rfl
  | cons t ts ih =>
    obtain ⟨hgap, hrest⟩ := h
    have hone : 1 ≤ (t - b.last) / rate := (Nat.one_le_div_iff hrate).2 hgap
    have hrefill : 0 < refill cap rate b t := lt_min hcap (by omega)
    rw [checks, ih hrest, List.length_cons, List.replicate_succ]
    simp [check, hrefill]

end TokenBucket
