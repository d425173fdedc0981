import Mathlib.Data.List.Basic

/-!
# Lines — a text that comes in parts, line by line

A line is what stands between separators; runs of separators make no empty lines.  The text comes in
parts, and each part falls into pieces: a stretch of content and the separators right behind it.

* `pieces_eq`: the first piece, and the pieces of the rest.
* `flatMap_pieces`: nothing is missing in the pieces.
* `ended_flatMap_pieces`: the lines read off the pieces of the parts are those of the whole text.
-/

namespace Lines

variable {α : Type*} (sep : α → Bool)

/-- What comes of a line when it ends. -/
def whole (t : List α) : List (List α) := if t = [] then [] else [t]

/-- The lines that end in a text, with `t` under way before it. -/
@[grind =] def scan (t : List α) : List α → List (List α)
  | [] => []
  | b :: s => if sep b then whole t ++ scan [] s else scan (t ++ [b]) s

/-- The line under way after a text. -/
@[grind =] def carry (t : List α) : List α → List α
  | [] => t
  | b :: s => if sep b then carry [] s else carry (t ++ [b]) s

/-- Stretches of content, each with the separators right behind it. -/
@[grind =] def pieces : List α → List (List α × List α)
  | [] => []
  | b :: s =>
    if sep b then
      match pieces s with
      | ([], w) :: ps => ([], b :: w) :: ps
      | ps => ([], [b]) :: ps
    else
      match pieces s with
      | (c, w) :: ps => (b :: c, w) :: ps
      | [] => [([b], [])]

/-- The lines that end in some pieces, with `t` under way before them. -/
def ended (t : List α) : List (List α × List α) → List (List α)
  | [] => []
  | (c, w) :: ps => if w = [] then ended (t ++ c) ps else whole (t ++ c) ++ ended [] ps

theorem whole_of_ne_nil {t : List α} (h : t ≠ []) : whole t = [t] := if_neg h

theorem length_whole_le (t : List α) : (whole t).length ≤ 1 := by
  rw [whole]
  split <;> simp

variable {sep}

theorem scan_append (t s s' : List α) :
    scan sep t (s ++ s') = scan sep t s ++ scan sep (carry sep t s) s' := by
  induction s generalizing t with
  | nil => rfl
  | cons b s ih =>
    rw [List.cons_append, scan, scan, carry]
    split
    · rw [ih, List.append_assoc]
    · exact ih _

theorem pieces_eq {s : List α} (hs : s ≠ []) :
    pieces sep s =
      (s.takeWhile fun b => !sep b, (s.dropWhile fun b => !sep b).takeWhile sep) ::
        pieces sep ((s.dropWhile fun b => !sep b).dropWhile sep) := by
  induction s with
  | nil => exact absurd rfl hs
  | cons b s ih =>
    rw [pieces]
    by_cases hb : sep b = true
    · rw [if_pos hb, List.takeWhile_cons_of_neg (by simp [hb]),
        List.dropWhile_cons_of_neg (by simp [hb]), List.takeWhile_cons_of_pos hb,
        List.dropWhile_cons_of_pos hb]
      rcases s with _ | ⟨d, s⟩
      · rfl
      · rw [ih (List.cons_ne_nil d s)]
        by_cases hd : sep d = true
        · rw [List.takeWhile_cons_of_neg (by simp [hd]), List.dropWhile_cons_of_neg (by simp [hd])]
        · rw [List.takeWhile_cons_of_pos (by simpa using hd),
            List.takeWhile_cons_of_neg (p := sep) hd, List.dropWhile_cons_of_neg (p := sep) hd]
          rw [ih (List.cons_ne_nil d s), List.takeWhile_cons_of_pos (by simpa using hd)]
    · rw [if_neg hb, List.takeWhile_cons_of_pos (by simpa using hb),
        List.dropWhile_cons_of_pos (by simpa using hb)]
      rcases s with _ | ⟨d, s⟩
      · rfl
      · rw [ih (List.cons_ne_nil d s)]

theorem ne_nil_of_mem_pieces {s : List α} {p : List α × List α} (h : p ∈ pieces sep s) :
    p.1 ≠ [] ∨ p.2 ≠ [] := by
  induction hlen : s.length using Nat.strongRecOn generalizing s with
  | _ n ih =>
    rcases s with _ | ⟨b, s⟩
    · exact absurd h List.not_mem_nil
    rw [pieces_eq (List.cons_ne_nil b s)] at h
    rcases List.mem_cons.1 h with rfl | h
    · by_cases hb : sep b = true
      · refine .inr ?_
        dsimp only
        rw [List.dropWhile_cons_of_neg (by simp [hb]), List.takeWhile_cons_of_pos hb]
        exact List.cons_ne_nil _ _
      · refine .inl ?_
        dsimp only
        rw [List.takeWhile_cons_of_pos (by simpa using hb)]
        exact List.cons_ne_nil _ _
    · refine ih _ ?_ h rfl
      rw [← hlen]
      by_cases hb : sep b = true
      · rw [List.dropWhile_cons_of_neg (by simp [hb]), List.dropWhile_cons_of_pos hb]
        exact Nat.lt_succ_of_le (List.dropWhile_suffix sep).length_le
      · rw [List.dropWhile_cons_of_pos (by simpa using hb)]
        refine Nat.lt_succ_of_le (Nat.le_trans (List.dropWhile_suffix sep).length_le ?_)
        exact (List.dropWhile_suffix _).length_le

theorem ended_pieces_append (t s : List α) (ps : List (List α × List α)) :
    ended t (pieces sep s ++ ps) = scan sep t s ++ ended (carry sep t s) ps := by
  induction s generalizing t with
  | nil => rfl
  | cons b s ih =>
    rw [pieces, scan, carry]
    by_cases hb : sep b = true
    · rw [if_pos hb, if_pos hb, if_pos hb, List.append_assoc, ← ih []]
      split
      · next w qs hqs =>
        have hw : w ≠ [] := (ne_nil_of_mem_pieces (hqs ▸ List.mem_cons_self)).resolve_left (by simp)
        rw [hqs, List.cons_append, List.cons_append, ended, ended, if_neg (List.cons_ne_nil _ _),
          if_neg hw, List.append_nil]
        rfl
      · rw [List.cons_append, ended, if_neg (List.cons_ne_nil _ _), List.append_nil]
    · rw [if_neg hb, if_neg hb, if_neg hb, ← ih (t ++ [b])]
      split
      · next c w qs hqs =>
        rw [hqs, List.cons_append, List.cons_append, ended, ended, List.append_assoc]
        rfl
      · next hqs =>
        rw [hqs, List.cons_append, ended, if_pos rfl]

theorem flatMap_pieces (s : List α) : ((pieces sep s).flatMap fun p => p.1 ++ p.2) = s := by
  induction s with
  | nil => rfl
  | cons b s ih =>
    rw [pieces]
    by_cases hb : sep b = true
    · rw [if_pos hb]
      split
      · next w ps hps =>
        rw [hps] at ih
        rw [← ih]
        rfl
      · rw [List.flatMap_cons, ih]
        rfl
    · rw [if_neg hb]
      split
      · next c w ps hps =>
        rw [hps] at ih
        rw [← ih]
        rfl
      · next hps =>
        rw [hps] at ih
        rw [← ih]
        rfl

theorem ended_flatMap_pieces (t : List α) (parts : List (List α)) :
    ended t (parts.flatMap (pieces sep)) = scan sep t parts.flatten := by
  induction parts generalizing t with
  | nil => rfl
  | cons s parts ih => rw [List.flatMap_cons, ended_pieces_append, ih, List.flatten_cons, scan_append]

end Lines
