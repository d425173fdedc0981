import Eggdrop.Core.HelpSubst

/-!
# HelpColumns — columns in help texts

A block of columns begins with a line `%{cols=N}` or `%{cols=N/W}` and ends with a line `%{end}`; what
each line between them becomes is an entry.  A full row goes into a buffer of which `subst_addcol` is
told that it has the size of a pointer.

* `machine_of_plain`, `count_machine`: what becomes of the entries, row by row.
* `helpLines_block`: the lines of a block.
* `help_columns_iff`: when the rows come out whole.
-/

namespace Eggdrop.HelpSubst

open List

/-! ### What a block should come out as -/

/-- The entries in rows of `n`, with what is left of them at the end. -/
def rowsFrom (n : ℕ) (row : List CStr) : List CStr → List (List CStr) × List CStr
  | [] => ([], row)
  | e :: es =>
    if row.length + 1 = n then ((row ++ [e]) :: (rowsFrom n [] es).1, (rowsFrom n [] es).2)
    else rowsFrom n (row ++ [e]) es

/-- All entries are in the rows once and in order, and only the last row is not full. -/
structure Arranged (n : ℕ) (entries : List CStr) (rows : List (List CStr)) (rest : List CStr) :
    Prop where
  once : rows.flatten ++ rest = entries
  full : ∀ row ∈ rows, row.length = n
  partly : rest.length < n

theorem rowsFrom_flatten (n : ℕ) (row es : List CStr) :
    (rowsFrom n row es).1.flatten ++ (rowsFrom n row es).2 = row ++ es := by
  induction es generalizing row with
  | nil => rw [rowsFrom, flatten_nil, nil_append, append_nil]
  | cons e es ih =>
    rw [rowsFrom]
    split
    · rw [flatten_cons, append_assoc, ih, nil_append, append_assoc, singleton_append]
    · rw [ih, append_assoc, singleton_append]

theorem rowsFrom_full {n : ℕ} {row : List CStr} (es : List CStr) :
    ∀ r ∈ (rowsFrom n row es).1, r.length = n := by
  induction es generalizing row with
  | nil => exact fun r hr => absurd hr not_mem_nil
  | cons e es ih =>
    rw [rowsFrom]
    split
    · next hlen =>
      refine forall_mem_cons.2 ⟨?_, ih⟩
      rw [length_append, length_singleton, hlen]
    · exact ih

theorem rowsFrom_partly {n : ℕ} {row : List CStr} (h : row.length < n) (es : List CStr) :
    (rowsFrom n row es).2.length < n := by
  induction es generalizing row with
  | nil => exact h
  | cons e es ih =>
    rw [rowsFrom]
    split
    · refine ih ?_
      rw [length_nil]
      omega
    · next hlen =>
      refine ih ?_
      rw [length_append, length_singleton]
      omega

theorem arranged_rowsFrom {n : ℕ} (hn : 0 < n) (es : List CStr) :
    Arranged n es (rowsFrom n [] es).1 (rowsFrom n [] es).2 :=
  ⟨rowsFrom_flatten n [] es, rowsFrom_full es, rowsFrom_partly hn es⟩

/-- How long a row is. -/
def rowWidth (colwidth : ℤ) : List CStr → ℕ
  | [] => 0
  | [col] => col.length
  | col :: row => max col.length colwidth.toNat + rowWidth colwidth row

theorem length_cells (colwidth : ℤ) (row : List CStr) :
    (cells colwidth row).length = rowWidth colwidth row := by
  induction row with
  | nil => rfl
  | cons col row ih =>
    cases row with
    | nil => rfl
    | cons col' row =>
      rw [cells, rowWidth, length_append, length_append, length_replicate, ih]
      · omega
      · simp
      · simp

theorem length_columns (colwidth : ℤ) (row : List CStr) :
    (columns colwidth row).length = 5 + rowWidth colwidth row := by
  rw [columns, length_append, length_cells]
  rfl

theorem length_le_rowWidth (colwidth : ℤ) {row : List CStr} {e : CStr} (he : e ∈ row) :
    e.length ≤ rowWidth colwidth row := by
  induction row with
  | nil => exact absurd he not_mem_nil
  | cons col row ih =>
    cases row with
    | nil =>
      rw [mem_singleton.1 he, rowWidth]
    | cons col' row =>
      rw [rowWidth]
      · rcases mem_cons.1 he with rfl | he
        · omega
        · exact (ih he).trans (Nat.le_add_left _ _)
      · simp

/-! ### What becomes of the entries -/

/-- The rows that are put out, and what waits at the end, for entries that are not empty. -/
def machine (n : ℕ) (w : ℤ) (row : List CStr) : List CStr → List CStr × List CStr
  | [] => ([], row)
  | e :: es =>
    if e.head? = some '\u00ff' then
      if row = [] then machine n w [] es
      else ((columns w row).take 7 :: (machine n w [] es).1, (machine n w [] es).2)
    else if row.length + 1 = n then
      ((columns w (row ++ [e])).take 7 :: (machine n w [] es).1, (machine n w [] es).2)
    else machine n w (row ++ [e]) es

/-- Does not begin with the byte that ends a row. -/
def Plain (e : CStr) : Prop := e.head? ≠ some '\u00ff'

instance (e : CStr) : Decidable (Plain e) := by unfold Plain; infer_instance

theorem machine_of_plain {es : List CStr} (h : ∀ e ∈ es, Plain e) (n : ℕ) (w : ℤ) (row : List CStr) :
    machine n w row es =
      ((rowsFrom n row es).1.map fun r => (columns w r).take 7, (rowsFrom n row es).2) := by
  induction es generalizing row with
  | nil => rfl
  | cons e es ih =>
    obtain ⟨he, hes⟩ := forall_mem_cons.1 h
    rw [machine, rowsFrom, if_neg he]
    split
    · rw [ih hes, map_cons]
    · exact ih hes _

/-- How often the byte occurs. -/
def marksIn (ls : List CStr) : ℕ := ls.flatten.count '\u00ff'

theorem marksIn_append (a b : List CStr) : marksIn (a ++ b) = marksIn a + marksIn b := by
  rw [marksIn, flatten_append, count_append, marksIn, marksIn]

theorem marksIn_cons (e : CStr) (es : List CStr) :
    marksIn (e :: es) = e.count '\u00ff' + marksIn es := by
  rw [marksIn, flatten_cons, count_append, marksIn]

theorem count_columns (w : ℤ) (row : List CStr) : (columns w row).count '\u00ff' = marksIn row := by
  have hcells : (cells w row).count '\u00ff' = marksIn row := by
    induction row with
    | nil => rfl
    | cons col row ih =>
      cases row with
      | nil => rw [cells, marksIn_cons, marksIn, flatten_nil, count_nil, Nat.add_zero]
      | cons col' row =>
        rw [cells, marksIn_cons, count_append, count_append, ih, count_replicate]
        · simp
        · simp
  rw [columns, count_append, hcells]
  exact Nat.zero_add _

theorem count_take_le (w : ℤ) (row : List CStr) (k : ℕ) :
    ((columns w row).take k).count '\u00ff' ≤ marksIn row := by
  rw [← count_columns w]
  exact (take_sublist k _).count_le _

theorem count_pos_of_not_plain {e : CStr} (h : ¬Plain e) : 0 < e.count '\u00ff' := by
  rw [Plain, Classical.not_not] at h
  exact count_pos_iff.2 (mem_of_mem_head? h)

theorem count_machine (n : ℕ) (w : ℤ) (row es : List CStr) :
    marksIn (machine n w row es).1 + marksIn (machine n w row es).2 +
      (es.filter fun e => decide (¬Plain e)).length ≤ marksIn row + marksIn es := by
  induction es generalizing row with
  | nil =>
    rw [machine]
    exact le_of_eq (by simp [marksIn])
  | cons e es ih =>
    rw [machine, marksIn_cons, filter_cons]
    by_cases he : e.head? = some '\u00ff'
    · have hpos : 0 < e.count '\u00ff' := count_pos_of_not_plain fun hp => hp he
      have hrest := ih []
      have hlost : decide (¬Plain e) = true := decide_eq_true fun hp => hp he
      rw [if_pos he, if_pos hlost, length_cons]
      split
      · next hrow =>
        rw [hrow]
        omega
      · have hrow := count_take_le w row 7
        dsimp only
        rw [marksIn_cons]
        have hnil : marksIn [] = 0 := rfl
        omega
    · have hkept : ¬decide (¬Plain e) = true := fun h => of_decide_eq_true h he
      rw [if_neg he, if_neg hkept]
      have happ : marksIn (row ++ [e]) = marksIn row + e.count '\u00ff' := by
        rw [marksIn_append, marksIn_cons]
        rfl
      split
      · have hrow := count_take_le w (row ++ [e]) 7
        have hrest := ih []
        have hnil : marksIn [] = 0 := rfl
        dsimp only
        rw [marksIn_cons]
        omega
      · have hrest := ih (row ++ [e])
        omega

/-! ### One line -/

/-- The columns as they are between blocks. -/
def plainCols : ColState := ⟨0, 0, 70, []⟩

/-- What a line becomes where there are no columns. -/
def Sub.entry (st : Sub) : CStr := if st.returned then st.out else st.text

/-- What lines become where there are no columns. -/
def entries (env : Env) (m : Marks) : List CStr → List CStr
  | [] => []
  | s :: ls => (subst env s m plainCols).entry :: entries env (subst env s m plainCols).marks ls

/-- A block of `n` columns is open, and a row begun. -/
structure Filling (n : ℕ) (width : ℤ) (row : List CStr) (c : ColState) : Prop where
  cols : c.cols = n
  sofar : c.colsofar = row.length
  held : c.colstrings = row
  width : c.subwidth = width
  lt : row.length < n

variable {env : Env} {n : ℕ} {width : ℤ} {row : List CStr} {c : ColState} {m : Marks}

theorem machine_append (w : ℤ) (row as bs : List CStr) :
    machine n w row (as ++ bs) =
      ((machine n w row as).1 ++ (machine n w (machine n w row as).2 bs).1,
        (machine n w (machine n w row as).2 bs).2) := by
  induction as generalizing row with
  | nil => rfl
  | cons e as ih =>
    rw [cons_append, machine, machine]
    split
    · split
      · exact ih []
      · rw [ih]
        rfl
    · split
      · rw [ih]
        rfl
      · exact ih _

theorem columns_take_ne_nil (w : ℤ) (row : List CStr) (k : ℕ) : (columns w row).take (k + 1) ≠ [] := by
  intro h
  have hlen := congrArg length h
  rw [length_take, length_columns, length_nil] at hlen
  omega

theorem substAddcol_filling (h : Filling n width row c) (e : CStr) :
    ([(substAddcol 8 [] e c).1].filter (· ≠ [])) =
        (machine n ((width - 5).tdiv n) row ([e].filter (· ≠ []))).1 ∧
      Filling n width (machine n ((width - 5).tdiv n) row ([e].filter (· ≠ []))).2
        (substAddcol 8 [] e c).2 := by
  have hopen : ¬c.colsofar = c.cols := by
    rw [h.cols, h.sofar]
    have hlt := h.lt
    omega
  have hw : c.colwidth = (width - 5).tdiv n := by rw [ColState.colwidth, h.cols, h.width]
  have hflushed (r : List CStr) :
      ([(columns ((width - 5).tdiv n) r).take (8 - 1)].filter (· ≠ [])) =
        [(columns ((width - 5).tdiv n) r).take 7] :=
    filter_cons_of_pos (decide_eq_true (columns_take_ne_nil _ r 6))
  have hzero : 0 < n := Nat.zero_lt_of_lt h.lt
  unfold substAddcol
  by_cases hnil : e = []
  · have hpush : c.push e = c := if_pos (.inl hnil)
    subst hnil
    rw [hpush]
    dsimp only
    rw [if_neg fun hor => hor.elim hopen fun hff => absurd hff.1 (by decide)]
    exact ⟨rfl, h⟩
  · have hfilter : [e].filter (· ≠ []) = [e] := filter_cons_of_pos (decide_eq_true hnil)
    rw [hfilter, machine]
    by_cases hff : e.head? = some '\u00ff'
    · have hpush : c.push e = c := if_pos (.inr hff)
      rw [hpush, if_pos hff]
      dsimp only
      by_cases hrow : row = []
      · subst hrow
        rw [if_pos rfl, if_neg fun hor => hor.elim hopen fun hand => hand.2 h.held]
        exact ⟨rfl, h⟩
      · have hflush : c.colsofar = c.cols ∨ e.head? = some '\u00ff' ∧ c.colstrings ≠ [] :=
          .inr ⟨hff, fun heq => hrow (h.held.symm.trans heq)⟩
        rw [if_neg hrow, if_pos hflush, hw, h.held, hflushed]
        exact ⟨rfl, h.cols, rfl, rfl, h.width, hzero⟩
    · have hpush : c.push e =
          { c with colsofar := c.colsofar + 1, colstrings := c.colstrings ++ [e] } :=
        if_neg fun hor => hor.elim hnil hff
      have hcolwidth : ColState.colwidth
          { c with colsofar := c.colsofar + 1, colstrings := c.colstrings ++ [e] } =
            (width - 5).tdiv n := hw
      have hlt := h.lt
      rw [hpush, if_neg hff]
      dsimp only
      by_cases hfull : row.length + 1 = n
      · have hcount : c.colsofar + 1 = c.cols := by
          rw [h.cols, h.sofar]
          omega
        rw [if_pos hfull, if_pos (.inl hcount), hcolwidth, h.held, hflushed]
        exact ⟨rfl, h.cols, rfl, rfl, h.width, hzero⟩
      · have hcount : ¬c.colsofar + 1 = c.cols := by
          rw [h.cols, h.sofar]
          omega
        rw [if_neg hfull, if_neg fun hor => hor.elim hcount fun hand => hff hand.1]
        refine ⟨rfl, h.cols, ?_, ?_, h.width, ?_⟩
        · show c.colsofar + 1 = ((row ++ [e]).length : ℤ)
          rw [h.sofar, length_append, length_singleton, Nat.cast_succ]
        · show c.colstrings ++ [e] = row ++ [e]
          rw [h.held]
        · show (row ++ [e]).length < n
          rw [length_append, length_singleton]
          omega

/-! ### The lines of a block -/

theorem returned_of_short {s : CStr} (h : (subst env s m plainCols).entry.length < 254) :
    (subst env s m plainCols).returned = false := by
  cases hret : (subst env s m plainCols).returned with
  | false => rfl
  | true =>
    have hfull := (bounded_subst s m plainCols).full hret
    rw [Sub.entry, if_pos hret] at h
    omega

theorem helpSubst_filling {s : CStr} (hs : Unmarked s) (h : Filling n width row c)
    (hshort : (subst env s m plainCols).entry.length < 254) :
    helpSubst env s ⟨m, c⟩ =
      ((substAddcol 8 [] (subst env s m plainCols).entry c).1,
        ⟨(subst env s m plainCols).marks, (substAddcol 8 [] (subst env s m plainCols).entry c).2⟩) := by
  have hret := returned_of_short hshort
  have hcols : c.cols ≠ 0 := by
    rw [h.cols]
    have hlt := h.lt
    omega
  unfold helpSubst
  dsimp only
  rw [subst_cols hs m plainCols c, Sub.entry, hret]
  show (if (subst env s m plainCols).returned = true then _ else if c.cols ≠ 0 then _ else _) = _
  rw [hret, if_neg Bool.false_ne_true, if_neg Bool.false_ne_true, if_pos hcols]
  rfl

theorem helpLines_filling {ls : List CStr} (hls : ∀ s ∈ ls, Unmarked s) (h : Filling n width row c)
    (hshort : ∀ e ∈ entries env m ls, e.length < 254) :
    ((helpLines env ls ⟨m, c⟩).1.filter (· ≠ [])) =
        (machine n ((width - 5).tdiv n) row ((entries env m ls).filter (· ≠ []))).1 ∧
      Filling n width (machine n ((width - 5).tdiv n) row ((entries env m ls).filter (· ≠ []))).2
        (helpLines env ls ⟨m, c⟩).2.cols ∧
      (helpLines env ls ⟨m, c⟩).2.marks.elsewhere = m.elsewhere := by
  induction ls generalizing m c row with
  | nil => exact ⟨rfl, h, rfl⟩
  | cons s ls ih =>
    obtain ⟨hs, hls⟩ := forall_mem_cons.1 hls
    rw [entries] at hshort
    obtain ⟨hfirst, hrest⟩ := forall_mem_cons.1 hshort
    have hline := helpSubst_filling hs h hfirst
    have hshown : (subst env s m plainCols).marks.elsewhere = m.elsewhere :=
      elsewhere_subst hs m plainCols
    rw [helpLines, hline, entries]
    generalize subst env s m plainCols = st at hfirst hrest hline hshown ⊢
    obtain ⟨hout, hfilling⟩ := substAddcol_filling h st.entry
    obtain ⟨houts, hfill, helse⟩ := ih hls hfilling hrest
    have hsplit (x : CStr) (xs : List CStr) :
        (x :: xs).filter (· ≠ []) = ([x].filter (· ≠ [])) ++ xs.filter (· ≠ []) := by
      rw [← filter_append, singleton_append]
    rw [hsplit st.entry, machine_append, hsplit _ (helpLines env ls _).1, hout, houts]
    exact ⟨rfl, hfill, helse.trans hshown⟩

theorem scan_fuel {k k' : ℕ} {s : CStr} (h : s.length ≤ k) (h' : s.length ≤ k') :
    scan k s = scan k' s := by
  induction k generalizing k' s with
  | zero =>
    obtain rfl : s = [] := length_eq_zero_iff.1 (Nat.le_zero.1 h)
    cases k' <;> rfl
  | succ k ih =>
    cases k' with
    | zero =>
      obtain rfl : s = [] := length_eq_zero_iff.1 (Nat.le_zero.1 h')
      rfl
    | succ k' =>
      rw [scan, scan]
      have hdrop : (s.dropWhile (· != '%')).length ≤ s.length := (dropWhile_sublist _).length_le
      generalize s.dropWhile (· != '%') = t at hdrop
      rcases t with _ | ⟨p, _ | ⟨x, r⟩⟩
      · rfl
      · rfl
      · rw [length_cons, length_cons] at hdrop
        have hr : scan k r = scan k' r := ih (by omega) (by omega)
        dsimp only
        rw [hr]
        split
        · have hclose : (r.dropWhile (· != '\x7d')).length ≤ r.length :=
            (dropWhile_sublist _).length_le
          generalize r.dropWhile (· != '\x7d') = q at hclose
          cases q with
          | nil => rfl
          | cons y r' =>
            rw [length_cons] at hclose
            have hr' : scan k r' = scan k' r' := ih (by omega) (by omega)
            dsimp only
            rw [hr']
        · rfl

/-! ### The block -/

/-- `%{cols=` with the number of columns, and the text behind it in the line. -/
def opening (spec first : CStr) : CStr :=
  '%' :: '\x7b' :: (("cols=".toList ++ spec) ++ '\x7d' :: first)

/-- `%{end}`. -/
def closing : CStr := "%\x7bend\x7d".toList

variable {spec first : CStr} {ls : List CStr} {h : Help}

theorem length_opening (spec first : CStr) :
    (opening spec first).length = 8 + spec.length + first.length := by
  have hcols : "cols=".toList.length = 5 := by decide
  rw [opening, length_cons, length_cons, length_append, length_append, length_cons, hcols]
  omega

theorem scan_opening (hspec : '\x7d' ∉ spec) (k : ℕ) :
    scan (k + 1) (opening spec first) =
      (([], .tag ("cols=".toList ++ spec)) :: (scan k first).1, (scan k first).2) := by
  have hcols : ∀ d ∈ "cols=".toList, (d != '\x7d') = true := by decide
  have hbrace : ∀ d ∈ "cols=".toList ++ spec, (d != '\x7d') = true := by
    intro d hd
    rcases mem_append.1 hd with hd | hd
    · exact hcols d hd
    · exact bne_iff_ne.2 fun heq => hspec (heq ▸ hd)
  rw [opening, scan, dropWhile_cons_of_neg (by decide), takeWhile_cons_of_neg (by decide)]
  dsimp only
  rw [if_pos rfl, dropWhile_append_of_pos hbrace, takeWhile_append_of_pos hbrace,
    dropWhile_cons_of_neg (by decide), takeWhile_cons_of_neg (by decide), append_nil]

theorem runTag_cols (spec : CStr) {st : Sub} (hshown : st.marks.elsewhere = false) :
    runTag env ("cols=".toList ++ spec) st = { st with cols := setCols spec st.cols } := by
  have htake : ("cols=".toList ++ spec).take 5 = "cols=".toList := take_left' (by decide)
  have hdrop : ("cols=".toList ++ spec).drop 5 = spec := drop_left' (by decide)
  have hlist : "cols=".toList = ['c', 'o', 'l', 's', '='] := by decide
  have hhead : ("cols=".toList ++ spec).head? = some 'c' := by
    rw [hlist]
    rfl
  have hother (t : CStr) (ht : t.map toLower ≠ ("cols=".toList ++ spec).map toLower) :
      strcaseEq ("cols=".toList ++ spec) t = false := by
    rw [Bool.eq_false_iff, Ne, strcaseEq_iff]
    exact fun heq => ht heq.symm
  unfold runTag
  rw [htake, hhead, hshown, hdrop, if_neg (by decide), if_neg (by decide), if_neg (by decide),
    if_neg (by decide), hother, if_neg (by decide), hother, if_neg (by decide), if_pos rfl]
  · rw [hlist]
    intro heq
    have hsecond : some 'e' = some 'o' := congrArg (fun l : CStr => l[1]?) heq
    exact absurd hsecond (by decide)
  · rw [hlist]
    intro heq
    have hsecond : some 'n' = some 'o' := congrArg (fun l : CStr => l[1]?) heq
    exact absurd hsecond (by decide)

theorem subst_opening (hspec : '\x7d' ∉ spec) (hfit : (opening spec first).length ≤ helpBufLen)
    (hshown : m.elsewhere = false) (c : ColState) :
    subst env (opening spec first) m c = subst env first m (setCols spec c) := by
  have hlen := length_opening spec first
  have hfirst : first.take helpBufLen = first := take_of_length_le (by omega)
  have hopen : (opening spec first).take helpBufLen = opening spec first := take_of_length_le hfit
  have hrounds : (opening spec first).length = 7 + spec.length + first.length + 1 := by omega
  have hstep : step env ⟨[], false, m, c, false⟩ ([], .tag ("cols=".toList ++ spec)) =
      ⟨[], false, m, setCols spec c, false⟩ := by
    have hwrite : (Sub.mk [] false m c false).write [] = ⟨[], false, m, c, false⟩ := rfl
    rw [step, hwrite, ite_self, if_neg Bool.false_ne_true, if_neg Bool.false_ne_true]
    exact runTag_cols spec hshown
  unfold subst
  rw [hopen, hfirst]
  dsimp only
  rw [hrounds, scan_opening hspec, scan_fuel (Nat.le_add_left _ _) (Nat.le_refl _)]
  dsimp only
  rw [foldl_cons, hstep]

theorem helpSubst_opening (hspec : '\x7d' ∉ spec) (hfit : (opening spec first).length ≤ helpBufLen)
    (hshown : m.elsewhere = false) (c : ColState) :
    helpSubst env (opening spec first) ⟨m, c⟩ = helpSubst env first ⟨m, setCols spec c⟩ := by
  unfold helpSubst
  rw [subst_opening hspec hfit hshown]

theorem substAddcol_end (h : Filling n width row c) :
    substAddcol 512 [] ['\u00ff'] { c with subwidth := 70 } =
      if row = [] then ([], { c with subwidth := 70 })
      else ((columns ((70 - 5 : ℤ).tdiv n) row).take 511,
        { c with colsofar := 0, subwidth := 70, colstrings := [] }) := by
  have hpush : ColState.push ['\u00ff'] { c with subwidth := 70 } = { c with subwidth := 70 } :=
    if_pos (.inr rfl)
  have hw : ColState.colwidth { c with subwidth := 70 } = (70 - 5 : ℤ).tdiv n := by
    rw [ColState.colwidth, h.cols]
  have hopen : ¬c.colsofar = c.cols := by
    rw [h.cols, h.sofar]
    have hlt := h.lt
    omega
  unfold substAddcol
  rw [hpush]
  dsimp only
  rw [hw, h.held]
  by_cases hrow : row = []
  · rw [if_pos hrow, if_neg fun hor => hor.elim hopen fun hand => hand.2 hrow]
  · rw [if_neg hrow, if_pos (.inr ⟨rfl, hrow⟩)]

theorem write_nil {st : Sub} (h : st.out = []) (t : CStr) :
    (st.write t).out = t.take helpBufLen ∧ (st.write t).cols = st.cols ∧
      (st.write t).center = st.center := by
  unfold Sub.write
  rw [h, length_nil, nil_append]
  split
  · exact ⟨rfl, rfl, rfl⟩
  · next hfit =>
    refine ⟨(take_of_length_le ?_).symm, rfl, rfl⟩
    show t.length ≤ helpBufLen
    omega

theorem helpSubst_closing (h : Filling n width row c) (hshown : m.elsewhere = false) :
    (helpSubst env closing ⟨m, c⟩).1 =
        (if row = [] then [] else (columns ((70 - 5 : ℤ).tdiv n) row).take helpBufLen) ∧
      (helpSubst env closing ⟨m, c⟩).2.cols.cols = 0 ∧
      (helpSubst env closing ⟨m, c⟩).2.cols.subwidth = 70 ∧
      (helpSubst env closing ⟨m, c⟩).2.cols.colstrings = [] := by
  have hscan : scan (closing.take helpBufLen).length (closing.take helpBufLen) =
      ([([], .tag "end".toList)], []) := by rfl
  have hcols : c.cols ≠ 0 := by
    rw [h.cols]
    have hlt := h.lt
    omega
  -- the line is nothing but the code, so what it puts out is the line
  have hsubst : subst env closing m c =
      (Sub.mk [] false { m with restricted := false }
        { (substAddcol 512 [] ['\u00ff'] { c with subwidth := 70 }).2 with cols := 0 } false).write
        (substAddcol 512 [] ['\u00ff'] { c with subwidth := 70 }).1 := by
    have hwrite : (Sub.mk [] false m c false).write [] = ⟨[], false, m, c, false⟩ := rfl
    have hblind : Marks.blind { m with restricted := false } = false := hshown
    unfold subst
    dsimp only
    rw [hscan, foldl_cons, foldl_nil, step, hwrite, ite_self, if_neg Bool.false_ne_true,
      if_neg Bool.false_ne_true, if_pos (.inr (.inr rfl))]
    show runTag env "end".toList _ = _
    unfold runTag
    rw [if_neg (by decide), if_neg (Bool.eq_false_iff.1 hshown), if_neg (by decide),
      if_neg (by decide), if_pos (by decide)]
    dsimp only
    rw [if_pos hcols, Sub.put, hblind, if_neg Bool.false_ne_true]
  obtain ⟨hout, hset, hcenter⟩ := @write_nil (Sub.mk [] false { m with restricted := false }
    { (substAddcol 512 [] ['\u00ff'] { c with subwidth := 70 }).2 with cols := 0 } false) rfl
    (substAddcol 512 [] ['\u00ff'] { c with subwidth := 70 }).1
  rw [← hsubst] at hout hset hcenter
  have hzero : (subst env closing m c).cols.cols = 0 := by rw [hset]
  have htext : (subst env closing m c).text = (subst env closing m c).out := by
    rw [Sub.text, hcenter]
    exact if_neg fun hand => Bool.false_ne_true hand.1
  have hresult : helpSubst env closing ⟨m, c⟩ =
      ((subst env closing m c).out, ⟨(subst env closing m c).marks, (subst env closing m c).cols⟩) := by
    unfold helpSubst
    dsimp only
    rw [htext, if_neg fun hne : (subst env closing m c).cols.cols ≠ 0 => hne hzero, ite_self]
  rw [hresult]
  refine ⟨?_, hzero, ?_, ?_⟩
  · show (subst env closing m c).out = _
    rw [hout, substAddcol_end h]
    split
    · rfl
    · rw [take_take]
      rfl
  · show (subst env closing m c).cols.subwidth = 70
    rw [hset, substAddcol_end h]
    split <;> rfl
  · show (subst env closing m c).cols.colstrings = []
    rw [hset, substAddcol_end h]
    split
    · next hrow => exact h.held.trans hrow
    · rfl

/-! ### When the rows come out whole -/

/-- The number of columns and the width of all but the last, in full rows and in the last row. -/
def numCols (spec : CStr) : ℕ := (eggAtoi spec).toNat

def fullWidth (spec : CStr) : ℤ := ((setCols spec plainCols).subwidth - 5).tdiv (numCols spec)

def lastWidth (spec : CStr) : ℤ := (70 - 5 : ℤ).tdiv (numCols spec)

/-- No columns are open. -/
structure Normal (c : ColState) : Prop where
  cols : c.cols = 0
  subwidth : c.subwidth = 70
  colstrings : c.colstrings = []

/-- The entries of a block: what its lines become, where that is not empty. -/
def blockEntries (env : Env) (m : Marks) (first : CStr) (ls : List CStr) : List CStr :=
  (entries env m (first :: ls)).filter (· ≠ [])

/-- The lines of a block put out the entries in full rows, the line that closes it the last row, and
then there are no columns any more. -/
structure ShowsBlock (env : Env) (h : Help) (spec first : CStr) (ls : List CStr)
    (rows : List (List CStr)) (rest : List CStr) : Prop where
  arranged : Arranged (numCols spec) (blockEntries env h.marks first ls) rows rest
  full : ((helpLines env (opening spec first :: ls) h).1.filter (· ≠ [])) =
    rows.map (columns (fullWidth spec))
  last : (helpSubst env closing (helpLines env (opening spec first :: ls) h).2).1 =
    if rest = [] then [] else columns (lastWidth spec) rest
  normal : Normal (helpSubst env closing (helpLines env (opening spec first :: ls) h).2).2.cols

/-- Two characters for all entries of a full row and their padding, and the buffer for the last. -/
structure FitsBlock (spec : CStr) (rows : List (List CStr)) (rest : List CStr) : Prop where
  plain : ∀ row ∈ rows ++ [rest], ∀ e ∈ row, Plain e
  full : ∀ row ∈ rows, rowWidth (fullWidth spec) row ≤ 2
  last : rowWidth (lastWidth spec) rest ≤ 251

theorem length_helpLines_le (ls : List CStr) (h : Help) :
    ∀ t ∈ (helpLines env ls h).1, t.length ≤ helpBufLen := by
  induction ls generalizing h with
  | nil => exact fun t ht => absurd ht not_mem_nil
  | cons s ls ih =>
    rw [helpLines]
    exact forall_mem_cons.2 ⟨length_helpSubst_le s h, ih _⟩

theorem marksIn_map_columns (w : ℤ) (rows : List (List CStr)) :
    marksIn (rows.map (columns w)) = marksIn rows.flatten := by
  induction rows with
  | nil => rfl
  | cons row rows ih => rw [map_cons, marksIn_cons, count_columns, ih, flatten_cons, marksIn_append]

theorem filling_setCols (hcols : 0 < eggAtoi spec) (hc : Normal c) :
    Filling (numCols spec) (setCols spec plainCols).subwidth [] (setCols spec c) := by
  have hn : ((numCols spec : ℕ) : ℤ) = eggAtoi spec := Int.toNat_of_nonneg (Int.le_of_lt hcols)
  refine ⟨hn.symm, rfl, hc.colstrings, ?_, ?_⟩
  · rw [setCols, setCols, hc.subwidth]
    rfl
  · rw [length_nil]
    omega

theorem helpLines_block (hnormal : Normal h.cols) (hshown : h.marks.elsewhere = false)
    (hspec : '\x7d' ∉ spec) (hcols : 0 < eggAtoi spec)
    (hfit : (opening spec first).length ≤ helpBufLen) (hlines : ∀ s ∈ first :: ls, Unmarked s)
    (hshort : ∀ e ∈ blockEntries env h.marks first ls, e.length < 254) :
    ((helpLines env (opening spec first :: ls) h).1.filter (· ≠ [])) =
        (machine (numCols spec) (fullWidth spec) [] (blockEntries env h.marks first ls)).1 ∧
      (helpSubst env closing (helpLines env (opening spec first :: ls) h).2).1 =
        (if (machine (numCols spec) (fullWidth spec) [] (blockEntries env h.marks first ls)).2 = [] then []
          else (columns (lastWidth spec)
            (machine (numCols spec) (fullWidth spec) [] (blockEntries env h.marks first ls)).2).take
              helpBufLen) ∧
      Normal (helpSubst env closing (helpLines env (opening spec first :: ls) h).2).2.cols := by
  have hopen : helpLines env (opening spec first :: ls) h =
      helpLines env (first :: ls) ⟨h.marks, setCols spec h.cols⟩ := by
    rw [helpLines, helpLines, show h = ⟨h.marks, h.cols⟩ from rfl,
      helpSubst_opening hspec hfit hshown]
  have hall : ∀ e ∈ entries env h.marks (first :: ls), e.length < 254 := by
    intro e he
    by_cases hnil : e = []
    · rw [hnil, length_nil]
      decide
    · exact hshort e (mem_filter.2 ⟨he, decide_eq_true hnil⟩)
  obtain ⟨houts, hfill, helse⟩ := helpLines_filling hlines (filling_setCols hcols hnormal) hall
  rw [← hopen] at houts hfill helse
  obtain ⟨hlast, hend⟩ := @helpSubst_closing env _ _ _ _ _ hfill (helse.trans hshown)
  exact ⟨houts, hlast, hend.1, hend.2.1, hend.2.2⟩

/-- A block of columns comes out as it should if and only if none of its entries begins with the byte
377, its full rows have two characters at most, and its last row fits the buffer. -/
theorem help_columns_iff (hnormal : Normal h.cols) (hshown : h.marks.elsewhere = false)
    (hspec : '\x7d' ∉ spec) (hcols : 0 < eggAtoi spec)
    (hfit : (opening spec first).length ≤ helpBufLen) (hlines : ∀ s ∈ first :: ls, Unmarked s) :
    ShowsBlock env h spec first ls
        (rowsFrom (numCols spec) [] (blockEntries env h.marks first ls)).1
        (rowsFrom (numCols spec) [] (blockEntries env h.marks first ls)).2 ↔
      FitsBlock spec (rowsFrom (numCols spec) [] (blockEntries env h.marks first ls)).1
        (rowsFrom (numCols spec) [] (blockEntries env h.marks first ls)).2 := by
  have hpos : 0 < numCols spec := by
    rw [numCols]
    omega
  have harr := arranged_rowsFrom hpos (blockEntries env h.marks first ls)
  have hblock := @helpLines_block env _ _ _ _ hnormal hshown hspec hcols hfit hlines
  have hflat : ∀ e ∈ blockEntries env h.marks first ls, ∃ row ∈
      (rowsFrom (numCols spec) [] (blockEntries env h.marks first ls)).1 ++
        [(rowsFrom (numCols spec) [] (blockEntries env h.marks first ls)).2], e ∈ row := by
    intro e he
    rw [← harr.once, mem_append, mem_flatten] at he
    rcases he with ⟨row, hrow, he⟩ | he
    · exact ⟨row, mem_append_left _ hrow, he⟩
    · exact ⟨_, mem_append_right _ (mem_singleton_self _), he⟩
  have hback : ∀ row ∈ (rowsFrom (numCols spec) [] (blockEntries env h.marks first ls)).1 ++
        [(rowsFrom (numCols spec) [] (blockEntries env h.marks first ls)).2],
      ∀ e ∈ row, e ∈ blockEntries env h.marks first ls := by
    intro row hrow e he
    rw [← harr.once, mem_append, mem_flatten]
    rcases mem_append.1 hrow with hrow | hrow
    · exact .inl ⟨row, hrow, he⟩
    · rw [mem_singleton.1 hrow] at he
      exact .inr he
  have hmachine (hp : ∀ e ∈ blockEntries env h.marks first ls, Plain e) :=
    machine_of_plain hp (numCols spec) (fullWidth spec) []
  generalize hes : blockEntries env h.marks first ls = es at harr hblock hflat hback hmachine ⊢
  generalize (rowsFrom (numCols spec) [] es).1 = rows at harr hflat hback hmachine ⊢
  generalize (rowsFrom (numCols spec) [] es).2 = rest at harr hflat hback hmachine ⊢
  -- what is short enough for the buffer is a short entry
  have hshort (hrows : ∀ row ∈ rows, rowWidth (fullWidth spec) row ≤ 251)
      (hrest : rowWidth (lastWidth spec) rest ≤ 251) : ∀ e ∈ es, e.length < 254 := by
    intro e he
    obtain ⟨row, hrow, hin⟩ := hflat e he
    rcases mem_append.1 hrow with hrow | hrow
    · have hle := length_le_rowWidth (fullWidth spec) hin
      have hrow := hrows row hrow
      omega
    · rw [mem_singleton.1 hrow] at hin
      have hle := length_le_rowWidth (lastWidth spec) hin
      omega
  constructor
  · intro hs
    have hrows : ∀ row ∈ rows, rowWidth (fullWidth spec) row ≤ 251 := by
      intro row hrow
      have hin : columns (fullWidth spec) row ∈
          ((helpLines env (opening spec first :: ls) h).1.filter (· ≠ [])) := by
        rw [hs.full]
        exact mem_map_of_mem hrow
      have hle := length_helpLines_le _ _ _ (mem_of_mem_filter hin)
      rw [length_columns, helpBufLen] at hle
      omega
    have hrest : rowWidth (lastWidth spec) rest ≤ 251 := by
      have hle := @length_helpSubst_le env closing
        (helpLines env (opening spec first :: ls) h).2
      rw [hs.last, helpBufLen] at hle
      split at hle
      · next hnil =>
        rw [hnil, rowWidth]
        exact Nat.zero_le _
      · rw [length_columns] at hle
        omega
    obtain ⟨houts, hlast, -⟩ := hblock (hshort hrows hrest)
    -- the bytes 377 that come out are those that came in, so that none was lost
    have hcount := count_machine (numCols spec) (fullWidth spec) [] es
    have hplain : ∀ e ∈ es, Plain e := by
      have hout : marksIn (machine (numCols spec) (fullWidth spec) [] es).1 = marksIn rows.flatten := by
        rw [← houts, hs.full, marksIn_map_columns]
      have hin : marksIn es = marksIn rows.flatten + marksIn rest := by
        rw [← harr.once, marksIn_append]
      have hend : marksIn rest ≤ marksIn (machine (numCols spec) (fullWidth spec) [] es).2 := by
        rw [hs.last] at hlast
        by_cases hnil : rest = []
        · rw [hnil]
          exact Nat.zero_le _
        · rw [if_neg hnil] at hlast
          rw [← count_columns (lastWidth spec), hlast]
          split
          · exact Nat.zero_le _
          · exact count_take_le _ _ _
      have hnone : (es.filter fun e => decide (¬Plain e)).length = 0 := by
        have hnil : marksIn [] = 0 := rfl
        omega
      intro e he
      by_contra hp
      have hmem : e ∈ es.filter fun e => decide (¬Plain e) := mem_filter.2 ⟨he, decide_eq_true hp⟩
      rw [length_eq_zero_iff.1 hnone] at hmem
      exact absurd hmem not_mem_nil
    rw [hmachine hplain] at houts hlast
    refine ⟨fun row hrow e he => hplain e (hback row hrow e he), fun row hrow => ?_, hrest⟩
    have hsame := hs.full.symm.trans houts
    have htake : columns (fullWidth spec) row = (columns (fullWidth spec) row).take 7 :=
      map_inj_left.1 hsame row hrow
    have hle := congrArg length htake
    rw [length_take, length_columns] at hle
    omega
  · intro hfits
    have hplain : ∀ e ∈ es, Plain e := by
      intro e he
      obtain ⟨row, hrow, hin⟩ := hflat e he
      exact hfits.plain row hrow e hin
    obtain ⟨houts, hlast, hend⟩ :=
      hblock (hshort (fun row hrow => (hfits.full row hrow).trans (by decide)) hfits.last)
    rw [hmachine hplain] at houts hlast
    refine ⟨hes ▸ harr, houts.trans ?_, hlast.trans ?_, hend⟩
    · refine map_congr_left fun row hrow => take_of_length_le ?_
      have hle := hfits.full row hrow
      rw [length_columns]
      omega
    · dsimp only
      split
      · rfl
      · refine take_of_length_le ?_
        have hle := hfits.last
        rw [length_columns, helpBufLen]
        omega

/-- A bot and a user, and a text that begins. -/
def someEnv : Env where
  nick := "joe".toList
  isdcc := true
  topic := none
  hilite := false
  flagrecEq _ := true
  uname := []
  botnetnick := "bot".toList
  botname := "bot".toList
  ver := "eggdrop".toList
  version := "eggdrop".toList
  admin := []
  network := []
  clock := "14:15".toList
  chans := []

def fresh : Help := ⟨⟨false, false, false, false, false, false, false⟩, plainCols⟩

/-- Two entries for three columns come out in the line that closes the block. -/
theorem help_columns_two :
    ShowsBlock someEnv fresh "3".toList [] ["botnet-nick".toList, "userfile".toList]
      [] ["botnet-nick".toList, "userfile".toList] := by
  have hentries : blockEntries someEnv fresh.marks [] ["botnet-nick".toList, "userfile".toList] =
      ["botnet-nick".toList, "userfile".toList] := by decide +kernel
  have hrows : rowsFrom (numCols "3".toList) [] ["botnet-nick".toList, "userfile".toList] =
      ([], ["botnet-nick".toList, "userfile".toList]) := by decide +kernel
  have h := (@help_columns_iff someEnv "3".toList [] ["botnet-nick".toList, "userfile".toList] fresh
    ⟨rfl, rfl, rfl⟩ rfl (by decide) (by decide +kernel) (by decide) (by decide)).2
  rw [hentries, hrows] at h
  exact h ⟨by decide, fun row hrow => absurd hrow not_mem_nil, by decide +kernel⟩

/-- A full row of the settings in the help for `set` comes out as `     bo`. -/
theorem not_showsBlock_set :
    ¬∃ rows rest, ShowsBlock someEnv fresh "4".toList []
      ["botnet-nick".toList, "userfile".toList, "motd".toList, "vhost4".toList] rows rest := by
  rintro ⟨rows, rest, hs⟩
  have hentries : blockEntries someEnv fresh.marks []
        ["botnet-nick".toList, "userfile".toList, "motd".toList, "vhost4".toList] =
      ["botnet-nick".toList, "userfile".toList, "motd".toList, "vhost4".toList] := by decide +kernel
  have hfull := hs.full
  have honce := hs.arranged.once
  rw [hentries] at honce
  rw [show ((helpLines someEnv (opening "4".toList [] ::
      ["botnet-nick".toList, "userfile".toList, "motd".toList, "vhost4".toList]) fresh).1.filter
        (· ≠ [])) = ["     bo".toList] by decide +kernel] at hfull
  obtain ⟨row, rfl, hrow⟩ := map_eq_singleton_iff.1 hfull.symm
  -- the one row has all four entries
  have hlen : row.length = 4 := hs.arranged.full row (mem_singleton_self row)
  have hsum := congrArg length honce
  rw [length_append, flatten_singleton, hlen] at hsum
  obtain rfl : rest = [] := length_eq_zero_iff.1 (by simpa using hsum)
  rw [flatten_singleton, append_nil] at honce
  rw [honce] at hrow
  exact absurd hrow (by decide +kernel)

end Eggdrop.HelpSubst
