import Eggdrop.Base.Regex

/-!
# RegexParts — patterns that are a sequence of parts

A pattern without groups and alternatives is a sequence of anchors, atoms, and runs of an atom.  Of
such a sequence, the automaton is laid out part after part.

* `buildNfa_parts`: the automaton that is built.
* `opRegexMatch_parts`: it takes what the parts take.
-/

open List

namespace Eggdrop.Regex

/-- What consumes one character. -/
inductive Atom
  | lit (c : Char)
  | cls (p : Char → Bool)
  | any

namespace Atom

def token : Atom → Token
  | .lit c => .lit c
  | .cls p => .cls p
  | .any => .any

def kind : Atom → Kind
  | .lit c => .char c
  | .cls p => .cls p
  | .any => .any

/-- The atom takes a character of a text. -/
def takes (a : Atom) (c : Char) : Bool := a.kind.takes (toLower c)

theorem kept (a : Atom) : a.kind.kept = true := by
  cases a <;> rfl

theorem token_starts (a : Atom) : tokStartsAtom a.token = true := by
  cases a <;> rfl

theorem token_ends (a : Atom) : tokEndsAtom a.token = true := by
  cases a <;> rfl

theorem yard_step (a : Atom) (y : Yard) :
    y.step a.token = some { y with out := y.out ++ [a.token] } := by
  cases a <;> rfl

theorem build_step (a : Atom) (b : Build) : b.step a.token = b.atom a.kind := by
  cases a <;> rfl

theorem eqn_iff (a : Atom) {V : ℕ → Option Char → CStr → Prop} {out out1 : Option ℕ}
    {prev : Option Char} {cur : CStr} : Eqn V ⟨a.kind, out, out1⟩ prev cur ↔
      ∃ c t, cur = c :: t ∧ a.takes c = true ∧ Via V out (some (toLower c)) t := by
  cases a <;> rfl

end Atom

inductive Part
  | bol
  | eol
  | one (a : Atom)
  | star (a : Atom)
  | plus (a : Atom)

namespace Part

def tokens : Part → List Token
  | .bol => [.bol]
  | .eol => [.eol]
  | .one a => [a.token]
  | .star a => [a.token, .star]
  | .plus a => [a.token, .plus]

/-- How many states the part has. -/
def size : Part → ℕ
  | .star _ | .plus _ => 2
  | _ => 1

/-- The state in which the part begins, when its first state is `b`. -/
def entry (b : ℕ) : Part → ℕ
  | .star _ => b + 1
  | _ => b

/-- The pointer that leads on. -/
def dangling (b : ℕ) : Part → ℕ × Bool
  | .star _ | .plus _ => (b + 1, true)
  | _ => (b, false)

/-- The states of the part. -/
def nodes (b : ℕ) (exit : Option ℕ) : Part → List NState
  | .bol => [⟨.bol, exit, none⟩]
  | .eol => [⟨.eol, exit, none⟩]
  | .one a => [⟨a.kind, exit, none⟩]
  | .star a | .plus a => [⟨a.kind, some (b + 1), none⟩, ⟨.split, some b, exit⟩]

theorem length_nodes (b : ℕ) (exit : Option ℕ) (p : Part) : (p.nodes b exit).length = p.size := by
  cases p <;> rfl

end Part

/-- The size of all parts. -/
def size (ps : List Part) : ℕ := (ps.map Part.size).sum

/-- Where a part leads to: the next part, or out. -/
def next (b : ℕ) (exit : Option ℕ) : List Part → Option ℕ
  | [] => exit
  | p :: _ => some (p.entry b)

/-- The states of all parts. -/
def layout (b : ℕ) (exit : Option ℕ) : List Part → List NState
  | [] => []
  | p :: ps => p.nodes b (next (b + p.size) exit ps) ++ layout (b + p.size) exit ps

@[simp] theorem size_cons (p : Part) (ps : List Part) : size (p :: ps) = p.size + size ps := rfl

theorem length_layout (b : ℕ) (exit : Option ℕ) (ps : List Part) :
    (layout b exit ps).length = size ps := by
  induction ps generalizing b with
  | nil => rfl
  | cons p ps ih => rw [layout, length_append, p.length_nodes, ih, size_cons]

/-! ### Tokens -/

theorem catInject_cons {t t' : Token} {ts : List Token} (h : tokEndsAtom t = true)
    (h' : tokStartsAtom t' = true) :
    catInject (t :: t' :: ts) = t :: .cat :: catInject (t' :: ts) := by
  rw [catInject, h, h']
  rfl

theorem Part.exists_tokens (p : Part) : ∃ t ts, p.tokens = t :: ts ∧ tokStartsAtom t = true := by
  cases p with
  | bol => exact ⟨_, _, rfl, rfl⟩
  | eol => exact ⟨_, _, rfl, rfl⟩
  | one a => exact ⟨_, _, rfl, a.token_starts⟩
  | star a => exact ⟨_, _, rfl, a.token_starts⟩
  | plus a => exact ⟨_, _, rfl, a.token_starts⟩

theorem catInject_tokens (p : Part) {t : Token} {ts : List Token} (ht : tokStartsAtom t = true) :
    catInject (p.tokens ++ t :: ts) = p.tokens ++ .cat :: catInject (t :: ts) := by
  have hrun (a : Atom) {u : Token} (hu : tokStartsAtom u = false) (hu' : tokEndsAtom u = true) :
      catInject (a.token :: u :: t :: ts) = a.token :: u :: .cat :: catInject (t :: ts) := by
    rw [catInject, hu, Bool.and_false, if_neg Bool.false_ne_true, catInject_cons hu' ht]
  cases p with
  | bol => exact catInject_cons rfl ht
  | eol => exact catInject_cons rfl ht
  | one a => exact catInject_cons a.token_ends ht
  | star a => exact hrun a rfl rfl
  | plus a => exact hrun a rfl rfl

theorem catInject_last (p : Part) : catInject p.tokens = p.tokens := by
  cases p with
  | bol => rfl
  | eol => rfl
  | one a => rfl
  | star a =>
    rw [Part.tokens, catInject, show tokStartsAtom .star = false from rfl, Bool.and_false]
    rfl
  | plus a =>
    rw [Part.tokens, catInject, show tokStartsAtom .plus = false from rfl, Bool.and_false]
    rfl

/-- A `CAT` between two parts. -/
theorem catInject_parts (p : Part) (ps : List Part) :
    catInject ((p :: ps).flatMap Part.tokens) =
      p.tokens ++ ps.flatMap fun q => .cat :: q.tokens := by
  induction ps generalizing p with
  | nil => rw [flatMap_cons, flatMap_nil, append_nil, catInject_last, flatMap_nil, append_nil]
  | cons q ps ih =>
    obtain ⟨t, ts, hq, ht⟩ := q.exists_tokens
    have hrest := ih q
    rw [flatMap_cons, hq, cons_append] at hrest
    rw [flatMap_cons, flatMap_cons, hq, cons_append, catInject_tokens p ht, hrest, flatMap_cons, hq]
    rfl

/-! ### Postfix order -/

/-- The stack has little in it, and all of it goes before a `CAT`. -/
structure Yard.Low (y : Yard) : Prop where
  prec : ∀ t ∈ y.stk, tokPrec t ≥ 2
  few : y.stk.length ≤ 2

/-- A `CAT` does not go before a run. -/
theorem pops_cat (out : List Token) :
    Yard.pops ⟨[.cat], out⟩ (tokPrec · > 3) = ⟨[.cat], out⟩ := by
  rw [Yard.pops, takeWhile_cons_of_neg (by decide), dropWhile_cons_of_neg (by decide), append_nil]

/-- A part behind a `CAT`. -/
theorem yard_part (q : Part) {y : Yard} (h : y.Low) :
    ∃ y', (Token.cat :: q.tokens).foldlM Yard.step y = some y' ∧ y'.Low ∧
      y'.out ++ y'.stk = y.out ++ y.stk ++ (q.tokens ++ [.cat]) := by
  have hall : ∀ t ∈ y.stk, decide (tokPrec t ≥ 2) = true := by
    intro t ht
    exact decide_eq_true (h.prec t ht)
  have hcat : y.step .cat = some ⟨[.cat], y.out ++ y.stk⟩ := by
    rw [Yard.step, Yard.pops, dropWhile_eq_nil_iff.2 hall, takeWhile_eq_self_iff.2 hall]
    rfl
  have hlow (ts : List Token) (hprec : ∀ t ∈ ts, tokPrec t ≥ 2) (hfew : ts.length ≤ 2)
      (out : List Token) : Yard.Low ⟨ts, out⟩ := ⟨hprec, hfew⟩
  rw [foldlM_cons, hcat]
  show ∃ y', q.tokens.foldlM Yard.step ⟨[.cat], y.out ++ y.stk⟩ = some y' ∧ _
  have hone : Yard.Low ⟨[.cat], y.out ++ y.stk ++ q.tokens⟩ := hlow _ (by simp [tokPrec]) (by simp) _
  cases q with
  | bol => exact ⟨_, rfl, hone, by simp [Part.tokens]⟩
  | eol => exact ⟨_, rfl, hone, by simp [Part.tokens]⟩
  | one a =>
    refine ⟨⟨[.cat], y.out ++ y.stk ++ [a.token]⟩, ?_, hone, by simp [Part.tokens]⟩
    rw [Part.tokens, foldlM_cons, a.yard_step]
    rfl
  | star a =>
    refine ⟨⟨[.star, .cat], y.out ++ y.stk ++ [a.token]⟩, ?_, hlow _ (by simp [tokPrec]) (by simp) _,
      by simp [Part.tokens]⟩
    have hquant : Yard.step ⟨[.cat], y.out ++ y.stk ++ [a.token]⟩ .star =
        some ⟨[.star, .cat], y.out ++ y.stk ++ [a.token]⟩ := by
      rw [Yard.step, pops_cat]
      rfl
    rw [Part.tokens, foldlM_cons, a.yard_step]
    exact congrArg (· >>= fun y => some y) hquant
  | plus a =>
    refine ⟨⟨[.plus, .cat], y.out ++ y.stk ++ [a.token]⟩, ?_, hlow _ (by simp [tokPrec]) (by simp) _,
      by simp [Part.tokens]⟩
    have hquant : Yard.step ⟨[.cat], y.out ++ y.stk ++ [a.token]⟩ .plus =
        some ⟨[.plus, .cat], y.out ++ y.stk ++ [a.token]⟩ := by
      rw [Yard.step, pops_cat]
      rfl
    rw [Part.tokens, foldlM_cons, a.yard_step]
    exact congrArg (· >>= fun y => some y) hquant

theorem yard_first (p : Part) :
    ∃ y, p.tokens.foldlM Yard.step ⟨[], []⟩ = some y ∧ y.Low ∧ y.out ++ y.stk = p.tokens := by
  cases p with
  | bol => exact ⟨_, rfl, ⟨by simp, by simp⟩, rfl⟩
  | eol => exact ⟨_, rfl, ⟨by simp, by simp⟩, rfl⟩
  | one a =>
    refine ⟨⟨[], [a.token]⟩, ?_, ⟨by simp, by simp⟩, rfl⟩
    rw [Part.tokens, foldlM_cons, a.yard_step]
    rfl
  | star a =>
    refine ⟨⟨[.star], [a.token]⟩, ?_, ⟨by simp [tokPrec], by simp⟩, rfl⟩
    rw [Part.tokens, foldlM_cons, a.yard_step]
    rfl
  | plus a =>
    refine ⟨⟨[.plus], [a.token]⟩, ?_, ⟨by simp [tokPrec], by simp⟩, rfl⟩
    rw [Part.tokens, foldlM_cons, a.yard_step]
    rfl

theorem yard_parts (ps : List Part) {y : Yard} (h : y.Low) :
    ∃ y', (ps.flatMap fun q => .cat :: q.tokens).foldlM Yard.step y = some y' ∧
      y'.out ++ y'.stk = y.out ++ y.stk ++ ps.flatMap fun q => q.tokens ++ [.cat] := by
  induction ps generalizing y with
  | nil => exact ⟨y, rfl, by simp⟩
  | cons q ps ih =>
    obtain ⟨y₁, hone, hlow, hout₁⟩ := yard_part q h
    obtain ⟨y', hrest, hout⟩ := ih hlow
    refine ⟨y', ?_, ?_⟩
    · rw [flatMap_cons, foldlM_append, hone]
      exact hrest
    · rw [hout, hout₁, flatMap_cons, append_assoc (y.out ++ y.stk)]

theorem shunt_parts (p : Part) (ps : List Part) :
    shunt (catInject ((p :: ps).flatMap Part.tokens)) =
      some (p.tokens ++ ps.flatMap fun q => q.tokens ++ [.cat]) := by
  obtain ⟨y, hfirst, hlow, hout⟩ := yard_first p
  obtain ⟨y', hrest, hout'⟩ := yard_parts ps hlow
  have hfold : (p.tokens ++ ps.flatMap fun q => .cat :: q.tokens).foldlM Yard.step ⟨[], []⟩ =
      some y' := by
    rw [foldlM_append, hfirst]
    exact hrest
  rw [catInject_parts, shunt, hfold, Option.map_some, hout', hout]

/-! ### Building -/

/-- The pointer that leads on from the last part. -/
def lastDangling (b : ℕ) : List Part → ℕ × Bool
  | [] => (b, false)
  | [p] => p.dangling b
  | p :: ps => lastDangling (b + p.size) ps

theorem lastDangling_cons (b : ℕ) (p : Part) {ps : List Part} (h : ps ≠ []) :
    lastDangling b (p :: ps) = lastDangling (b + p.size) ps := by
  cases ps with
  | nil => exact absurd rfl h
  | cons q ps => rfl

theorem lastDangling_snoc (b : ℕ) (ps : List Part) (q : Part) :
    lastDangling b (ps ++ [q]) = q.dangling (b + size ps) := by
  induction ps generalizing b with
  | nil => rfl
  | cons p ps ih => rw [cons_append, lastDangling_cons b p (by simp), ih, size_cons, Nat.add_assoc]

theorem next_snoc (b : ℕ) (exit : Option ℕ) (ps : List Part) (q : Part) :
    next b exit (ps ++ [q]) = next b (some (q.entry (b + size ps))) ps := by
  cases ps <;> rfl

theorem layout_snoc (b : ℕ) (exit : Option ℕ) (ps : List Part) (q : Part) :
    layout b exit (ps ++ [q]) =
      layout b (some (q.entry (b + size ps))) ps ++ q.nodes (b + size ps) exit := by
  induction ps generalizing b with
  | nil => exact append_nil _
  | cons p ps ih =>
    rw [cons_append, layout, ih, next_snoc, layout, size_cons, ← Nat.add_assoc, append_assoc]

theorem modify_append_cons (pre : List NState) (n : NState) (rest : List NState)
    (f : NState → NState) : (pre ++ n :: rest).modify pre.length f = pre ++ f n :: rest := by
  induction pre with
  | nil => rfl
  | cons m pre ih => exact congrArg (m :: ·) ih

theorem patch_nodes (pre : List NState) (p : Part) (t : ℕ) (rest : List NState) :
    plPatch [p.dangling pre.length] t (pre ++ p.nodes pre.length none ++ rest) =
      pre ++ p.nodes pre.length (some t) ++ rest := by
  have hfirst (k : Kind) : plPatch [(pre.length, false)] t (pre ++ [⟨k, none, none⟩] ++ rest) =
      pre ++ [⟨k, some t, none⟩] ++ rest := by
    rw [append_assoc, append_assoc]
    exact modify_append_cons pre _ rest _
  have hsecond (n : NState) (o : Option ℕ) :
      plPatch [(pre.length + 1, true)] t (pre ++ [n, ⟨.split, o, none⟩] ++ rest) =
        pre ++ [n, ⟨.split, o, some t⟩] ++ rest := by
    have hmod := modify_append_cons (pre ++ [n]) ⟨.split, o, none⟩ rest
      fun m => { m with out1 := some t }
    rw [length_append, length_singleton] at hmod
    simpa [plPatch] using hmod
  cases p with
  | bol => exact hfirst _
  | eol => exact hfirst _
  | one a => exact hfirst _
  | star a => exact hsecond _ _
  | plus a => exact hsecond _ _

theorem patch_layout (pre : List NState) {ps : List Part} (hps : ps ≠ []) (t : ℕ)
    (rest : List NState) :
    plPatch [lastDangling pre.length ps] t (pre ++ layout pre.length none ps ++ rest) =
      pre ++ layout pre.length (some t) ps ++ rest := by
  induction ps generalizing pre with
  | nil => exact absurd rfl hps
  | cons p ps ih =>
    by_cases hnil : ps = []
    · subst hnil
      show plPatch [p.dangling pre.length] t (pre ++ (p.nodes pre.length none ++ []) ++ rest) =
        pre ++ (p.nodes pre.length (some t) ++ []) ++ rest
      rw [append_nil, append_nil]
      exact patch_nodes pre p t rest
    · have hnext : next (pre.length + p.size) none ps = next (pre.length + p.size) (some t) ps := by
        cases ps with
        | nil => exact absurd rfl hnil
        | cons q ps => rfl
      have hmore := ih (pre ++ p.nodes pre.length (next (pre.length + p.size) none ps)) hnil
      rw [length_append, p.length_nodes] at hmore
      rw [lastDangling_cons _ _ hnil, layout, layout, ← append_assoc, hmore, hnext, append_assoc pre]

theorem push_eq (b : Build) (f : Frag) (h : b.fstack.length < 512) :
    b.push f = some { b with fstack := f :: b.fstack } := if_neg (by omega)

theorem build_atom (b : Build) (k : Kind) (h : b.fstack.length < 512) :
    b.atom k = some ⟨b.pool ++ [⟨k, none, none⟩],
      ⟨b.pool.length, [(b.pool.length, false)]⟩ :: b.fstack⟩ := push_eq _ _ h

theorem build_part (p : Part) (b : Build) (h : b.fstack.length ≤ 1) :
    p.tokens.foldlM Build.step b = some ⟨b.pool ++ p.nodes b.pool.length none,
      ⟨p.entry b.pool.length, [p.dangling b.pool.length]⟩ :: b.fstack⟩ := by
  have hone (k : Kind) := build_atom b k (by omega)
  -- the state behind an atom, and the pointer of the atom
  have hrun (k : Kind) : plPatch [(b.pool.length, false)] (b.pool.length + 1)
      (b.pool ++ [⟨k, none, none⟩] ++ [⟨.split, some b.pool.length, none⟩]) =
      b.pool ++ [⟨k, some (b.pool.length + 1), none⟩, ⟨.split, some b.pool.length, none⟩] := by
    rw [append_assoc]
    exact modify_append_cons b.pool _ _ _
  have hlen (k : Kind) : (b.pool ++ [NState.mk k none none]).length = b.pool.length + 1 :=
    length_append
  cases p with
  | bol => exact congrArg (· >>= fun b => some b) (hone .bol)
  | eol => exact congrArg (· >>= fun b => some b) (hone .eol)
  | one a =>
    rw [Part.tokens, foldlM_cons, a.build_step, hone]
    rfl
  | star a =>
    rw [Part.tokens, foldlM_cons, a.build_step, hone]
    show Build.step _ .star >>= _ = _
    rw [Build.step]
    dsimp only
    rw [hlen, hrun, push_eq _ _ (by show b.fstack.length < 512; omega)]
    rfl
  | plus a =>
    rw [Part.tokens, foldlM_cons, a.build_step, hone]
    show Build.step _ .plus >>= _ = _
    rw [Build.step]
    dsimp only
    rw [hlen, hrun, push_eq _ _ (by show b.fstack.length < 512; omega)]
    rfl

theorem build_rest (p : Part) (ps : List Part) (qs : List Part) :
    (qs.flatMap fun q => q.tokens ++ [.cat]).foldlM Build.step
      ⟨layout 0 none (p :: ps), [⟨p.entry 0, [lastDangling 0 (p :: ps)]⟩]⟩ =
    some ⟨layout 0 none (p :: ps ++ qs), [⟨p.entry 0, [lastDangling 0 (p :: ps ++ qs)]⟩]⟩ := by
  induction qs generalizing ps with
  | nil =>
    rw [append_nil]
    rfl
  | cons q qs ih =>
    have hpart := build_part q
      ⟨layout 0 none (p :: ps), [⟨p.entry 0, [lastDangling 0 (p :: ps)]⟩]⟩ (by simp)
    have hpatch := patch_layout [] (cons_ne_nil p ps) (q.entry (size (p :: ps)))
      (q.nodes (size (p :: ps)) none)
    rw [length_nil, nil_append, nil_append] at hpatch
    have hsnoc := layout_snoc 0 none (p :: ps) q
    have hdang := lastDangling_snoc 0 (p :: ps) q
    rw [Nat.zero_add] at hsnoc hdang
    have hcat : Build.step ⟨layout 0 none (p :: ps) ++ q.nodes (size (p :: ps)) none,
        [⟨q.entry (size (p :: ps)), [q.dangling (size (p :: ps))]⟩,
          ⟨p.entry 0, [lastDangling 0 (p :: ps)]⟩]⟩ .cat =
        some ⟨layout 0 none (p :: ps ++ [q]), [⟨p.entry 0, [lastDangling 0 (p :: ps ++ [q])]⟩]⟩ := by
      rw [Build.step]
      dsimp only
      rw [hpatch, ← hsnoc, ← hdang, push_eq _ _ (by show 0 < 512; decide)]
    have hstep : (q.tokens ++ [Token.cat]).foldlM Build.step
        ⟨layout 0 none (p :: ps), [⟨p.entry 0, [lastDangling 0 (p :: ps)]⟩]⟩ =
        some ⟨layout 0 none (p :: ps ++ [q]), [⟨p.entry 0, [lastDangling 0 (p :: ps ++ [q])]⟩]⟩ := by
      rw [foldlM_append, hpart, length_layout]
      exact congrArg (· >>= fun b => some b) hcat
    rw [flatMap_cons, foldlM_append, hstep]
    have hrest := ih (ps ++ [q])
    rw [← cons_append, append_assoc, singleton_append] at hrest
    exact hrest

theorem buildNfa_parts (p : Part) (ps : List Part) :
    buildNfa (p.tokens ++ ps.flatMap fun q => q.tokens ++ [.cat]) =
      some ⟨layout 0 (some (size (p :: ps))) (p :: ps) ++ [⟨.accept, none, none⟩], p.entry 0⟩ := by
  have hfirst := build_part p ⟨[], []⟩ (by simp)
  have hrest := build_rest p [] ps
  have hpatch := patch_layout [] (cons_ne_nil p ps) (size (p :: ps)) [⟨.accept, none, none⟩]
  rw [length_nil, nil_append, nil_append] at hpatch
  have hone : layout 0 none [p] = p.nodes 0 none := append_nil _
  have hall : (p.tokens ++ ps.flatMap fun q : Part => q.tokens ++ [Token.cat]).foldlM Build.step
      ⟨[], []⟩ = some ⟨layout 0 none (p :: ps), [⟨p.entry 0, [lastDangling 0 (p :: ps)]⟩]⟩ := by
    rw [foldlM_append, hfirst]
    show foldlM Build.step ⟨p.nodes 0 none, [⟨p.entry 0, [p.dangling 0]⟩]⟩ _ = _
    rw [← hone]
    exact hrest
  rw [buildNfa, hall]
  show some (OpRegex.mk (plPatch _ (layout 0 none (p :: ps)).length _) _) = _
  rw [length_layout, hpatch]

/-! ### What the parts take -/

/-- The character before a place, for that before a text that ends there. -/
def after (prev : Option Char) (x : CStr) : Option Char := (x.getLast?.map toLower).or prev

theorem after_cons (prev : Option Char) (c : Char) (x : CStr) :
    after prev (c :: x) = after (some (toLower c)) x := by
  cases x with
  | nil => rfl
  | cons d x =>
    rw [after, after, getLast?_cons_cons]
    cases hlast : (d :: x).getLast? with
    | none => exact absurd (getLast?_eq_none_iff.1 hlast) (cons_ne_nil d x)
    | some e => rfl

/-- What some parts take of the start of a text. -/
def Takes : List Part → Option Char → CStr → Prop
  | [], _, _ => True
  | .bol :: ps, prev, cur => atBol prev ∧ Takes ps prev cur
  | .eol :: ps, prev, cur => atEol cur ∧ Takes ps prev cur
  | .one a :: ps, _, cur =>
    ∃ c t, cur = c :: t ∧ a.takes c = true ∧ Takes ps (some (toLower c)) t
  | .star a :: ps, prev, cur =>
    ∃ x y, cur = x ++ y ∧ (∀ c ∈ x, a.takes c = true) ∧ Takes ps (after prev x) y
  | .plus a :: ps, prev, cur =>
    ∃ x y, cur = x ++ y ∧ x ≠ [] ∧ (∀ c ∈ x, a.takes c = true) ∧ Takes ps (after prev x) y

section Takes

variable {ps : List Part} {a : Atom} {prev : Option Char} {cur : CStr}

theorem takes_star : Takes (.star a :: ps) prev cur ↔
    Takes (.one a :: .star a :: ps) prev cur ∨ Takes ps prev cur := by
  constructor
  · rintro ⟨x, y, rfl, hx, hy⟩
    cases x with
    | nil => exact .inr hy
    | cons c x =>
      obtain ⟨hc, hx⟩ := forall_mem_cons.1 hx
      rw [after_cons] at hy
      exact .inl ⟨c, x ++ y, rfl, hc, x, y, rfl, hx, hy⟩
  · rintro (⟨c, t, rfl, hc, x, y, rfl, hx, hy⟩ | h)
    · exact ⟨c :: x, y, rfl, forall_mem_cons.2 ⟨hc, hx⟩, by rwa [after_cons]⟩
    · exact ⟨[], cur, rfl, by simp, h⟩

theorem takes_plus : Takes (.plus a :: ps) prev cur ↔ Takes (.one a :: .star a :: ps) prev cur := by
  constructor
  · rintro ⟨x, y, rfl, hne, hx, hy⟩
    cases x with
    | nil => exact absurd rfl hne
    | cons c x =>
      obtain ⟨hc, hx⟩ := forall_mem_cons.1 hx
      rw [after_cons] at hy
      exact ⟨c, x ++ y, rfl, hc, x, y, rfl, hx, hy⟩
  · rintro ⟨c, t, rfl, hc, x, y, rfl, hx, hy⟩
    exact ⟨c :: x, y, rfl, cons_ne_nil c x, forall_mem_cons.2 ⟨hc, hx⟩, by rwa [after_cons]⟩

end Takes

/-- What the states of a layout, and the last state behind it, take. -/
def means : List Part → List (List Part)
  | [] => [[]]
  | .star a :: ps => (.one a :: .star a :: ps) :: (.star a :: ps) :: means ps
  | .plus a :: ps => (.one a :: .star a :: ps) :: (.star a :: ps) :: means ps
  | p :: ps => (p :: ps) :: means ps

/-- What the state with an index takes. -/
def meaning (ps : List Part) (s : ℕ) (prev : Option Char) (cur : CStr) : Prop :=
  ∃ qs, (means ps)[s]? = some qs ∧ Takes qs prev cur

/-- `V` says what `means` says, from an index on. -/
def Agrees (V : ℕ → Option Char → CStr → Prop) (b : ℕ) (ps : List Part) : Prop :=
  ∀ k qs, (means ps)[k]? = some qs → ∀ prev cur, V (b + k) prev cur ↔ Takes qs prev cur

section Solution

variable {V : ℕ → Option Char → CStr → Prop} {b : ℕ} {p : Part} {ps : List Part}

theorem Agrees.tail (h : Agrees V b (p :: ps)) : Agrees V (b + p.size) ps := by
  intro k qs hqs
  have hk : (means (p :: ps))[p.size + k]? = some qs := by
    rw [← hqs, Nat.add_comm]
    cases p <;> rfl
  rw [Nat.add_assoc]
  exact h _ qs hk

theorem Agrees.next (h : Agrees V b ps) (prev : Option Char) (cur : CStr) :
    Via V (next b (some (b + size ps)) ps) prev cur ↔ Takes ps prev cur := by
  have hvia (s : ℕ) : Via V (some s) prev cur ↔ V s prev cur := by
    simp [Via]
  cases ps with
  | nil => exact (hvia b).trans (h 0 [] rfl prev cur)
  | cons p ps =>
    rw [Regex.next, hvia]
    cases p with
    | bol => exact h 0 _ rfl prev cur
    | eol => exact h 0 _ rfl prev cur
    | one a => exact h 0 _ rfl prev cur
    | star a => exact h 1 _ rfl prev cur
    | plus a => exact (h 0 _ rfl prev cur).trans takes_plus.symm

theorem Agrees.nodes (h : Agrees V b (p :: ps)) {k : ℕ} {n : NState}
    (hn : (p.nodes b (Regex.next (b + p.size) (some (b + size (p :: ps))) ps))[k]? = some n)
    (prev : Option Char) (cur : CStr) : V (b + k) prev cur ↔ Eqn V n prev cur := by
  have htail := h.tail.next
  rw [Nat.add_assoc, ← size_cons] at htail
  have hvia (s : ℕ) : Via V (some s) prev cur ↔ V s prev cur := by
    simp [Via]
  -- an atom, and what it leads to
  have hatom (a : Atom) (out out1 : Option ℕ) (qs : List Part)
      (hout : ∀ prev cur, Via V out prev cur ↔ Takes qs prev cur) :
      Takes (.one a :: qs) prev cur ↔ Eqn V ⟨a.kind, out, out1⟩ prev cur := by
    rw [a.eqn_iff]
    simp only [hout]
    rfl
  have hrun (a : Atom) (hstar : ∀ prev cur, V (b + 1) prev cur ↔ Takes (.star a :: ps) prev cur)
      (hentry : V b prev cur ↔ Takes (.one a :: .star a :: ps) prev cur)
      (hn : [NState.mk a.kind (some (b + 1)) none, ⟨.split, some b, Regex.next (b + 2)
        (some (b + size (p :: ps))) ps⟩][k]? = some n)
      (hrest : ∀ prev cur, Via V (Regex.next (b + 2) (some (b + size (p :: ps))) ps) prev cur ↔
        Takes ps prev cur) : V (b + k) prev cur ↔ Eqn V n prev cur := by
    rcases k with _ | _ | k
    · obtain rfl := Option.some.inj hn
      refine hentry.trans (hatom a _ _ _ ?_)
      intro prev cur
      rw [← hstar]
      simp [Via]
    · obtain rfl := Option.some.inj hn
      refine (hstar prev cur).trans (takes_star.trans ?_)
      show _ ↔ Via V (some b) prev cur ∨ _
      rw [hvia, hentry, hrest]
    · cases hn
  have hone (n' : NState) (hn : [n'][k]? = some n) : k = 0 ∧ n' = n := by
    cases k with
    | zero => exact ⟨rfl, Option.some.inj hn⟩
    | succ k => cases hn
  cases p with
  | bol =>
    obtain ⟨rfl, rfl⟩ := hone _ hn
    refine (h 0 _ rfl prev cur).trans ?_
    show atBol prev ∧ _ ↔ atBol prev ∧ _
    rw [htail]
  | eol =>
    obtain ⟨rfl, rfl⟩ := hone _ hn
    refine (h 0 _ rfl prev cur).trans ?_
    show atEol cur ∧ _ ↔ atEol cur ∧ _
    rw [htail]
  | one a =>
    obtain ⟨rfl, rfl⟩ := hone _ hn
    exact (h 0 _ rfl prev cur).trans (hatom a _ _ _ htail)
  | star a => exact hrun a (h 1 _ rfl) (h 0 _ rfl prev cur) hn htail
  | plus a => exact hrun a (h 1 _ rfl) (h 0 _ rfl prev cur) hn htail

theorem Agrees.layout (h : Agrees V b ps) {k : ℕ} {n : NState}
    (hn : (layout b (some (b + size ps)) ps ++ [⟨.accept, none, none⟩])[k]? = some n)
    (prev : Option Char) (cur : CStr) : V (b + k) prev cur ↔ Eqn V n prev cur := by
  induction ps generalizing b k with
  | nil =>
    cases k with
    | zero =>
      obtain rfl := Option.some.inj hn
      exact h 0 [] rfl prev cur
    | succ k => cases hn
  | cons p ps ih =>
    rw [Regex.layout, append_assoc] at hn
    have hlen := p.length_nodes b (Regex.next (b + p.size) (some (b + size (p :: ps))) ps)
    by_cases hk : k < p.size
    · rw [getElem?_append_left (by rw [hlen]; exact hk)] at hn
      exact h.nodes hn prev cur
    · rw [getElem?_append_right (by rw [hlen]; omega), hlen, size_cons, ← Nat.add_assoc] at hn
      have hrest := ih h.tail hn
      rwa [Nat.add_assoc, Nat.add_sub_cancel' (by omega)] at hrest

theorem ranked_nodes {k : ℕ} {n : NState} {e o : ℕ} (he : b + p.size ≤ e)
    (hn : (p.nodes b (some e))[k]? = some n) (ho : n.out = some o ∨ n.out1 = some o) :
    o ≤ e ∧ (n.kind.kept = true ∨ (o = b ∧ KeptAt (p.nodes b (some e)) 0) ∨ b + k < o) := by
  have hout {k' : Kind} {o' : Option ℕ} (hn' : NState.mk k' o' none = n) : o' = some o := by
    subst hn'
    exact ho.resolve_right (by simp)
  have hone {k' : Kind} (hb : b < e) (hn : [NState.mk k' (some e) none][k]? = some n) :
      o ≤ e ∧ b + k < o := by
    cases k with
    | zero =>
      obtain rfl := Option.some.inj (hout (Option.some.inj hn))
      exact ⟨Nat.le_refl e, hb⟩
    | succ k => cases hn
  have hrun (a : Atom) (hb : b + 2 ≤ e)
      (hn : [NState.mk a.kind (some (b + 1)) none, ⟨.split, some b, some e⟩][k]? = some n) :
      o ≤ e ∧ (n.kind.kept = true ∨ o = b ∨ b + k < o) := by
    rcases k with _ | _ | k
    · have hn := Option.some.inj hn
      obtain rfl := Option.some.inj (hout hn)
      exact ⟨by omega, .inl (by rw [← hn]; exact a.kept)⟩
    · obtain rfl := Option.some.inj hn
      rcases ho with ho | ho
      · obtain rfl := Option.some.inj ho
        exact ⟨by omega, .inr (.inl rfl)⟩
      · obtain rfl := Option.some.inj ho
        exact ⟨Nat.le_refl _, .inr (.inr (by omega))⟩
    · cases hn
  cases p with
  | bol => exact (hone he hn).imp_right fun h => .inr (.inr h)
  | eol => exact (hone he hn).imp_right fun h => .inr (.inr h)
  | one a => exact (hone he hn).imp_right fun h => .inr (.inr h)
  | star a =>
    exact (hrun a he hn).imp_right (Or.imp_right (Or.imp_left fun h => ⟨h, _, rfl, a.kept⟩))
  | plus a =>
    exact (hrun a he hn).imp_right (Or.imp_right (Or.imp_left fun h => ⟨h, _, rfl, a.kept⟩))

theorem next_eq (b : ℕ) (ps : List Part) :
    ∃ e, next b (some (b + size ps)) ps = some e ∧ b ≤ e ∧ e ≤ b + size ps := by
  cases ps with
  | nil => exact ⟨b, rfl, Nat.le_refl b, Nat.le_refl b⟩
  | cons q ps =>
    refine ⟨q.entry b, rfl, ?_⟩
    rw [size_cons]
    cases q <;> simp only [Part.entry, Part.size] <;> omega

theorem ranked_layout {k : ℕ} {n : NState} (hn : (layout b (some (b + size ps)) ps)[k]? = some n)
    {o : ℕ} (ho : n.out = some o ∨ n.out1 = some o) :
    o ≤ b + size ps ∧ (n.kind.kept = true ∨
      (∃ i, o = b + i ∧ KeptAt (layout b (some (b + size ps)) ps) i) ∨ b + k < o) := by
  induction ps generalizing b k with
  | nil => cases hn
  | cons p ps ih =>
    obtain ⟨e, hnext, hge, hle⟩ := next_eq (b + p.size) ps
    rw [size_cons, ← Nat.add_assoc] at hn ⊢
    rw [layout, hnext] at hn ⊢
    have hlen := p.length_nodes b (some e)
    by_cases hk : k < p.size
    · rw [getElem?_append_left (by rw [hlen]; exact hk)] at hn
      obtain ⟨hoe, hrank⟩ := ranked_nodes hge hn ho
      refine ⟨Nat.le_trans hoe hle, hrank.imp_right (Or.imp_left ?_)⟩
      rintro ⟨rfl, n', hn', hkept⟩
      refine ⟨0, rfl, n', ?_, hkept⟩
      rw [getElem?_append_left (by omega)]
      exact hn'
    · rw [getElem?_append_right (by rw [hlen]; omega), hlen] at hn
      obtain ⟨hle, hrest⟩ := ih hn
      refine ⟨hle, hrest.imp_right (Or.imp ?_ (by omega))⟩
      rintro ⟨i, rfl, n', hn', hkept⟩
      refine ⟨p.size + i, Nat.add_assoc _ _ _, n', ?_, hkept⟩
      rw [getElem?_append_right (by rw [hlen]; omega), hlen, Nat.add_sub_cancel_left]
      exact hn'

theorem ranked_parts (ps : List Part) :
    Ranked (layout 0 (some (size ps)) ps ++ [⟨.accept, none, none⟩]) := by
  have hlen := length_layout 0 (some (size ps)) ps
  have hlay {k : ℕ} {n : NState} := @ranked_layout 0 ps k n
  rw [Nat.zero_add] at hlay
  intro s n hn o ho
  rw [length_append, hlen, length_singleton]
  by_cases hs : s < size ps
  · rw [getElem?_append_left (by rw [hlen]; exact hs)] at hn
    obtain ⟨hle, hrank⟩ := hlay hn ho
    refine ⟨by omega, hrank.imp_right (Or.imp ?_ (by omega))⟩
    rintro ⟨i, rfl, n', hn', hkept⟩
    rw [Nat.zero_add]
    obtain ⟨hi, -⟩ := List.getElem?_eq_some_iff.1 hn'
    exact ⟨n', (getElem?_append_left hi).trans hn', hkept⟩
  · -- the last state leads nowhere
    rw [getElem?_append_right (by rw [hlen]; omega)] at hn
    obtain rfl := mem_singleton.1 (mem_of_getElem? hn)
    rcases ho with ho | ho <;> cases ho

theorem agrees_meaning (ps : List Part) : Agrees (meaning ps) 0 ps := by
  intro k qs hqs prev cur
  rw [meaning, Nat.zero_add, hqs]
  simp

end Solution

theorem opRegexMatch_parts {pattern : CStr} {p : Part} {ps : List Part}
    (h : tokenise (pattern.length + 1) pattern = some ((p :: ps).flatMap Part.tokens)) :
    ∃ re, opRegexCompile pattern = some re ∧
      ∀ text, opRegexMatch re text = true ↔ Takes (p :: ps) none text := by
  have hcompile : opRegexCompile pattern = some ⟨layout 0 (some (size (p :: ps))) (p :: ps) ++
      [⟨.accept, none, none⟩], p.entry 0⟩ := by
    rw [opRegexCompile, h]
    show (shunt (catInject ((p :: ps).flatMap Part.tokens)) >>= buildNfa) = _
    rw [shunt_parts]
    exact buildNfa_parts p ps
  have hagrees := agrees_meaning (p :: ps)
  have hlen : (layout 0 (some (size (p :: ps))) (p :: ps)).length = size (p :: ps) :=
    length_layout _ _ _
  refine ⟨_, hcompile, ?_⟩
  intro text
  have hstart : meaning (p :: ps) (p.entry 0) none text ↔ Takes (p :: ps) none text := by
    rw [← hagrees.next none text]
    simp [Via, next]
  rw [← hstart]
  apply opRegexMatch_iff ?_ (ranked_parts (p :: ps))
  · show p.entry 0 < List.length (_ ++ [_])
    obtain ⟨e, he, -, hle⟩ := next_eq 0 (p :: ps)
    obtain rfl := Option.some.inj he
    rw [length_append, hlen, length_singleton]
    omega
  · intro s n hn prev cur
    have hlay := hagrees.layout (k := s) (n := n) (by rw [Nat.zero_add]; exact hn) prev cur
    rwa [Nat.zero_add] at hlay

end Eggdrop.Regex
