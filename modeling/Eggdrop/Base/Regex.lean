import Mathlib.Data.List.Basic
import Mathlib.Logic.Function.Basic
import Eggdrop.Base.CString

/-!
# Regex — the regular expressions of libop (libop/src/regex.c)

A pattern becomes tokens, the tokens get their `CAT`s and are put into postfix order, and of these a
Thompson automaton is built, which is then run with all its states at once.  Only what the masks of
match.c lead to is here: case is ignored, `.` takes a newline as well, patterns start with `^`, and
there are no groups, alternatives, counts, named classes, ranges, and no `\b`, `\d` and their like.

* `Solves`: what a state takes of the rest of a text, by an equation for each state.
* `opRegexMatch_iff`: the automaton takes a text exactly if its start does.
-/

open List

namespace Eggdrop.Regex

/-! ### Tokens -/

inductive Token
  | lit (c : Char)
  | cls (p : Char → Bool)
  | any
  | bol
  | eol
  | star
  | plus
  | quest
  | cat

/-- What follows a backslash; `none` for what is left out. -/
def escape (c : Char) : Option Token :=
  if c ∈ ['d', 'D', 'w', 'W', 's', 'S', 'b', 'B'] then none
  else if c = 'n' then some (.lit '\n')
  else if c = 't' then some (.lit '\t')
  else if c = 'r' then some (.lit '\r')
  else some (.lit (toLower c))

/-- A character that stands for itself, or that is a token. -/
def charToken (c : Char) : Option Token :=
  if c = '*' then some .star
  else if c = '+' then some .plus
  else if c = '?' then some .quest
  else if c = '^' then some .bol
  else if c = '$' then some .eol
  else if c = '.' then some .any
  else if c ∈ ['\x7b', '|', '(', ')'] then none
  else some (.lit (toLower c))

/-- `cls_set`, for both cases of a letter. -/
def clsSet (cls : Char → Bool) (c : Char) : Char → Bool := fun d => toLower d == toLower c || cls d

/-- The loop of `parse_class`; a `]` that is the first character is one of the class. -/
def classLoop : Bool → (Char → Bool) → CStr → Option ((Char → Bool) × CStr)
  | _, _, [] => none
  | first, cls, c :: p =>
    if c = ']' ∧ first = false then some (cls, p)
    else if c = '\\' ∨ c = '[' ∨ p.head? = some '-' then none
    else classLoop false (clsSet cls c) p

/-- `parse_class`: the class, and what stands behind it. -/
def parseClass (p : CStr) : Option ((Char → Bool) × CStr) :=
  if p.head? = some '^' then
    (classLoop true (fun _ => false) p.tail).map fun r => (fun d => !r.1 d, r.2)
  else classLoop true (fun _ => false) p

/-- `tokenise`, for at most so many tokens. -/
def tokenise : ℕ → CStr → Option (List Token)
  | 0, _ => none
  | _ + 1, [] => some []
  | n + 1, c :: p =>
    if c = '\\' ∧ p ≠ [] then do
      let t ← escape (p.headD '\x00')
      let ts ← tokenise n p.tail
      some (t :: ts)
    else if c = '[' then do
      let r ← parseClass p
      let ts ← tokenise n r.2
      some (.cls r.1 :: ts)
    else do
      let t ← charToken c
      let ts ← tokenise n p
      some (t :: ts)

/-! ### Postfix order -/

def tokEndsAtom : Token → Bool
  | .cat => false
  | _ => true

def tokStartsAtom : Token → Bool
  | .lit _ | .cls _ | .any | .bol | .eol => true
  | _ => false

/-- `cat_inject`. -/
def catInject : List Token → List Token
  | t :: t' :: ts =>
    if tokEndsAtom t && tokStartsAtom t' then t :: .cat :: catInject (t' :: ts)
    else t :: catInject (t' :: ts)
  | ts => ts

def tokPrec : Token → ℕ
  | .star | .plus | .quest => 3
  | .cat => 2
  | _ => 0

/-- `stk` and `out`, the top of the stack first. -/
structure Yard where
  stk : List Token
  out : List Token

/-- The loop that pops what goes before. -/
def Yard.pops (y : Yard) (p : Token → Bool) : Yard :=
  ⟨y.stk.dropWhile p, y.out ++ y.stk.takeWhile p⟩

def Yard.push (y : Yard) (t : Token) : Option Yard :=
  if 512 ≤ y.stk.length then none else some { y with stk := t :: y.stk }

/-- One round of `shunt`. -/
def Yard.step (y : Yard) : Token → Option Yard
  | .star => (y.pops (tokPrec · > 3)).push .star
  | .plus => (y.pops (tokPrec · > 3)).push .plus
  | .quest => (y.pops (tokPrec · > 3)).push .quest
  | .cat => (y.pops (tokPrec · ≥ 2)).push .cat
  | t => some { y with out := y.out ++ [t] }

def shunt (ts : List Token) : Option (List Token) :=
  (ts.foldlM Yard.step ⟨[], []⟩).map fun y => y.out ++ y.stk

/-! ### The automaton -/

/-- `ST_MATCH` and the others. -/
inductive Kind
  | accept
  | char (c : Char)
  | cls (p : Char → Bool)
  | any
  | split
  | bol
  | eol

/-- `NState`; a pointer is the index of a state. -/
structure NState where
  kind : Kind
  out : Option ℕ
  out1 : Option ℕ

/-- `Frag`: where it starts, and the pointers that dangle, `out` or `out1` of a state. -/
structure Frag where
  start : ℕ
  outs : List (ℕ × Bool)

/-- `pool` and `fstack`. -/
structure Build where
  pool : List NState
  fstack : List Frag

/-- `pl_patch`. -/
def plPatch (outs : List (ℕ × Bool)) (s : ℕ) (pool : List NState) : List NState :=
  outs.foldl (fun pool o => pool.modify o.1 fun n =>
    if o.2 then { n with out1 := some s } else { n with out := some s }) pool

def Build.push (b : Build) (f : Frag) : Option Build :=
  if 512 ≤ b.fstack.length then none else some { b with fstack := f :: b.fstack }

/-- A state with one pointer, which dangles. -/
def Build.atom (b : Build) (k : Kind) : Option Build :=
  Build.push ⟨b.pool ++ [⟨k, none, none⟩], b.fstack⟩ ⟨b.pool.length, [(b.pool.length, false)]⟩

/-- One round of `build_nfa`. -/
def Build.step (b : Build) : Token → Option Build
  | .lit c => b.atom (.char c)
  | .cls p => b.atom (.cls p)
  | .any => b.atom .any
  | .bol => b.atom .bol
  | .eol => b.atom .eol
  | .cat =>
    match b.fstack with
    | e2 :: e1 :: fs => Build.push ⟨plPatch e1.outs e2.start b.pool, fs⟩ ⟨e1.start, e2.outs⟩
    | _ => none
  | .star =>
    match b.fstack with
    | e :: fs =>
      let s := b.pool.length
      Build.push ⟨plPatch e.outs s (b.pool ++ [⟨.split, some e.start, none⟩]), fs⟩ ⟨s, [(s, true)]⟩
    | _ => none
  | .plus =>
    match b.fstack with
    | e :: fs =>
      let s := b.pool.length
      Build.push ⟨plPatch e.outs s (b.pool ++ [⟨.split, some e.start, none⟩]), fs⟩
        ⟨e.start, [(s, true)]⟩
    | _ => none
  | .quest =>
    match b.fstack with
    | e :: fs =>
      let s := b.pool.length
      Build.push ⟨b.pool ++ [⟨.split, some e.start, none⟩], fs⟩ ⟨s, (s, true) :: e.outs⟩
    | _ => none

/-- The states, and the first. -/
structure OpRegex where
  pool : List NState
  start : ℕ

/-- `build_nfa`. -/
def buildNfa (ts : List Token) : Option OpRegex := do
  let b ← ts.foldlM Build.step ⟨[], []⟩
  match b.fstack with
  | [e] => some ⟨plPatch e.outs b.pool.length (b.pool ++ [⟨.accept, none, none⟩]), e.start⟩
  | _ => none

/-- `op_regex_compile`. -/
def opRegexCompile (pattern : CStr) : Option OpRegex := do
  let ts ← tokenise (pattern.length + 1) pattern
  let ts ← shunt (catInject ts)
  buildNfa ts

/-! ### The simulation -/

/-- A list of states: `ls`, and `vg` and `g`, by which it is known what has been added to it. -/
structure StateList where
  states : List ℕ
  vg : ℕ → ℕ
  gen : ℕ

def StateList.mark (l : StateList) (s : ℕ) : StateList := { l with vg := Function.update l.vg s l.gen }

/-- The condition of `^`, for `prev_c`. -/
def atBol (prev : Option Char) : Prop := prev = none ∨ prev = some '\n'

/-- The condition of `$`, for what stands at `cur`. -/
def atEol (cur : CStr) : Prop := cur.head? = none ∨ cur.head? = some '\n'

instance decidableAtBol (prev : Option Char) : Decidable (atBol prev) :=
  inferInstanceAs (Decidable (_ ∨ _))

instance decidableAtEol (cur : CStr) : Decidable (atEol cur) :=
  inferInstanceAs (Decidable (_ ∨ _))

/-- A state consumes the character. -/
def Kind.takes : Kind → Char → Bool
  | .char d, c => d == c
  | .cls p, c => p c
  | .any, _ => true
  | _, _ => false

section Run

variable (pool : List NState)

/-- `addstate`, for a recursion that is not deeper than so many calls. -/
def addstate (cur : CStr) (prev : Option Char) : ℕ → StateList → Option ℕ → StateList
  | 0, l, _ => l
  | _ + 1, l, none => l
  | calls + 1, l, some s =>
    if l.vg s = l.gen then l
    else
      match pool[s]? with
      | none => l
      | some n =>
        match n.kind with
        | .split =>
          addstate cur prev calls (addstate cur prev calls (l.mark s) n.out) n.out1
        | .bol => if atBol prev then addstate cur prev calls (l.mark s) n.out else l.mark s
        | .eol => if atEol cur then addstate cur prev calls (l.mark s) n.out else l.mark s
        | _ => { l.mark s with states := l.states ++ [s] }

/-- One state of the current list, for the character `c`. -/
def advance (c : Char) (np : CStr) (nl : StateList) (s : ℕ) : StateList :=
  match pool[s]? with
  | none => nl
  | some n => if n.kind.takes c then addstate pool np (some c) (pool.length + 1) nl n.out else nl

def isMatch (s : ℕ) : Bool :=
  match pool[s]? with
  | some ⟨.accept, _, _⟩ => true
  | _ => false

/-- The loop of `op_regex_match`, for the current list and the next. -/
def simulate : CStr → StateList → StateList → Bool
  | [], cl, _ => cl.states.any (isMatch pool)
  | c :: np, cl, nl =>
    if cl.states.any (isMatch pool) then true
    else
      simulate np
        (cl.states.foldl (advance pool (toLower c) np) { nl with states := [], gen := nl.gen + 1 }) cl

end Run

/-- `op_regex_match`. -/
def opRegexMatch (re : OpRegex) (text : CStr) : Bool :=
  simulate re.pool text
    (addstate re.pool text none (re.pool.length + 1) ⟨[], fun _ => 0, 1⟩ (some re.start))
    ⟨[], fun _ => 0, 2⟩

/-! ### What a state takes -/

section Meaning

variable {pool : List NState}

/-- The state is one that is kept in a list. -/
def Kind.kept : Kind → Bool
  | .split | .bol | .eol => false
  | _ => true

/-- What is taken where a pointer leads to. -/
def Via (V : ℕ → Option Char → CStr → Prop) (o : Option ℕ) (prev : Option Char) (cur : CStr) : Prop :=
  ∃ s, o = some s ∧ V s prev cur

/-- What a state takes, by what the states take that it leads to. -/
def Eqn (V : ℕ → Option Char → CStr → Prop) (n : NState) (prev : Option Char) (cur : CStr) : Prop :=
  match n.kind with
  | .accept => True
  | .split => Via V n.out prev cur ∨ Via V n.out1 prev cur
  | .bol => atBol prev ∧ Via V n.out prev cur
  | .eol => atEol cur ∧ Via V n.out prev cur
  | k => ∃ c t, cur = c :: t ∧ k.takes (toLower c) = true ∧ Via V n.out (some (toLower c)) t

/-- `V` says of every state what it takes. -/
def Solves (pool : List NState) (V : ℕ → Option Char → CStr → Prop) : Prop :=
  ∀ s n, pool[s]? = some n → ∀ prev cur, V s prev cur ↔ Eqn V n prev cur

/-- The state has an index, and is kept. -/
def KeptAt (pool : List NState) (s : ℕ) : Prop := ∃ n, pool[s]? = some n ∧ n.kind.kept = true

/-- Pointers lead to states; and from one that is not kept, to one that is, or to a later one. -/
def Ranked (pool : List NState) : Prop :=
  ∀ s n, pool[s]? = some n → ∀ o, n.out = some o ∨ n.out1 = some o →
    o < pool.length ∧ (n.kind.kept = true ∨ KeptAt pool o ∨ s < o)

/-- What the states of a list take. -/
def Holds (V : ℕ → Option Char → CStr → Prop) (prev : Option Char) (cur : CStr) (states : List ℕ) :
    Prop :=
  ∃ t ∈ states, V t prev cur

/-- The list is in order: its states are kept ones, and no mark is ahead. -/
structure InOrder (pool : List NState) (l : StateList) : Prop where
  kept : ∀ t ∈ l.states, KeptAt pool t
  marks : ∀ v, l.vg v ≤ l.gen

theorem InOrder.mark {l : StateList} (h : InOrder pool l) (s : ℕ) : InOrder pool (l.mark s) := by
  refine ⟨h.kept, ?_⟩
  intro v
  show Function.update l.vg s l.gen v ≤ l.gen
  by_cases hv : v = s
  · rw [hv, Function.update_self]
  · rw [Function.update_of_ne hv]
    exact h.marks v

theorem mark_eq_gen {l : StateList} {s v : ℕ} (h : (l.mark s).vg v = (l.mark s).gen) :
    v = s ∨ l.vg v = l.gen := by
  by_cases hv : v = s
  · exact .inl hv
  · exact .inr ((Function.update_of_ne hv _ _).symm.trans h)

section Add

variable {V : ℕ → Option Char → CStr → Prop} {prev : Option Char} {cur : CStr}

/-- What the marked states take is taken by the list, but for those in `G`, which are under way. -/
def Closed (V : ℕ → Option Char → CStr → Prop) (prev : Option Char) (cur : CStr) (G : List ℕ)
    (l : StateList) : Prop :=
  ∀ v, l.vg v = l.gen → v ∉ G → V v prev cur → Holds V prev cur l.states

/-- `l'` is `l` with a state that takes what `P` says. -/
structure Added (pool : List NState) (V : ℕ → Option Char → CStr → Prop) (prev : Option Char)
    (cur : CStr) (P : Prop) (G : List ℕ) (l l' : StateList) : Prop where
  inOrder : InOrder pool l'
  closed : Closed V prev cur G l'
  holds : Holds V prev cur l'.states ↔ Holds V prev cur l.states ∨ P

theorem Closed.mark {l : StateList} {G : List ℕ} (h : Closed V prev cur G l) (s : ℕ) :
    Closed V prev cur (s :: G) (l.mark s) := by
  intro v hv hG hV
  rcases mark_eq_gen hv with rfl | hv
  · exact absurd mem_cons_self hG
  · exact h v hv (fun hmem => hG (mem_cons_of_mem s hmem)) hV

theorem Closed.leave {l : StateList} {s : ℕ} {G : List ℕ} (h : Closed V prev cur (s :: G) l)
    (hs : V s prev cur → Holds V prev cur l.states) : Closed V prev cur G l := by
  intro v hv hG hV
  by_cases hvs : v = s
  · rw [hvs] at hV
    exact hs hV
  · exact h v hv (fun hmem => (mem_cons.1 hmem).elim hvs hG) hV

theorem Added.skip {l : StateList} {G : List ℕ} (hl : InOrder pool l) (hG : Closed V prev cur G l)
    {P : Prop} (hP : ¬ P) : Added pool V prev cur P G l l :=
  ⟨hl, hG, (or_iff_left hP).symm⟩

theorem Added.leave {l l' : StateList} {s : ℕ} {G : List ℕ} {P : Prop}
    (h : Added pool V prev cur P (s :: G) (l.mark s) l') (hP : V s prev cur ↔ P) :
    Added pool V prev cur (V s prev cur) G l l' := by
  refine ⟨h.inOrder, h.closed.leave ?_, ?_⟩
  · intro hs
    exact h.holds.2 (.inr (hP.1 hs))
  · rw [h.holds, hP]
    rfl

theorem added_kept {l : StateList} {s : ℕ} {G : List ℕ} (hl : InOrder pool l)
    (hG : Closed V prev cur G l) (hs : KeptAt pool s) :
    Added pool V prev cur (V s prev cur) G l { l.mark s with states := l.states ++ [s] } := by
  have hholds : Holds V prev cur (l.states ++ [s]) ↔ Holds V prev cur l.states ∨ V s prev cur := by
    simp only [Holds, mem_append, mem_singleton, or_and_right, exists_or, exists_eq_left]
  refine ⟨⟨?_, (hl.mark s).marks⟩, ?_, hholds⟩
  · intro t ht
    rcases mem_append.1 ht with ht | ht
    · exact hl.kept t ht
    · rw [mem_singleton.1 ht]
      exact hs
  · intro v hv hnot hV
    rcases mark_eq_gen hv with rfl | hv
    · exact hholds.2 (.inr hV)
    · exact hholds.2 (.inl (hG v hv hnot hV))

/-- What may be under way when a state is added: states that are not kept, and come before it. -/
def Before (pool : List NState) (G : List ℕ) (s : ℕ) : Prop :=
  ∀ g ∈ G, ¬ KeptAt pool g ∧ (g < s ∨ KeptAt pool s)

/-- A state, and what it leads to without a character. -/
theorem addstate_spec (hV : Solves pool V) (hrank : Ranked pool) (calls : ℕ) :
    ∀ (l : StateList) (G : List ℕ) (s : ℕ), s < pool.length →
      (pool.length - s < calls ∨ KeptAt pool s ∧ 0 < calls) → Before pool G s →
      InOrder pool l → Closed V prev cur G l →
      Added pool V prev cur (V s prev cur) G l (addstate pool cur prev calls l (some s)) := by
  induction calls with
  | zero =>
    intro l G s _ hcalls
    omega
  | succ calls ih =>
    intro l G s hs hcalls hbefore hl hG
    have hn : pool[s]? = some pool[s] := getElem?_eq_getElem hs
    have hsolve := hV s pool[s] hn prev cur
    have hlead := hrank s pool[s] hn
    rw [addstate]
    split
    · next hmarked =>
      have hnot : s ∉ G := by
        intro hmem
        obtain ⟨hkept, hlt | hk⟩ := hbefore s hmem
        · exact Nat.lt_irrefl s hlt
        · exact hkept hk
      exact ⟨hl, hG, (or_iff_left_of_imp (hG s hmarked hnot)).symm⟩
    · rw [hn]
      generalize pool[s] = n at hn hsolve hlead
      have hkeep (hk : n.kind.kept = true) : KeptAt pool s := ⟨n, hn, hk⟩
      have hmark := hl.mark s
      -- what a pointer of the state leads to, when the state itself is not kept
      have hvia (hk : n.kind.kept = false) (o : Option ℕ) (ho : n.out = o ∨ n.out1 = o)
          {l₁ : StateList} (hl₁ : InOrder pool l₁) (hG₁ : Closed V prev cur (s :: G) l₁) :
          Added pool V prev cur (Via V o prev cur) (s :: G) l₁
            (addstate pool cur prev calls l₁ o) := by
        have hnot : ¬ KeptAt pool s := by
          rintro ⟨n', hn', hk'⟩
          rw [Option.some.inj (hn.symm.trans hn'), hk'] at hk
          cases hk
        have hroom : pool.length - s < calls + 1 :=
          hcalls.resolve_right fun hkept => hnot hkept.1
        cases o with
        | none =>
          have hnone : addstate pool cur prev calls l₁ none = l₁ := by
            cases calls <;> rfl
          rw [hnone]
          refine Added.skip hl₁ hG₁ ?_
          rintro ⟨s', hs', -⟩
          cases hs'
        | some o =>
          obtain ⟨ho', hnext⟩ := hlead o ho
          have hnext : KeptAt pool o ∨ s < o := by
            rcases hnext with hk' | hnext
            · rw [hk'] at hk
              cases hk
            · exact hnext
          have hvia : Via V (some o) prev cur ↔ V o prev cur := by
            simp [Via]
          rw [hvia]
          refine ih l₁ (s :: G) o ho' ?_ ?_ hl₁ hG₁
          · rcases hnext with hkept | hlt
            · exact .inr ⟨hkept, by omega⟩
            · exact .inl (by omega)
          · intro g hg
            rcases mem_cons.1 hg with rfl | hg
            · exact ⟨hnot, hnext.symm⟩
            · obtain ⟨hgnot, hgs⟩ := hbefore g hg
              have hlt := hgs.resolve_right hnot
              exact ⟨hgnot, hnext.symm.imp_left hlt.trans⟩
      rw [Eqn] at hsolve
      dsimp only
      cases hkind : n.kind with
      | split =>
        rw [hkind] at hsolve
        have h₀ := hvia (by rw [hkind]; rfl) n.out (.inl rfl) hmark (hG.mark s)
        have h₁ := hvia (by rw [hkind]; rfl) n.out1 (.inr rfl) h₀.inOrder h₀.closed
        refine Added.leave (P := Via V n.out prev cur ∨ Via V n.out1 prev cur) ⟨h₁.inOrder, h₁.closed, ?_⟩ hsolve
        rw [h₁.holds, h₀.holds, or_assoc]
      | bol =>
        rw [hkind] at hsolve
        dsimp only
        split
        · next hat =>
          exact (hvia (by rw [hkind]; rfl) n.out (.inl rfl) hmark (hG.mark s)).leave
            (hsolve.trans (and_iff_right hat))
        · next hat =>
          exact (Added.skip hmark (hG.mark s) hat).leave
            (iff_of_false (fun h => hat (hsolve.1 h).1) hat)
      | eol =>
        rw [hkind] at hsolve
        dsimp only
        split
        · next hat =>
          exact (hvia (by rw [hkind]; rfl) n.out (.inl rfl) hmark (hG.mark s)).leave
            (hsolve.trans (and_iff_right hat))
        · next hat =>
          exact (Added.skip hmark (hG.mark s) hat).leave
            (iff_of_false (fun h => hat (hsolve.1 h).1) hat)
      | accept => exact added_kept hl hG (hkeep (by rw [hkind]; rfl))
      | char c => exact added_kept hl hG (hkeep (by rw [hkind]; rfl))
      | cls p => exact added_kept hl hG (hkeep (by rw [hkind]; rfl))
      | any => exact added_kept hl hG (hkeep (by rw [hkind]; rfl))

end Add

/-! ### The run -/

section Simulate

variable {V : ℕ → Option Char → CStr → Prop} {prev : Option Char} {cur : CStr}

theorem before_nil (pool : List NState) (s : ℕ) : Before pool [] s := by
  intro g hg
  cases hg

theorem kept_takes (hV : Solves pool V) {s : ℕ} {n : NState} (hn : pool[s]? = some n)
    (hk : n.kind.kept = true) (prev : Option Char) (cur : CStr) :
    V s prev cur ↔ isMatch pool s = true ∨
      ∃ c t, cur = c :: t ∧ n.kind.takes (toLower c) = true ∧ Via V n.out (some (toLower c)) t := by
  rw [hV s n hn prev cur, Eqn, isMatch, hn]
  obtain ⟨kind, out, out1⟩ := n
  cases kind with
  | accept => simp
  | char c => simp
  | cls p => simp
  | any => simp
  | split => cases hk
  | bol => cases hk
  | eol => cases hk

/-- A state of the current list that is kept. -/
theorem advance_spec (hV : Solves pool V) (hrank : Ranked pool) {c : Char} {np : CStr} {l : StateList}
    {s : ℕ} {n : NState} (hn : pool[s]? = some n) (hl : InOrder pool l)
    (hG : Closed V (some c) np [] l) :
    Added pool V (some c) np (n.kind.takes c = true ∧ Via V n.out (some c) np) [] l
      (advance pool c np l s) := by
  rw [advance, hn]
  dsimp only
  split
  · next htakes =>
    rw [and_iff_right htakes]
    cases hout : n.out with
    | none =>
      have hnone : addstate pool np (some c) (pool.length + 1) l none = l := rfl
      rw [hnone]
      refine Added.skip hl hG ?_
      rintro ⟨s', hs', -⟩
      cases hs'
    | some o =>
      have hvia : Via V (some o) (some c) np ↔ V o (some c) np := by
        simp [Via]
      have ho := (hrank s n hn o (.inl hout)).1
      rw [hvia]
      exact addstate_spec hV hrank _ l [] o ho (.inl (by omega)) (before_nil pool o) hl hG
  · next htakes =>
    refine Added.skip hl hG ?_
    exact fun h => htakes h.1

/-- All states of the current list. -/
theorem advances_spec (hV : Solves pool V) (hrank : Ranked pool) {c : Char} {np : CStr}
    (states : List ℕ) (hstates : ∀ s ∈ states, KeptAt pool s) {l : StateList} (hl : InOrder pool l)
    (hG : Closed V (some c) np [] l) :
    Added pool V (some c) np
      (∃ s ∈ states, ∃ n, pool[s]? = some n ∧ n.kind.takes c = true ∧ Via V n.out (some c) np) [] l
      (states.foldl (advance pool c np) l) := by
  induction states generalizing l with
  | nil =>
    refine Added.skip hl hG ?_
    rintro ⟨s, hs, -⟩
    cases hs
  | cons s states ih =>
    obtain ⟨hs, hstates⟩ := forall_mem_cons.1 hstates
    obtain ⟨n, hn, -⟩ := hs
    have hone := advance_spec hV hrank hn hl hG
    have hrest := ih hstates hone.inOrder hone.closed
    rw [foldl_cons]
    refine ⟨hrest.inOrder, hrest.closed, ?_⟩
    rw [hrest.holds, hone.holds, or_assoc, exists_mem_cons_iff]
    have hself : (∃ n', pool[s]? = some n' ∧ n'.kind.takes c = true ∧ Via V n'.out (some c) np) ↔
        n.kind.takes c = true ∧ Via V n.out (some c) np := by
      rw [hn]
      simp
    rw [hself]

theorem simulate_iff (hV : Solves pool V) (hrank : Ranked pool) (text : CStr) :
    ∀ (prev : Option Char) (cl nl : StateList), InOrder pool cl → InOrder pool nl →
      (simulate pool text cl nl = true ↔ Holds V prev text cl.states) := by
  induction text with
  | nil =>
    intro prev cl nl hcl _
    rw [simulate, any_eq_true]
    apply exists_congr
    intro s
    apply and_congr_right
    intro hs
    obtain ⟨n, hn, hk⟩ := hcl.kept s hs
    rw [kept_takes hV hn hk]
    simp
  | cons c np ih =>
    intro prev cl nl hcl hnl
    rw [simulate]
    split
    · next hmatch =>
      refine iff_of_true rfl ?_
      obtain ⟨s, hs, hmatch⟩ := any_eq_true.1 hmatch
      obtain ⟨n, hn, hk⟩ := hcl.kept s hs
      exact ⟨s, hs, (kept_takes hV hn hk _ _).2 (.inl hmatch)⟩
    · next hmatch =>
      -- no mark of the next list is as high as its new number
      have hfresh : InOrder pool { nl with states := [], gen := nl.gen + 1 } := by
        refine ⟨fun t ht => absurd ht not_mem_nil, ?_⟩
        intro v
        exact (hnl.marks v).trans (Nat.le_succ _)
      have hclosed : Closed V (some (toLower c)) np [] { nl with states := [], gen := nl.gen + 1 } := by
        intro v hv
        have hle := hnl.marks v
        dsimp only at hv
        omega
      have hadd := advances_spec hV hrank cl.states hcl.kept hfresh hclosed
      rw [ih (some (toLower c)) _ cl hadd.inOrder hcl, hadd.holds]
      have hnone : ¬ Holds V (some (toLower c)) np [] := by
        rintro ⟨t, ht, -⟩
        cases ht
      rw [or_iff_right hnone]
      apply exists_congr
      intro s
      apply and_congr_right
      intro hs
      obtain ⟨n, hn, hk⟩ := hcl.kept s hs
      have hno : isMatch pool s ≠ true := fun h => hmatch (any_eq_true.2 ⟨s, hs, h⟩)
      rw [kept_takes hV hn hk, or_iff_right hno, hn]
      simp

end Simulate

/-- The automaton takes a text exactly if its start does. -/
theorem opRegexMatch_iff {V : ℕ → Option Char → CStr → Prop} {re : OpRegex} (hV : Solves re.pool V)
    (hrank : Ranked re.pool) (hstart : re.start < re.pool.length) (text : CStr) :
    opRegexMatch re text = true ↔ V re.start none text := by
  have hempty : InOrder re.pool ⟨[], fun _ => 0, 1⟩ :=
    ⟨fun t ht => absurd ht not_mem_nil, fun _ => Nat.zero_le 1⟩
  have hclosed : Closed V none text [] ⟨[], fun _ => 0, 1⟩ := by
    intro v hv
    cases hv
  have hadd := addstate_spec hV hrank (re.pool.length + 1) ⟨[], fun _ => 0, 1⟩ [] re.start hstart
    (.inl (by omega)) (before_nil _ _) hempty hclosed
  rw [opRegexMatch, simulate_iff hV hrank text none _ _ hadd.inOrder
    ⟨fun t ht => absurd ht not_mem_nil, fun _ => Nat.zero_le 2⟩, hadd.holds]
  apply or_iff_right
  rintro ⟨t, ht, -⟩
  cases ht

end Meaning

end Eggdrop.Regex
