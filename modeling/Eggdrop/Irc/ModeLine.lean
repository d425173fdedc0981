import Mathlib.Logic.Function.Basic
import Eggdrop.Irc.Mode

/-!
# ModeLine — what a mode line says

A line is a list of changes: their letters, with a sign where it is another than before, and then
the parameters of those that take one.  The server reads it from left to right and takes the next
parameter for every letter that wants one.

* `parse_lineText`: the server reads the changes that a line was made from.
* `length_lineText_le`: the length of a line with few changes of sign.
* `Out.Represents`: the two buffers while a line is put together.
-/

namespace Eggdrop.Irc

open List

namespace Change

variable (c : Change)

/-- The letters with a parameter: those with slots, the key, and a limit that is set. -/
def takesArg : Bool := (Kind.ofMode c.mode).isSome || c.mode == 'k' || (c.mode == 'l' && c.plus)

/-- A letter, with a word for parameter where it takes one and with none otherwise. -/
structure Proper : Prop where
  letter : c.mode.isAlpha = true
  word : c.takesArg = true → c.arg ≠ [] ∧ ' ' ∉ c.arg
  none : c.takesArg = false → c.arg = []

/-- The bytes of a change in a line, the sign apart. -/
def weight : Nat := if c.takesArg then c.arg.length + 2 else 1

end Change

variable {c : Change} {cs ds : List Change} {s : Option Bool}

/-! ### Lines -/

/-- The letters and signs after a sign. -/
@[grind =] def modeString : Option Bool → List Change → CStr
  | _, [] => []
  | s, c :: cs =>
    (if s = some c.plus then [] else [signChar c.plus]) ++ c.mode :: modeString (some c.plus) cs

/-- The sign after the changes. -/
def lastSign : Option Bool → List Change → Option Bool
  | s, [] => s
  | _, c :: cs => lastSign (some c.plus) cs

def params (cs : List Change) : List CStr := (cs.filter (·.takesArg)).map (·.arg)

/-- The line with some changes. -/
def lineText (name : CStr) (cs : List Change) : CStr :=
  [' '].intercalate ("MODE".toList :: name :: modeString none cs :: params cs)

def totalWeight (cs : List Change) : Nat := (cs.map (·.weight)).sum

theorem modeString_append (s : Option Bool) (cs ds : List Change) :
    modeString s (cs ++ ds) = modeString s cs ++ modeString (lastSign s cs) ds := by
  induction cs generalizing s with
  | nil => rfl
  | cons c cs ih => rw [cons_append, modeString, modeString, ih, lastSign, append_assoc, cons_append]

theorem lastSign_append (s : Option Bool) (cs ds : List Change) :
    lastSign s (cs ++ ds) = lastSign (lastSign s cs) ds := by
  induction cs generalizing s with
  | nil => rfl
  | cons c cs ih => exact ih _

theorem params_append (cs ds : List Change) : params (cs ++ ds) = params cs ++ params ds := by
  rw [params, filter_append, map_append]
  rfl

theorem totalWeight_append (cs ds : List Change) :
    totalWeight (cs ++ ds) = totalWeight cs + totalWeight ds := by
  rw [totalWeight, map_append, sum_append]
  rfl

/-- Changes of one sign. -/
def Uniform (plus : Bool) (cs : List Change) : Prop := ∀ c ∈ cs, c.plus = plus

theorem length_modeString_of_uniform {plus : Bool} (h : Uniform plus cs) :
    (modeString (some plus) cs).length = cs.length := by
  induction cs with
  | nil => rfl
  | cons c cs ih =>
    rw [modeString, h c mem_cons_self, if_pos rfl, nil_append, length_cons, length_cons,
      ih fun d hd => h d (mem_cons_of_mem _ hd)]

theorem length_modeString_le {plus : Bool} (s : Option Bool) (h : Uniform plus cs) :
    (modeString s cs).length ≤ cs.length + 1 := by
  cases cs with
  | nil => exact Nat.zero_le _
  | cons c cs =>
    have hc := h c mem_cons_self
    have hrest : (modeString (some c.plus) cs).length = cs.length :=
      length_modeString_of_uniform fun d hd => (h d (mem_cons_of_mem _ hd)).trans hc.symm
    rw [modeString, length_append, length_cons, hrest, length_cons]
    split
    · rw [length_nil]
      omega
    · rw [length_singleton]
      omega

theorem length_add_params (cs : List Change) :
    cs.length + ((params cs).map fun p => p.length + 1).sum = totalWeight cs := by
  induction cs with
  | nil => rfl
  | cons c cs ih =>
    rw [totalWeight, map_cons, sum_cons, ← totalWeight, ← ih, length_cons, params, filter_cons,
      Change.weight]
    split
    · rw [map_cons, map_cons, sum_cons, ← params]
      omega
    · rw [← params]
      omega

theorem length_intercalate (w : CStr) (ws : List CStr) :
    ([' '].intercalate (w :: ws)).length = w.length + (ws.map fun p => p.length + 1).sum := by
  induction ws generalizing w with
  | nil => simp
  | cons v ws ih =>
    rw [intercalate_cons_cons, length_append, length_append, ih, map_cons, sum_cons,
      length_singleton]
    omega

theorem length_lineText (name : CStr) (cs : List Change) :
    (lineText name cs).length + cs.length =
      6 + name.length + (modeString none cs).length + totalWeight cs := by
  have hmode : "MODE".toList.length = 4 := by decide
  rw [lineText, length_intercalate, map_cons, map_cons, sum_cons, sum_cons, hmode,
    ← length_add_params]
  omega

/-! ### The server reads a line -/

@[grind =] def parseModes : Option Bool → CStr → List CStr → List Change
  | _, [], _ => []
  | s, c :: letters, ps =>
    if c = '+' then parseModes (some true) letters ps
    else if c = '-' then parseModes (some false) letters ps
    else if (⟨s.getD true, c, []⟩ : Change).takesArg then
      ⟨s.getD true, c, ps.headD []⟩ :: parseModes s letters ps.tail
    else ⟨s.getD true, c, []⟩ :: parseModes s letters ps

def parseLine (text : CStr) : List Change :=
  match text.splitOn ' ' with
  | _ :: _ :: modes :: ps => parseModes none modes ps
  | _ => []

theorem takesArg_congr (c : Change) (arg : CStr) :
    (⟨c.plus, c.mode, arg⟩ : Change).takesArg = c.takesArg := rfl

theorem parseModes_sign (s : Option Bool) (plus : Bool) (letters : CStr) (ps : List CStr) :
    parseModes s (signChar plus :: letters) ps = parseModes (some plus) letters ps := by
  cases plus <;> rw [parseModes] <;> simp [signChar]

theorem parseModes_modeString (h : ∀ c ∈ cs, c.Proper) (s : Option Bool) :
    parseModes s (modeString s cs) (params cs) = cs := by
  induction cs generalizing s with
  | nil => rfl
  | cons c cs ih =>
    have hc := h c mem_cons_self
    have hrest := ih (fun d hd => h d (mem_cons_of_mem _ hd)) (some c.plus)
    have hsign : parseModes s (modeString s (c :: cs)) (params (c :: cs)) =
        parseModes (some c.plus) (c.mode :: modeString (some c.plus) cs) (params (c :: cs)) := by
      rw [modeString]
      split
      · next hs => rw [nil_append, hs]
      · exact parseModes_sign s c.plus _ _
    have hplus : c.mode ≠ '+' := by
      rintro heq
      have := heq ▸ hc.letter
      exact absurd this (by decide)
    have hminus : c.mode ≠ '-' := by
      rintro heq
      have := heq ▸ hc.letter
      exact absurd this (by decide)
    rw [hsign, parseModes, if_neg hplus, if_neg hminus, Option.getD_some, takesArg_congr]
    split
    · next htakes =>
      rw [params, filter_cons_of_pos htakes, map_cons, headD_cons, tail_cons]
      exact congrArg (c :: ·) hrest
    · next htakes =>
      have harg := hc.none (by simpa using htakes)
      rw [params, filter_cons_of_neg htakes]
      rw [← harg]
      exact congrArg (c :: ·) hrest

theorem space_notMem_modeString (h : ∀ c ∈ cs, c.Proper) (s : Option Bool) :
    ' ' ∉ modeString s cs := by
  induction cs generalizing s with
  | nil => exact not_mem_nil
  | cons c cs ih =>
    have hletter := (h c mem_cons_self).letter
    rw [modeString, mem_append, mem_cons]
    rintro (hsign | hblank | hrest)
    · split at hsign
      · cases hsign
      · revert hsign
        cases c.plus <;> decide
    · rw [← hblank] at hletter
      exact absurd hletter (by decide)
    · exact ih (fun d hd => h d (mem_cons_of_mem _ hd)) _ hrest

theorem parse_lineText {name : CStr} (hname : ' ' ∉ name) (h : ∀ c ∈ cs, c.Proper) :
    parseLine (lineText name cs) = cs := by
  have hwords : ∀ w ∈ "MODE".toList :: name :: modeString none cs :: params cs, ' ' ∉ w := by
    intro w hw
    rcases mem_cons.1 hw with rfl | hw
    · decide
    · rcases mem_cons.1 hw with rfl | hw
      · exact hname
      · rcases mem_cons.1 hw with rfl | hw
        · exact space_notMem_modeString h none
        · obtain ⟨c, hc, rfl⟩ := mem_map.1 hw
          rw [mem_filter] at hc
          exact ((h c hc.1).word hc.2).2
  rw [parseLine, lineText, splitOn_intercalate ' ' hwords (cons_ne_nil _ _)]
  exact parseModes_modeString h none

/-! ### The buffers -/

/-- The bytes of the parameters, each with a blank. -/
def postText (cs : List Change) : CStr := (params cs).flatMap (· ++ [' '])

theorem postText_append (cs ds : List Change) :
    postText (cs ++ ds) = postText cs ++ postText ds := by
  rw [postText, params_append, flatMap_append]
  rfl

theorem length_postText (cs : List Change) :
    (postText cs).length + cs.length = totalWeight cs := by
  have hpost : (postText cs).length = ((params cs).map fun p => p.length + 1).sum := by
    rw [postText, length_flatMap]
    simp
  have := length_add_params cs
  omega

theorem length_postText_le (cs : List Change) : (postText cs).length ≤ totalWeight cs := by
  have := length_postText cs
  omega

/-- The buffers hold some changes. -/
structure Out.Represents (o : Out) (cs : List Change) : Prop where
  out : o.out = modeString none cs
  post : o.post = postText cs
  postsize : o.postsize = 511 - (postText cs).length
  plus : o.plus = lastSign none cs

theorem Out.represents_start : Out.start.Represents [] := ⟨rfl, rfl, rfl, rfl⟩

theorem Out.strcat_of_le (o : Out) {t : CStr} (h : o.post.length + t.length ≤ 511) :
    o.strcat t = { o with post := o.post ++ t, postsize := o.postsize - t.length } := by
  have htake : t.take (512 - 1 - o.post.length) = t := take_of_length_le (by omega)
  rw [strcat, eggStrcatn, htake]

theorem Out.Represents.param {o : Out} (h : o.Represents cs) (hc : c.takesArg = true)
    (hroom : (postText cs).length + c.arg.length + 1 ≤ 511) :
    ((o.letter c.plus c.mode).param c.arg).Represents (cs ++ [c]) := by
  have hpost : postText [c] = c.arg ++ [' '] := by
    rw [postText, params, filter_cons_of_pos hc]
    simp
  have hlen : (o.letter c.plus c.mode).post.length = (postText cs).length :=
    congrArg length h.post
  rw [Out.param, Out.strcat_of_le (t := c.arg) _ (by omega), Out.strcat_of_le (t := [' ']) _
    (by rw [length_append, length_singleton]; omega)]
  refine ⟨?_, ?_, ?_, ?_⟩
  · rw [modeString_append, ← h.plus, ← h.out]
    simp [modeString, Out.letter]
  · rw [postText_append, hpost, ← append_assoc, ← h.post]
    rfl
  · rw [postText_append, hpost, length_append, length_append, length_singleton]
    have := h.postsize
    simp only [Out.letter]
    omega
  · rw [lastSign_append]
    rfl

theorem postText_eq (hne : params cs ≠ []) :
    postText cs = [' '].intercalate (params cs) ++ [' '] := by
  have hwords : ∀ ws : List CStr, ws ≠ [] →
      ws.flatMap (· ++ [' ']) = [' '].intercalate ws ++ [' '] := by
    intro ws
    induction ws with
    | nil => exact fun h => absurd rfl h
    | cons w ws ih =>
      intro _
      rw [flatMap_cons]
      cases ws with
      | nil => rw [flatMap_nil, append_nil, intercalate_singleton]
      | cons v ws =>
        rw [ih (cons_ne_nil v ws), intercalate_cons_cons, append_assoc, append_assoc, append_assoc]
  exact hwords _ hne

theorem modeString_ne_nil (hne : cs ≠ []) (s : Option Bool) : modeString s cs ≠ [] := by
  cases cs with
  | nil => exact absurd rfl hne
  | cons c cs => simp [modeString]

theorem Out.Represents.join {o : Out} (h : o.Represents cs) (name : CStr)
    (hroom : (modeString none cs).length + (postText cs).length ≤ 505) (hne : cs ≠ []) :
    o.join.isEmpty = false ∧ "MODE ".toList ++ name ++ ' ' :: o.join = lineText name cs := by
  have hout := modeString_ne_nil hne none
  have hmode : "MODE ".toList = "MODE".toList ++ [' '] := by decide
  by_cases hparams : params cs = []
  · have hpost : o.post = [] := by rw [h.post, postText, hparams, flatMap_nil]
    rw [Out.join, hpost, isEmpty_nil, if_pos rfl, h.out]
    refine ⟨by simpa using hout, ?_⟩
    rw [lineText, hparams, intercalate_cons_cons, intercalate_cons_cons, intercalate_singleton, hmode]
    simp
  · have htext := postText_eq hparams
    generalize hwords : [' '].intercalate (params cs) = words at htext
    have hpostlen : (postText cs).length = words.length + 1 := by
      rw [htext, length_append, length_singleton]
    have hindex : 511 - o.postsize = words.length + 1 := by
      rw [h.postsize]
      omega
    have hblank : o.post[words.length + 1 - 1]? = some ' ' := by
      rw [h.post, htext, Nat.add_sub_cancel, getElem?_concat_length]
    have htake : o.post.take (words.length + 1 - 1) = words := by
      rw [h.post, htext, Nat.add_sub_cancel, take_left']
      rfl
    have hempty : o.post.isEmpty = false := by
      rw [h.post, htext]
      simp
    have hjoin : o.join = modeString none cs ++ ' ' :: words := by
      rw [Out.join, hempty, if_neg Bool.false_ne_true]
      simp only [hindex]
      rw [if_pos ⟨Nat.succ_pos _, hblank⟩, htake, h.out, eggStrcatn, eggStrcatn]
      have h1 : [' '].take (512 - 1 - (modeString none cs).length) = [' '] :=
        take_of_length_le (by rw [length_singleton]; omega)
      have h2 : words.take (512 - 1 - (modeString none cs ++ [' ']).length) = words :=
        take_of_length_le (by rw [length_append, length_singleton]; omega)
      rw [h1]
      dsimp only
      rw [h2, append_assoc]
      rfl
    rw [hjoin]
    refine ⟨by simp, ?_⟩
    obtain ⟨w, ws, hcons⟩ := exists_cons_of_ne_nil hparams
    rw [lineText, intercalate_cons_cons, intercalate_cons_cons, hcons, intercalate_cons_cons,
      ← hcons, hwords, hmode]
    simp

end Eggdrop.Irc
