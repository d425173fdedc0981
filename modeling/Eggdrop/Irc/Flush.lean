import Mathlib.Data.List.ReduceOption
import Eggdrop.Irc.ModeLine

/-!
# Flush — a flush sends what waits

* `flushed`: the changes that `flush_mode` sends, in order; a key stays behind a key to remove.
* `flushMode_eq`: where all of them fit into the buffers, the line is the one with these changes,
  and nothing else is left.
-/

namespace Eggdrop.Irc

open List

/-! ### What waits -/

def Slot.change (c : Slot) : Change := ⟨c.plus, c.kind.letter, c.op⟩

/-- The changes of one sign in the slots. -/
def slotChanges (plus : Bool) (cmode : List (Option Slot)) : List Change :=
  (cmode.reduceOption.filter (·.plus == plus)).map Slot.change

def letterChanges (plus : Bool) (modes : CStr) : List Change := modes.map fun m => ⟨plus, m, []⟩

/-- A key is not sent together with one to remove. -/
def keyChange (chan : Chan) : List Change :=
  match chan.key, chan.rmkey with
  | some key, none => [⟨true, 'k', key⟩]
  | _, _ => []

def limitChange (chan : Chan) : List Change :=
  if chan.limit = 0 then [] else [⟨true, 'l', showInt chan.limit⟩]

def rmkeyChange (chan : Chan) : List Change :=
  match chan.rmkey with
  | some key => [⟨false, 'k', key⟩]
  | none => []

/-- What a flush sends. -/
def flushed (chan : Chan) : List Change :=
  letterChanges false chan.mns ++ (letterChanges true chan.pls ++ keyChange chan ++ limitChange chan) ++
    (rmkeyChange chan ++ slotChanges false chan.cmode) ++ slotChanges true chan.cmode

/-- What the next flush sends instead. -/
def leftover (chan : Chan) : List Change :=
  match chan.key, chan.rmkey with
  | some key, some _ => [⟨true, 'k', key⟩]
  | _, _ => []

def pending (chan : Chan) : List Change := flushed chan ++ leftover chan

/-- A queue that a flush can send: words for parameters, no slot in use beyond the ones that are
looked at, and no more bytes than a line has. -/
structure Waits (cfg : Cfg) (chan : Chan) : Prop where
  slots : chan.cmode.length = modesPerLineMax
  beyond : ∀ c ∈ chan.cmode.drop cfg.modesperline.toNat, c = none
  proper : ∀ c ∈ pending chan, c.Proper
  room : chan.name.length + totalWeight (pending chan) ≤ 500
  limit : chan.limit ≠ intMin

/-- The channel after a flush. -/
def Chan.afterFlush (chan : Chan) : Chan :=
  { chan with
    mns := [], pls := [], bytes := 0, compat := 0, limit := 0, rmkey := none
    key := if chan.rmkey.isSome then chan.key else none
    cmode := replicate modesPerLineMax none }

/-! ### Kinds of changes -/

@[simp] theorem Kind.ofMode_letter (k : Kind) : Kind.ofMode k.letter = some k := by
  cases k <;> rfl

theorem Slot.takesArg (c : Slot) : c.change.takesArg = true := by
  rw [Change.takesArg, Slot.change, Kind.ofMode_letter]
  rfl

theorem uniform_slotChanges (plus : Bool) (cmode : List (Option Slot)) :
    Uniform plus (slotChanges plus cmode) := by
  intro c hc
  obtain ⟨d, hd, rfl⟩ := mem_map.1 hc
  exact beq_iff_eq.1 (mem_filter.1 hd).2

theorem uniform_letterChanges (plus : Bool) (modes : CStr) :
    Uniform plus (letterChanges plus modes) := by
  intro c hc
  obtain ⟨m, -, rfl⟩ := mem_map.1 hc
  rfl

theorem Uniform.append {plus : Bool} {cs ds : List Change} (hc : Uniform plus cs)
    (hd : Uniform plus ds) : Uniform plus (cs ++ ds) := fun c h =>
  (mem_append.1 h).elim (hc c) (hd c)

theorem uniform_keyChange (chan : Chan) : Uniform true (keyChange chan) := by
  intro c hc
  unfold keyChange at hc
  split at hc
  · rw [mem_singleton.1 hc]
  · cases hc

theorem uniform_limitChange (chan : Chan) : Uniform true (limitChange chan) := by
  intro c hc
  unfold limitChange at hc
  split at hc
  · cases hc
  · rw [mem_singleton.1 hc]

theorem uniform_rmkeyChange (chan : Chan) : Uniform false (rmkeyChange chan) := by
  intro c hc
  unfold rmkeyChange at hc
  split at hc
  · rw [mem_singleton.1 hc]
  · cases hc

theorem length_modeString_flushed (chan : Chan) :
    (modeString none (flushed chan)).length ≤ (flushed chan).length + 4 := by
  have hplus := ((uniform_letterChanges true chan.pls).append (uniform_keyChange chan)).append
    (uniform_limitChange chan)
  have hminus := (uniform_rmkeyChange chan).append (uniform_slotChanges false chan.cmode)
  rw [flushed, modeString_append, modeString_append, modeString_append]
  simp only [length_append]
  have h1 := length_modeString_le none (uniform_letterChanges false chan.mns)
  have h2 := length_modeString_le (lastSign none (letterChanges false chan.mns)) hplus
  have h3 := length_modeString_le (lastSign none (letterChanges false chan.mns ++
    (letterChanges true chan.pls ++ keyChange chan ++ limitChange chan))) hminus
  have h4 := length_modeString_le (lastSign none (letterChanges false chan.mns ++
    (letterChanges true chan.pls ++ keyChange chan ++ limitChange chan) ++
    (rmkeyChange chan ++ slotChanges false chan.cmode))) (uniform_slotChanges true chan.cmode)
  simp only [length_append] at h2 h3
  omega

/-! ### Into the buffers -/

variable {o : Out} {cs : List Change} {plus : Bool}

theorem postText_eq_nil (h : ∀ c ∈ cs, c.takesArg = false) : postText cs = [] := by
  have hnone : cs.filter (·.takesArg) = [] :=
    filter_eq_nil_iff.2 fun c hc => by rw [h c hc]; exact Bool.false_ne_true
  rw [postText, params, hnone]
  rfl

theorem modeString_letterChanges (plus : Bool) (modes : CStr) :
    modeString (some plus) (letterChanges plus modes) = modes := by
  induction modes with
  | nil => rfl
  | cons m modes ih =>
    rw [letterChanges, map_cons, modeString, if_pos rfl, nil_append]
    exact congrArg (m :: ·) ih

theorem lastSign_letterChanges (plus : Bool) (modes : CStr) :
    lastSign (some plus) (letterChanges plus modes) = some plus := by
  induction modes with
  | nil => rfl
  | cons m modes ih => exact ih

theorem Out.Represents.letters (h : o.Represents cs) {modes : CStr}
    (hmodes : ∀ c ∈ letterChanges plus modes, c.takesArg = false)
    (hsign : lastSign none cs ≠ some plus) :
    (o.letters plus modes).Represents (cs ++ letterChanges plus modes) := by
  cases modes with
  | nil =>
    rw [letterChanges, map_nil, append_nil]
    exact h
  | cons m modes =>
    have hpost := postText_eq_nil hmodes
    refine ⟨?_, ?_, ?_, ?_⟩
    · rw [modeString_append, letterChanges, map_cons, modeString, if_neg hsign, ← h.out]
      exact congrArg (fun t => o.out ++ signChar plus :: m :: t)
        (modeString_letterChanges plus modes).symm
    · rw [postText_append, hpost, append_nil]
      exact h.post
    · rw [postText_append, hpost, append_nil]
      exact h.postsize
    · rw [lastSign_append]
      exact (lastSign_letterChanges plus modes).symm

theorem Out.Represents.number (h : o.Represents cs) {n : Int}
    (hroom : (postText cs).length + (showInt n).length + 1 ≤ 511) :
    ((o.letter true 'l').number n).Represents (cs ++ [⟨true, 'l', showInt n⟩]) := by
  have hparam := h.param (c := ⟨true, 'l', showInt n⟩) rfl hroom
  have hpostlen : o.post.length = (postText cs).length := congrArg length h.post
  have hsize := h.postsize
  rw [Out.param, Out.strcat_of_le (t := showInt n) _ (by simp only [Out.letter]; omega),
    Out.strcat_of_le (t := [' ']) _ (by simp only [Out.letter, length_append, length_singleton]; omega)]
    at hparam
  have htake : (showInt n ++ [' ']).take (o.letter true 'l').postsize = showInt n ++ [' '] :=
    take_of_length_le (by simp only [Out.letter, length_append, length_singleton]; omega)
  rw [Out.number, htake]
  refine ⟨hparam.out, ?_, ?_, hparam.plus⟩
  · rw [← hparam.post]
    simp
  · rw [← hparam.postsize, length_append, length_singleton]
    simp only [Out.letter]
    omega

theorem slotChanges_cons (plus : Bool) (c : Option Slot) (cmode : List (Option Slot)) :
    slotChanges plus (c :: cmode) = slotChanges plus [c] ++ slotChanges plus cmode := by
  cases c with
  | none => rfl
  | some c =>
    simp only [slotChanges, reduceOption_cons_of_some, reduceOption_nil, filter_cons, filter_nil]
    split <;> rfl

theorem Out.Represents.slots (h : o.Represents cs) (plus : Bool) (cmode : List (Option Slot))
    (hroom : totalWeight (cs ++ slotChanges plus cmode) ≤ 511) :
    (Out.slots plus cmode o).1 = cmode.map (Option.filter (·.plus != plus)) ∧
      (Out.slots plus cmode o).2.Represents (cs ++ slotChanges plus cmode) := by
  induction cmode generalizing o cs with
  | nil =>
    refine ⟨rfl, ?_⟩
    have hnil : slotChanges plus [] = [] := rfl
    rw [hnil, append_nil]
    exact h
  | cons c cmode ih =>
    rw [slotChanges_cons, ← append_assoc] at hroom ⊢
    cases c with
    | none =>
      have hnil : slotChanges plus [none] = [] := rfl
      rw [hnil, append_nil] at hroom ⊢
      obtain ⟨hslots, hrep⟩ := ih h hroom
      refine ⟨?_, hrep⟩
      rw [Out.slots, hslots]
      rfl
    | some c =>
      by_cases hplus : c.plus = plus
      · have hone : slotChanges plus [some c] = [c.change] := by
          simp [slotChanges, reduceOption_cons_of_some, hplus]
        rw [hone] at hroom ⊢
        have hweight : c.change.weight = c.op.length + 2 := by
          rw [Change.weight, if_pos c.takesArg]
          rfl
        have hlen := length_postText_le cs
        rw [totalWeight_append, totalWeight_append, totalWeight, totalWeight, map_singleton,
          sum_singleton, hweight] at hroom
        have hparam := h.param c.takesArg (by change _ + c.op.length + 1 ≤ 511; rw [totalWeight] at hlen; omega)
        have hfit : c.plus = plus ∧ c.op.length < o.postsize := by
          refine ⟨hplus, ?_⟩
          rw [h.postsize]
          rw [totalWeight] at hlen
          omega
        obtain ⟨hslots, hrep⟩ := ih hparam (by
          rw [totalWeight_append, totalWeight_append, totalWeight, totalWeight, map_singleton,
            sum_singleton, hweight]
          omega)
        rw [Out.slots, if_pos hfit, ← hplus]
        rw [← hplus] at hslots hrep
        refine ⟨?_, hrep⟩
        rw [map_cons, ← hslots, Option.filter]
        simp [Slot.change]
      · have hone : slotChanges plus [some c] = [] := by
          simp [slotChanges, reduceOption_cons_of_some, hplus]
        rw [hone, append_nil] at hroom ⊢
        obtain ⟨hslots, hrep⟩ := ih h hroom
        rw [Out.slots, if_neg fun hfit => hplus hfit.1]
        refine ⟨?_, hrep⟩
        rw [map_cons, ← hslots]
        simp [hplus, Option.filter]

/-! ### The line of a flush -/

variable {cfg : Cfg} {chan : Chan} {s : State}

theorem slotChanges_append (plus : Bool) (a b : List (Option Slot)) :
    slotChanges plus (a ++ b) = slotChanges plus a ++ slotChanges plus b := by
  rw [slotChanges, reduceOption_append, filter_append, map_append]
  rfl

theorem slotChanges_none (plus : Bool) {cmode : List (Option Slot)}
    (h : ∀ c ∈ cmode, c = none) : slotChanges plus cmode = [] := by
  induction cmode with
  | nil => rfl
  | cons c cmode ih =>
    rw [slotChanges_cons, ih fun d hd => h d (mem_cons_of_mem _ hd), h c mem_cons_self]
    rfl

theorem slotChanges_filter (plus : Bool) (cmode : List (Option Slot)) :
    slotChanges plus (cmode.map (Option.filter (·.plus != !plus))) = slotChanges plus cmode := by
  induction cmode with
  | nil => rfl
  | cons c cmode ih =>
    rw [map_cons, slotChanges_cons, ih, slotChanges_cons plus c]
    refine congrArg (· ++ _) ?_
    cases c with
    | none => rfl
    | some c => cases hc : c.plus <;> cases plus <;> simp [slotChanges, Option.filter, hc]

theorem Waits.slotChanges_take (h : Waits cfg chan) (plus : Bool) :
    slotChanges plus (chan.cmode.take cfg.modesperline.toNat) = slotChanges plus chan.cmode := by
  conv_rhs => rw [← take_append_drop cfg.modesperline.toNat chan.cmode]
  rw [slotChanges_append, slotChanges_none plus h.beyond, append_nil]

theorem Waits.weight_le (h : Waits cfg chan) : totalWeight (flushed chan) ≤ 500 := by
  have := h.room
  rw [pending, totalWeight_append] at this
  omega

theorem Waits.takesArg_letterChanges (h : Waits cfg chan) {plus : Bool} {modes : CStr}
    (hsub : letterChanges plus modes ⊆ flushed chan) :
    ∀ c ∈ letterChanges plus modes, c.takesArg = false := by
  intro c hc
  obtain ⟨m, hm, rfl⟩ := mem_map.1 hc
  rw [← Bool.not_eq_true]
  intro htakes
  exact ((h.proper _ (mem_append_left _ (hsub hc))).word htakes).1 rfl

theorem weight_param {plus : Bool} {mode : Char} {arg : CStr}
    (h : (⟨plus, mode, arg⟩ : Change).takesArg = true) :
    totalWeight [⟨plus, mode, arg⟩] = arg.length + 2 := by
  rw [totalWeight, map_singleton, sum_singleton, Change.weight, if_pos h]

theorem Out.Represents.withKey (h : o.Represents cs) (chan : Chan)
    (hroom : totalWeight (cs ++ keyChange chan) ≤ 500) :
    (State.withKey chan o).Represents (cs ++ keyChange chan) := by
  unfold keyChange State.withKey at *
  revert hroom
  cases chan.key with
  | none =>
    rw [append_nil]
    exact fun _ => h
  | some key =>
    cases chan.rmkey with
    | some rmkey =>
      rw [append_nil]
      exact fun _ => h
    | none =>
      intro hroom
      have hlen := length_postText_le cs
      rw [totalWeight_append, weight_param rfl] at hroom
      exact h.param (c := ⟨true, 'k', key⟩) rfl (by change _ + key.length + 1 ≤ 511; omega)

theorem Out.Represents.withRmkey (h : o.Represents cs) (chan : Chan)
    (hroom : totalWeight (cs ++ rmkeyChange chan) ≤ 500) :
    (State.withRmkey chan o).Represents (cs ++ rmkeyChange chan) := by
  unfold rmkeyChange State.withRmkey at *
  revert hroom
  cases chan.rmkey with
  | none =>
    rw [append_nil]
    exact fun _ => h
  | some key =>
    intro hroom
    have hlen := length_postText_le cs
    rw [totalWeight_append, weight_param rfl] at hroom
    exact h.param (c := ⟨false, 'k', key⟩) rfl (by change _ + key.length + 1 ≤ 511; omega)

theorem Out.Represents.withLimit (h : o.Represents cs) (chan : Chan)
    (hroom : totalWeight (cs ++ limitChange chan) ≤ 500) :
    (State.withLimit chan o).Represents (cs ++ limitChange chan) ∧
      (chan.limit ≠ 0 → 12 ≤ o.postsize) := by
  unfold limitChange at hroom ⊢
  unfold State.withLimit
  have hlen := length_postText_le cs
  have hsize := h.postsize
  by_cases hlimit : chan.limit = 0
  · rw [if_pos hlimit, append_nil, if_neg fun hne => hne.1 hlimit]
    exact ⟨h, fun hne => absurd hlimit hne⟩
  · rw [if_neg hlimit, totalWeight_append, weight_param rfl] at hroom
    rw [if_neg hlimit, if_pos ⟨hlimit, by omega⟩]
    exact ⟨h.number (by omega), fun _ => by omega⟩

theorem lastSign_letterChanges_ne (modes : CStr) :
    lastSign none (letterChanges false modes) ≠ some true := by
  cases modes with
  | nil => exact nofun
  | cons m modes =>
    have hsign : lastSign none (letterChanges false (m :: modes)) = some false :=
      lastSign_letterChanges false modes
    rw [hsign]
    exact nofun

theorem Waits.represents_assemble (h : Waits cfg chan) :
    (State.assemble cfg chan).1 = replicate modesPerLineMax none ∧
      (State.assemble cfg chan).2.Represents (flushed chan) ∧
        (chan.limit ≠ 0 → 12 ≤ (State.beforeLimit chan).postsize) := by
  have hweight := h.weight_le
  have hfalse : ∀ c ∈ letterChanges false chan.mns, c.takesArg = false :=
    h.takesArg_letterChanges (by simp [flushed])
  have htrue : ∀ c ∈ letterChanges true chan.pls, c.takesArg = false :=
    h.takesArg_letterChanges fun c hc => by simp [flushed, hc]
  simp only [flushed, totalWeight_append] at hweight
  have hmns := Out.represents_start.letters hfalse nofun
  rw [nil_append] at hmns
  have hpls := hmns.letters htrue (lastSign_letterChanges_ne chan.mns)
  have hkey := hpls.withKey chan (by simp only [totalWeight_append]; omega)
  obtain ⟨hlimit, hfits⟩ := hkey.withLimit chan (by simp only [totalWeight_append]; omega)
  have hrmkey := hlimit.withRmkey chan (by simp only [totalWeight_append]; omega)
  -- what the slots that are not looked at hold is nothing
  generalize hn : cfg.modesperline.toNat = n
  have htake (plus : Bool) : slotChanges plus (chan.cmode.take n) = slotChanges plus chan.cmode := by
    rw [← hn]
    exact h.slotChanges_take plus
  obtain ⟨hslots, hminus⟩ := hrmkey.slots false (chan.cmode.take n)
    (by rw [htake]; simp only [totalWeight_append]; omega)
  rw [htake] at hminus
  have hrest : slotChanges true ((chan.cmode.take n).map (Option.filter (·.plus != false))) =
      slotChanges true chan.cmode := (slotChanges_filter true _).trans (htake true)
  obtain ⟨hslots', hplus⟩ := hminus.slots true
    ((chan.cmode.take n).map (Option.filter (·.plus != false)))
    (by rw [hrest]; simp only [totalWeight_append]; omega)
  rw [hrest, ← hslots] at hplus
  rw [← hslots] at hslots'
  have hassoc : flushed chan = letterChanges false chan.mns ++ letterChanges true chan.pls ++
      keyChange chan ++ limitChange chan ++ rmkeyChange chan ++ slotChanges false chan.cmode ++
      slotChanges true chan.cmode := by
    simp only [flushed, append_assoc]
  rw [State.assemble, hn, hassoc]
  refine ⟨?_, hplus, hfits⟩
  show (Out.slots true _ _).1 ++ chan.cmode.drop n = _
  unfold State.beforeLimit
  rw [hslots', hslots, eq_replicate_iff, length_append, length_map, length_map, ← length_append,
    take_append_drop]
  refine ⟨h.slots, fun c hc => ?_⟩
  rcases mem_append.1 hc with hc | hc
  · rw [map_map] at hc
    obtain ⟨d, -, rfl⟩ := mem_map.1 hc
    cases d with
    | none => rfl
    | some d => cases hd : d.plus <;> simp [Option.filter, hd]
  · exact h.beyond c (hn ▸ hc)

/-- The line, if anything waits. -/
def flushLine (chan : Chan) : List CStr :=
  if flushed chan = [] then [] else [lineText chan.name (flushed chan)]

theorem flushMode_eq (h : Waits cfg s.chan) (hmax : cfg.modesperline ≤ modesPerLineMax) :
    s.flushMode cfg =
      .ok { s with chan := s.chan.afterFlush, sent := s.sent ++ flushLine s.chan } := by
  obtain ⟨hslots, hrep, hlimit⟩ := h.represents_assemble
  have hzero : (if 12 ≤ (State.beforeLimit s.chan).postsize then 0 else s.chan.limit) = 0 := by
    split
    · rfl
    · next hfits => exact not_not.1 fun hne => hfits (hlimit hne)
  rw [State.flushMode, if_neg fun hlow => h.limit hlow.1, if_neg (by omega)]
  simp only [hslots, hzero, flushLine]
  by_cases hnil : flushed s.chan = []
  · have hempty : (State.assemble cfg s.chan).2.join.isEmpty = true := by
      rw [hnil] at hrep
      rw [Out.join, hrep.post, hrep.out]
      rfl
    rw [if_pos hempty, if_pos hnil, append_nil]
    rfl
  · have hroom := h.weight_le
    have hletters := length_modeString_flushed s.chan
    have hpost := length_postText (flushed s.chan)
    obtain ⟨hempty, htext⟩ := hrep.join s.chan.name (by omega) hnil
    rw [hempty, if_neg Bool.false_ne_true, if_neg hnil, htext]
    rfl

theorem Waits.length_lineText_le (h : Waits cfg chan) :
    (lineText chan.name (flushed chan)).length ≤ 510 := by
  have hlen := length_lineText chan.name (flushed chan)
  have hletters := length_modeString_flushed chan
  have hroom := h.room
  rw [pending, totalWeight_append] at hroom
  omega

end Eggdrop.Irc
