import Mathlib.Algebra.Order.BigOperators.Group.List
import Mathlib.Algebra.Order.Ring.Nat
import Mathlib.Data.List.Perm.Subperm
import Eggdrop.Lib.Run
import Eggdrop.Irc.Flush

/-!
# ModeQueue — what a request does to the queue

* `Queued`: what waits can be sent, and is less than a line may have.
* `Stores`: a request takes its place in the queue, or that of an earlier one.
* `realAddMode_rule`: a request marks a member, is kept apart from what waits, is stored, and may
  fill the line; what holds after it is what these steps keep.
-/

namespace Eggdrop.Irc

open List

/-- The changes that count for `modes-per-line`. -/
def counted (cfg : Cfg) (c : Change) : Bool :=
  (Kind.ofMode c.mode).isSome || cfg.includeLk && c.takesArg

/-- The queue between requests; in a request it may have `extra` changes more. -/
structure Queued (cfg : Cfg) (extra : Nat) (chan : Chan) : Prop extends Waits cfg chan where
  few : ((pending chan).countP (counted cfg) : Int) < cfg.modesperline + extra

/-- What a request asks for. -/
def request (plus : Bool) (mode : Char) (op : CStr) : Change :=
  if (Kind.ofMode mode).isSome ∨ mode = 'k' then ⟨plus, mode, op⟩
  else if plus ∧ mode = 'l' then ⟨true, 'l', showInt (eggAtoi op)⟩
  else ⟨plus, mode, []⟩

/-- A letter that stands for itself. -/
def Typical (plus : Bool) (mode : Char) : Prop :=
  Kind.ofMode mode = none ∧ mode ≠ 'k' ∧ ¬ (plus = true ∧ mode = 'l')

def Chan.letters (plus : Bool) (chan : Chan) : CStr := if plus then chan.pls else chan.mns

/-- A change joins what waits. -/
inductive Stores (cfg : Cfg) (chan : Chan) : Change → Chan → Prop where
  | slot (c : Slot) (x y : List (Option Slot)) (bytes : Int) (hmode : chan.cmode = x ++ none :: y)
      (hroom : x.length < cfg.modesperline.toNat) :
      Stores cfg chan c.change { chan with cmode := x ++ some c :: y, bytes }
  | key (op : CStr) : Stores cfg chan ⟨true, 'k', op⟩ { chan with key := some op }
  | rmkey (op : CStr) : Stores cfg chan ⟨false, 'k', op⟩ { chan with rmkey := some op }
  | limit (n : Int) : Stores cfg chan ⟨true, 'l', showInt n⟩ { chan with limit := n }
  | pls (mode : Char) (hmode : Typical true mode) (hnew : mode ∉ chan.pls) :
      Stores cfg chan ⟨true, mode, []⟩ { chan with pls := chan.pls ++ [mode] }
  | mns (mode : Char) (hmode : Typical false mode) (hnew : mode ∉ chan.mns) :
      Stores cfg chan ⟨false, mode, []⟩ { chan with mns := chan.mns ++ [mode] }

/-- A word, room for it, and for a letter too; and a limit that can be written. -/
structure Fits (c : Change) (chan : Chan) : Prop where
  proper : c.Proper
  limit : c ≠ ⟨true, 'l', showInt intMin⟩
  room : chan.name.length + totalWeight (pending chan) + c.weight ≤ 500
  letters : Typical c.plus c.mode → (chan.letters c.plus).length < 20 ∨ c.mode ∈ chan.letters c.plus

/-- `e` and `I`. -/
def listMode (mode : Char) : Bool := mode == 'e' || mode == 'I'

def State.afterFlush (s : State) : State :=
  { s with chan := s.chan.afterFlush, sent := s.sent ++ flushLine s.chan }

/-- Where the modes are kept apart, what waits and is of the other class is sent first. -/
def State.separated (cfg : Cfg) (mode : Char) (s : State) : State :=
  if s.chan.compat = 0 then { s with chan := { s.chan with compat := if listMode mode then 2 else 1 } }
  else if cfg.preventMixing ∧ s.chan.compat = if listMode mode then 1 else 2 then s.afterFlush
  else s

/-- The channel with a member marked, unless the request is for nothing. -/
def marked (plus : Bool) (mode : Char) (op : CStr) (chan : Chan) : Option Chan :=
  match Kind.ofMode mode with
  | some kind => State.markSent chan plus kind op
  | none => some chan

/-- Already in there. -/
def duplicate (cfg : Cfg) (chan : Chan) (plus : Bool) (kind : Kind) (op : CStr) : Bool :=
  (chan.cmode.take cfg.modesperline.toNat).any fun c =>
    c.any fun c => c.plus == plus && c.kind == kind && rfcCaseEq c.op op

/-- A request that gets as far as the queue. -/
def Reaches (s : State) (plus : Bool) (mode : Char) (op : CStr) : Prop :=
  State.halfopCantdomode s.chan mode = false ∧ (marked plus mode op s.chan).isSome

/-- A request that is refused when the queue is `chan`. -/
def Refused (cfg : Cfg) (chan : Chan) (plus : Bool) (mode : Char) (op : CStr) : Prop :=
  ∀ kind, Kind.ofMode mode = some kind →
    State.maskRefused cfg chan plus kind op = true ∨ duplicate cfg chan plus kind op = true

/-- A request that is not. -/
def Free (cfg : Cfg) (chan : Chan) (plus : Bool) (mode : Char) (op : CStr) : Prop :=
  ∀ kind, Kind.ofMode mode = some kind →
    State.maskRefused cfg chan plus kind op = false ∧ duplicate cfg chan plus kind op = false

variable {cfg : Cfg} {chan chan' : Chan} {s s' : State} {c : Change} {plus : Bool} {mode : Char}
  {op : CStr}

/-! ### A flush -/

theorem totalWeight_subperm {cs ds : List Change} (h : cs <+~ ds) :
    totalWeight cs ≤ totalWeight ds := by
  obtain ⟨l, hperm, hsub⟩ := h
  rw [totalWeight, totalWeight, ← (hperm.map _).sum_eq]
  exact (hsub.map _).sum_le_sum fun _ _ => Nat.zero_le _

theorem pending_afterFlush (chan : Chan) : pending chan.afterFlush = leftover chan := by
  have hslots (plus : Bool) : slotChanges plus (replicate modesPerLineMax none) = [] :=
    slotChanges_none plus fun c hc => eq_of_mem_replicate hc
  rw [pending, flushed]
  simp only [Chan.afterFlush, keyChange, rmkeyChange, limitChange, leftover, letterChanges, hslots]
  cases chan.key <;> cases chan.rmkey <;> rfl

theorem leftover_sublist (chan : Chan) : leftover chan <+ pending chan :=
  sublist_append_right _ _

theorem countP_leftover (hkeep : (leftover chan).countP (counted cfg) ≠ 0) :
    (leftover chan).countP (counted cfg) < (pending chan).countP (counted cfg) := by
  unfold leftover at hkeep
  split at hkeep
  · next key rmkey hkey hrm =>
    have hlk : cfg.includeLk = true := by
      rw [countP_singleton] at hkeep
      by_contra hlk
      exact hkeep (if_neg (by simp [counted, Kind.ofMode, hlk]))
    have hmem : (⟨false, 'k', rmkey⟩ : Change) ∈ flushed chan := by
      simp [flushed, rmkeyChange, hrm]
    have hpos : 0 < (flushed chan).countP (counted cfg) :=
      countP_pos_iff.2 ⟨_, hmem, by simp [counted, hlk, Change.takesArg]⟩
    rw [pending, countP_append]
    omega
  · exact absurd rfl hkeep

theorem Queued.afterFlush (h : Queued cfg 1 chan) (hpos : 1 ≤ cfg.modesperline) :
    Queued cfg 0 chan.afterFlush where
  slots := length_replicate
  beyond c hc := eq_of_mem_replicate (mem_of_mem_drop hc)
  proper c hc := h.proper c ((leftover_sublist chan).subset (pending_afterFlush chan ▸ hc))
  room := by
    rw [pending_afterFlush]
    have := totalWeight_subperm (leftover_sublist chan).subperm
    have := h.room
    show chan.name.length + _ ≤ 500
    omega
  limit := show (0 : Int) ≠ intMin by decide
  few := by
    rw [pending_afterFlush]
    have hfew := h.few
    by_cases hzero : (leftover chan).countP (counted cfg) = 0
    · rw [hzero]
      omega
    · have := countP_leftover hzero
      omega

@[simp] theorem name_afterFlush (chan : Chan) : chan.afterFlush.name = chan.name := rfl

theorem Queued.mono (h : Queued cfg 0 chan) : Queued cfg 1 chan :=
  ⟨h.toWaits, by have := h.few; omega⟩

/-! ### What a request adds -/

def optChange (plus : Bool) (mode : Char) (arg : Option CStr) : List Change :=
  (arg.map (Change.mk plus mode)).toList

/-- What waits, without the order that a flush gives it. -/
def waits (chan : Chan) : List Change :=
  letterChanges false chan.mns ++ letterChanges true chan.pls ++ optChange true 'k' chan.key ++
    limitChange chan ++ optChange false 'k' chan.rmkey ++ chan.cmode.reduceOption.map Slot.change

theorem slotChanges_perm (cmode : List (Option Slot)) :
    slotChanges false cmode ++ slotChanges true cmode ~ cmode.reduceOption.map Slot.change := by
  have hsplit := (filter_append_perm (·.plus == false) cmode.reduceOption).map Slot.change
  rw [map_append] at hsplit
  have hnot : (fun c : Slot => !(c.plus == false)) = (·.plus == true) := by
    funext c
    cases c.plus <;> rfl
  rwa [hnot] at hsplit

theorem pending_perm (chan : Chan) : pending chan ~ waits chan := by
  have hslots := slotChanges_perm chan.cmode
  rw [pending, flushed, waits]
  simp only [keyChange, rmkeyChange, leftover, optChange]
  cases chan.key with
  | none => cases chan.rmkey <;> simpa [perm_append_left_iff] using hslots
  | some key =>
    cases chan.rmkey with
    | none => simpa [perm_append_left_iff] using hslots
    | some rmkey =>
      simp only [append_nil, Option.map_some, Option.toList_some, append_assoc]
      refine Perm.append_left _ (Perm.append_left _ ?_)
      rw [← append_assoc, ← append_assoc, ← append_assoc]
      refine perm_append_comm.trans (Perm.append_left _ ?_)
      rw [append_assoc, append_assoc]
      exact Perm.append_left _ (Perm.append_left _ hslots)

theorem Stores.pending_subperm (h : Stores cfg chan c chan') :
    pending chan' <+~ c :: pending chan := by
  suffices hwaits : waits chan' <+~ c :: waits chan from
    (pending_perm chan').subperm.trans (hwaits.trans ((pending_perm chan).symm.cons c).subperm)
  refine subperm_ext_iff.2 fun d _ => ?_
  cases h with
  | slot c x y bytes hmode =>
    rw [waits, waits, hmode]
    simp only [limitChange, count_append, count_cons, reduceOption_append,
      reduceOption_cons_of_some, reduceOption_cons_of_none, map_append, map_cons]
    omega
  | key op | rmkey op =>
    simp only [waits, limitChange, optChange, count_append, count_cons, Option.map_some,
      Option.toList_some, count_nil]
    omega
  | limit n =>
    simp only [waits, limitChange, optChange, count_append, count_cons]
    split <;> simp only [count_cons, count_nil] <;> omega
  | pls mode | mns mode =>
    simp only [waits, letterChanges, limitChange, map_append, map_singleton, count_append,
      count_cons, count_nil]
    omega

theorem totalWeight_cons (c : Change) (cs : List Change) :
    totalWeight (c :: cs) = c.weight + totalWeight cs := by
  rw [totalWeight, map_cons, sum_cons, totalWeight]

theorem Stores.name (h : Stores cfg chan c chan') : chan'.name = chan.name := by
  cases h <;> rfl

theorem Stores.queued (h : Stores cfg chan c chan') (hq : Queued cfg 0 chan) (hfits : Fits c chan) :
    Queued cfg 1 chan' where
  slots := by
    have hslots := hq.slots
    cases h with
    | slot c x y bytes hmode =>
      rw [hmode] at hslots
      simpa using hslots
    | _ => exact hslots
  beyond := by
    have hbeyond := hq.beyond
    cases h with
    | slot c x y bytes hmode hroom =>
      obtain ⟨m, hm⟩ := Nat.exists_eq_add_of_lt hroom
      have hdrop (d : Option Slot) : (x ++ d :: y).drop cfg.modesperline.toNat = y.drop m := by
        rw [hm, drop_append, drop_eq_nil_of_le (by omega), nil_append,
          show x.length + m + 1 - x.length = m + 1 by omega, drop_succ_cons]
      rw [hmode, hdrop] at hbeyond
      show ∀ d ∈ (x ++ some c :: y).drop cfg.modesperline.toNat, d = none
      rw [hdrop]
      exact hbeyond
    | _ => exact hbeyond
  proper d hd := by
    rcases mem_cons.1 (h.pending_subperm.subset hd) with rfl | hd
    · exact hfits.proper
    · exact hq.proper d hd
  room := by
    have hweight := totalWeight_subperm h.pending_subperm
    have hroom := hfits.room
    rw [totalWeight_cons] at hweight
    rw [h.name]
    omega
  limit := by
    have hlimit := hfits.limit
    cases h with
    | limit n =>
      rintro rfl
      exact hlimit rfl
    | _ => exact hq.limit
  few := by
    have hcount := h.pending_subperm.countP_le (counted cfg)
    have hfew := hq.few
    have hone := countP_le_length (p := counted cfg) (l := [c])
    rw [← singleton_append, countP_append] at hcount
    rw [length_singleton] at hone
    omega

/-! ### How many wait -/

theorem length_reduceOption_eq (cmode : List (Option Slot)) :
    cmode.reduceOption.length = cmode.countP Option.isSome := by
  induction cmode with
  | nil => rfl
  | cons c cmode ih =>
    cases c with
    | none => rw [reduceOption_cons_of_none, ih, countP_cons_of_neg (by simp)]
    | some c => rw [reduceOption_cons_of_some, length_cons, ih, countP_cons_of_pos (by simp)]

theorem countP_slots (cfg : Cfg) (cmode : List (Option Slot)) :
    (cmode.reduceOption.map Slot.change).countP (counted cfg) = cmode.countP Option.isSome := by
  rw [← length_reduceOption_eq, ← length_map Slot.change]
  refine countP_eq_length.2 fun c hc => ?_
  obtain ⟨d, -, rfl⟩ := mem_map.1 hc
  simp [counted, Slot.change]

theorem countP_optChange (cfg : Cfg) (plus : Bool) (key : Option CStr) :
    (optChange plus 'k' key).countP (counted cfg) =
      if cfg.includeLk ∧ key.isSome then 1 else 0 := by
  cases key with
  | none => simp [optChange]
  | some key =>
    rw [optChange, Option.map_some, Option.toList_some, countP_singleton]
    simp [counted, Kind.ofMode, Change.takesArg]

theorem Waits.waiting_eq (h : Waits cfg chan) :
    State.waiting cfg chan = (pending chan).countP (counted cfg) := by
  have hletters (plus : Bool) (modes : CStr) (hsub : letterChanges plus modes ⊆ flushed chan) :
      (letterChanges plus modes).countP (counted cfg) = 0 := by
    refine countP_eq_zero.2 fun c hc => ?_
    have htakes := h.takesArg_letterChanges hsub c hc
    have hslot : (Kind.ofMode c.mode).isSome = false := by
      rw [Change.takesArg, Bool.or_eq_false_iff, Bool.or_eq_false_iff] at htakes
      exact htakes.1.1
    rw [counted, htakes, hslot, Bool.and_false, Bool.or_false]
    exact Bool.false_ne_true
  have hslots : (chan.cmode.take cfg.modesperline.toNat).countP Option.isSome =
      chan.cmode.countP Option.isSome := by
    conv_rhs => rw [← take_append_drop cfg.modesperline.toNat chan.cmode, countP_append]
    rw [countP_eq_zero (l := chan.cmode.drop _) |>.2 fun c hc => by simp [h.beyond c hc], add_zero]
  have hlimit : (limitChange chan).countP (counted cfg) =
      if cfg.includeLk ∧ chan.limit ≠ 0 then 1 else 0 := by
    rw [limitChange]
    by_cases hzero : chan.limit = 0
    · simp [hzero]
    · simp [hzero, counted, Kind.ofMode, Change.takesArg, countP_singleton]
  rw [(pending_perm chan).countP_eq, waits]
  simp only [countP_append]
  rw [hletters false chan.mns (by simp [flushed]), hletters true chan.pls fun c hc => by
    simp [flushed, hc], countP_optChange, hlimit, countP_optChange, countP_slots, State.waiting,
    hslots]
  omega

/-! ### The parts of a request -/

theorem separate_eq (h : Waits cfg s.chan) (hmax : cfg.modesperline ≤ modesPerLineMax)
    (mode : Char) : s.separate cfg mode = .ok (s.separated cfg mode) := by
  have hflush : s.flushMode cfg = .ok s.afterFlush := flushMode_eq h hmax
  have hlist : (mode = 'e' ∨ mode = 'I') ↔ listMode mode = true := by simp [listMode]
  unfold State.separate State.separated
  simp only [hlist, hflush]
  split
  · rfl
  · split
    · split <;> rfl
    · split <;> rfl

theorem takeSlot_eq (c : Slot) {cmode : List (Option Slot)} (h : none ∈ cmode) :
    ∃ x y, cmode = x ++ none :: y ∧ State.takeSlot c cmode = some (x ++ some c :: y) := by
  induction cmode with
  | nil => cases h
  | cons d cmode ih =>
    cases d with
    | none => exact ⟨[], cmode, rfl, rfl⟩
    | some d =>
      obtain ⟨x, y, rfl, htake⟩ := ih (by simpa using h)
      exact ⟨some d :: x, y, rfl, by rw [State.takeSlot, htake]; rfl⟩

theorem Queued.none_mem (h : Queued cfg 0 chan) (hmax : cfg.modesperline ≤ modesPerLineMax) :
    none ∈ chan.cmode.take cfg.modesperline.toNat := by
  by_contra hfull
  have hall : (chan.cmode.take cfg.modesperline.toNat).countP Option.isSome =
      (chan.cmode.take cfg.modesperline.toNat).length :=
    countP_eq_length.2 fun c hc => Option.isSome_iff_ne_none.2 fun hnone => hfull (hnone ▸ hc)
  have hfew := h.few
  have hslots := h.slots
  rw [← h.waiting_eq, State.waiting, hall, length_take, hslots] at hfew
  omega

theorem Fits.afterFlush (h : Fits c chan) : Fits c chan.afterFlush where
  proper := h.proper
  limit := h.limit
  room := by
    have hweight := totalWeight_subperm (leftover_sublist chan).subperm
    have := h.room
    rw [pending_afterFlush, name_afterFlush]
    omega
  letters _ := .inl (by cases hplus : c.plus <;> simp [Chan.letters, Chan.afterFlush])

/-- The state with a request in the queue. -/
def State.accept (s : State) (c : Change) (chan : Chan) : State :=
  { s with chan, accepted := s.accepted ++ [c] }

theorem storeSlot_eq (h : Queued cfg 0 s.chan) (hmax : cfg.modesperline ≤ modesPerLineMax)
    (c : Slot) : ∃ t chan', (t = s ∨ t = s.afterFlush) ∧ Stores cfg t.chan c.change chan' ∧
      s.storeSlot cfg c = .ok (t.accept c.change chan') := by
  have hpos : 1 ≤ cfg.modesperline := by
    have := h.few
    omega
  have hstore (t : State) (hq : Queued cfg 0 t.chan) :
      ∃ cmode, State.takeSlot c (t.chan.cmode.take cfg.modesperline.toNat) = some cmode ∧
        Stores cfg t.chan c.change { t.chan with
          cmode := cmode ++ t.chan.cmode.drop cfg.modesperline.toNat
          bytes := t.chan.bytes + (c.op.length + 1 : Int) } := by
    obtain ⟨x, y, hcmode, htake⟩ := takeSlot_eq c (hq.none_mem hmax)
    have hsplit : t.chan.cmode = x ++ none :: (y ++ t.chan.cmode.drop cfg.modesperline.toNat) := by
      conv_lhs => rw [← take_append_drop cfg.modesperline.toNat t.chan.cmode, hcmode]
      simp
    have hroom : x.length < cfg.modesperline.toNat := by
      have hlen := congrArg length hcmode
      rw [length_take, length_append, length_cons] at hlen
      omega
    refine ⟨_, htake, ?_⟩
    have hstores := Stores.slot c x _ (t.chan.bytes + (c.op.length + 1 : Int)) hsplit hroom
    rwa [append_assoc, cons_append]
  unfold State.storeSlot
  have hflush : s.flushMode cfg = .ok s.afterFlush := flushMode_eq h.toWaits hmax
  by_cases hfull : cfg.modeBufLen < s.chan.bytes + (c.op.length + 1 : Int)
  · obtain ⟨cmode, htake, hstores⟩ := hstore s.afterFlush (h.mono.afterFlush hpos)
    refine ⟨s.afterFlush, _, .inr rfl, hstores, ?_⟩
    simp only [if_pos hfull, hflush]
    rw [show (Except.ok s.afterFlush : Except Fault State) = pure s.afterFlush from rfl, pure_bind]
    simp only [htake]
    rfl
  · obtain ⟨cmode, htake, hstores⟩ := hstore s h
    refine ⟨s, _, .inl rfl, hstores, ?_⟩
    simp only [if_neg hfull]
    rw [show (Except.ok s : Except Fault State) = pure s from rfl, pure_bind]
    simp only [htake]
    rfl

theorem isAlpha_ne_nul {c : Char} (h : c.isAlpha = true) : c ≠ '\x00' := by
  rintro rfl
  exact absurd h (by decide)

theorem storeOther_eq (hmode : Kind.ofMode mode = none)
    (hfits : Fits (request plus mode op) s.chan) :
    s.storeOther plus mode op = .ok s ∨
      ∃ chan', Stores cfg s.chan (request plus mode op) chan' ∧
        s.storeOther plus mode op = .ok (s.accept (request plus mode op) chan') := by
  unfold State.storeOther request at *
  rw [hmode] at hfits ⊢
  by_cases hk : mode = 'k'
  · subst hk
    cases plus with
    | true => exact .inr ⟨_, .key op, rfl⟩
    | false => exact .inr ⟨_, .rmkey op, rfl⟩
  · by_cases hl : plus = true ∧ mode = 'l'
    · obtain ⟨rfl, rfl⟩ := hl
      exact .inr ⟨_, .limit (eggAtoi op), rfl⟩
    · rw [if_neg (by simp [hk]), if_neg (by simpa using hl)] at hfits
      rw [if_neg (by simp [hk]), if_neg (by simp [hk]), if_neg hl, if_neg (by simp [hk]),
        if_neg (by simpa using hl)]
      have htypical : Typical plus mode := ⟨hmode, hk, hl⟩
      have hletters : (s.chan.letters plus).length < 20 ∨ mode ∈ s.chan.letters plus :=
        hfits.letters htypical
      have hnul := isAlpha_ne_nul (show mode.isAlpha = true from hfits.proper.letter)
      unfold State.storeLetter
      cases plus with
      | true =>
        by_cases hmem : mode ∈ s.chan.pls
        · left
          simp [State.strchr, hmem]
        · refine .inr ⟨_, .pls mode htypical hmem, ?_⟩
          have hlen : ¬ 20 ≤ s.chan.pls.length := by
            have := hletters.resolve_right hmem
            simpa [Chan.letters] using this
          simp [State.strchr, hmem, hnul, hlen, State.accept]
      | false =>
        by_cases hmem : mode ∈ s.chan.mns
        · left
          simp [State.strchr, hmem]
        · refine .inr ⟨_, .mns mode htypical hmem, ?_⟩
          have hlen : ¬ 20 ≤ s.chan.mns.length := by
            have := hletters.resolve_right hmem
            simpa [Chan.letters] using this
          simp [State.strchr, hmem, hnul, hlen, State.accept]

theorem flushFull_eq (h : Queued cfg 1 s.chan) (hpos : 1 ≤ cfg.modesperline)
    (hmax : cfg.modesperline ≤ modesPerLineMax) :
    ∃ t, (t = s ∨ t = s.afterFlush) ∧ Queued cfg 0 t.chan ∧ s.flushFull cfg = .ok t := by
  have hflush : s.flushMode cfg = .ok s.afterFlush := flushMode_eq h.toWaits hmax
  unfold State.flushFull
  rw [if_neg (by omega), h.waiting_eq]
  split
  · exact ⟨s.afterFlush, .inr rfl, h.afterFlush hpos, hflush⟩
  · next hfew => exact ⟨s, .inl rfl, ⟨h.toWaits, by omega⟩, rfl⟩

/-! ### A request -/

theorem Kind.letter_ofMode {kind : Kind} (h : Kind.ofMode mode = some kind) :
    kind.letter = mode := by
  unfold Kind.ofMode at h
  split_ifs at h with ho hh hb hv he hq hI
  all_goals
    obtain rfl := Option.some.inj h
    simp only [Kind.letter, *]

theorem marked_eq (h : marked plus mode op chan = some chan') :
    ∃ member, chan' = { chan with member } := by
  unfold marked State.markSent at h
  split at h
  · split at h
    · exact ⟨_, (Option.some.inj h).symm⟩
    · split at h
      · cases h
      · split at h
        · cases h
        · exact ⟨_, (Option.some.inj h).symm⟩
  · exact ⟨_, (Option.some.inj h).symm⟩

theorem Queued.member (h : Queued cfg 0 chan) (member : List Member) :
    Queued cfg 0 { chan with member } :=
  ⟨⟨h.slots, h.beyond, h.proper, h.room, h.limit⟩, h.few⟩

theorem separated_cases (cfg : Cfg) (mode : Char) (s : State) :
    s.separated cfg mode = s ∨ s.separated cfg mode = s.afterFlush ∨ ∃ compat,
      s.separated cfg mode = { s with chan := { s.chan with compat } } := by
  unfold State.separated
  by_cases hzero : s.chan.compat = 0
  · rw [if_pos hzero]
    exact .inr (.inr ⟨_, rfl⟩)
  · rw [if_neg hzero]
    by_cases hother : cfg.preventMixing ∧ s.chan.compat = if listMode mode then 1 else 2
    · rw [if_pos hother]
      exact .inr (.inl rfl)
    · rw [if_neg hother]
      exact .inl rfl

theorem separated_member (s : State) (member : List Member) :
    ({ s with chan := { s.chan with member } } : State).separated cfg mode =
      { s.separated cfg mode with chan := { (s.separated cfg mode).chan with member } } := by
  unfold State.separated
  by_cases hzero : s.chan.compat = 0
  · rw [if_pos hzero, if_pos hzero]
  · rw [if_neg hzero, if_neg hzero]
    by_cases hother : cfg.preventMixing ∧ s.chan.compat = if listMode mode then 1 else 2
    · rw [if_pos hother, if_pos hother]
      rfl
    · rw [if_neg hother, if_neg hother]

theorem Queued.pos (h : Queued cfg 0 chan) : 1 ≤ cfg.modesperline := by
  have := h.few
  omega

theorem Queued.separated (h : Queued cfg 0 s.chan) (mode : Char) :
    Queued cfg 0 (s.separated cfg mode).chan := by
  obtain heq | heq | ⟨compat, heq⟩ := separated_cases cfg mode s
  · rwa [heq]
  · rw [heq]
    exact h.mono.afterFlush h.pos
  · rw [heq]
    exact ⟨⟨h.slots, h.beyond, h.proper, h.room, h.limit⟩, h.few⟩

theorem Free.afterFlush (h : Free cfg chan plus mode op) :
    Free cfg chan.afterFlush plus mode op := by
  intro kind hkind
  refine ⟨(h kind hkind).1, any_eq_false.2 fun c hc => ?_⟩
  rw [eq_of_mem_replicate (mem_of_mem_take hc)]
  exact Bool.false_ne_true

/-- A request that reaches the queue is kept apart from what waits and then refused or stored; what
every step keeps holds after it. -/
theorem realAddMode_rule {P Q : State → Prop} (hq : Queued cfg 0 s.chan)
    (hmax : cfg.modesperline ≤ modesPerLineMax)
    (hfits : Reaches s plus mode op → Free cfg (s.separated cfg mode).chan plus mode op →
      Fits (request plus mode op) (s.separated cfg mode).chan)
    (hseparate : ∀ chan, State.halfopCantdomode s.chan mode = false →
      marked plus mode op s.chan = some chan → P (({ s with chan } : State).separated cfg mode))
    (hflush : ∀ t : State, Queued cfg 0 t.chan → P t → P t.afterFlush)
    (hrefuse : ∀ t : State, Queued cfg 0 t.chan → P t → Refused cfg t.chan plus mode op → Q t)
    (hstore : ∀ (t : State) chan', Queued cfg 0 t.chan → P t → Free cfg t.chan plus mode op →
      Fits (request plus mode op) t.chan → Stores cfg t.chan (request plus mode op) chan' →
        Q (t.accept (request plus mode op) chan'))
    (hfull : ∀ t : State, Queued cfg 1 t.chan → Q t → Q t.afterFlush) :
    ∃ s', s.realAddMode cfg plus mode op = .ok s' ∧ Queued cfg 0 s'.chan ∧ (s' = s ∨ Q s') := by
  unfold State.realAddMode
  by_cases hhalf : State.halfopCantdomode s.chan mode = true
  · rw [if_pos hhalf]
    exact ⟨s, rfl, hq, .inl rfl⟩
  rw [if_neg hhalf]
  have hhalf' : State.halfopCantdomode s.chan mode = false := by simpa using hhalf
  cases hmarked : marked plus mode op s.chan with
  | none =>
    rw [marked] at hmarked
    cases hmode : Kind.ofMode mode with
    | none => rw [hmode] at hmarked; cases hmarked
    | some kind =>
      simp only [hmode] at hmarked
      simp only [hmarked]
      exact ⟨s, rfl, hq, .inl rfl⟩
  | some chan =>
    have hp := hseparate chan hhalf' hmarked
    have hfits := hfits ⟨hhalf', by rw [hmarked]; rfl⟩
    obtain ⟨member, rfl⟩ := marked_eq hmarked
    have hsep := separate_eq (s := { s with chan := { s.chan with member } })
      (hq.member member).toWaits hmax mode
    have hqsep := (hq.separated mode).member member
    rw [separated_member] at hsep hp
    generalize s.separated cfg mode = t at hsep hp hqsep hfits
    -- the last step
    have hend (u : State) (hqu : Queued cfg 1 u.chan) (hu : Q u) :
        ∃ s', u.flushFull cfg = .ok s' ∧ Queued cfg 0 s'.chan ∧ (s' = s ∨ Q s') := by
      obtain ⟨v, hv, hqv, hok⟩ := flushFull_eq hqu hq.pos hmax
      refine ⟨v, hok, hqv, .inr ?_⟩
      obtain rfl | rfl := hv
      · exact hu
      · exact hfull u hqu hu
    generalize hu : ({ t with chan := { t.chan with member } } : State) = u at hsep hp
    have hqu : Queued cfg 0 u.chan := hu ▸ hqsep
    have hfitsu (hfree : Free cfg u.chan plus mode op) : Fits (request plus mode op) u.chan := by
      subst hu
      have hfit := hfits hfree
      exact ⟨hfit.proper, hfit.limit, hfit.room, hfit.letters⟩
    unfold marked at hmarked
    cases hmode : Kind.ofMode mode with
    | none =>
      have hfree : Free cfg u.chan plus mode op := fun kind hkind => by
        rw [hmode] at hkind
        cases hkind
      have hrefused : Refused cfg u.chan plus mode op := fun kind hkind => by
        rw [hmode] at hkind
        cases hkind
      have hfit := hfitsu hfree
      simp only [hmode] at hmarked ⊢
      have hchan : ({ s.chan with member } : Chan) = s.chan := (Option.some.inj hmarked).symm
      rw [hchan] at hsep
      have hgo (r : Except Fault State) (hr : u.storeOther plus mode op = r) :
          (do
            let s ← s.separate cfg mode
            let s ← s.storeOther plus mode op
            s.flushFull cfg) = r >>= fun s => s.flushFull cfg := by
        rw [← hr, hsep]
        rfl
      have hother : u.storeOther plus mode op = .ok u ∨ ∃ chan',
          Stores cfg u.chan (request plus mode op) chan' ∧
            u.storeOther plus mode op = .ok (u.accept (request plus mode op) chan') :=
        storeOther_eq hmode hfit
      obtain hsame | ⟨chan', hstores, hstored⟩ := hother
      · rw [hgo _ hsame]
        exact hend u hqu.mono (hrefuse u hqu hp hrefused)
      · rw [hgo _ hstored]
        exact hend _ (hstores.queued hqu hfit) (hstore u chan' hqu hp hfree hfit hstores)
    | some kind =>
      simp only [hmode] at hmarked ⊢
      have hchange : (⟨plus, kind, op⟩ : Slot).change = request plus mode op := by
        have hletter : kind.letter = mode := Kind.letter_ofMode hmode
        rw [request, if_pos (.inl (by rw [hmode]; rfl)), Slot.change, hletter]
      have hsome (P : Kind → Prop) (hkind : P kind) :
          ∀ k, Kind.ofMode mode = some k → P k := fun k hk => by
        rw [hmode] at hk
        cases hk
        exact hkind
      simp only [hmarked, hsep]
      rw [show (Except.ok u : Except Fault State) = pure u from rfl, pure_bind]
      by_cases hmask : State.maskRefused cfg u.chan plus kind op = true
      · rw [if_pos hmask]
        exact ⟨u, rfl, hqu, .inr (hrefuse u hqu hp (hsome _ (.inl hmask)))⟩
      rw [if_neg hmask, if_neg (by omega)]
      by_cases hdup : duplicate cfg u.chan plus kind op = true
      · have hcond := hdup
        rw [duplicate] at hcond
        rw [if_pos hcond]
        exact ⟨u, rfl, hqu, .inr (hrefuse u hqu hp (hsome _ (.inr hdup)))⟩
      · have hcond := hdup
        rw [duplicate] at hcond
        rw [if_neg hcond]
        have hfree : Free cfg u.chan plus mode op := hsome _ ⟨by simpa using hmask, by simpa using hdup⟩
        have hfit := hfitsu hfree
        obtain ⟨v, chan', hv, hstores, hstored⟩ := storeSlot_eq hqu hmax ⟨plus, kind, op⟩
        rw [hchange] at hstores hstored
        rw [hstored, show Except.ok (v.accept (request plus mode op) chan') =
          (pure (v.accept (request plus mode op) chan') : Except Fault State) from rfl, pure_bind]
        obtain rfl | rfl := hv
        · exact hend _ (hstores.queued hqu hfit) (hstore _ chan' hqu hp hfree hfit hstores)
        · have hqv := hqu.mono.afterFlush hqu.pos
          exact hend _ (hstores.queued hqv hfit.afterFlush)
            (hstore _ chan' hqv (hflush u hqu hp) hfree.afterFlush hfit.afterFlush hstores)

end Eggdrop.Irc
