import Eggdrop.Irc.Mode
import Eggdrop.Irc.MaxList
import Eggdrop.Lib.Cells

/-!
# ModeSlots — the slots of a channel and the number of modes for a line

`cmode` has `MODES_PER_LINE_MAX` slots, and the loops over it go up to `modesperline`.  That is a
setting: the server announces it, a net type and Tcl set it, and only `flush_modes`, which runs when
the bot is idle, brings it down to the number of slots.

Here the loops of `mode.c` are the ones of the source, by index, and an index without a slot is a
fault.  A limit that `int_to_base10` cannot negate is no fault here: as many characters are written as
the number has, whatever they are.

* `flushMode_eq`, `realAddMode_eq`: where the setting is in bounds, and the limit no such number, they
  do what is said of them in Mode.
* `slots_of_flushMode`, `slots_of_realAddMode`: when they leave the array.
* `slots_throughout_iff`: when a run does.
-/

open List

namespace Eggdrop.Irc.ModeSlots

open State

/-! ### mode.c -/

section Functions

variable (cfg : Cfg) (s : State)

/-- `for (i = 0; i < modesperline; i++)` over `chan->cmode`. -/
def overSlots {α : Type} (visit : Option Slot → α → Option Slot × α × Bool)
    (cmode : List (Option Slot)) (a : α) : Except Fault (List (Option Slot) × α) :=
  Cells.loop Fault.slots visit cfg.modesperline.toNat cmode a

/-- A change of one sign is sent if there is room. -/
def send (plus : Bool) : Option Slot → Out → Option Slot × Out × Bool
  | none, o => (none, o, true)
  | some c, o =>
    if c.plus = plus ∧ c.op.length < o.postsize then
      (none, (o.letter plus c.kind.letter).param c.op, true)
    else (some c, o, true)

def flushMode : Except Fault State := do
  let chan := s.chan
  let minus ← overSlots cfg (send false) chan.cmode (withRmkey chan (withLimit chan (beforeLimit chan)))
  let plus ← overSlots cfg (send true) minus.1 minus.2
  let o := plus.2
  let s := { s with chan := { chan with
    mns := [], pls := [], bytes := 0, compat := 0, cmode := plus.1
    key := if chan.rmkey.isSome then chan.key else none
    limit := if 12 ≤ (beforeLimit chan).postsize then 0 else chan.limit
    rmkey := none } }
  if o.join.isEmpty then .ok s
  else .ok { s with sent := s.sent ++ ["MODE ".toList ++ chan.name ++ ' ' :: o.join] }

/-- Keep `e` and `I` apart from the other modes. -/
def separate (mode : Char) : Except Fault State :=
  let listMode := mode = 'e' ∨ mode = 'I'
  if s.chan.compat = 0 then
    .ok { s with chan := { s.chan with compat := if listMode then 2 else 1 } }
  else if listMode then
    if cfg.preventMixing ∧ s.chan.compat = 1 then flushMode cfg s else .ok s
  else if cfg.preventMixing ∧ s.chan.compat = 2 then flushMode cfg s
  else .ok s

/-- A slot has the change. -/
def same (c d : Slot) : Bool := d.plus == c.plus && d.kind == c.kind && rfcCaseEq d.op c.op

/-- Already in there: duplicate. -/
def duplicate (c : Slot) (d : Option Slot) (_ : Bool) : Option Slot × Bool × Bool :=
  if d.any (same c) then (d, true, false) else (d, false, true)

/-- The first slot that is free is taken. -/
def occupy (c : Slot) (d : Option Slot) (_ : Bool) : Option Slot × Bool × Bool :=
  match d with
  | none => (some c, true, false)
  | some d => (some d, false, true)

/-- The line is sent if its parameters would get too long. -/
def makeRoom (l : Int) : Except Fault State :=
  if cfg.modeBufLen < s.chan.bytes + l then flushMode cfg s else .ok s

/-- An op-type mode change that is not in a slot yet. -/
def storeSlot (c : Slot) : Except Fault State := do
  let l : Int := c.op.length + 1
  let s ← makeRoom cfg s l
  let r ← overSlots cfg (occupy c) s.chan.cmode false
  .ok { s with
    chan := { s.chan with cmode := r.1, bytes := if r.2 then s.chan.bytes + l else s.chan.bytes }
    accepted := s.accepted ++ [⟨c.plus, c.kind.letter, c.op⟩] }

def countDown (d : Option Slot) (modes : Int) : Option Slot × Int × Bool :=
  (d, if d.isSome then modes - 1 else modes, true)

/-- Check for full buffer, and flush modes if it is. -/
def flushFull : Except Fault State := do
  let r ← overSlots cfg countDown s.chan.cmode cfg.modesperline
  let modes := r.2
    - (if cfg.includeLk ∧ s.chan.limit ≠ 0 then 1 else 0)
    - (if cfg.includeLk ∧ s.chan.rmkey.isSome then 1 else 0)
    - (if cfg.includeLk ∧ s.chan.key.isSome then 1 else 0)
  if modes < 1 then flushMode cfg s else .ok s

/-- Queue a channel mode change. -/
def realAddMode (plus : Bool) (mode : Char) (op : CStr) : Except Fault State :=
  if halfopCantdomode s.chan mode then .ok s
  else
    match Kind.ofMode mode with
    | some kind =>
      match markSent s.chan plus kind op with
      | none => .ok s
      | some chan => do
        let s ← separate cfg { s with chan } mode
        if maskRefused cfg s.chan plus kind op then .ok s
        else
          let r ← overSlots cfg (duplicate ⟨plus, kind, op⟩) s.chan.cmode false
          if r.2 then .ok s
          else
            let s ← storeSlot cfg s ⟨plus, kind, op⟩
            flushFull cfg s
    | none => do
      let s ← separate cfg s mode
      let s ← s.storeOther plus mode op
      flushFull cfg s

end Functions

/-! ### What the loops do -/

section Passes

variable {cmode : List (Option Slot)}

theorem pass_send (plus : Bool) (o : Out) :
    Cells.pass (send plus) cmode o = ((Out.slots plus cmode o).1, (Out.slots plus cmode o).2, true) := by
  induction cmode generalizing o with
  | nil => rfl
  | cons d cmode ih =>
    rcases d with _ | c
    · rw [Cells.pass, send, if_pos rfl, ih, Out.slots]
    · rw [Cells.pass, send, Out.slots]
      split
      · rw [if_pos rfl, ih]
      · rw [if_pos rfl, ih]

theorem pass_duplicate (c : Slot) :
    Cells.pass (duplicate c) cmode false =
      (cmode, cmode.any (·.any (same c)), !cmode.any (·.any (same c))) := by
  induction cmode with
  | nil => rfl
  | cons d cmode ih =>
    rw [Cells.pass, duplicate, any_cons]
    split
    · next h =>
      rw [if_neg (by simp), h]
      rfl
    · next h =>
      rw [Bool.not_eq_true] at h
      rw [if_pos rfl, ih, h]
      rfl

theorem pass_occupy (c : Slot) :
    Cells.pass (occupy c) cmode false = match takeSlot c cmode with
      | some cmode' => (cmode', true, false)
      | none => (cmode, false, true) := by
  induction cmode with
  | nil => rfl
  | cons d cmode ih =>
    rcases d with _ | d
    · rfl
    · rw [Cells.pass, occupy, if_pos rfl, ih, takeSlot]
      rcases takeSlot c cmode with _ | cmode'
      · rfl
      · rfl

theorem pass_countDown (modes : Int) :
    Cells.pass countDown cmode modes = (cmode, modes - cmode.countP Option.isSome, true) := by
  induction cmode generalizing modes with
  | nil => simp [Cells.pass]
  | cons d cmode ih =>
    rw [Cells.pass, countDown, if_pos rfl, ih, countP_cons]
    rcases d with _ | d
    · rfl
    · simp only [Option.isSome_some, if_true, Prod.mk.injEq, true_and, and_true]
      omega

end Passes

/-! ### In bounds -/

section InBounds

variable {cfg : Cfg} {s : State} {α : Type} {visit : Option Slot → α → Option Slot × α × Bool}
  {cmode : List (Option Slot)}

theorem overSlots_eq (hlen : cmode.length = modesPerLineMax) (hmax : cfg.modesperline ≤ modesPerLineMax)
    (a : α) :
    overSlots cfg visit cmode a =
      .ok ((Cells.pass visit (cmode.take cfg.modesperline.toNat) a).1 ++
          cmode.drop cfg.modesperline.toNat,
        (Cells.pass visit (cmode.take cfg.modesperline.toNat) a).2.1) :=
  Cells.loop_eq_ok (by omega) a

theorem overSlots_eq_of_lt (hlen : cmode.length = modesPerLineMax)
    (hmax : (modesPerLineMax : Int) < cfg.modesperline) (a : α) :
    overSlots cfg visit cmode a =
      if (Cells.pass visit cmode a).2.2 = true then .error .slots
      else .ok ((Cells.pass visit cmode a).1, (Cells.pass visit cmode a).2.1) := by
  rw [overSlots, Cells.loop_eq, take_of_length_le (by omega), drop_of_length_le (by omega), append_nil]
  have hlt : cmode.length < cfg.modesperline.toNat := by omega
  simp only [hlt, and_true]

theorem length_overSlots (cmode : List (Option Slot)) (a : α) :
    Ensures (overSlots cfg visit cmode a) fun r => r.1.length = cmode.length :=
  Cells.loop_length _ _ _

theorem length_slots (plus : Bool) (o : Out) : (Out.slots plus cmode o).1.length = cmode.length := by
  have hlen : (Cells.pass (send plus) cmode o).1.length = cmode.length := Cells.length_pass cmode o
  rwa [pass_send] at hlen

/-- The number of slots is that of the array. -/
def Sized (s : State) : Prop := s.chan.cmode.length = modesPerLineMax

theorem sized_flushMode (h : Sized s) : Ensures (flushMode cfg s) Sized := by
  rw [flushMode]
  refine (length_overSlots _ _).bind fun minus hminus => ?_
  refine (length_overSlots _ _).bind fun plus hplus => ?_
  have hlen : plus.1.length = modesPerLineMax := hplus.trans (hminus.trans h)
  exact Ensures.ite (fun _ => Ensures.ok hlen) fun _ => Ensures.ok hlen

theorem sized_separate (h : Sized s) (mode : Char) : Ensures (separate cfg s mode) Sized := by
  rw [separate]
  refine Ensures.ite (fun _ => Ensures.ok h) fun _ => Ensures.ite (fun _ => ?_) fun _ => ?_
  · exact Ensures.ite (fun _ => sized_flushMode h) fun _ => Ensures.ok h
  · exact Ensures.ite (fun _ => sized_flushMode h) fun _ => Ensures.ok h

theorem sized_makeRoom (h : Sized s) (l : Int) : Ensures (makeRoom cfg s l) Sized :=
  Ensures.ite (fun _ => sized_flushMode h) fun _ => Ensures.ok h

theorem sized_storeSlot (h : Sized s) (c : Slot) : Ensures (storeSlot cfg s c) Sized := by
  rw [storeSlot]
  refine (sized_makeRoom h _).bind fun t ht => ?_
  exact (length_overSlots _ _).bind fun r hr => Ensures.ok (hr.trans ht)

theorem sized_flushFull (h : Sized s) : Ensures (flushFull cfg s) Sized := by
  rw [flushFull]
  refine Ensures.bind' fun r _ => ?_
  exact Ensures.ite (fun _ => sized_flushMode h) fun _ => Ensures.ok h

theorem sized_storeOther (h : Sized s) (plus : Bool) (mode : Char) (op : CStr) :
    Ensures (s.storeOther plus mode op) Sized := by
  rw [storeOther]
  refine Ensures.ite (fun _ => Ensures.ok h) fun _ => Ensures.ite (fun _ => Ensures.ok h) fun _ =>
    Ensures.ite (fun _ => Ensures.ok h) fun _ => ?_
  rw [storeLetter]
  refine Ensures.ite (fun _ => Ensures.ok h) fun _ => Ensures.ite (fun _ => Ensures.error) fun _ => ?_
  refine Ensures.ok ?_
  rcases plus with _ | _
  · exact h
  · exact h

theorem markSent_eq {chan chan' : Chan} {plus : Bool} {kind : Kind} {op : CStr}
    (h : markSent chan plus kind op = some chan') : ∃ member, chan' = { chan with member } := by
  rw [markSent] at h
  split at h
  · exact ⟨chan.member, (Option.some.inj h).symm⟩
  · split at h
    · cases h
    · split at h
      · cases h
      · exact ⟨_, (Option.some.inj h).symm⟩

theorem sized_realAddMode (h : Sized s) (plus : Bool) (mode : Char) (op : CStr) :
    Ensures (realAddMode cfg s plus mode op) Sized := by
  rw [realAddMode]
  refine Ensures.ite (fun _ => Ensures.ok h) fun _ => ?_
  rcases Kind.ofMode mode with _ | kind
  · refine (sized_separate h mode).bind fun t ht => ?_
    exact (sized_storeOther ht plus mode op).bind fun u hu => sized_flushFull hu
  · dsimp only
    rcases hmark : markSent s.chan plus kind op with _ | chan
    · exact Ensures.ok h
    · obtain ⟨member, rfl⟩ := markSent_eq hmark
      dsimp only
      have hmarked : Sized { s with chan := { s.chan with member } } := h
      refine (sized_separate hmarked mode).bind fun t ht => ?_
      refine Ensures.ite (fun _ => Ensures.ok ht) fun _ => Ensures.bind' fun r _ => ?_
      refine Ensures.ite (fun _ => Ensures.ok ht) fun _ => ?_
      exact (sized_storeSlot ht _).bind fun u hu => sized_flushFull hu

end InBounds

/-! ### What Mode says of them -/

section Refines

/-- The same, but where Mode has a fault for the limit. -/
def Agrees {α : Type} (x y : Except Fault α) : Prop := y ≠ .error .limit → x = y

variable {cfg : Cfg} {s : State}

section Rules

variable {α β : Type} {x y x' y' : Except Fault α}

theorem Agrees.refl (x : Except Fault α) : Agrees x x := fun _ => rfl

theorem Agrees.ite {p : Prop} [Decidable p] (h : p → Agrees x y) (h' : ¬ p → Agrees x' y') :
    Agrees (if p then x else x') (if p then y else y') := by
  split
  · next hp => exact h hp
  · next hp => exact h' hp

theorem Agrees.bind {P : α → Prop} {f g : α → Except Fault β} (h : Agrees x y) (hx : Ensures x P)
    (hf : ∀ a, P a → Agrees (f a) (g a)) : Agrees (x >>= f) (y >>= g) := by
  intro hne
  have hxy : x = y := h fun hy => hne (by rw [hy]; rfl)
  rw [hxy] at hx ⊢
  rcases y with e | a
  · rfl
  · exact hf a (hx a rfl) hne

end Rules

theorem flushMode_eq (h : Sized s) : Agrees (flushMode cfg s) (s.flushMode cfg) := by
  intro hne
  rw [State.flushMode] at hne ⊢
  have hlimit : ¬ (s.chan.limit = intMin ∧ 12 ≤ (beforeLimit s.chan).postsize) := fun hlimit =>
    hne (if_pos hlimit)
  rw [if_neg hlimit, flushMode]
  dsimp only
  by_cases hmax : (modesPerLineMax : Int) < cfg.modesperline
  · rw [if_pos hmax, overSlots_eq_of_lt h hmax, pass_send, if_pos rfl]
    rfl
  · have hle : cfg.modesperline ≤ modesPerLineMax := by omega
    rw [if_neg hmax, overSlots_eq h hle, pass_send]
    generalize ho : withRmkey s.chan (withLimit s.chan (beforeLimit s.chan)) = o
    generalize hminus : Out.slots false (s.chan.cmode.take cfg.modesperline.toNat) o = minus
    have hsized : s.chan.cmode.length = modesPerLineMax := h
    have hlen₁ : minus.1.length = cfg.modesperline.toNat := by
      rw [← hminus, length_slots, length_take]
      omega
    have hlen₂ : (minus.1 ++ s.chan.cmode.drop cfg.modesperline.toNat).length = modesPerLineMax := by
      rw [length_append, length_drop]
      omega
    show (overSlots cfg (send true) (minus.1 ++ s.chan.cmode.drop cfg.modesperline.toNat) minus.2
      >>= fun plus => _) = _
    rw [overSlots_eq hlen₂ hle, pass_send, take_left' hlen₁, drop_left' hlen₁, assemble]
    dsimp only
    rw [ho, hminus]
    rfl

theorem separate_eq (h : Sized s) (mode : Char) :
    Agrees (separate cfg s mode) (s.separate cfg mode) := by
  rw [separate, State.separate]
  refine .ite (fun _ => .refl _) fun _ => .ite (fun _ => ?_) fun _ => ?_
  · exact .ite (fun _ => flushMode_eq h) fun _ => .refl _
  · exact .ite (fun _ => flushMode_eq h) fun _ => .refl _

theorem storeSlot_eq (h : Sized s) (hmax : cfg.modesperline ≤ modesPerLineMax) (c : Slot) :
    Agrees (storeSlot cfg s c) (s.storeSlot cfg c) := by
  have hfirst (t : State) (ht : Sized t) :
      Agrees (overSlots cfg (occupy c) t.chan.cmode false >>= fun r => (.ok { t with
        chan := { t.chan with
          cmode := r.1, bytes := if r.2 then t.chan.bytes + (c.op.length + 1) else t.chan.bytes }
        accepted := t.accepted ++ [⟨c.plus, c.kind.letter, c.op⟩] } : Except Fault State))
      (match takeSlot c (t.chan.cmode.take cfg.modesperline.toNat) with
        | some cmode => .ok { t with
            chan := { t.chan with
              cmode := cmode ++ t.chan.cmode.drop cfg.modesperline.toNat
              bytes := t.chan.bytes + (c.op.length + 1) }
            accepted := t.accepted ++ [⟨c.plus, c.kind.letter, c.op⟩] }
        | none => .ok { t with accepted := t.accepted ++ [⟨c.plus, c.kind.letter, c.op⟩] }) := by
    intro _
    rw [overSlots_eq ht hmax, pass_occupy]
    rcases takeSlot c (t.chan.cmode.take cfg.modesperline.toNat) with _ | cmode
    · show Except.ok _ = Except.ok _
      simp
    · rfl
  rw [storeSlot, State.storeSlot, makeRoom]
  dsimp only
  split
  · exact .bind (flushMode_eq h) (sized_flushMode h) hfirst
  · exact .bind (.refl _) (Ensures.ok h) hfirst

theorem flushFull_eq (h : Sized s) : Agrees (flushFull cfg s) (s.flushFull cfg) := by
  rw [flushFull, State.flushFull]
  by_cases hmax : (modesPerLineMax : Int) < cfg.modesperline
  · rw [if_pos hmax, overSlots_eq_of_lt h hmax, pass_countDown, if_pos rfl]
    exact .refl _
  · rw [if_neg hmax, overSlots_eq h (by omega), pass_countDown]
    have hiff : cfg.modesperline - waiting cfg s.chan < 1 ↔
        cfg.modesperline - (s.chan.cmode.take cfg.modesperline.toNat).countP Option.isSome
          - (if cfg.includeLk ∧ s.chan.limit ≠ 0 then 1 else 0)
          - (if cfg.includeLk ∧ s.chan.rmkey.isSome then 1 else 0)
          - (if cfg.includeLk ∧ s.chan.key.isSome then 1 else 0) < 1 := by
      rw [waiting]
      split <;> split <;> split <;> omega
    rw [if_congr hiff rfl rfl]
    exact .ite (fun _ => flushMode_eq h) fun _ => .refl _

theorem realAddMode_eq (h : Sized s) (hmax : cfg.modesperline ≤ modesPerLineMax) (plus : Bool)
    (mode : Char) (op : CStr) :
    Agrees (realAddMode cfg s plus mode op) (s.realAddMode cfg plus mode op) := by
  have hnot : ¬ (modesPerLineMax : Int) < cfg.modesperline := by omega
  rw [realAddMode, State.realAddMode]
  refine .ite (fun _ => .refl _) fun _ => ?_
  rcases Kind.ofMode mode with _ | kind
  · refine .bind (separate_eq h mode) (sized_separate h mode) fun t ht => ?_
    exact .bind (.refl _) (sized_storeOther ht plus mode op) fun u hu => flushFull_eq hu
  · dsimp only
    rcases hmark : markSent s.chan plus kind op with _ | chan
    · exact .refl _
    · obtain ⟨member, rfl⟩ := markSent_eq hmark
      have hmarked : Sized { s with chan := { s.chan with member } } := h
      refine .bind (separate_eq hmarked mode) (sized_separate hmarked mode) fun t ht => ?_
      refine .ite (fun _ => .refl _) fun _ => ?_
      rw [if_neg hnot, overSlots_eq ht hmax, pass_duplicate]
      refine .ite (fun _ => .refl _) fun _ => ?_
      exact .bind (storeSlot_eq ht hmax _) (sized_storeSlot ht _) fun u hu => flushFull_eq hu

end Refines

/-! ### Out of bounds -/

/-- What waits has to be sent first, to keep `e` and `I` apart. -/
def Mixed (cfg : Cfg) (chan : Chan) (mode : Char) : Prop :=
  cfg.preventMixing = true ∧ chan.compat = if mode = 'e' ∨ mode = 'I' then 1 else 2

instance (cfg : Cfg) (chan : Chan) (mode : Char) : Decidable (Mixed cfg chan mode) :=
  inferInstanceAs (Decidable (_ ∧ _))

/-- A letter that there is no room for in `pls` or `mns`. -/
def Full (chan : Chan) (plus : Bool) (mode : Char) : Prop :=
  ¬ mode = 'k' ∧ ¬ (plus = true ∧ mode = 'l') ∧
    strchr (if plus then chan.pls else chan.mns) mode = false ∧
    20 ≤ (if plus then chan.pls else chan.mns).length

instance (chan : Chan) (plus : Bool) (mode : Char) : Decidable (Full chan plus mode) :=
  inferInstanceAs (Decidable (_ ∧ _ ∧ _ ∧ _))

/-- A request gets to a loop over the slots that goes up to `modesperline`: it is not refused for lack
of op, for the state of the member, for the lists of masks, and is not found in a slot. -/
def Reaches (cfg : Cfg) (chan : Chan) (plus : Bool) (mode : Char) (op : CStr) : Prop :=
  halfopCantdomode chan mode = false ∧
    match Kind.ofMode mode with
    | some kind =>
      (markSent chan plus kind op).isSome = true ∧
        (Mixed cfg chan mode ∨ maskRefused cfg chan plus kind op = false ∧
          chan.cmode.any (·.any (same ⟨plus, kind, op⟩)) = false)
    | none => Mixed cfg chan mode ∨ ¬ Full chan plus mode

section Faults

variable {cfg : Cfg} {s : State}

theorem separate_of_mixed {mode : Char} (h : Mixed cfg s.chan mode) :
    separate cfg s mode = flushMode cfg s := by
  obtain ⟨hprevent, hcompat⟩ := h
  rw [separate]
  dsimp only
  by_cases hlist : mode = 'e' ∨ mode = 'I'
  · rw [if_pos hlist] at hcompat
    rw [if_neg (by omega), if_pos hlist, if_pos ⟨hprevent, hcompat⟩]
  · rw [if_neg hlist] at hcompat
    rw [if_neg (by omega), if_neg hlist, if_pos ⟨hprevent, hcompat⟩]

theorem separate_of_not_mixed {mode : Char} (h : ¬ Mixed cfg s.chan mode) :
    ∃ compat, separate cfg s mode = .ok { s with chan := { s.chan with compat } } := by
  rw [Mixed, not_and] at h
  rw [separate]
  dsimp only
  by_cases hzero : s.chan.compat = 0
  · rw [if_pos hzero]
    exact ⟨_, rfl⟩
  · rw [if_neg hzero]
    by_cases hlist : mode = 'e' ∨ mode = 'I'
    · rw [if_pos hlist] at h
      rw [if_pos hlist, if_neg fun hc => h hc.1 hc.2]
      exact ⟨s.chan.compat, rfl⟩
    · rw [if_neg hlist] at h
      rw [if_neg hlist, if_neg fun hc => h hc.1 hc.2]
      exact ⟨s.chan.compat, rfl⟩

theorem storeOther_ne (plus : Bool) (mode : Char) (op : CStr) :
    s.storeOther plus mode op ≠ .error .slots := by
  rw [storeOther]
  refine ite_ne_error (fun _ => nofun) fun _ => ite_ne_error (fun _ => nofun) fun _ =>
    ite_ne_error (fun _ => nofun) fun _ => ?_
  rw [storeLetter]
  exact ite_ne_error (fun _ => nofun) fun _ => ite_ne_error (fun _ => nofun) fun _ => nofun

/-- A letter without room is the other fault. -/
theorem storeOther_ok_iff (plus : Bool) (mode : Char) (op : CStr) :
    (∃ t, s.storeOther plus mode op = .ok t) ↔ ¬ Full s.chan plus mode := by
  rw [storeOther, Full]
  by_cases hk : mode = 'k'
  · rcases plus with _ | _
    · rw [if_neg (by simp), if_pos (by simp [hk])]
      exact iff_of_true ⟨_, rfl⟩ fun h => h.1 hk
    · rw [if_pos (by simp [hk])]
      exact iff_of_true ⟨_, rfl⟩ fun h => h.1 hk
  · rw [if_neg (by simp [hk]), if_neg (by simp [hk])]
    by_cases hl : plus = true ∧ mode = 'l'
    · rw [if_pos hl]
      exact iff_of_true ⟨_, rfl⟩ fun h => h.2.1 hl
    · rw [if_neg hl, storeLetter]
      dsimp only
      by_cases hthere : strchr (if plus then s.chan.pls else s.chan.mns) mode = true
      · rw [if_pos hthere]
        exact iff_of_true ⟨_, rfl⟩ fun h => by simp [hthere] at h
      · rw [if_neg hthere]
        rw [Bool.not_eq_true] at hthere
        by_cases hfull : 20 ≤ (if plus then s.chan.pls else s.chan.mns).length
        · rw [if_pos hfull]
          exact iff_of_false (fun ⟨_, h⟩ => nomatch h) fun h => h ⟨hk, hl, hthere, hfull⟩
        · rw [if_neg hfull]
          exact iff_of_true ⟨_, rfl⟩ fun h => hfull h.2.2.2

section Above

variable (hmax : (modesPerLineMax : Int) < cfg.modesperline)

include hmax

theorem flushMode_fault (h : Sized s) : flushMode cfg s = .error .slots := by
  rw [flushMode, overSlots_eq_of_lt h hmax, pass_send, if_pos rfl]
  rfl

theorem flushFull_fault (h : Sized s) : flushFull cfg s = .error .slots := by
  rw [flushFull, overSlots_eq_of_lt h hmax, pass_countDown, if_pos rfl]
  rfl

/-- With a larger setting a request leaves the array exactly if it gets to the slots. -/
theorem realAddMode_fault_iff (h : Sized s) (plus : Bool) (mode : Char) (op : CStr) :
    realAddMode cfg s plus mode op = .error .slots ↔ Reaches cfg s.chan plus mode op := by
  rw [realAddMode, Reaches]
  by_cases hop : halfopCantdomode s.chan mode = true
  · rw [if_pos hop, hop]
    exact iff_of_false (fun h => nomatch h) fun h => nomatch h.1
  rw [if_neg hop]
  rw [Bool.not_eq_true] at hop
  rw [hop, and_iff_right rfl]
  rcases Kind.ofMode mode with _ | kind
  · dsimp only
    by_cases hmixed : Mixed cfg s.chan mode
    · rw [separate_of_mixed hmixed, flushMode_fault hmax h]
      exact iff_of_true rfl (.inl hmixed)
    · obtain ⟨compat, hsep⟩ := separate_of_not_mixed hmixed
      rw [hsep, or_iff_right hmixed]
      generalize ht : ({ s with chan := { s.chan with compat } } : State) = t
      have hsized : Sized t := by
        rw [← ht]
        exact h
      have hfull : Full s.chan plus mode ↔ Full t.chan plus mode := by
        rw [← ht]
        exact Iff.rfl
      rw [hfull, ← storeOther_ok_iff plus mode op]
      show (t.storeOther plus mode op >>= fun u => flushFull cfg u) = _ ↔ _
      have hother := sized_storeOther hsized plus mode op
      have hne := storeOther_ne (s := t) plus mode op
      generalize t.storeOther plus mode op = y at hother hne ⊢
      rcases y with f | u
      · exact iff_of_false hne fun ⟨_, h⟩ => nomatch h
      · exact iff_of_true (flushFull_fault hmax (hother u rfl)) ⟨u, rfl⟩
  · dsimp only
    rcases hmark : markSent s.chan plus kind op with _ | chan
    · exact iff_of_false (fun h => nomatch h) fun h => nomatch h.1
    · obtain ⟨member, rfl⟩ := markSent_eq hmark
      dsimp only
      rw [Option.isSome_some, and_iff_right rfl]
      generalize ht : ({ s with chan := { s.chan with member } } : State) = t
      have hsized : Sized t := by
        rw [← ht]
        exact h
      have hsame : s.chan.cmode = t.chan.cmode ∧ (Mixed cfg s.chan mode ↔ Mixed cfg t.chan mode) ∧
          maskRefused cfg s.chan plus kind op = maskRefused cfg t.chan plus kind op := by
        rw [← ht]
        exact ⟨rfl, Iff.rfl, rfl⟩
      rw [hsame.1, hsame.2.1, hsame.2.2]
      by_cases hmixed : Mixed cfg t.chan mode
      · rw [separate_of_mixed hmixed, flushMode_fault hmax hsized]
        exact iff_of_true rfl (.inl hmixed)
      · obtain ⟨compat, hsep⟩ := separate_of_not_mixed hmixed
        rw [hsep, or_iff_right hmixed]
        show (if maskRefused cfg t.chan plus kind op = true then _ else
          overSlots cfg (duplicate ⟨plus, kind, op⟩) t.chan.cmode false >>= fun r => _) = _ ↔ _
        by_cases hrefused : maskRefused cfg t.chan plus kind op = true
        · rw [if_pos hrefused, hrefused]
          exact iff_of_false (fun h => nomatch h) fun h => nomatch h.1
        · rw [if_neg hrefused, overSlots_eq_of_lt hsized hmax, pass_duplicate]
          rw [Bool.not_eq_true] at hrefused
          rw [hrefused, and_iff_right rfl]
          rcases t.chan.cmode.any (·.any (same ⟨plus, kind, op⟩)) with _ | _
          · exact iff_of_true rfl rfl
          · exact iff_of_false (fun h => nomatch h) fun h => nomatch h

end Above

section Below

variable (hmax : cfg.modesperline ≤ modesPerLineMax)

include hmax

theorem overSlots_ne {α : Type} {visit : Option Slot → α → Option Slot × α × Bool}
    {cmode : List (Option Slot)} (h : cmode.length = modesPerLineMax) (a : α) :
    overSlots cfg visit cmode a ≠ .error .slots := by
  rw [overSlots_eq h hmax]
  exact nofun

theorem flushMode_ne (h : Sized s) : flushMode cfg s ≠ .error .slots := by
  rw [flushMode]
  refine bind_ne_error (overSlots_ne hmax h _) fun minus hminus => ?_
  have hlen : minus.1.length = modesPerLineMax := (length_overSlots _ _ minus hminus).trans h
  refine bind_ne_error (overSlots_ne hmax hlen _) fun plus _ => ?_
  exact ite_ne_error (fun _ => nofun) fun _ => nofun

theorem separate_ne (h : Sized s) (mode : Char) : separate cfg s mode ≠ .error .slots := by
  by_cases hmixed : Mixed cfg s.chan mode
  · rw [separate_of_mixed hmixed]
    exact flushMode_ne hmax h
  · obtain ⟨compat, hsep⟩ := separate_of_not_mixed hmixed
    rw [hsep]
    exact nofun

theorem storeSlot_ne (h : Sized s) (c : Slot) : storeSlot cfg s c ≠ .error .slots := by
  rw [storeSlot]
  refine bind_ne_error (ite_ne_error (fun _ => flushMode_ne hmax h) fun _ => nofun) fun t ht => ?_
  exact bind_ne_error (overSlots_ne hmax (sized_makeRoom h _ t ht) _) fun _ _ => nofun

theorem flushFull_ne (h : Sized s) : flushFull cfg s ≠ .error .slots := by
  rw [flushFull]
  refine bind_ne_error (overSlots_ne hmax h _) fun _ _ => ?_
  exact ite_ne_error (fun _ => flushMode_ne hmax h) fun _ => nofun

theorem realAddMode_ne (h : Sized s) (plus : Bool) (mode : Char) (op : CStr) :
    realAddMode cfg s plus mode op ≠ .error .slots := by
  rw [realAddMode]
  refine ite_ne_error (fun _ => nofun) fun _ => ?_
  rcases Kind.ofMode mode with _ | kind
  · refine bind_ne_error (separate_ne hmax h mode) fun t ht => ?_
    have hsized := sized_separate h mode t ht
    refine bind_ne_error (storeOther_ne plus mode op) fun u hu => ?_
    exact flushFull_ne hmax (sized_storeOther hsized plus mode op u hu)
  · dsimp only
    rcases hmark : markSent s.chan plus kind op with _ | chan
    · exact nofun
    · obtain ⟨member, rfl⟩ := markSent_eq hmark
      dsimp only
      have hmarked : Sized { s with chan := { s.chan with member } } := h
      refine bind_ne_error (separate_ne hmax hmarked mode) fun t ht => ?_
      have hsized := sized_separate hmarked mode t ht
      refine ite_ne_error (fun _ => nofun) fun _ => bind_ne_error (overSlots_ne hmax hsized _) fun _ _ => ?_
      refine ite_ne_error (fun _ => nofun) fun _ => bind_ne_error (storeSlot_ne hmax hsized _) fun u hu => ?_
      exact flushFull_ne hmax (sized_storeSlot hsized _ u hu)

end Below

theorem slots_of_realAddMode (h : Sized s) (plus : Bool) (mode : Char) (op : CStr) :
    realAddMode cfg s plus mode op ≠ .error .slots ↔
      (Reaches cfg s.chan plus mode op → cfg.modesperline ≤ modesPerLineMax) := by
  by_cases hmax : cfg.modesperline ≤ modesPerLineMax
  · exact iff_of_true (realAddMode_ne hmax h plus mode op) fun _ => hmax
  · rw [ne_eq, realAddMode_fault_iff (by omega) h]
    exact ⟨fun hnot hreaches => absurd hreaches hnot, fun himp hreaches => hmax (himp hreaches)⟩

theorem slots_of_flushMode (h : Sized s) :
    flushMode cfg s ≠ .error .slots ↔ cfg.modesperline ≤ modesPerLineMax := by
  by_cases hmax : cfg.modesperline ≤ modesPerLineMax
  · exact iff_of_true (flushMode_ne hmax h) hmax
  · exact iff_of_false (fun hne => hne (flushMode_fault (by omega) h)) hmax

end Faults

end Eggdrop.Irc.ModeSlots
