import Eggdrop.Irc.LineBounds
import Eggdrop.Irc.ModeSlots

/-!
# SlotRuns — requests for modes while the setting changes

The settings of irc.mod are globals that the numerics of the server, the net type and Tcl change, in
any order with the handlers that ask for modes and with the hook that sends what waits when the bot is
idle.

* `flushModes_ne`: the hook brings the setting down before it touches a slot.
* `slots_throughout_iff`: a run stays in the arrays exactly if the setting is in bounds at every step
  that gets to the slots outside the hook.
-/

open List

namespace Eggdrop.Irc.ModeSlots

open State

/-! ### The settings -/

/-- `irc_isupport`: what 005 says of a setting, or that it does not say it any longer. -/
def ircIsupport (key : CStr) (value : Option CStr) (cfg : Cfg) : Cfg :=
  if key = "MODES".toList then { cfg with modesperline := Isupport.parseint value 3 64 3 }
  else if key = "MAXLIST".toList then
    let l := (MaxList.parseMaxlist value).2
    { cfg with maxBans := l.bans, maxExempts := l.exempts, maxInvites := l.invites, maxModes := l.modes }
  else if key = "MAXEXCEPTS".toList then
    let n := Isupport.parseint value 10 100000 20
    { cfg with maxExempts := n, maxModes := max n cfg.maxModes }
  else if key = "MAXBANS".toList then
    let n := Isupport.parseint value 10 100000 30
    { cfg with maxBans := n, maxModes := max n cfg.maxModes }
  else cfg

inductive NetType where
  | efnet | hybridEfnet | libera | freenode | ircnet | undernet | dalnet | quakenet | rizon | twitch
  | other

/-- `do_nettype`. -/
def doNettype (cfg : Cfg) : NetType → Cfg
  | .efnet | .hybridEfnet | .libera | .freenode | .twitch =>
    { cfg with
      modesperline := 4, maxBans := 100, maxExempts := 100, maxInvites := 100, maxModes := 100
      includeLk := false }
  | .ircnet =>
    { cfg with
      modesperline := 3, maxBans := 64, maxExempts := 64, maxInvites := 64, maxModes := 64
      includeLk := true }
  | .undernet =>
    { cfg with
      modesperline := 6, maxBans := 100, maxExempts := 0, maxInvites := 0, maxModes := 100
      includeLk := true }
  | .dalnet =>
    { cfg with
      modesperline := 6, maxBans := 200, maxExempts := 100, maxInvites := 100, maxModes := 400
      includeLk := true }
  | .quakenet =>
    { cfg with
      modesperline := 6, maxBans := 45, maxExempts := 0, maxInvites := 0, maxModes := 45
      includeLk := true }
  | .rizon =>
    { cfg with
      modesperline := 4, maxBans := 250, maxExempts := 250, maxInvites := 250, maxModes := 250
      includeLk := false }
  | .other => cfg

/-! ### The bot -/

/-- A channel, and for each of its members the time of a delayed op; 0 is none. -/
structure Channel where
  state : State
  delay : List Int

structure Bot where
  cfg : Cfg
  chanset : List Channel

/-- A channel as it looks, with the queue of another. -/
def withQueue (look queue : Chan) : Chan :=
  { look with
    pls := queue.pls, mns := queue.mns, key := queue.key, rmkey := queue.rmkey, limit := queue.limit
    bytes := queue.bytes, compat := queue.compat, cmode := queue.cmode }

/-- A channel with nothing in its queue. -/
def fresh (look : Chan) : Chan :=
  { look with
    pls := [], mns := [], key := none, rmkey := none, limit := 0, bytes := 0, compat := 0
    cmode := replicate modesPerLineMax none }

/-! ### The hook -/

section Hook

variable (cfg : Cfg)

/-- `m->flags &= ~SENTOP` and the like. -/
def unmark (i : ℕ) (kind : Kind) (s : State) : State :=
  { s with chan := { s.chan with
    member := s.chan.member.modify i fun m =>
      { m with sent := fun p k => !(p && k == kind) && m.sent p k } } }

/-- The mode that a member was to get, if one was. -/
def delayedMode (i : ℕ) (kind : Kind) (s : State) : Except Fault State :=
  match s.chan.member[i]? with
  | none => .ok s
  | some m =>
    if m.sent true kind then realAddMode cfg (unmark i kind s) true kind.letter m.nick else .ok s

/-- The `i`th member, if the delay is over. -/
def delayed (now : Int) (i : ℕ) (c : Channel) : Except Fault Channel := do
  let t := c.delay.getD i 0
  if t ≠ 0 ∧ t ≤ now then
    let s ← delayedMode cfg i .chop c.state
    let s ← delayedMode cfg i .chhop s
    let s ← delayedMode cfg i .voice s
    .ok { state := s, delay := c.delay.set i 0 }
  else .ok c

/-- All the members, from the `i`th on. -/
def delayedFrom (now : Int) : ℕ → ℕ → Channel → Except Fault Channel
  | 0, _, c => .ok c
  | k + 1, i, c => do
    let c ← delayed cfg now i c
    delayedFrom now k (i + 1) c

def flushChannel (now : Int) (c : Channel) : Except Fault Channel := do
  let c ← delayedFrom cfg now c.state.chan.member.length 0 c
  let s ← flushMode cfg c.state
  .ok { c with state := s }

end Hook

/-- Flush the modes for every channel. -/
def flushModes (now : Int) (b : Bot) : Except Fault Bot := do
  let cfg := { b.cfg with modesperline :=
    if (modesPerLineMax : Int) < b.cfg.modesperline then modesPerLineMax else b.cfg.modesperline }
  let chanset ← b.chanset.mapM (flushChannel cfg now)
  .ok { cfg, chanset }

/-! ### Runs -/

inductive Event where
  /-- 005 sets a key or takes it back -/
  | isupport (key : CStr) (value : Option CStr)
  /-- variables are set in Tcl -/
  | tcl (cfg : Cfg)
  | nettype (t : NetType)
  /-- a channel is added, removed, or seen to have changed -/
  | add (look : Chan) (delay : List Int)
  | remove (i : ℕ)
  | see (i : ℕ) (look : Chan) (delay : List Int)
  /-- a handler asks for a mode, or that what waits is sent -/
  | addMode (i : ℕ) (plus : Bool) (mode : Char) (op : CStr)
  | flushMode (i : ℕ)
  /-- the bot is idle -/
  | flushModes (now : Int)

def onChannel (b : Bot) (i : ℕ) (f : State → Except Fault State) : Except Fault Bot :=
  match b.chanset[i]? with
  | none => .ok b
  | some c => (f c.state).map fun s => { b with chanset := b.chanset.set i { c with state := s } }

def step (b : Bot) : Event → Except Fault Bot
  | .isupport key value => .ok { b with cfg := ircIsupport key value b.cfg }
  | .tcl cfg => .ok { b with cfg }
  | .nettype t => .ok { b with cfg := doNettype b.cfg t }
  | .add look delay =>
    .ok { b with chanset := ⟨{ chan := fresh look, sent := [], accepted := [] }, delay⟩ :: b.chanset }
  | .remove i => .ok { b with chanset := b.chanset.eraseIdx i }
  | .see i look delay =>
    .ok { b with chanset := b.chanset.modify i fun c =>
      ⟨{ c.state with chan := withQueue look c.state.chan }, delay⟩ }
  | .addMode i plus mode op => onChannel b i fun s => realAddMode b.cfg s plus mode op
  | .flushMode i => onChannel b i fun s => flushMode b.cfg s
  | .flushModes now => flushModes now b

/-- The setting is in bounds where the slots are gone through outside the hook. -/
def Within (b : Bot) : Event → Prop
  | .addMode i plus mode op => ∀ c, b.chanset[i]? = some c →
      Reaches b.cfg c.state.chan plus mode op → b.cfg.modesperline ≤ modesPerLineMax
  | .flushMode i => i < b.chanset.length → b.cfg.modesperline ≤ modesPerLineMax
  | _ => True

/-! ### One step -/

/-- Every channel has its slots. -/
def Bot.Sized (b : Bot) : Prop := ∀ c ∈ b.chanset, ModeSlots.Sized c.state

section Hook

variable {cfg : Cfg} {now : Int} {c : Channel}

theorem sized_delayedMode {s : State} (h : Sized s) (i : ℕ) (kind : Kind) :
    Ensures (delayedMode cfg i kind s) Sized := by
  rw [delayedMode]
  split
  · exact Ensures.ok h
  · refine Ensures.ite (fun _ => ?_) fun _ => Ensures.ok h
    exact sized_realAddMode (s := unmark i kind s) h true kind.letter _

theorem sized_delayed (h : Sized c.state) (i : ℕ) :
    Ensures (delayed cfg now i c) fun c => Sized c.state := by
  rw [delayed]
  refine Ensures.ite (fun _ => ?_) fun _ => Ensures.ok h
  refine (sized_delayedMode h i .chop).bind fun s hs => ?_
  refine (sized_delayedMode hs i .chhop).bind fun s hs => ?_
  exact (sized_delayedMode hs i .voice).bind fun s hs => Ensures.ok hs

theorem sized_delayedFrom (k i : ℕ) (h : Sized c.state) :
    Ensures (delayedFrom cfg now k i c) fun c => Sized c.state := by
  induction k generalizing i c with
  | zero => exact Ensures.ok h
  | succ k ih => exact (sized_delayed h i).bind fun c hc => ih (i + 1) hc

theorem sized_flushChannel (h : Sized c.state) :
    Ensures (flushChannel cfg now c) fun c => Sized c.state := by
  refine (sized_delayedFrom _ 0 h).bind fun c hc => ?_
  exact (sized_flushMode hc).bind fun s hs => Ensures.ok hs

variable (hmax : cfg.modesperline ≤ modesPerLineMax)

include hmax

theorem delayedMode_ne {s : State} (h : Sized s) (i : ℕ) (kind : Kind) :
    delayedMode cfg i kind s ≠ .error .slots := by
  rw [delayedMode]
  split
  · exact nofun
  · refine ite_ne_error (fun _ => ?_) fun _ => nofun
    exact realAddMode_ne (s := unmark i kind s) hmax h true kind.letter _

theorem delayed_ne (h : Sized c.state) (i : ℕ) : delayed cfg now i c ≠ .error .slots := by
  rw [delayed]
  refine ite_ne_error (fun _ => ?_) fun _ => nofun
  refine bind_ne_error (delayedMode_ne hmax h i .chop) fun s hs => ?_
  have hsized := sized_delayedMode h i .chop s hs
  refine bind_ne_error (delayedMode_ne hmax hsized i .chhop) fun t ht => ?_
  have hsized' := sized_delayedMode hsized i .chhop t ht
  exact bind_ne_error (delayedMode_ne hmax hsized' i .voice) fun _ _ => nofun

theorem delayedFrom_ne (k i : ℕ) (h : Sized c.state) : delayedFrom cfg now k i c ≠ .error .slots := by
  induction k generalizing i c with
  | zero => exact nofun
  | succ k ih =>
    refine bind_ne_error (delayed_ne hmax h i) fun c' hc' => ?_
    exact ih (i + 1) (sized_delayed h i c' hc')

theorem flushChannel_ne (h : Sized c.state) : flushChannel cfg now c ≠ .error .slots := by
  refine bind_ne_error (delayedFrom_ne hmax _ 0 h) fun c' hc' => ?_
  exact bind_ne_error (flushMode_ne hmax (sized_delayedFrom _ 0 h c' hc')) fun _ _ => nofun

end Hook

section Step

variable {b : Bot}

theorem sized_flushModes (h : b.Sized) (now : Int) : Ensures (flushModes now b) Bot.Sized :=
  (Ensures.mapM_forall fun c hc => sized_flushChannel (h c hc)).bind fun _ hs => Ensures.ok hs

theorem flushModes_ne (h : b.Sized) (now : Int) : flushModes now b ≠ .error .slots := by
  refine bind_ne_error (mapM_ne_error fun c hc => flushChannel_ne ?_ (h c hc)) fun _ _ => nofun
  dsimp only
  split
  · exact Int.le_refl _
  · omega

theorem sized_onChannel (h : b.Sized) (i : ℕ) {f : State → Except Fault State}
    (hf : ∀ s, Sized s → Ensures (f s) Sized) : Ensures (onChannel b i f) Bot.Sized := by
  rw [onChannel]
  split
  · exact Ensures.ok h
  · next c hc =>
    refine Ensures.map ((hf _ (h c (mem_of_getElem? hc))).mono fun s hs d hd => ?_)
    rcases mem_or_eq_of_mem_set hd with hd | rfl
    · exact h d hd
    · exact hs

theorem sized_step (h : b.Sized) (e : Event) : Ensures (step b e) Bot.Sized := by
  rcases e with ⟨key, value⟩ | cfg | t | ⟨look, delay⟩ | i | ⟨i, look, delay⟩ | ⟨i, plus, mode, op⟩ | i | now
  · exact Ensures.ok h
  · exact Ensures.ok h
  · exact Ensures.ok h
  · refine Ensures.ok fun c hc => ?_
    rcases mem_cons.1 hc with rfl | hc
    · exact length_replicate
    · exact h c hc
  · exact Ensures.ok fun c hc => h c (mem_of_mem_eraseIdx hc)
  · refine Ensures.ok fun c hc => ?_
    obtain ⟨j, hj, rfl⟩ := getElem_of_mem hc
    have hj' : j < b.chanset.length := by simpa using hj
    have hold := h _ (getElem_mem hj')
    show Sized (b.chanset.modify i _)[j].state
    rw [getElem_modify]
    split
    · exact hold
    · exact hold
  · exact sized_onChannel h i fun s hs => sized_realAddMode hs plus mode op
  · exact sized_onChannel h i fun s hs => sized_flushMode hs
  · exact sized_flushModes h now

theorem onChannel_ne_iff {i : ℕ} {f : State → Except Fault State} :
    onChannel b i f ≠ .error .slots ↔ ∀ c, b.chanset[i]? = some c → f c.state ≠ .error .slots := by
  rw [onChannel]
  rcases b.chanset[i]? with _ | c
  · exact iff_of_true nofun nofun
  · simp only [Option.some.injEq, forall_eq']
    generalize f c.state = x
    rcases x with f | s
    · exact ⟨fun h heq => h (by rw [Except.error.inj heq]; rfl),
        fun h heq => h (congrArg Except.error (Except.error.inj heq))⟩
    · exact iff_of_true nofun nofun

/-- A step stays in the arrays exactly if the setting is in bounds where it gets to the slots. -/
theorem step_ne_iff (h : b.Sized) (e : Event) : step b e ≠ .error .slots ↔ Within b e := by
  rcases e with ⟨key, value⟩ | cfg | t | ⟨look, delay⟩ | i | ⟨i, look, delay⟩ | ⟨i, plus, mode, op⟩ | i | now
  case addMode =>
    rw [step, Within, onChannel_ne_iff]
    exact forall_congr' fun c => imp_congr_right fun hc =>
      slots_of_realAddMode (h c (mem_of_getElem? hc)) plus mode op
  case flushMode =>
    rw [step, Within, onChannel_ne_iff]
    constructor
    · intro hne hi
      exact (slots_of_flushMode (h _ (getElem_mem hi))).1 (hne _ (getElem?_eq_getElem hi))
    · intro hle c hc
      obtain ⟨hi, -⟩ := List.getElem?_eq_some_iff.1 hc
      exact (slots_of_flushMode (h c (mem_of_getElem? hc))).2 (hle hi)
  case flushModes => exact iff_of_true (flushModes_ne h now) trivial
  all_goals exact iff_of_true nofun trivial

end Step

/-- A run, whatever settings the bot starts with, stays in the arrays exactly if the setting is in
bounds at every step that gets to the slots outside the hook. -/
theorem slots_throughout_iff (cfg : Cfg) (es : List Event) :
    Machine.run step { cfg, chanset := [] } es ≠ .error .slots ↔
      Machine.Along step Within { cfg, chanset := [] } es := by
  have hstart : Bot.Sized { cfg, chanset := [] } := fun _ hc => absurd hc not_mem_nil
  exact Machine.run_ne_error_iff_along (fun _ e h => step_ne_iff h e)
    (fun _ e s' h hs => sized_step h e s' hs) hstart es

/-- The server announces twenty modes for a line, and a handler asks for one before the bot is idle. -/
theorem slots_beyond :
    Machine.run step { cfg := .start, chanset := [] }
      [.isupport "MODES".toList (some "20".toList), .add State.joined.chan [],
        .addMode 0 false 'o' "ann".toList] = .error .slots := by
  rfl

end Eggdrop.Irc.ModeSlots
