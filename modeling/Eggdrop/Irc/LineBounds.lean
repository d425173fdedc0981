import Eggdrop.Irc.ModeQueue

/-!
# LineBounds — the lines that are sent

* `LineOk`: a line with the changes of some requests, one parameter for every letter that takes one,
  that is no longer than a line may be, has as many parameters as it may have, and does not mix what
  is to be kept apart.
* `Safe`: what a request must meet for the lines to be so.
* `lines_throughout`: in a run of such requests every line is.
-/

namespace Eggdrop.Irc

open List

/-- A line of changes that were asked for: what it says, and what the server reads. -/
def LineOk (cfg : Cfg) (name : CStr) (accepted : List Change) (text : CStr) : Prop :=
  ∃ cs, text = lineText name cs ∧ parseLine text = cs ∧ (∀ c ∈ cs, c.Proper ∧ c ∈ accepted) ∧
    text.length + 2 ≤ 512 ∧ (cs.countP (counted cfg) : Int) ≤ cfg.modesperline ∧
      (cfg.preventMixing = true → ∀ c ∈ cs, ∀ d ∈ cs, listMode c.mode = listMode d.mode)

/-- Every line so far. -/
def LinesOk (cfg : Cfg) (s : State) : Prop :=
  ∀ text ∈ s.sent, LineOk cfg s.chan.name s.accepted text

/-- What waits is of one class, which the channel knows if anything new has joined it. -/
def OfClass (b : Bool) (chan : Chan) : Prop :=
  (∀ c ∈ pending chan, listMode c.mode = b) ∧ (chan.compat = 0 ∨ chan.compat = if b then 2 else 1)

/-- Nothing of the other class is there where the channel has forgotten the class, or stays behind
where it is sent. -/
def Apart (cfg : Cfg) (chan : Chan) (mode : Char) : Prop :=
  cfg.preventMixing = true →
    ∀ c ∈ if chan.compat = 0 then pending chan else leftover chan, listMode c.mode = listMode mode

/-- A request that reaches the queue finds nothing there to be kept apart from, and one that is
stored fits. -/
def Safe (cfg : Cfg) (s : State) : State.Event → Prop
  | .addMode plus mode op => Reaches s plus mode op → Apart cfg s.chan mode ∧
      (Free cfg (s.separated cfg mode).chan plus mode op →
        Fits (request plus mode op) (s.separated cfg mode).chan)
  | .flushMode => True

structure Tidy (cfg : Cfg) (b : Bool) (s : State) : Prop where
  name : ' ' ∉ s.chan.name
  mem : ∀ c ∈ pending s.chan, c ∈ s.accepted
  apart : cfg.preventMixing = true → OfClass b s.chan
  lines : LinesOk cfg s

variable {cfg : Cfg} {s : State} {b : Bool} {c : Change} {chan' : Chan} {plus : Bool} {mode : Char}
  {op : CStr}

theorem Tidy.lineOk (h : Tidy cfg b s) (hq : Queued cfg 1 s.chan) :
    LineOk cfg s.chan.name s.accepted (lineText s.chan.name (flushed s.chan)) := by
  have hsub : ∀ c ∈ flushed s.chan, c ∈ pending s.chan := fun c hc => mem_append_left _ hc
  have hcount : (flushed s.chan).countP (counted cfg) ≤ (pending s.chan).countP (counted cfg) :=
    (sublist_append_left _ _).countP_le
  have hfew := hq.few
  have hlen := hq.length_lineText_le
  have hproper : ∀ c ∈ flushed s.chan, c.Proper := fun c hc => hq.proper c (hsub c hc)
  refine ⟨flushed s.chan, rfl, parse_lineText h.name hproper,
    fun c hc => ⟨hproper c hc, h.mem c (hsub c hc)⟩, by omega, by omega, fun hmix c hc d hd => ?_⟩
  have hclass := (h.apart hmix).1
  rw [hclass c (hsub c hc), hclass d (hsub d hd)]

theorem Tidy.afterFlush (h : Tidy cfg b s) (hq : Queued cfg 1 s.chan) :
    Tidy cfg b s.afterFlush where
  name := h.name
  mem c hc := h.mem c ((leftover_sublist s.chan).subset (pending_afterFlush s.chan ▸ hc))
  apart hmix := by
    refine ⟨fun c hc => ?_, .inl rfl⟩
    exact (h.apart hmix).1 c ((leftover_sublist s.chan).subset (pending_afterFlush s.chan ▸ hc))
  lines text htext := by
    rcases mem_append.1 htext with htext | htext
    · exact h.lines text htext
    · unfold flushLine at htext
      split at htext
      · cases htext
      · rw [mem_singleton.1 htext]
        exact h.lineOk hq

theorem LineOk.mono {name : CStr} {accepted accepted' : List Change} {text : CStr}
    (h : LineOk cfg name accepted text) (hsub : accepted ⊆ accepted') :
    LineOk cfg name accepted' text := by
  obtain ⟨cs, htext, hparse, hcs, hrest⟩ := h
  exact ⟨cs, htext, hparse, fun c hc => ⟨(hcs c hc).1, hsub (hcs c hc).2⟩, hrest⟩

theorem Tidy.accept (h : Tidy cfg (listMode c.mode) s) (hstores : Stores cfg s.chan c chan') :
    Tidy cfg (listMode c.mode) (s.accept c chan') where
  name := by
    show ' ' ∉ chan'.name
    rw [hstores.name]
    exact h.name
  mem d hd := by
    rcases mem_cons.1 (hstores.pending_subperm.subset hd) with rfl | hd
    · exact mem_append_right _ mem_cons_self
    · exact mem_append_left _ (h.mem d hd)
  apart hmix := by
    have hcompat : chan'.compat = s.chan.compat := by cases hstores <;> rfl
    refine ⟨fun d hd => ?_, ?_⟩
    · rcases mem_cons.1 (hstores.pending_subperm.subset hd) with rfl | hd
      · rfl
      · exact (h.apart hmix).1 d hd
    · show chan'.compat = 0 ∨ chan'.compat = _
      rw [hcompat]
      exact (h.apart hmix).2
  lines text htext := by
    show LineOk cfg chan'.name _ _
    rw [hstores.name]
    exact (h.lines text htext).mono (subset_append_left _ _)

theorem Tidy.separated (h : Tidy cfg b s) (hq : Queued cfg 0 s.chan) (hapart : Apart cfg s.chan mode) :
    Tidy cfg (listMode mode) (s.separated cfg mode) := by
  unfold State.separated
  by_cases hzero : s.chan.compat = 0
  · rw [if_pos hzero]
    refine ⟨h.name, h.mem, fun hmix => ⟨?_, .inr rfl⟩, h.lines⟩
    have hclass := hapart hmix
    rwa [if_pos hzero] at hclass
  · rw [if_neg hzero]
    by_cases hother : cfg.preventMixing ∧ s.chan.compat = if listMode mode then 1 else 2
    · rw [if_pos hother]
      have hflushed := h.afterFlush hq.mono
      refine ⟨h.name, hflushed.mem, fun hmix => ⟨?_, .inl rfl⟩, hflushed.lines⟩
      have hclass := hapart hmix
      rw [if_neg hzero] at hclass
      rwa [State.afterFlush, pending_afterFlush]
    · rw [if_neg hother]
      refine ⟨h.name, h.mem, fun hmix => ?_, h.lines⟩
      have hclass := h.apart hmix
      have hb : b = listMode mode := by
        have hcompat := hclass.2.resolve_left hzero
        by_contra hne
        refine hother ⟨hmix, ?_⟩
        rw [hcompat]
        revert hne
        cases b <;> cases listMode mode <;> decide
      exact hb ▸ hclass

theorem Tidy.member (h : Tidy cfg b s) (member : List Member) :
    Tidy cfg b { s with chan := { s.chan with member } } :=
  ⟨h.name, h.mem, h.apart, h.lines⟩

/-! ### Runs -/

/-- The queue between requests, and the lines so far. -/
def Sound (cfg : Cfg) (s : State) : Prop := Queued cfg 0 s.chan ∧ ∃ b, Tidy cfg b s

theorem request_mode (plus : Bool) (mode : Char) (op : CStr) :
    (request plus mode op).mode = mode := by
  unfold request
  split
  · rfl
  · split
    · next h => exact h.2.symm
    · rfl

theorem Sound.addMode (h : Sound cfg s) (hmax : cfg.modesperline ≤ modesPerLineMax)
    (hsafe : Safe cfg s (.addMode plus mode op)) :
    ∃ s', s.realAddMode cfg plus mode op = .ok s' ∧ Sound cfg s' := by
  obtain ⟨hq, b, htidy⟩ := h
  obtain ⟨s', hok, hq', hcases⟩ := realAddMode_rule (P := Tidy cfg (listMode mode))
    (Q := Tidy cfg (listMode mode)) hq hmax (fun hreach => (hsafe hreach).2)
    (fun chan hhalf hmarked => by
      have hapart := (hsafe ⟨hhalf, by rw [hmarked]; rfl⟩).1
      obtain ⟨member, rfl⟩ := marked_eq hmarked
      rw [separated_member]
      exact (htidy.separated hq hapart).member member)
    (fun t hqt ht => ht.afterFlush hqt.mono) (fun t _ ht _ => ht)
    (fun t chan' _ ht _ _ hstores => by
      have hmode := request_mode plus mode op
      have haccept := Tidy.accept (by rw [hmode]; exact ht) hstores
      rwa [hmode] at haccept)
    (fun t hqt ht => ht.afterFlush hqt)
  refine ⟨s', hok, hq', ?_⟩
  obtain rfl | htidy' := hcases
  · exact ⟨b, htidy⟩
  · exact ⟨_, htidy'⟩

theorem Sound.flushMode (h : Sound cfg s) (hmax : cfg.modesperline ≤ modesPerLineMax) :
    ∃ s', s.flushMode cfg = .ok s' ∧ Sound cfg s' := by
  obtain ⟨hq, b, htidy⟩ := h
  exact ⟨s.afterFlush, flushMode_eq hq.toWaits hmax, hq.mono.afterFlush hq.pos, b,
    htidy.afterFlush hq.mono⟩

theorem Sound.step {e : State.Event} (h : Sound cfg s) (hmax : cfg.modesperline ≤ modesPerLineMax)
    (hsafe : Safe cfg s e) : ∃ s', State.step cfg s e = .ok s' ∧ Sound cfg s' := by
  cases e with
  | addMode plus mode op => exact h.addMode hmax hsafe
  | flushMode => exact h.flushMode hmax

/-- A channel of some name with nothing in its queue, before the first line. -/
structure State.Initial (s : State) : Prop where
  name : s.chan.name.length ≤ 200 ∧ ' ' ∉ s.chan.name
  idle : s.chan.Idle
  sent : s.sent = []
  accepted : s.accepted = []

theorem Chan.Idle.pending_eq (h : chan'.Idle) : pending chan' = [] := by
  obtain ⟨hpls, hmns, hkey, hrmkey, hlimit, -, -, hcmode⟩ := h
  have hslots (plus : Bool) : slotChanges plus chan'.cmode = [] :=
    slotChanges_none plus fun c hc => eq_of_mem_replicate (hcmode ▸ hc)
  simp [pending, flushed, leftover, letterChanges, keyChange, rmkeyChange, limitChange, hpls, hmns,
    hkey, hrmkey, hlimit, hslots]

theorem State.Initial.queued (h : s.Initial) (hpos : 1 ≤ cfg.modesperline) :
    Queued cfg 0 s.chan := by
  have hnil := h.idle.pending_eq
  have hcmode : s.chan.cmode = replicate modesPerLineMax none := h.idle.2.2.2.2.2.2.2
  refine ⟨⟨by rw [hcmode, length_replicate], fun c hc => ?_, fun c hc => ?_, ?_, ?_⟩, ?_⟩
  · exact eq_of_mem_replicate (hcmode ▸ mem_of_mem_drop hc)
  · rw [hnil] at hc
    cases hc
  · have hname := h.name.1
    rw [hnil]
    exact hname.trans (by decide)
  · rw [h.idle.2.2.2.2.1]
    decide
  · rw [hnil, countP_nil]
    omega

theorem State.Initial.sound (h : s.Initial) (hpos : 1 ≤ cfg.modesperline) : Sound cfg s := by
  have hnil := h.idle.pending_eq
  refine ⟨h.queued hpos, false, h.name.2, fun c hc => ?_, fun _ => ⟨fun c hc => ?_, .inl ?_⟩,
    fun text htext => ?_⟩
  · rw [hnil] at hc
    cases hc
  · rw [hnil] at hc
    cases hc
  · exact h.idle.2.2.2.2.2.2.1
  · rw [h.sent] at htext
    cases htext

/-- A run of requests that fit, and that find nothing waiting to be kept apart from, sends lines as
they should be. -/
theorem lines_throughout (hpos : 1 ≤ cfg.modesperline) (hmax : cfg.modesperline ≤ modesPerLineMax)
    (hs : s.Initial) {es : List State.Event} (h : Machine.Along (State.step cfg) (Safe cfg) s es) :
    (∃ s', Machine.run (State.step cfg) s es = .ok s') ∧
      Machine.Throughout (State.step cfg) (LinesOk cfg) s es := by
  have hsound : Sound cfg s := hs.sound hpos
  refine ⟨?_, ?_⟩
  · obtain ⟨s', hrun, -⟩ := Machine.run_ok_of_along (P := Safe cfg)
      (fun s e hi hp => hi.step hmax hp) hsound h
    exact ⟨s', hrun⟩
  · refine (Machine.throughout_of_along (fun s e s' hi hp hstep => ?_) hsound h).imp fun s hi => ?_
    · obtain ⟨t, ht, hsound⟩ := hi.step hmax hp
      rw [hstep] at ht
      exact Except.ok.inj ht ▸ hsound
    · obtain ⟨b, htidy⟩ := hi.2
      exact htidy.lines

/-! ### Trying it out -/

instance (c : Change) : Decidable c.Proper :=
  decidable_of_iff (c.mode.isAlpha = true ∧ (c.takesArg = true → c.arg ≠ [] ∧ ' ' ∉ c.arg) ∧
      (c.takesArg = false → c.arg = []))
    ⟨fun h => ⟨h.1, h.2.1, h.2.2⟩, fun h => ⟨h.letter, h.word, h.none⟩⟩

instance (plus : Bool) (mode : Char) : Decidable (Typical plus mode) :=
  inferInstanceAs (Decidable (_ ∧ _ ∧ _))

instance (c : Change) (chan : Chan) : Decidable (Fits c chan) :=
  decidable_of_iff (c.Proper ∧ c ≠ ⟨true, 'l', showInt intMin⟩ ∧
      chan.name.length + totalWeight (pending chan) + c.weight ≤ 500 ∧
      (Typical c.plus c.mode → (chan.letters c.plus).length < 20 ∨ c.mode ∈ chan.letters c.plus))
    ⟨fun h => ⟨h.1, h.2.1, h.2.2.1, h.2.2.2⟩, fun h => ⟨h.proper, h.limit, h.room, h.letters⟩⟩

instance (s : State) (plus : Bool) (mode : Char) (op : CStr) : Decidable (Reaches s plus mode op) :=
  inferInstanceAs (Decidable (_ ∧ _))

instance (cfg : Cfg) (chan : Chan) (plus : Bool) (mode : Char) (op : CStr) :
    Decidable (Free cfg chan plus mode op) :=
  inferInstanceAs (Decidable (∀ kind, Kind.ofMode mode = some kind → _))

instance (cfg : Cfg) (chan : Chan) (mode : Char) : Decidable (Apart cfg chan mode) :=
  inferInstanceAs (Decidable (_ → _))

instance (cfg : Cfg) (s : State) : ∀ e, Decidable (Safe cfg s e)
  | .addMode _ _ _ => inferInstanceAs (Decidable (_ → _ ∧ (_ → _)))
  | .flushMode => inferInstanceAs (Decidable True)

/-- The settings that the bot starts with. -/
def Cfg.start : Cfg where
  modesperline := 3
  modeBufLen := 200
  preventMixing := true
  includeLk := true
  maxBans := 30
  maxExempts := 20
  maxInvites := 20
  maxModes := 30

/-- A channel with op, and a member `ann` with op. -/
def State.joined : State where
  chan :=
    { name := "#egg".toList
      member := [⟨"ann".toList, (· == .chop), fun _ _ => false⟩]
      ban := [], exempt := [], invite := [], meOp := true, meHalfop := false
      pls := [], mns := [], key := none, rmkey := none, limit := 0, bytes := 0, compat := 0
      cmode := replicate modesPerLineMax none }
  sent := []
  accepted := []

theorem initial_joined : State.joined.Initial where
  name := by decide
  idle := ⟨rfl, rfl, rfl, rfl, rfl, rfl, rfl, rfl⟩
  sent := rfl
  accepted := rfl

theorem lines_throughout_joined :
    (∃ s', Machine.run (State.step .start) .joined
      [.addMode true 'k' "key".toList, .addMode true 'b' "y!*@*".toList,
        .addMode false 'o' "Ann".toList, .addMode true 'e' "y!*@*".toList, .flushMode] = .ok s') ∧
      Machine.Throughout (State.step .start) (LinesOk .start) .joined
        [.addMode true 'k' "key".toList, .addMode true 'b' "y!*@*".toList,
          .addMode false 'o' "Ann".toList, .addMode true 'e' "y!*@*".toList, .flushMode] :=
  lines_throughout (by decide) (by decide) initial_joined (by decide +kernel)

/-- An exemption is sent together with a ban: the first one makes room for it and leaves it without
its class. -/
theorem not_linesOk_mixed :
    ¬ Machine.Throughout (State.step .start) (LinesOk .start) .joined
      [.addMode true 'b' "x!*@*".toList, .addMode true 'e' "y!*@*".toList,
        .addMode true 'b' "z!*@*".toList, .flushMode] := by
  intro h
  have hrun : ∃ s, Machine.run (State.step .start) .joined
      [.addMode true 'b' "x!*@*".toList, .addMode true 'e' "y!*@*".toList,
        .addMode true 'b' "z!*@*".toList, .flushMode] = .ok s ∧
          "MODE #egg +eb y!*@* z!*@*".toList ∈ s.sent := ⟨_, rfl, by decide +kernel⟩
  obtain ⟨s, hs, hline⟩ := hrun
  obtain ⟨cs, -, hparse, -, -, -, hclass⟩ := h.last hs _ hline
  have hcs : cs = [⟨true, 'e', "y!*@*".toList⟩, ⟨true, 'b', "z!*@*".toList⟩] := by
    rw [← hparse]
    decide +kernel
  subst hcs
  exact absurd (hclass rfl _ mem_cons_self _ (mem_cons_of_mem _ mem_cons_self)) (by decide)

end Eggdrop.Irc
