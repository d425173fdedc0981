import Mathlib.Logic.Function.Basic
import Eggdrop.Irc.LineBounds

/-!
# Effect — what the server makes of the lines

* `Delivered`: every request that was taken is in one line or waits, a member is marked for such a
  request only, and the modes of the channel come out as if the requests had gone one by one.
* `Kept`: what a request must meet for this to stay so.
* `delivered_throughout`: in a run of such requests it does.
-/

namespace Eggdrop.Irc

open List

/-! ### The modes of a channel -/

/-- What a change is about: a member or a mask up to case, or the channel. -/
def Change.cell (c : Change) : Char × CStr :=
  (c.mode, if (Kind.ofMode c.mode).isSome then c.arg.map rfcToupper else [])

/-- The modes that are set, with their parameters. -/
abbrev Modes := Char × CStr → Option CStr

def Modes.apply (m : Modes) (c : Change) : Modes :=
  Function.update m c.cell (if c.plus then some c.arg else none)

def Modes.applyAll (m : Modes) (cs : List Change) : Modes := cs.foldl Modes.apply m

/-! ### What became of the requests -/

/-- The changes in the lines so far. -/
def sentChanges (s : State) : List Change := s.sent.flatMap parseLine

def delivered (s : State) : List Change := sentChanges s ++ pending s.chan

/-- A change that a member is marked for. -/
def Change.Marks (c : Change) (mx : Member) (plus : Bool) (kind : Kind) : Prop :=
  c.plus = plus ∧ c.mode = kind.letter ∧ rfcCaseEq mx.nick c.arg = true

def MarksOnly (s : State) (cs : List Change) : Prop :=
  ∀ mx ∈ s.chan.member, ∀ plus kind, mx.sent plus kind = true → ∃ c ∈ cs, c.Marks mx plus kind

structure Delivered (s : State) : Prop where
  once : s.accepted ~ delivered s
  marks : MarksOnly s (delivered s)
  order : ∀ m : Modes, m.applyAll (delivered s) = m.applyAll s.accepted

/-- Nothing waits that a request would have to come after, and nothing that it would replace. -/
def Ordered (plus : Bool) (mode : Char) (op : CStr) (chan : Chan) : Prop :=
  if mode = 'k' then chan.key = none ∧ (plus = false → chan.rmkey = none)
  else if mode = 'l' then chan.limit = 0 ∧ (plus = true → eggAtoi op ≠ 0)
  else plus = false → mode ∉ chan.pls

/-- A request that is stored fits, and one without a slot keeps its place. -/
def Kept (cfg : Cfg) (s : State) : State.Event → Prop
  | .addMode plus mode op =>
      Reaches s plus mode op → Free cfg (s.separated cfg mode).chan plus mode op →
        Fits (request plus mode op) (s.separated cfg mode).chan ∧
          (Kind.ofMode mode = none → Ordered plus mode op (s.separated cfg mode).chan)
  | .flushMode => True

/-- Whether a member has something, or a mask is on the list. -/
def Chan.on (chan : Chan) (kind : Kind) (op : CStr) : Bool :=
  if kind.ofMember then (chan.member.find? fun mx => rfcCaseEq mx.nick op).any (·.has kind)
  else (State.maskList chan kind).any (rfcCaseEq · op)

/-- `Delivered` in a request: a member may be marked for the request already. -/
structure Right (x : Option Change) (s : State) : Prop where
  name : ' ' ∉ s.chan.name
  once : s.accepted ~ delivered s
  order : ∀ m : Modes, m.applyAll (delivered s) = m.applyAll s.accepted
  marks : MarksOnly s (x.toList ++ delivered s)
  on : ∀ c ∈ pending s.chan, ∀ kind, Kind.ofMode c.mode = some kind →
    s.chan.on kind c.arg = !c.plus
  letters : ∀ plus, ∀ mode ∈ s.chan.letters plus, Typical plus mode

variable {cfg : Cfg} {s : State} {chan chan' : Chan} {c : Change} {cs a b : List Change}
  {x : Option Change} {plus : Bool} {mode : Char} {op : CStr} {kind : Kind}

/-! ### Changes that may be swapped -/

theorem applyAll_append (m : Modes) (cs ds : List Change) :
    m.applyAll (cs ++ ds) = (m.applyAll cs).applyAll ds := foldl_append

theorem apply_comm {d : Change} (h : d.cell ≠ c.cell) (m : Modes) :
    (m.apply c).apply d = (m.apply d).apply c := Function.update_comm h.symm _ _ m

theorem applyAll_insert (h : ∀ d ∈ b, d.cell ≠ c.cell) (m : Modes) :
    m.applyAll (a ++ c :: b) = (m.applyAll (a ++ b)).apply c := by
  rw [applyAll_append, applyAll_append]
  generalize m.applyAll a = m
  induction b generalizing m with
  | nil => rfl
  | cons d b ih =>
    show ((m.apply c).apply d).applyAll b = ((m.apply d).applyAll b).apply c
    rw [apply_comm (h d mem_cons_self)]
    exact ih (fun e he => h e (mem_cons_of_mem _ he)) (m.apply d)

/-! ### Where a request is put -/

/-- A request goes to a place that only requests about something else come after. -/
def Inserts (c : Change) (chan chan' : Chan) : Prop :=
  ∃ a b, pending chan = a ++ b ∧ pending chan' = a ++ c :: b ∧ ∀ d ∈ b, d.cell ≠ c.cell

theorem Change.cell_ne {d : Change} (h : d.mode ≠ c.mode) : d.cell ≠ c.cell := fun heq =>
  h (congrArg Prod.fst heq)

theorem mode_ne_slotChanges {mode : Char} (hmode : Kind.ofMode mode = none) (plus : Bool)
    (cmode : List (Option Slot)) : ∀ d ∈ slotChanges plus cmode, d.mode ≠ mode := by
  intro d hd
  obtain ⟨c, -, rfl⟩ := mem_map.1 hd
  rintro rfl
  rw [Slot.change, Kind.ofMode_letter] at hmode
  cases hmode

theorem mode_ne_letterChanges {modes : CStr} (h : mode ∉ modes) (plus : Bool) :
    ∀ d ∈ letterChanges plus modes, d.mode ≠ mode := by
  intro d hd
  obtain ⟨m, hm, rfl⟩ := mem_map.1 hd
  rintro rfl
  exact h hm

theorem mode_keyChange (chan : Chan) : ∀ d ∈ keyChange chan, d.mode = 'k' := by
  intro d hd
  unfold keyChange at hd
  split at hd
  · rw [mem_singleton.1 hd]
  · cases hd

theorem mode_rmkeyChange (chan : Chan) : ∀ d ∈ rmkeyChange chan, d.mode = 'k' := by
  intro d hd
  unfold rmkeyChange at hd
  split at hd
  · rw [mem_singleton.1 hd]
  · cases hd

theorem mode_leftover (chan : Chan) : ∀ d ∈ leftover chan, d.mode = 'k' := by
  intro d hd
  unfold leftover at hd
  split at hd
  · rw [mem_singleton.1 hd]
  · cases hd

theorem mode_limitChange (chan : Chan) :
    ∀ d ∈ limitChange chan, d.mode = 'l' ∧ chan.limit ≠ 0 := by
  intro d hd
  unfold limitChange at hd
  split at hd
  · cases hd
  · next hne =>
    rw [mem_singleton.1 hd]
    exact ⟨rfl, hne⟩

theorem on_congr (chan : Chan) (kind : Kind) {op op' : CStr} (h : rfcCaseEq op op' = true) :
    chan.on kind op = chan.on kind op' := by
  have hcongr (a : CStr) : rfcCaseEq a op = rfcCaseEq a op' := by
    rw [rfcCaseEq_comm a, rfcCaseEq_comm a, rfcCaseEq_congr_left h]
  simp only [Chan.on, hcongr]

theorem Right.slot_cell_ne (h : Right x s) (hon : s.chan.on kind op = !plus)
    (hfree : ∀ d ∈ pending s.chan, d.plus = plus → d.mode = kind.letter →
      rfcCaseEq d.arg op = false) :
    ∀ d ∈ pending s.chan, d.cell ≠ (⟨plus, kind.letter, op⟩ : Change).cell := by
  intro d hd heq
  have hmode : d.mode = kind.letter := congrArg Prod.fst heq
  have hkind : Kind.ofMode d.mode = some kind := by rw [hmode, Kind.ofMode_letter]
  have harg : rfcCaseEq d.arg op = true := by
    have hsnd := congrArg Prod.snd heq
    simp only [Change.cell, hkind, Kind.ofMode_letter, Option.isSome_some, if_true] at hsnd
    exact rfcCaseEq_iff.2 hsnd
  -- what waits for the same member or mask has the same sign, since the channel has or lacks it
  have hplus : d.plus = plus := by
    have hd' := h.on d hd kind hkind
    rw [on_congr s.chan kind harg, hon] at hd'
    exact (Bool.not_inj hd').symm
  rw [hfree d hd hplus hmode] at harg
  cases harg

theorem slotChanges_insert (plus : Bool) (c : Slot) (y z : List (Option Slot)) :
    slotChanges plus (y ++ some c :: z) =
      slotChanges plus y ++ ((if c.plus = plus then [c.change] else []) ++ slotChanges plus z) := by
  have hone : slotChanges plus [some c] = if c.plus = plus then [c.change] else [] := by
    by_cases hplus : c.plus = plus
    · simp [slotChanges, reduceOption_cons_of_some, hplus]
    · simp [slotChanges, reduceOption_cons_of_some, hplus]
  rw [slotChanges_append, slotChanges_cons, hone]

theorem inserts_slot {c : Slot} {y z : List (Option Slot)} {bytes : Int}
    (hmode : chan.cmode = y ++ none :: z)
    (hcell : ∀ d ∈ pending chan, d.cell ≠ c.change.cell) :
    Inserts c.change chan { chan with cmode := y ++ some c :: z, bytes } := by
  have hslots (plus : Bool) :
      slotChanges plus chan.cmode = slotChanges plus y ++ slotChanges plus z := by
    rw [hmode, slotChanges_append, slotChanges_cons]
    rfl
  have hlines : ∃ a b, pending chan = a ++ b ∧
      pending { chan with cmode := y ++ some c :: z, bytes } = a ++ c.change :: b := by
    simp only [pending, flushed, hslots, slotChanges_insert]
    cases hplus : c.plus with
    | false =>
      exact ⟨letterChanges false chan.mns ++ (letterChanges true chan.pls ++ keyChange chan ++
          limitChange chan) ++ rmkeyChange chan ++ slotChanges false y,
        slotChanges false z ++ slotChanges true y ++ slotChanges true z ++ leftover chan,
        by simp, by simp; rfl⟩
    | true =>
      exact ⟨letterChanges false chan.mns ++ (letterChanges true chan.pls ++ keyChange chan ++
          limitChange chan) ++ rmkeyChange chan ++ slotChanges false y ++ slotChanges false z ++
            slotChanges true y, slotChanges true z ++ leftover chan, by simp, by simp; rfl⟩
  obtain ⟨a, b, hpending, hpending'⟩ := hlines
  exact ⟨a, b, hpending, hpending', fun d hd => hcell d (hpending ▸ mem_append_right a hd)⟩

theorem inserts_of_slot (hmode : Kind.ofMode c.mode = some kind)
    (hcell : ∀ d ∈ pending chan, d.cell ≠ c.cell) (h : Stores cfg chan c chan') :
    Inserts c chan chan' := by
  cases h with
  | slot c y z bytes hcmode => exact inserts_slot hcmode hcell
  | key op | rmkey op | limit n => cases hmode
  | pls m hm | mns m hm =>
    replace hmode : Kind.ofMode m = some kind := hmode
    rw [hm.1] at hmode
    cases hmode

theorem request_plus (plus : Bool) (mode : Char) (op : CStr) :
    (request plus mode op).plus = plus := by
  unfold request
  split
  · rfl
  · split
    · next h => exact h.1.symm
    · rfl

theorem inserts_key (hkey : chan.key = none) :
    Inserts ⟨true, 'k', op⟩ chan { chan with key := some op } := by
  cases hrm : chan.rmkey with
  | none =>
    refine ⟨letterChanges false chan.mns ++ letterChanges true chan.pls,
      limitChange chan ++ (slotChanges false chan.cmode ++ slotChanges true chan.cmode), ?_, ?_, ?_⟩
    · simp [pending, flushed, keyChange, rmkeyChange, leftover, hkey, hrm]
    · simp [pending, flushed, keyChange, rmkeyChange, leftover, limitChange]
    · intro d hd
      refine Change.cell_ne ?_
      rcases mem_append.1 hd with hd | hd
      · rw [(mode_limitChange chan d hd).1]
        show 'l' ≠ 'k'
        decide
      · rcases mem_append.1 hd with hd | hd
        · exact mode_ne_slotChanges rfl _ _ d hd
        · exact mode_ne_slotChanges rfl _ _ d hd
  | some rmkey =>
    -- it stays behind the key to remove
    refine ⟨flushed chan, [], ?_, ?_, fun d hd => absurd hd not_mem_nil⟩
    · simp [pending, leftover, hkey]
    · simp [pending, flushed, keyChange, rmkeyChange, leftover, limitChange, hkey, hrm]

theorem inserts_rmkey (hkey : chan.key = none) (hrm : chan.rmkey = none) :
    Inserts ⟨false, 'k', op⟩ chan { chan with rmkey := some op } := by
  refine ⟨letterChanges false chan.mns ++ letterChanges true chan.pls ++ limitChange chan,
    slotChanges false chan.cmode ++ slotChanges true chan.cmode, ?_, ?_, ?_⟩
  · simp [pending, flushed, keyChange, rmkeyChange, leftover, hkey, hrm]
  · simp [pending, flushed, keyChange, rmkeyChange, leftover, limitChange, hkey]
  · intro d hd
    refine Change.cell_ne ?_
    rcases mem_append.1 hd with hd | hd
    · exact mode_ne_slotChanges rfl _ _ d hd
    · exact mode_ne_slotChanges rfl _ _ d hd

/-- The changes after the letters. -/
def afterLetters (chan : Chan) : List Change :=
  rmkeyChange chan ++ slotChanges false chan.cmode ++ slotChanges true chan.cmode ++ leftover chan

theorem mode_afterLetters (hmode : Kind.ofMode mode = none) (hk : mode ≠ 'k') (chan : Chan) :
    ∀ d ∈ afterLetters chan, d.mode ≠ mode := by
  intro d hd
  simp only [afterLetters, mem_append] at hd
  rcases hd with ((hd | hd) | hd) | hd
  · rw [mode_rmkeyChange chan d hd]
    exact hk.symm
  · exact mode_ne_slotChanges hmode _ _ d hd
  · exact mode_ne_slotChanges hmode _ _ d hd
  · rw [mode_leftover chan d hd]
    exact hk.symm

theorem inserts_limit {n : Int} (hzero : chan.limit = 0) (hn : n ≠ 0) :
    Inserts ⟨true, 'l', showInt n⟩ chan { chan with limit := n } := by
  have hmodes : ∀ d ∈ afterLetters chan, d.mode ≠ 'l' := mode_afterLetters rfl (by decide) chan
  refine ⟨letterChanges false chan.mns ++ (letterChanges true chan.pls ++ keyChange chan),
    afterLetters chan, ?_, ?_, fun d hd => Change.cell_ne ?_⟩
  · simp [pending, flushed, limitChange, afterLetters, hzero]
  · simp [pending, flushed, limitChange, afterLetters, hn, keyChange, rmkeyChange, leftover]
  · exact hmodes d hd

theorem inserts_pls (hmode : Typical true mode) :
    Inserts ⟨true, mode, []⟩ chan { chan with pls := chan.pls ++ [mode] } := by
  obtain ⟨hslot, hk, hl⟩ := hmode
  refine ⟨letterChanges false chan.mns ++ letterChanges true chan.pls,
    keyChange chan ++ limitChange chan ++ afterLetters chan, ?_, ?_, fun d hd => Change.cell_ne ?_⟩
  · simp [pending, flushed, afterLetters]
  · simp [pending, flushed, afterLetters, letterChanges, keyChange, limitChange, rmkeyChange, leftover]
  · simp only [mem_append] at hd
    rcases hd with (hd | hd) | hd
    · rw [mode_keyChange chan d hd]
      exact Ne.symm hk
    · rw [(mode_limitChange chan d hd).1]
      exact fun h => hl ⟨rfl, h.symm⟩
    · exact mode_afterLetters hslot hk chan d hd

theorem inserts_mns (hmode : Typical false mode) (hpls : mode ∉ chan.pls)
    (hlimit : mode = 'l' → chan.limit = 0) :
    Inserts ⟨false, mode, []⟩ chan { chan with mns := chan.mns ++ [mode] } := by
  obtain ⟨hslot, hk, -⟩ := hmode
  refine ⟨letterChanges false chan.mns, letterChanges true chan.pls ++ keyChange chan ++
    limitChange chan ++ afterLetters chan, ?_, ?_, fun d hd => Change.cell_ne ?_⟩
  · simp [pending, flushed, afterLetters]
  · simp [pending, flushed, afterLetters, letterChanges, keyChange, limitChange, rmkeyChange, leftover]
  · simp only [mem_append] at hd
    rcases hd with ((hd | hd) | hd) | hd
    · exact mode_ne_letterChanges hpls _ d hd
    · rw [mode_keyChange chan d hd]
      exact Ne.symm hk
    · have hd := mode_limitChange chan d hd
      rw [hd.1]
      exact fun h => hd.2 (hlimit h.symm)
    · exact mode_afterLetters hslot hk chan d hd

theorem inserts_other (hord : Ordered plus mode op chan) (hmode : Kind.ofMode mode = none)
    (hletters : ∀ plus, ∀ mode ∈ chan.letters plus, Typical plus mode)
    (h : Stores cfg chan (request plus mode op) chan') : Inserts (request plus mode op) chan chan' := by
  have hplus := request_plus plus mode op
  have hmode' := request_mode plus mode op
  generalize hc : request plus mode op = c at h hplus hmode' ⊢
  unfold Ordered at hord
  cases h with
  | slot c =>
    have hletter : c.kind.letter = mode := hmode'
    rw [← hletter, Kind.ofMode_letter] at hmode
    cases hmode
  | key op' =>
    obtain rfl : 'k' = mode := hmode'
    rw [if_pos rfl] at hord
    exact inserts_key hord.1
  | rmkey op' =>
    obtain rfl : 'k' = mode := hmode'
    obtain rfl : false = plus := hplus
    rw [if_pos rfl] at hord
    exact inserts_rmkey hord.1 (hord.2 rfl)
  | limit n =>
    obtain rfl : 'l' = mode := hmode'
    obtain rfl : true = plus := hplus
    have hop : eggAtoi op = n := showInt_injective (congrArg Change.arg hc)
    rw [if_neg (by decide), if_pos rfl, hop] at hord
    exact inserts_limit hord.1 (hord.2 rfl)
  | pls m hm => exact inserts_pls hm
  | mns m hm =>
    obtain rfl : m = mode := hmode'
    obtain rfl : false = plus := hplus
    rw [if_neg hm.2.1] at hord
    refine inserts_mns hm (fun hmem => ?_) fun hl => ?_
    · by_cases hl : m = 'l'
      · exact (hletters true m hmem).2.2 ⟨rfl, hl⟩
      · rw [if_neg hl] at hord
        exact hord rfl hmem
    · rw [if_pos hl] at hord
      exact hord.1

/-! ### What the parts of a request keep -/

theorem delivered_afterFlush (hname : ' ' ∉ s.chan.name) (hq : Waits cfg s.chan) :
    delivered s.afterFlush = delivered s := by
  have hproper : ∀ c ∈ flushed s.chan, c.Proper := fun c hc => hq.proper c (mem_append_left _ hc)
  have hline : (flushLine s.chan).flatMap parseLine = flushed s.chan := by
    unfold flushLine
    split
    · next hnil => rw [hnil, flatMap_nil]
    · rw [flatMap_singleton, parse_lineText hname hproper]
  rw [delivered, delivered, sentChanges, sentChanges]
  show (s.sent ++ flushLine s.chan).flatMap parseLine ++ pending s.chan.afterFlush = _
  rw [flatMap_append, hline, pending_afterFlush, pending, append_assoc]

theorem Right.afterFlush (h : Right x s) (hq : Waits cfg s.chan) : Right x s.afterFlush := by
  have hdelivered := delivered_afterFlush h.name hq
  refine ⟨h.name, ?_, ?_, ?_, fun c hc => ?_, fun plus mode hmode => ?_⟩
  · rw [hdelivered]
    exact h.once
  · rw [hdelivered]
    exact h.order
  · rw [hdelivered]
    exact h.marks
  · exact h.on c ((leftover_sublist s.chan).subset (pending_afterFlush s.chan ▸ hc))
  · cases plus <;> cases hmode

theorem Stores.member (h : Stores cfg chan c chan') : chan'.member = chan.member := by
  cases h <;> rfl

theorem Stores.on (h : Stores cfg chan c chan') : chan'.on = chan.on := by
  cases h <;> rfl

theorem Stores.letters (h : Stores cfg chan c chan')
    (hletters : ∀ plus, ∀ mode ∈ chan.letters plus, Typical plus mode) :
    ∀ plus, ∀ mode ∈ chan'.letters plus, Typical plus mode := by
  intro plus m hm
  cases h with
  | pls mode hmode =>
    cases plus with
    | false => exact hletters false m hm
    | true =>
      rcases mem_append.1 hm with hm | hm
      · exact hletters true m hm
      · exact mem_singleton.1 hm ▸ hmode
  | mns mode hmode =>
    cases plus with
    | true => exact hletters true m hm
    | false =>
      rcases mem_append.1 hm with hm | hm
      · exact hletters false m hm
      · exact mem_singleton.1 hm ▸ hmode
  | _ => exact hletters plus m hm

theorem Right.accept (h : Right x s) (hx : ∀ d ∈ x, d = c)
    (hstores : Stores cfg s.chan c chan') (hinserts : Inserts c s.chan chan')
    (hon : ∀ kind, Kind.ofMode c.mode = some kind → s.chan.on kind c.arg = !c.plus) :
    Right none (s.accept c chan') := by
  obtain ⟨a, b, hpending, hpending', hcell⟩ := hinserts
  have hdelivered : delivered (s.accept c chan') = sentChanges s ++ a ++ c :: b := by
    show sentChanges s ++ pending chan' = _
    rw [hpending', append_assoc]
  have hbefore : delivered s = sentChanges s ++ a ++ b := by rw [delivered, hpending, append_assoc]
  refine ⟨?_, ?_, fun m => ?_, ?_, ?_, hstores.letters h.letters⟩
  · show ' ' ∉ chan'.name
    rw [hstores.name]
    exact h.name
  · rw [hdelivered]
    show s.accepted ++ [c] ~ _
    have honce := h.once.append_right [c]
    rw [hbefore, append_assoc _ b] at honce
    exact honce.trans (perm_append_comm.append_left _)
  · rw [hdelivered, applyAll_insert hcell, ← hbefore, h.order]
    show _ = m.applyAll (s.accepted ++ [c])
    rw [applyAll_append]
    rfl
  · intro mx hmx plus kind hsent
    replace hmx : mx ∈ chan'.member := hmx
    rw [hstores.member] at hmx
    obtain ⟨d, hd, hmarks⟩ := h.marks mx hmx plus kind hsent
    refine ⟨d, ?_, hmarks⟩
    rw [Option.toList_none, nil_append, hdelivered]
    rcases mem_append.1 hd with hd | hd
    · rw [hx d (Option.mem_toList.1 hd)]
      simp
    · rw [hbefore] at hd
      rcases mem_append.1 hd with hd | hd
      · exact mem_append_left _ hd
      · exact mem_append_right _ (mem_cons_of_mem c hd)
  · intro d hd kind hkind
    show chan'.on kind d.arg = _
    rw [hstores.on]
    rcases mem_cons.1 (hstores.pending_subperm.subset hd) with rfl | hd
    · exact hon kind hkind
    · exact h.on d hd kind hkind

/-! ### Marks -/

/-- A request that a member is marked for. -/
def markedFor (plus : Bool) (mode : Char) (op : CStr) : Option Change :=
  if (Kind.ofMode mode).any Kind.ofMember then some ⟨plus, mode, op⟩ else none

theorem markSent_spec (h : State.markSent chan plus kind op = some chan')
    (hkind : kind.ofMember = true) :
    ∃ i mx, chan.member[i]? = some mx ∧ rfcCaseEq mx.nick op = true ∧ chan.on kind op = !plus ∧
      chan' = { chan with member := chan.member.modify i (Member.marked plus kind) } := by
  unfold State.markSent at h
  rw [if_neg (by simp [hkind])] at h
  cases hfind : chan.member.findIdx? fun mx => rfcCaseEq mx.nick op with
  | none =>
    rw [hfind] at h
    cases h
  | some i =>
    rw [hfind] at h
    obtain ⟨hi, hnick, hfirst⟩ := findIdx?_eq_some_iff_getElem.1 hfind
    simp only [getElem?_eq_getElem hi, Option.any_some] at h
    split at h
    · cases h
    · next hhas =>
      rw [Bool.not_eq_true, Bool.or_eq_false_iff] at hhas
      have hmx : chan.member.find? (fun mx => rfcCaseEq mx.nick op) = some chan.member[i] :=
        find?_eq_some_iff_getElem.2 ⟨hnick, i, hi, rfl, fun j hj => by simpa using hfirst j hj⟩
      refine ⟨i, chan.member[i], getElem?_eq_getElem hi, hnick, ?_, (Option.some.inj h).symm⟩
      rw [Chan.on, if_pos hkind, hmx, Option.any_some]
      exact Bool.eq_not.2 (beq_eq_false_iff_ne.1 hhas.2)

theorem any_find?_modify {α : Type*} {p q : α → Bool} {f : α → α} (hp : ∀ a, p (f a) = p a)
    (hq : ∀ a, q (f a) = q a) (l : List α) (i : ℕ) :
    ((l.modify i f).find? p).any q = (l.find? p).any q := by
  induction l generalizing i with
  | nil => cases i <;> rfl
  | cons a l ih =>
    cases i with
    | zero =>
      rw [modify_zero_cons, find?_cons, find?_cons, hp]
      cases p a with
      | true => exact hq a
      | false => rfl
    | succ i =>
      rw [modify_succ_cons, find?_cons, find?_cons]
      cases p a with
      | true => rfl
      | false => exact ih i

theorem on_modify (chan : Chan) (i : ℕ) (plus : Bool) (k : Kind) :
    ({ chan with member := chan.member.modify i (Member.marked plus k) } : Chan).on = chan.on := by
  funext kind op
  unfold Chan.on
  split
  · exact any_find?_modify (f := Member.marked plus k) (fun _ => rfl) (fun _ => rfl) _ _
  · cases kind <;> rfl

theorem marksOnly_modify (plus : Bool) (kind : Kind) (h : MarksOnly s cs) {i : ℕ} {mx : Member}
    (hmx : s.chan.member[i]? = some mx) (hnick : rfcCaseEq mx.nick op = true) :
    MarksOnly { s with chan :=
      { s.chan with member := s.chan.member.modify i (Member.marked plus kind) } }
      (⟨plus, kind.letter, op⟩ :: cs) := by
  intro mx' hmx' p k hsent
  obtain ⟨j, hj⟩ := mem_iff_getElem?.1 hmx'
  rw [getElem?_modify, Option.map_eq_map, Option.map_eq_some_iff] at hj
  obtain ⟨old, hold, rfl⟩ := hj
  have hmarks (hsent : old.sent p k = true) :
      ∃ c ∈ (⟨plus, kind.letter, op⟩ : Change) :: cs, c.Marks old p k := by
    obtain ⟨c, hc, hmark⟩ := h old (mem_of_getElem? hold) p k hsent
    exact ⟨c, mem_cons_of_mem _ hc, hmark⟩
  split at hsent
  · next hij =>
    rw [if_pos hij]
    obtain rfl : old = mx := by
      rw [← hij, hmx] at hold
      exact (Option.some.inj hold).symm
    rcases Bool.or_eq_true_iff.1 hsent with hnew | hsent
    · rw [Bool.and_eq_true, beq_iff_eq, beq_iff_eq] at hnew
      obtain ⟨rfl, rfl⟩ := hnew
      exact ⟨_, mem_cons_self, rfl, rfl, hnick⟩
    · exact hmarks hsent
  · next hij =>
    rw [if_neg hij]
    exact hmarks hsent

theorem Right.marked (h : Right none s) (hmarked : marked plus mode op s.chan = some chan) :
    Right (markedFor plus mode op) { s with chan } ∧
      ∀ kind, Kind.ofMode mode = some kind → kind.ofMember = true → chan.on kind op = !plus := by
  unfold Irc.marked at hmarked
  unfold markedFor
  cases hmode : Kind.ofMode mode with
  | none =>
    rw [hmode] at hmarked
    obtain rfl := Option.some.inj hmarked
    exact ⟨h, fun kind hkind => nomatch hkind⟩
  | some kind =>
    simp only [hmode] at hmarked
    rw [Option.any_some]
    by_cases hkind : kind.ofMember = true
    · rw [if_pos hkind]
      obtain ⟨i, mx, hmx, hnick, hon, rfl⟩ := markSent_spec hmarked hkind
      have hmarks := marksOnly_modify plus kind h.marks hmx hnick
      rw [Kind.letter_ofMode hmode] at hmarks
      refine ⟨⟨h.name, h.once, h.order, hmarks, ?_, h.letters⟩, ?_⟩
      · intro c hc k hk
        rw [on_modify]
        exact h.on c hc k hk
      · rintro k ⟨⟩ -
        rw [on_modify]
        exact hon
    · rw [if_neg hkind]
      unfold State.markSent at hmarked
      rw [if_pos (by simpa using hkind)] at hmarked
      obtain rfl := Option.some.inj hmarked
      refine ⟨h, ?_⟩
      rintro k ⟨⟩ hk
      exact absurd hk hkind

/-! ### Runs -/

theorem Right.separated (h : Right x s) (hq : Waits cfg s.chan) (mode : Char) :
    Right x (s.separated cfg mode) := by
  obtain heq | heq | ⟨compat, heq⟩ := separated_cases cfg mode s
  · rwa [heq]
  · rw [heq]
    exact h.afterFlush hq
  · rw [heq]
    exact ⟨h.name, h.once, h.order, h.marks, h.on, h.letters⟩

theorem on_separated (s : State) (mode : Char) : (s.separated cfg mode).chan.on = s.chan.on := by
  obtain heq | heq | ⟨compat, heq⟩ := separated_cases cfg mode s
  · rw [heq]
  · rw [heq]
    rfl
  · rw [heq]
    rfl

theorem Ordered.afterFlush (h : Ordered plus mode op chan) :
    Ordered plus mode op chan.afterFlush := by
  unfold Ordered at *
  split
  · next hk =>
    rw [if_pos hk] at h
    refine ⟨?_, fun _ => rfl⟩
    show (if chan.rmkey.isSome then chan.key else none) = none
    rw [h.1, ite_self]
  · next hk =>
    rw [if_neg hk] at h
    split
    · next hl =>
      rw [if_pos hl] at h
      exact ⟨rfl, h.2⟩
    · exact fun _ => not_mem_nil

theorem mem_pending_of_slot {slot : Slot} (h : some slot ∈ chan.cmode) :
    slot.change ∈ pending chan := by
  refine (pending_perm chan).mem_iff.2 (mem_append_right _ ?_)
  exact mem_map_of_mem (reduceOption_mem_iff.2 h)

theorem slot_of_mem_pending (hletters : ∀ plus, ∀ mode ∈ chan.letters plus, Typical plus mode)
    (hc : c ∈ pending chan) (hmode : Kind.ofMode c.mode = some kind) :
    ∃ slot : Slot, some slot ∈ chan.cmode ∧ c = slot.change ∧ slot.kind = kind := by
  have hslot (plus : Bool) (h : c ∈ slotChanges plus chan.cmode) :
      ∃ slot : Slot, some slot ∈ chan.cmode ∧ c = slot.change ∧ slot.kind = kind := by
    obtain ⟨slot, hslot, rfl⟩ := mem_map.1 h
    refine ⟨slot, reduceOption_mem_iff.1 (mem_of_mem_filter hslot), rfl, ?_⟩
    rw [Slot.change, Kind.ofMode_letter] at hmode
    exact Option.some.inj hmode
  have hletter (plus : Bool) (h : c ∈ letterChanges plus (chan.letters plus)) :
      Kind.ofMode c.mode = none := by
    obtain ⟨m, hm, rfl⟩ := mem_map.1 h
    exact (hletters plus m hm).1
  simp only [pending, flushed, mem_append] at hc
  rcases hc with (((hc | (hc | hc) | hc) | hc | hc) | hc) | hc
  · rw [hletter false hc] at hmode
    cases hmode
  · rw [hletter true hc] at hmode
    cases hmode
  · rw [mode_keyChange chan c hc] at hmode
    cases hmode
  · rw [(mode_limitChange chan c hc).1] at hmode
    cases hmode
  · rw [mode_rmkeyChange chan c hc] at hmode
    cases hmode
  · exact hslot false hc
  · exact hslot true hc
  · rw [mode_leftover chan c hc] at hmode
    cases hmode

theorem duplicate_iff (hq : Waits cfg chan)
    (hletters : ∀ plus, ∀ mode ∈ chan.letters plus, Typical plus mode) :
    duplicate cfg chan plus kind op = true ↔
      ∃ c ∈ pending chan, c.plus = plus ∧ c.mode = kind.letter ∧ rfcCaseEq c.arg op = true := by
  constructor
  · intro h
    obtain ⟨d, hd, hslot⟩ := any_eq_true.1 h
    obtain ⟨slot, rfl, hsame⟩ := (Option.any_eq_true _ _).1 hslot
    simp only [Bool.and_eq_true, beq_iff_eq] at hsame
    obtain ⟨⟨hplus, hkind⟩, harg⟩ := hsame
    exact ⟨slot.change, mem_pending_of_slot (mem_of_mem_take hd), hplus, congrArg Kind.letter hkind,
      harg⟩
  · rintro ⟨c, hc, hplus, hmode, harg⟩
    obtain ⟨slot, hslot, rfl, rfl⟩ := slot_of_mem_pending hletters hc
      (by rw [hmode, Kind.ofMode_letter])
    have htake : some slot ∈ chan.cmode.take cfg.modesperline.toNat := by
      rw [← take_append_drop cfg.modesperline.toNat chan.cmode] at hslot
      rcases mem_append.1 hslot with h | h
      · exact h
      · cases hq.beyond _ h
    refine any_eq_true.2 ⟨some slot, htake, ?_⟩
    simpa [Slot.change] using And.intro hplus harg

theorem Right.refused (h : Right (markedFor plus mode op) s) (hq : Waits cfg s.chan)
    (hrefused : Refused cfg s.chan plus mode op) : Right none s := by
  refine ⟨h.name, h.once, h.order, fun mx hmx p k hsent => ?_, h.on, h.letters⟩
  obtain ⟨c, hc, hmark⟩ := h.marks mx hmx p k hsent
  rcases mem_append.1 hc with hc | hc
  · unfold markedFor at hc
    split at hc
    · next hkind =>
      obtain ⟨kind, hmode, hmember⟩ := (Option.any_eq_true _ _).1 hkind
      obtain rfl : c = ⟨plus, mode, op⟩ := by simpa using hc
      have hdup : duplicate cfg s.chan plus kind op = true := by
        refine (hrefused kind hmode).resolve_left ?_
        unfold State.maskRefused
        rw [hmember]
        exact Bool.false_ne_true
      obtain ⟨d, hd, hplus, hletter, harg⟩ := (duplicate_iff hq h.letters).1 hdup
      refine ⟨d, mem_append_right _ (mem_append_right _ hd), hplus.trans hmark.1, ?_, ?_⟩
      · rw [hletter, Kind.letter_ofMode hmode]
        exact hmark.2.1
      · exact rfcCaseEq_trans hmark.2.2 (rfcCaseEq_comm _ _ ▸ harg)
    · cases hc
  · exact ⟨c, hc, hmark⟩

/-- The queue between requests, and what became of those before. -/
def Settled (cfg : Cfg) (s : State) : Prop := Queued cfg 0 s.chan ∧ Right none s

theorem Settled.delivered (h : Settled cfg s) : Delivered s :=
  ⟨h.2.once, h.2.marks, h.2.order⟩

/-- What holds in a request that reaches the queue: the member is marked, the request is not for
what is there, and it keeps its place. -/
structure Asked (plus : Bool) (mode : Char) (op : CStr) (s : State) : Prop where
  right : Right (markedFor plus mode op) s
  on : ∀ kind, Kind.ofMode mode = some kind → kind.ofMember = true → s.chan.on kind op = !plus
  ordered : Kind.ofMode mode = none → Ordered plus mode op s.chan

theorem Asked.afterFlush (h : Asked plus mode op s) (hq : Waits cfg s.chan) :
    Asked plus mode op s.afterFlush :=
  ⟨h.right.afterFlush hq, h.on, fun hmode => (h.ordered hmode).afterFlush⟩

theorem on_of_not_refused (h : State.maskRefused cfg chan plus kind op = false)
    (hkind : kind.ofMember = false) : chan.on kind op = !plus := by
  unfold State.maskRefused at h
  rw [hkind, Bool.not_false, Bool.true_and, Bool.or_eq_false_iff] at h
  rw [Chan.on, hkind, if_neg Bool.false_ne_true]
  exact Bool.eq_not.2 (beq_eq_false_iff_ne.1 h.1)

theorem Asked.accept (h : Asked plus mode op s) (hq : Waits cfg s.chan)
    (hfree : Free cfg s.chan plus mode op)
    (hstores : Stores cfg s.chan (request plus mode op) chan') :
    Right none (s.accept (request plus mode op) chan') := by
  cases hmode : Kind.ofMode mode with
  | none =>
    have hx : markedFor plus mode op = none := by
      unfold markedFor
      rw [hmode]
      rfl
    have hright := h.right
    rw [hx] at hright
    refine hright.accept (fun d hd => nomatch hd) hstores
      (inserts_other (h.ordered hmode) hmode hright.letters hstores) fun kind hkind => ?_
    rw [request_mode, hmode] at hkind
    cases hkind
  | some kind =>
    have hrequest : request plus mode op = ⟨plus, mode, op⟩ := by
      rw [request, hmode]
      exact if_pos (.inl rfl)
    have hon : s.chan.on kind op = !plus := by
      by_cases hkind : kind.ofMember = true
      · exact h.on kind hmode hkind
      · exact on_of_not_refused (hfree kind hmode).1 (by simpa using hkind)
    have hcell : ∀ d ∈ pending s.chan, d.cell ≠ (⟨plus, kind.letter, op⟩ : Change).cell := by
      refine h.right.slot_cell_ne hon fun d hd hplus hletter => ?_
      by_contra harg
      have hdup := (duplicate_iff hq h.right.letters).2
        ⟨d, hd, hplus, hletter, by simpa using harg⟩
      rw [(hfree kind hmode).2] at hdup
      cases hdup
    rw [Kind.letter_ofMode hmode] at hcell
    rw [hrequest] at hstores ⊢
    have hinserts : Inserts ⟨plus, mode, op⟩ s.chan chan' := inserts_of_slot hmode hcell hstores
    refine h.right.accept (fun d hd => ?_) hstores hinserts fun k hk => ?_
    · unfold markedFor at hd
      split at hd
      · exact (Option.mem_some.1 hd).symm
      · cases hd
    · rw [hmode] at hk
      cases hk
      exact hon

theorem Settled.addMode (h : Settled cfg s) (hmax : cfg.modesperline ≤ modesPerLineMax)
    (hkept : Kept cfg s (.addMode plus mode op)) :
    ∃ s', s.realAddMode cfg plus mode op = .ok s' ∧ Settled cfg s' := by
  obtain ⟨hq, hright⟩ := h
  obtain ⟨s', hok, hq', hcases⟩ := realAddMode_rule (P := Asked plus mode op) (Q := Right none) hq hmax
    (fun hreach hfree => (hkept hreach hfree).1)
    (fun chan hhalf hmarked => by
      obtain ⟨hmarks, hon⟩ := hright.marked hmarked
      have hreach : Reaches s plus mode op := ⟨hhalf, by rw [hmarked]; rfl⟩
      obtain ⟨member, rfl⟩ := marked_eq hmarked
      have hwaits := (hq.member member).toWaits
      refine ⟨hmarks.separated hwaits mode, fun kind hkind hmember => ?_, fun hmode => ?_⟩
      · rw [on_separated]
        exact hon kind hkind hmember
      · rw [separated_member]
        refine (hkept hreach fun kind hkind => ?_).2 hmode
        rw [hmode] at hkind
        cases hkind)
    (fun t hqt ht => ht.afterFlush hqt.toWaits)
    (fun t hqt ht hrefused => ht.right.refused hqt.toWaits hrefused)
    (fun t chan' hqt ht hfree _ hstores => ht.accept hqt.toWaits hfree hstores)
    (fun t hqt ht => ht.afterFlush hqt.toWaits)
  refine ⟨s', hok, hq', ?_⟩
  obtain rfl | hright' := hcases
  · exact hright
  · exact hright'

theorem Settled.flushMode (h : Settled cfg s) (hmax : cfg.modesperline ≤ modesPerLineMax) :
    ∃ s', s.flushMode cfg = .ok s' ∧ Settled cfg s' :=
  ⟨s.afterFlush, flushMode_eq h.1.toWaits hmax, h.1.mono.afterFlush h.1.pos,
    h.2.afterFlush h.1.toWaits⟩

theorem Settled.step {e : State.Event} (h : Settled cfg s)
    (hmax : cfg.modesperline ≤ modesPerLineMax) (hkept : Kept cfg s e) :
    ∃ s', State.step cfg s e = .ok s' ∧ Settled cfg s' := by
  cases e with
  | addMode plus mode op => exact h.addMode hmax hkept
  | flushMode => exact h.flushMode hmax

theorem State.Initial.settled (h : s.Initial) (hpos : 1 ≤ cfg.modesperline)
    (hunmarked : ∀ mx ∈ s.chan.member, ∀ plus kind, mx.sent plus kind = false) :
    Settled cfg s := by
  have hnil : delivered s = [] := by rw [delivered, sentChanges, h.sent, h.idle.pending_eq]; rfl
  refine ⟨h.queued hpos, h.name.2, ?_, fun m => ?_, fun mx hmx plus kind hsent => ?_,
    fun c hc => ?_, fun plus mode hmode => ?_⟩
  · rw [hnil, h.accepted]
  · rw [hnil, h.accepted]
  · rw [hunmarked mx hmx] at hsent
    cases hsent
  · rw [h.idle.pending_eq] at hc
    cases hc
  · obtain ⟨hpls, hmns, -⟩ := h.idle
    cases plus
    · rw [Chan.letters, if_neg Bool.false_ne_true, hmns] at hmode
      cases hmode
    · rw [Chan.letters, if_pos rfl, hpls] at hmode
      cases hmode

/-- In a run of requests that keep their place, each one is in one line or waits, and the server
comes to the modes that they ask for. -/
theorem delivered_throughout (hpos : 1 ≤ cfg.modesperline)
    (hmax : cfg.modesperline ≤ modesPerLineMax) (hs : s.Initial)
    (hunmarked : ∀ mx ∈ s.chan.member, ∀ plus kind, mx.sent plus kind = false)
    {es : List State.Event} (h : Machine.Along (State.step cfg) (Kept cfg) s es) :
    (∃ s', Machine.run (State.step cfg) s es = .ok s') ∧
      Machine.Throughout (State.step cfg) Delivered s es := by
  have hsettled : Settled cfg s := hs.settled hpos hunmarked
  refine ⟨?_, ?_⟩
  · obtain ⟨s', hrun, -⟩ := Machine.run_ok_of_along (P := Kept cfg)
      (fun s e hi hp => hi.step hmax hp) hsettled h
    exact ⟨s', hrun⟩
  · refine (Machine.throughout_of_along (fun s e s' hi hp hstep => ?_) hsettled h).imp
      fun s hi => hi.delivered
    obtain ⟨t, ht, hsettled⟩ := hi.step hmax hp
    rw [hstep] at ht
    exact Except.ok.inj ht ▸ hsettled

/-! ### Trying it out -/

instance (plus : Bool) (mode : Char) (op : CStr) (chan : Chan) :
    Decidable (Ordered plus mode op chan) :=
  inferInstanceAs (Decidable (if mode = 'k' then chan.key = none ∧ (plus = false → chan.rmkey = none)
    else if mode = 'l' then chan.limit = 0 ∧ (plus = true → eggAtoi op ≠ 0)
    else plus = false → mode ∉ chan.pls))

instance (cfg : Cfg) (s : State) : ∀ e, Decidable (Kept cfg s e)
  | .addMode _ _ _ => inferInstanceAs (Decidable (_ → _ → _ ∧ (_ → _)))
  | .flushMode => inferInstanceAs (Decidable True)

theorem delivered_throughout_joined :
    (∃ s', Machine.run (State.step .start) .joined
      [.addMode false 's' [], .addMode true 's' [], .addMode false 'o' "Ann".toList,
        .addMode false 'k' "old".toList, .addMode true 'k' "new".toList,
        .addMode true 'b' "y!*@*".toList, .flushMode, .addMode false 's' []] = .ok s') ∧
      Machine.Throughout (State.step .start) Delivered .joined
        [.addMode false 's' [], .addMode true 's' [], .addMode false 'o' "Ann".toList,
          .addMode false 'k' "old".toList, .addMode true 'k' "new".toList,
          .addMode true 'b' "y!*@*".toList, .flushMode, .addMode false 's' []] :=
  delivered_throughout (by decide) (by decide) initial_joined
    (fun _ hmx _ _ => by rw [mem_singleton.1 hmx]) (by decide +kernel)

/-- A letter that is unset after it was set is sent the other way round. -/
theorem not_delivered_unset :
    ¬ Machine.Throughout (State.step .start) Delivered .joined
      [.addMode true 's' [], .addMode false 's' [], .flushMode] := by
  intro h
  have hrun : ∃ s, Machine.run (State.step .start) .joined
      [.addMode true 's' [], .addMode false 's' [], .flushMode] = .ok s ∧
        s.sent = ["MODE #egg -s+s".toList] ∧
          Modes.applyAll (fun _ => none) (delivered s) ('s', []) = some [] ∧
            Modes.applyAll (fun _ => none) s.accepted ('s', []) = none :=
    ⟨_, rfl, by decide +kernel, by decide +kernel, by decide +kernel⟩
  obtain ⟨s, hs, -, hset, hunset⟩ := hrun
  rw [(h.last hs).order, hunset] at hset
  cases hset

end Eggdrop.Irc
