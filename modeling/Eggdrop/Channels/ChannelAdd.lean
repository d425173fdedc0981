import Eggdrop.Channels.ChanOptions
import Eggdrop.Channels.ChansetTables

/-!
# ChannelAdd — `tcl_channel_add` of chancfg.c

One function makes a channel and sets up one that is there already.  If an option is refused, the
channel is removed, whichever of the two it was.

* `tclChannelAdd_spec`: what is left after the call.
* `undone_iff`: when an error leaves everything as it was.
-/

namespace Eggdrop.ChannelAdd

open List ChanOptions
open Chanset (Chan Fault Linked chanMeta channelLen orFreed)

/-- `struct chan_t`: what the server has told of a channel. -/
structure Channel where
  mode : BitVec 32
  maxmembers : ℤ
  key : CStr
  topic : Option CStr
  members : List CStr
  ban : List CStr
  exempt : List CStr
  invite : List CStr
deriving DecidableEq, Repr

/-- `init_channel`, for `CHAN_RESETALL`. -/
def initChannel : Channel := ⟨0, 0, [], none, [], [], [], []⟩

/-- `struct chanset_t` at the address `addr`. -/
structure Record where
  addr : ℕ
  dname : CStr
  name : CStr
  settings : Settings
  channel : Channel
  bans : List CStr
  exempts : List CStr
  invites : List CStr
deriving DecidableEq, Repr

/-- The record as the list and the tables of channels see it. -/
def Record.chan (c : Record) : Chan where
  addr := c.addr
  dname := c.dname
  name := c.name
  flagged := c.settings.status &&& chanFlagged ≠ 0
  inactive := c.settings.status &&& chanInactive ≠ 0
  pending := c.settings.status &&& chanPend ≠ 0

/-- What goes out: a line for the server or the bots that share, and calls of other modules. -/
inductive Out where
  | server (line : CStr)
  | shareout (line : CStr)
  | recheckChannel (dname : CStr)
  | recheckChannelModes (dname : CStr)
  | doChannelPart (dname : CStr)
  | userDelChan (dname : CStr)
deriving DecidableEq, Repr

/-- The channel list, the tables in front of it, whether `rfc_casecmp` is `_rfc_casecmp`, and the
user defined settings. -/
structure State where
  chanset : List Record
  byName : List Chanset.Slot
  byDname : List Chanset.Slot
  rfc : Bool
  next : ℕ
  udefs : List Udef
  out : List Out
deriving DecidableEq

/-- The list and its tables. -/
def State.reg (s : State) : Chanset.State :=
  ⟨s.chanset.map Record.chan, s.byName, s.byDname, s.rfc, s.next⟩

/-- What is set for the whole bot: `glob_chanmode`, `glob_chanset` and the values that a new channel
starts with; and what is asked of Tcl and of the module irc. -/
structure Env extends Context where
  tclSplitList : CStr → Option (List CStr)
  globChanmode : CStr
  globChanset : CStr
  gfldChan : Flood
  gfldJoin : Flood
  gfldCtcp : Flood
  gfldKick : Flood
  gfldDeop : Flood
  gfldNick : Flood
  globalStopnethackMode : ℤ
  globalRevengeMode : ℤ
  globalBanType : ℤ
  globalBanTime : ℤ
  globalExemptTime : ℤ
  globalInviteTime : ℤ
  globalIdleKick : ℤ
  globalAopMin : ℤ
  globalAopMax : ℤ
  chanHack : Bool
  protectReadonly : Bool
  irc : Bool

/-! ### The words of the options -/

def isBlank (c : Char) : Bool := c = ' ' || c = '\t'

/-- The loop of `egg_split_list`; every word takes at least one character. -/
def eggSplitLoop : ℕ → CStr → List CStr
  | 0, _ => []
  | n + 1, p =>
    match p.dropWhile isBlank with
    | [] => []
    | '\x7b' :: p => p.takeWhile (· ≠ '\x7d') :: eggSplitLoop n ((p.dropWhile (· ≠ '\x7d')).drop 1)
    | p => p.takeWhile (!isBlank ·) :: eggSplitLoop n (p.dropWhile (!isBlank ·))

def eggSplitList (str : CStr) : List CStr := eggSplitLoop str.length str

/-- `chan_split_list`: Tcl is asked first. -/
def Env.chanSplitList (env : Env) (str : CStr) : List CStr :=
  match env.tclSplitList str with
  | some (word :: words) => word :: words
  | _ => eggSplitList str

/-- The options of all channels, and those that are given. -/
def Env.items (env : Env) (options : CStr) : List CStr :=
  env.chanSplitList ("chanmode ".toList ++ env.convertElement env.globChanmode ++ " ".toList ++
    env.globChanset ++ options)

/-! ### Records -/

/-- The settings of a new record. -/
def Env.newSettings (env : Env) : Settings where
  needOp := []
  needInvite := []
  needKey := []
  needLimit := []
  needUnban := []
  protect := .clear
  idleKick := env.globalIdleKick
  stopnethackMode := env.globalStopnethackMode
  revengeMode := env.globalRevengeMode
  banType := env.globalBanType
  banTime := env.globalBanTime
  exemptTime := env.globalExemptTime
  inviteTime := env.globalInviteTime
  msgRate := 0
  floodPub := env.gfldChan
  floodJoin := env.gfldJoin
  floodCtcp := env.gfldCtcp
  floodKick := env.gfldKick
  floodDeop := env.gfldDeop
  floodNick := env.gfldNick
  aopMin := env.globalAopMin
  aopMax := env.globalAopMax
  status := 0
  ircnetStatus := 0

namespace State

variable (s : State)

/-- The record that `tcl_channel_add` makes. -/
def newRecord (env : Env) (newname : CStr) : Record :=
  ⟨s.next, newname.take channelLen, [], env.newSettings, initChannel, [], [], []⟩

def deref (a : ℕ) : Except Fault Record := orFreed (s.chanset.find? (·.addr = a))

def update (a : ℕ) (f : Settings → Settings) : State :=
  { s with chanset := s.chanset.map fun c =>
      if c.addr = a then { c with settings := f c.settings } else c }

def put (out : List Out) : State := { s with out := s.out ++ out }

def withTables (t : Chanset.State) : State := { s with byName := t.byName, byDname := t.byDname }

def chanHtabAdd (c : Record) : Except Fault State := (s.reg.chanHtabAdd c.chan).map s.withTables

def chanHtabDel (c : Record) : Except Fault State := (s.reg.chanHtabDel c.chan).map s.withTables

def findchanByDname (name : CStr) : Except Fault (Option ℕ) := s.reg.findchanByDname name

/-- `remove_channel`. -/
def removeChannel (a : ℕ) : Except Fault State := do
  let c ← s.deref a
  let s ← s.chanHtabDel c
  .ok ({ s with chanset := s.chanset.filter (·.addr ≠ a) }.put
    [.doChannelPart c.dname, .userDelChan c.dname])

end State

/-! ### The options -/

/-- The line that joins a channel. -/
def joinLine (name key : CStr) : CStr :=
  "JOIN ".toList ++ name ++ if key ≠ [] then " ".toList ++ key else []

/-- The channel is joined or left as its settings say now. -/
def followInactive (c : Record) (new : Settings) : List Out :=
  let joined := new.status &&& (chanActive ||| chanPend) ≠ 0
  if new.status &&& chanInactive ≠ 0 then
    if joined then [.server ("PART ".toList ++ c.name)] else []
  else if joined then []
  else
    [.server (joinLine (if c.name ≠ [] then c.name else c.dname)
      (if c.channel.key ≠ [] then c.channel.key else new.protect.key))]

/-- The end of `tcl_channel_modify`. -/
def Env.actOn (env : Env) (c : Record) (new : Settings) : List Out :=
  let changed := c.settings.status ^^^ new.status
  if env.protectReadonly = false ∧ env.chanHack = false then []
  else
    (if changed &&& chanInactive ≠ 0 ∧ env.irc then followInactive c new else []) ++
      if changed &&& (chanEnforcebans ||| chanOponjoin ||| chanBitch ||| chanAutovoice |||
          chanAutohalfop) ≠ 0 then
        if env.irc then [.recheckChannel c.dname] else []
      else if c.settings.protect.mns ≠ new.protect.mns ∨ c.settings.protect.pls ≠ new.protect.pls then
        if env.irc then [.recheckChannelModes c.dname] else []
      else []

namespace State

variable (s : State)

/-- `tcl_channel_modify`; `false` is `TCL_ERROR`. -/
def tclChannelModify (env : Env) (a : ℕ) (items : List CStr) : Except Fault (State × Bool) := do
  let c ← s.deref a
  let (w, finished) := modifyLoop env.toContext c.dname ⟨c.settings, s.udefs, 0⟩ items
  let s := { s.update a fun _ => w.settings with udefs := w.udefs }
  if finished then .ok (s.put (env.actOn c w.settings), w.x = 0) else .ok (s, false)

/-- The end of `tcl_channel_add`, where `join` tells that the record is a new one. -/
def setOptions (env : Env) (a : ℕ) (items : List CStr) (join : Bool) :
    Except Fault (State × Bool) := do
  let (s, ok) ← s.tclChannelModify env a items
  if ok ∨ env.chanHack then
    let c ← s.deref a
    if join ∧ c.settings.status &&& chanInactive = 0 ∧ env.irc then
      .ok (s.put [.server (joinLine c.dname c.settings.protect.key)], true)
    else .ok (s, true)
  else do
    let s ← s.removeChannel a
    .ok (s, false)

end State

/-- The name is none that a channel can have. -/
def badName (newname : CStr) : Bool :=
  !(newname.head?.any (chanMeta.contains ·)) || newname.contains ','

/-- `tcl_channel_add`; `false` is `TCL_ERROR`. -/
def tclChannelAdd (env : Env) (s : State) (newname options : CStr) : Except Fault (State × Bool) :=
  if badName newname then .ok (s, false)
  else do
    match ← s.findchanByDname newname with
    | some a =>
      (s.update a fun c => { c with status := c.status &&& ~~~chanFlagged }).setOptions env a
        (env.items options) false
    | none =>
      let c := s.newRecord env newname
      let s ← { s with chanset := s.chanset ++ [c], next := s.next + 1 }.chanHtabAdd c
      (s.put [.shareout ("nc ".toList ++ c.dname)]).setOptions env c.addr (env.items options) true

/-! ### What is said of it -/

/-- The channels and their settings are as they were. -/
structure Unchanged (s s' : State) : Prop where
  chanset : s'.chanset = s.chanset
  udefs : ∀ c ∈ s.chanset, ∀ i, valueAt s'.udefs i c.dname = valueAt s.udefs i c.dname

/-- A bot whose tables follow the channel list. -/
structure Bot extends State where
  linked : Linked toState.reg

/-- The call returns, and an error leaves everything as it was. -/
def Undone (env : Env) (s : Bot) (newname options : CStr) : Prop :=
  Gives (tclChannelAdd env s.toState newname options) fun r =>
    r.2 = false → Unchanged s.toState r.1

/-- What the options say of a channel of that name. -/
def Env.reading (env : Env) (s : State) (dname options : CStr) : Reading :=
  readOptions env.toContext dname s.udefs (env.items options)

/-- The options are accepted, of a channel that is there or of a new one. -/
def Accepted (env : Env) (s : State) (newname options : CStr) : Prop :=
  (∃ c ∈ s.chanset, s.findchanByDname newname = .ok (some c.addr) ∧
    (env.reading s c.dname options).ok = true) ∨
  s.findchanByDname newname = .ok none ∧
    (env.reading s (newname.take channelLen) options).ok = true

/-- There is no such channel.  Its name is cut where it is too long: if a channel is called so, the
values that are given for the user defined settings of it are those it has. -/
def Apart (env : Env) (s : State) (newname options : CStr) : Prop :=
  s.findchanByDname newname = .ok none ∧
    ∀ c ∈ s.chanset, strcaseEq (newname.take channelLen) c.dname = true →
      ∀ i value, lastGiven i (env.reading s (newname.take channelLen) options).given = some value →
        valueAt s.udefs i c.dname = value

/-! ### Records and tables -/

section Records

variable {s s' s'' : State} {c : Record} {a : ℕ} {env : Env} {items : List CStr}

/-- Only the settings of the record at `a` may be others. -/
structure Touched (a : ℕ) (s s' : State) : Prop where
  chanset : ∃ f : Record → Settings, s'.chanset = s.chanset.map fun c =>
    if c.addr = a then { c with settings := f c } else c
  byName : s'.byName = s.byName
  byDname : s'.byDname = s.byDname
  next : s'.next = s.next

theorem Touched.linked (h : Touched a s s') (hs : Linked s.reg) : Linked s'.reg := by
  obtain ⟨⟨f, hf⟩, hn, hd, hnext⟩ := h
  have hkeys : s'.reg.chanset.map (fun c => (c.addr, c.dname, c.name)) =
      s.reg.chanset.map fun c => (c.addr, c.dname, c.name) := by
    unfold State.reg
    rw [hf, map_map, map_map, map_map]
    refine map_congr_left fun c _ => ?_
    by_cases hc : c.addr = a
    · simp [hc, Record.chan]
    · simp [hc, Record.chan]
  have haddr : s'.reg.chanset.map Chan.addr = s.reg.chanset.map Chan.addr := by
    have := congrArg (map Prod.fst) hkeys
    rwa [map_map, map_map] at this
  have hdnames : s'.reg.dnames = s.reg.dnames := by
    have := congrArg (map fun p => (p.1, p.2.1)) hkeys
    rwa [map_map, map_map] at this
  have hnames : s'.reg.names = s.reg.names := by
    have := congrArg (fun l => (l.filter fun p => p.2.2 ≠ []).map fun p => (p.1, p.2.2)) hkeys
    rwa [filter_map, filter_map, map_map, map_map] at this
  refine ⟨haddr ▸ hs.nodup, fun d hd => ?_, ?_, ?_⟩
  · have hmem : d.addr ∈ s'.reg.chanset.map Chan.addr := mem_map_of_mem hd
    rw [haddr] at hmem
    obtain ⟨e, he, heq⟩ := mem_map.1 hmem
    rw [← heq]
    exact lt_of_lt_of_eq (hs.young e he) hnext.symm
  · rw [hnames, show s'.reg.byName = s.reg.byName from hn]
    exact hs.byName
  · rw [hdnames, show s'.reg.byDname = s.reg.byDname from hd]
    exact hs.byDname

/-- Without the record at `a`, the list is the same. -/
theorem Touched.filter (h : Touched a s s') :
    s'.chanset.filter (·.addr ≠ a) = s.chanset.filter (·.addr ≠ a) := by
  obtain ⟨f, hf⟩ := h.chanset
  rw [hf]
  induction s.chanset with
  | nil => rfl
  | cons c cs ih =>
    rw [map_cons, filter_cons, filter_cons, ih]
    by_cases hc : c.addr = a
    · simp [hc]
    · simp [hc]

theorem Touched.mem (h : Touched c.addr s s') (hc : c ∈ s.chanset) :
    ∃ c' ∈ s'.chanset, c'.addr = c.addr ∧ c'.dname = c.dname := by
  obtain ⟨f, hf⟩ := h.chanset
  refine ⟨{ c with settings := f c }, ?_, rfl, rfl⟩
  rw [hf]
  exact mem_map.2 ⟨c, hc, if_pos rfl⟩

theorem touched_update (s : State) (a : ℕ) (f : Settings → Settings) : Touched a s (s.update a f) :=
  ⟨⟨fun c => f c.settings, rfl⟩, rfl, rfl, rfl⟩

theorem eq_of_addr (hs : Linked s.reg) {d : Record} (hd : d ∈ s.chanset) (hc : c ∈ s.chanset)
    (h : d.addr = c.addr) : d = c := by
  have hnd := hs.nodup
  unfold State.reg at hnd
  rw [map_map] at hnd
  exact inj_on_of_nodup_map hnd hd hc h

theorem deref_eq (hs : Linked s.reg) (hc : c ∈ s.chanset) : s.deref c.addr = .ok c := by
  unfold State.deref
  cases hf : s.chanset.find? (·.addr = c.addr) with
  | none =>
    rw [find?_eq_none] at hf
    have := hf c hc
    simp at this
  | some d =>
    have haddr : d.addr = c.addr := by simpa using find?_some hf
    rw [eq_of_addr hs (mem_of_find?_eq_some hf) hc haddr]
    rfl

theorem removeChannel_spec (hs : Linked s.reg) (hc : c ∈ s.chanset) :
    Gives (s.removeChannel c.addr) fun s' => Linked s'.reg ∧
      s'.chanset = s.chanset.filter (·.addr ≠ c.addr) ∧ s'.udefs = s.udefs := by
  unfold State.removeChannel
  rw [deref_eq hs hc]
  obtain ⟨t, ht, ⟨n, d, rfl⟩, h', hname, hdname⟩ := hs.chanHtabDel c.chan
  have hfilter : (s.chanset.filter (·.addr ≠ c.addr)).map Record.chan =
      s.reg.chanset.filter (·.addr ≠ c.addr) := by
    unfold State.reg
    rw [filter_map]
    rfl
  have hmem : c.chan ∈ s.reg.chanset := mem_map_of_mem hc
  have hlinked : Linked { s.reg with
      byName := n, byDname := d, chanset := s.reg.chanset.filter (·.addr ≠ c.addr) } :=
    h'.relist hmem hname hdname
      (hs.nodup.sublist (filter_sublist.map Chan.addr)) (fun d hd => hs.young d (mem_filter.1 hd).1)
      (fun d hd hne => mem_filter.2 ⟨hd, decide_eq_true hne⟩)
  rw [← hfilter] at hlinked
  have hdel : s.chanHtabDel c = .ok (s.withTables { s.reg with byName := n, byDname := d }) := by
    unfold State.chanHtabDel
    rw [ht]
    rfl
  refine Gives.bind (Gives.ok rfl) ?_
  rintro _ rfl
  rw [hdel]
  exact Gives.ok ⟨hlinked, rfl, rfl⟩

end Records

/-! ### The call -/

section Call

variable {s : State} {c : Record} {env : Env} {items : List CStr}

/-- The words are done, and the settings of no other record are changed. -/
theorem tclChannelModify_spec (hs : Linked s.reg) (hc : c ∈ s.chanset) :
    Gives (s.tclChannelModify env c.addr items) fun p => Touched c.addr s p.1 ∧
      p.2 = (readOptions env.toContext c.dname s.udefs items).ok ∧
        ∀ i m, valueAt p.1.udefs i m =
          if strcaseEq c.dname m = true then
            (lastGiven i (readOptions env.toContext c.dname s.udefs items).given).getD
              (valueAt s.udefs i m)
          else valueAt s.udefs i m := by
  unfold State.tclChannelModify
  rw [deref_eq hs hc]
  refine Gives.bind (Gives.ok rfl) ?_
  rintro _ rfl
  have hdone : Done c.dname ⟨c.settings, s.udefs, 0⟩
      (readOptions env.toContext c.dname s.udefs items) _ _ := modifyLoop_spec items _
  dsimp only at hdone ⊢
  generalize modifyLoop env.toContext c.dname ⟨c.settings, s.udefs, 0⟩ items = p at hdone ⊢
  obtain ⟨w, finished⟩ := p
  have hok := hdone.ok
  dsimp only at hok ⊢
  refine Gives.ite
    (fun hfin => Gives.ok ⟨⟨⟨fun _ => w.settings, rfl⟩, rfl, rfl, rfl⟩, ?_, hdone.udefs⟩)
    fun hfin => Gives.ok ⟨⟨⟨fun _ => w.settings, rfl⟩, rfl, rfl, rfl⟩, ?_, hdone.udefs⟩
  · rw [Bool.eq_iff_iff, decide_eq_true_iff, ← hok]
    exact ⟨fun h => ⟨hfin, h⟩, fun h => h.2⟩
  · rw [Bool.eq_iff_iff, ← hok]
    exact ⟨fun h => absurd h Bool.false_ne_true, fun h => absurd h.1 hfin⟩

/-- What the end of the call leaves of a record with wrong options: nothing. -/
theorem setOptions_spec (hs : Linked s.reg) (hc : c ∈ s.chanset) (join : Bool) :
    Gives (s.setOptions env c.addr items join) fun p => Linked p.1.reg ∧
      p.2 = ((readOptions env.toContext c.dname s.udefs items).ok || env.chanHack) ∧
        (p.2 = false → p.1.chanset = s.chanset.filter (·.addr ≠ c.addr) ∧
          ∀ i m, valueAt p.1.udefs i m =
            if strcaseEq c.dname m = true then
              (lastGiven i (readOptions env.toContext c.dname s.udefs items).given).getD
                (valueAt s.udefs i m)
            else valueAt s.udefs i m) := by
  unfold State.setOptions
  refine (tclChannelModify_spec hs hc).bind ?_
  rintro ⟨s', ok⟩ ⟨htouched, rfl, hudefs⟩
  dsimp only at htouched hudefs ⊢
  have hs' := htouched.linked hs
  obtain ⟨c', hc', haddr, -⟩ := htouched.mem hc
  rw [← haddr]
  refine Gives.ite (fun hok => ?_) fun hok => ?_
  · have hret : ((readOptions env.toContext c.dname s.udefs items).ok || env.chanHack) = true := by
      simpa using hok
    rw [deref_eq hs' hc', hret]
    refine Gives.bind (Gives.ok rfl) ?_
    rintro _ rfl
    exact Gives.ite (fun _ => Gives.ok ⟨hs', rfl, fun h => nomatch h⟩) fun _ =>
      Gives.ok ⟨hs', rfl, fun h => nomatch h⟩
  · have hret : ((readOptions env.toContext c.dname s.udefs items).ok || env.chanHack) = false := by
      simpa using hok
    refine (removeChannel_spec hs' hc').bind ?_
    rintro s'' ⟨hs'', hchanset, hsame⟩
    refine Gives.ok ⟨hs'', hret.symm, fun _ => ⟨?_, fun i m => ?_⟩⟩
    · rw [hchanset, haddr, htouched.filter]
    · rw [hsame, hudefs]

/-- A record at the end of the list, and in the tables. -/
theorem append_spec (hs : Linked s.reg) (env : Env) (newname : CStr) :
    Gives ({ s with chanset := s.chanset ++ [s.newRecord env newname], next := s.next + 1 }.chanHtabAdd
      (s.newRecord env newname)) fun s' => Linked s'.reg ∧
        s'.chanset = s.chanset ++ [s.newRecord env newname] ∧ s'.udefs = s.udefs := by
  have hchan : (s.newRecord env newname).chan = s.reg.newChan newname := by
    unfold State.newRecord Record.chan Chanset.State.newChan Env.newSettings
    simp [State.reg]
  have hreg : State.reg { s with chanset := s.chanset ++ [s.newRecord env newname], next := s.next + 1 }
      = { s.reg with chanset := s.reg.chanset ++ [s.reg.newChan newname], next := s.reg.next + 1 } := by
    unfold State.reg at hchan ⊢
    dsimp only at hchan ⊢
    rw [map_append, map_singleton, hchan]
  obtain ⟨t, ht, ⟨n, d, rfl⟩, h'⟩ := (hs.append newname).chanHtabAdd
    (mem_append_right _ (mem_singleton_self _))
  rw [← hreg] at ht h'
  unfold State.chanHtabAdd
  rw [hchan, ht]
  exact Gives.ok ⟨h', rfl, rfl⟩

theorem filter_append (hs : Linked s.reg) (env : Env) (newname : CStr) :
    (s.chanset ++ [s.newRecord env newname]).filter (·.addr ≠ s.next) = s.chanset := by
  have hold : ∀ c ∈ s.chanset, c.addr ≠ s.next := fun c hc =>
    (hs.young c.chan (mem_map_of_mem hc)).ne
  rw [List.filter_append, filter_eq_self.2 fun c hc => by simpa using hold c hc]
  simp [State.newRecord]

/-- What an error leaves. -/
structure Left (env : Env) (s : State) (newname options : CStr) (s' : State) : Prop where
  /-- A channel that was found is gone. -/
  found : ∀ a, s.findchanByDname newname = .ok (some a) → a ∉ s'.chanset.map Record.addr
  /-- A channel that was made is gone, but what was given is not. -/
  made : s.findchanByDname newname = .ok none → s'.chanset = s.chanset ∧
    ∀ i m, valueAt s'.udefs i m =
      if strcaseEq (newname.take channelLen) m = true then
        (lastGiven i (env.reading s (newname.take channelLen) options).given).getD
          (valueAt s.udefs i m)
      else valueAt s.udefs i m

/-- What is left after the call. -/
theorem tclChannelAdd_spec (hs : Linked s.reg) (env : Env) (newname options : CStr)
    (hname : badName newname = false) :
    Gives (tclChannelAdd env s newname options) fun p => Linked p.1.reg ∧
      (p.2 = true ↔ Accepted env s newname options ∨ env.chanHack = true) ∧
        (p.2 = false → Left env s newname options p.1) := by
  obtain ⟨r, hr, hfound⟩ := hs.findchanByDname newname
  have hfind : s.findchanByDname newname = .ok r := hr
  unfold tclChannelAdd
  rw [hname, if_neg Bool.false_ne_true, hfind]
  refine Gives.bind (Gives.ok rfl) ?_
  rintro _ rfl
  rcases hfound with ⟨d, hd, rfl, -⟩ | ⟨rfl, -⟩
  · obtain ⟨c, hc, rfl⟩ := mem_map.1 hd
    have htouched := touched_update s c.addr fun c => { c with status := c.status &&& ~~~chanFlagged }
    obtain ⟨c', hc', haddr, hdname⟩ := htouched.mem hc
    have hset : Gives (State.setOptions _ env c'.addr (env.items options) false) _ :=
      setOptions_spec (htouched.linked hs) hc' false
    rw [haddr, hdname] at hset
    refine hset.mono ?_
    rintro ⟨s', ok⟩ ⟨h', hok, hleft⟩
    refine ⟨h', ?_, fun herr => ⟨fun a ha => ?_, fun hno => ?_⟩⟩
    · rw [hok, Bool.or_eq_true]
      refine or_congr ⟨fun h => .inl ⟨c, hc, hfind, h⟩, ?_⟩ Iff.rfl
      rintro (⟨e, he, hfe, h⟩ | ⟨hno, -⟩)
      · have heq : some c.addr = some e.addr := Except.ok.inj (hfind.symm.trans hfe)
        obtain rfl := eq_of_addr hs he hc (Option.some.inj heq).symm
        exact h
      · rw [hfind] at hno
        cases hno
    · have heq : some c.addr = some a := Except.ok.inj (hfind.symm.trans ha)
      obtain rfl := Option.some.inj heq
      rw [(hleft herr).1]
      intro hmem
      obtain ⟨e, he, heq⟩ := mem_map.1 hmem
      have hne := (mem_filter.1 he).2
      simp [heq] at hne
    · rw [hfind] at hno
      cases hno
  · refine (append_spec hs env newname).bind ?_
    rintro s₁ ⟨hs₁, hchanset, hudefs⟩
    have hmem : s.newRecord env newname ∈ s₁.chanset := by
      rw [hchanset]
      exact mem_append_right _ (mem_singleton_self _)
    refine (setOptions_spec (s := s₁.put _) (c := s.newRecord env newname) hs₁ hmem true).mono ?_
    rintro ⟨s', ok⟩ ⟨h', hok, hleft⟩
    have hsame : (s₁.put [.shareout ("nc ".toList ++ (s.newRecord env newname).dname)]).udefs =
        s.udefs := hudefs
    rw [hsame] at hok hleft
    refine ⟨h', ?_, fun herr => ⟨fun a ha => ?_, fun _ => ⟨?_, (hleft herr).2⟩⟩⟩
    · rw [hok, Bool.or_eq_true]
      refine or_congr ⟨fun h => .inr ⟨hfind, h⟩, ?_⟩ Iff.rfl
      rintro (⟨e, -, hfe, -⟩ | ⟨-, h⟩)
      · rw [hfind] at hfe
        cases hfe
      · exact h
    · rw [hfind] at ha
      cases ha
    · rw [(hleft herr).1]
      show filter _ s₁.chanset = _
      rw [hchanset]
      exact filter_append hs env newname

end Call

/-- An error leaves everything as it was exactly if the name is one that no channel can have, or
errors are ignored, or all options are accepted, or the channel is a new one, not called like
another. -/
theorem undone_iff (env : Env) (s : Bot) (newname options : CStr) :
    Undone env s newname options ↔
      badName newname = true ∨ env.chanHack = true ∨
        Accepted env s.toState newname options ∨ Apart env s.toState newname options := by
  unfold Undone
  by_cases hname : badName newname = true
  · refine ⟨fun _ => .inl hname, fun _ => ?_⟩
    unfold tclChannelAdd
    rw [if_pos hname]
    exact Gives.ok fun _ => ⟨rfl, fun _ _ _ => rfl⟩
  have hfalse : badName newname = false := by simpa using hname
  obtain ⟨p, hp, -, hok, hleft⟩ := tclChannelAdd_spec s.linked env newname options hfalse
  rw [hp]
  refine ⟨?_, ?_⟩
  · rintro ⟨q, hq, hsame⟩
    obtain rfl : p = q := Except.ok.inj hq
    by_cases hret : p.2 = true
    · rcases hok.1 hret with h | h
      · exact .inr (.inr (.inl h))
      · exact .inr (.inl h)
    have herr : p.2 = false := by simpa using hret
    have hsame := hsame herr
    have hleft := hleft herr
    refine .inr (.inr (.inr ?_))
    obtain ⟨r, hr, hfound⟩ := s.linked.findchanByDname newname
    rcases hfound with ⟨d, hd, rfl, -⟩ | ⟨rfl, -⟩
    · -- the channel was listed, and is not any more
      have hgone := hleft.found d.addr hr
      obtain ⟨c, hc, rfl⟩ := mem_map.1 hd
      rw [hsame.chanset] at hgone
      exact absurd (mem_map_of_mem hc) hgone
    · refine ⟨hr, fun c hc hname i value hgiven => ?_⟩
      have hvalue := (hleft.made hr).2 i c.dname
      rw [if_pos hname, hgiven, Option.getD_some, hsame.udefs c hc i] at hvalue
      exact hvalue
  · intro h
    refine ⟨p, rfl, fun herr => ?_⟩
    have hnot : ¬ p.2 = true := by
      rw [herr]
      exact Bool.false_ne_true
    rcases h with h | h | h | ⟨hfind, hgiven⟩
    · exact absurd h hname
    · exact absurd (hok.2 (.inr h)) hnot
    · exact absurd (hok.2 (.inl h)) hnot
    · obtain ⟨hchanset, hudefs⟩ := (hleft herr).made hfind
      refine ⟨hchanset, fun c hc i => ?_⟩
      rw [hudefs]
      by_cases hsame : strcaseEq (newname.take channelLen) c.dname = true
      · rw [if_pos hsame]
        cases hlast : lastGiven i (env.reading s.toState (newname.take channelLen) options).given with
        | none => rfl
        | some value => exact (hgiven c hc hsame i value hlast).symm
      · rw [if_neg hsame]

/-- No channels. -/
def init : State := ⟨[], [], [], true, 0, [], []⟩

/-- A bot without Tcl, as it is where nothing is set. -/
def plainEnv : Env where
  checkTclChanset _ _ _ := false
  convertElement := id
  allowPs := false
  tclSplitList _ := none
  globChanmode := "nt".toList
  globChanset := []
  gfldChan := ⟨10, 60⟩
  gfldJoin := ⟨5, 60⟩
  gfldCtcp := ⟨3, 60⟩
  gfldKick := ⟨3, 10⟩
  gfldDeop := ⟨3, 10⟩
  gfldNick := ⟨0, 0⟩
  globalStopnethackMode := 0
  globalRevengeMode := 0
  globalBanType := 3
  globalBanTime := 120
  globalExemptTime := 60
  globalInviteTime := 60
  globalIdleKick := 0
  globalAopMin := 5
  globalAopMax := 30
  chanHack := false
  protectReadonly := true
  irc := true

theorem linked_init : Linked init.reg := Linked.init

/-- A channel is added again with an option that there is not, and is gone. -/
theorem not_undone : ¬ ∀ (env : Env) (s : Bot) (newname options : CStr),
    Undone env s newname options := by
  intro h
  obtain ⟨p, hp, hlinked, -⟩ := tclChannelAdd_spec linked_init plainEnv "#lean".toList [] (by decide)
  obtain ⟨q, hq, hsame⟩ := h plainEnv ⟨p.1, hlinked⟩ "#lean".toList "bogus".toList
  have hruns : ((tclChannelAdd plainEnv init "#lean".toList []).toOption.any fun p =>
      (tclChannelAdd plainEnv p.1 "#lean".toList "bogus".toList).toOption.any fun q =>
        !q.2 && q.1.chanset.isEmpty && !p.1.chanset.isEmpty) = true := by decide +kernel
  rw [hp] at hruns
  change ((tclChannelAdd plainEnv p.1 "#lean".toList "bogus".toList).toOption.any fun q =>
    !q.2 && q.1.chanset.isEmpty && !p.1.chanset.isEmpty) = true at hruns
  rw [hq] at hruns
  change (!q.2 && q.1.chanset.isEmpty && !p.1.chanset.isEmpty) = true at hruns
  simp only [Bool.and_eq_true, Bool.not_eq_true'] at hruns
  have hchanset : q.1.chanset = p.1.chanset := (hsame hruns.1.1).chanset
  rw [hchanset, hruns.2] at hruns
  cases hruns.1.2

end Eggdrop.ChannelAdd
