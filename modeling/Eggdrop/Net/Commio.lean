import Mathlib.Data.Int.Notation
import Mathlib.Logic.Function.Basic
import Mathlib.Tactic.Common
import Eggdrop.Lib.ListEdit
import Eggdrop.Lib.Run

/-!
# Commio — which socket an event is charged to (net.c, libop's commio)

A socket in the table is watched through its descriptor: the callbacks that are registered for it come
back with a pointer that says which slot of the table is meant, and set that slot's flag.  `allocsock`
and `dequeue_sockets` put the slot's index in the pointer, and the callbacks cast it back.  Where a
TLS handshake asks to read again, `sockread` puts in the slot's address.

The loops of `sockread` and `dequeue_sockets` are taken slot by slot, and anything else may happen
between two slots.

* `Good`: every callback comes back with the index of a slot that holds its descriptor.
* `fire_charged`: then an event sets no flag but of a slot that holds its descriptor.
* `charged_throughout_iff`: it stays so over a run exactly when no handshake asks to read again.
-/

open List

namespace Eggdrop.Net.Commio

/-! ### The state -/

/-- The `data` of a callback: an index cast to a pointer, or an address, here with what the callbacks
make of it when they cast it to `int`. -/
inductive Data
  | index (i : ℕ)
  | address (n : ℤ)
  deriving DecidableEq

def Data.cast : Data → ℤ
  | .index i => i
  | .address n => n

/-- A callback that is registered: `commio_read_cb` or `commio_write_cb`, or one of another owner
(dns.mod's for its own socket, libop's for the rest of a TLS write). -/
inductive Callback
  | commio (data : Data)
  | other
  deriving DecidableEq

/-- `OP_SELECT_READ` and `OP_SELECT_WRITE`. -/
inductive Dir
  | read
  | write
  deriving DecidableEq

/-- `op_fde_t` of an open descriptor. -/
structure Fde where
  read : Option Callback
  write : Option Callback
  deriving DecidableEq

def Fde.callback (F : Fde) : Dir → Option Callback
  | .read => F.read
  | .write => F.write

def Fde.register (F : Fde) (d : Dir) (c : Option Callback) : Fde :=
  match d with
  | .read => { F with read := c }
  | .write => { F with write := c }

/-- `SOCK_UNUSED`, `SOCK_TCL` or neither. -/
inductive Kind
  | unused
  | tcl
  | io
  deriving DecidableEq

/-- The other flags that are looked at here. -/
structure Flags where
  virtual : Bool
  nonsock : Bool
  listen : Bool
  connect : Bool
  strongconn : Bool
  pass : Bool
  proxywait : Bool
  deriving DecidableEq

/-- `ssl`: none, under way, or `OPSSL_HS_COMPLETE`. -/
inductive Ssl
  | off
  | handshake
  | complete
  deriving DecidableEq

/-- `sock_list`; `outbuf` says that there is one. -/
structure Slot where
  kind : Kind
  flags : Flags
  sock : ℤ
  ssl : Ssl
  outbuf : Bool
  readReady : Bool
  writeReady : Bool
  recvInFlight : Bool
  deriving DecidableEq

/-- A slot that was never used. -/
def Slot.empty : Slot :=
  ⟨.unused, ⟨false, false, false, false, false, false, false⟩, -1, .off, false, false, false, false⟩

structure State where
  slots : List Slot
  fdes : ℤ → Option Fde
  maxSocks : ℕ
  maxDcc : ℕ

/-- `op_setselect` on what `op_get_fde` finds. -/
def State.setselect (fd : ℤ) (d : Dir) (c : Option Callback) (s : State) : State :=
  { s with fdes := Function.update s.fdes fd ((s.fdes fd).map (·.register d c)) }

def State.modify (i : ℕ) (f : Slot → Slot) (s : State) : State :=
  { s with slots := s.slots.modify i f }

/-- `findsock`, which looks at unused slots too. -/
def State.findsock (sock : ℤ) (s : State) : Option ℕ := s.slots.findIdx? (·.sock == sock)

/-! ### The table -/

/-- The first unused slot. -/
def State.free (s : State) : Option ℕ := s.slots.findIdx? (·.kind == .unused)

/-- `increase_socks_max`, and whether it says that there is room.  (`max-socks` is never set below
the size of the table.) -/
def State.increaseSocksMax (s : State) : State × Bool :=
  let s := { s with maxSocks := max 1 s.maxSocks }
  if s.slots.length = s.maxSocks then (s, false)
  else
    let n := min (s.slots.length + 10) s.maxSocks
    let s := { s with slots := s.slots ++ replicate (n - s.slots.length) .empty }
    if (s.maxDcc : ℤ) < (n : ℤ) - 10 then ({ s with maxDcc := n - 10 }, true)
    else if s.maxDcc = 0 then ({ s with maxDcc := 1 }, true)
    else (s, false)

/-- `allocsock` at slot `i`. -/
def State.place (i : ℕ) (sock : ℤ) (options : Flags) (s : State) : State :=
  let s := { s with slots := s.slots.set i ⟨.io, options, sock, .off, false, false, false, false⟩ }
  if 0 ≤ sock ∧ options.nonsock = false ∧ options.virtual = false then
    match s.fdes sock with
    -- `op_open` refuses a descriptor that is open
    | some _ => s
    | none =>
      let s := { s with fdes := Function.update s.fdes sock (some ⟨none, none⟩) }
      let s := s.setselect sock .read (some (.commio (.index i)))
      if options.connect then s.setselect sock .write (some (.commio (.index i))) else s
  else s

/-- `allocsock`; nobody asks for an unused or a Tcl socket.  A table that has grown has a free slot. -/
def State.allocsock (sock : ℤ) (options : Flags) (s : State) : State :=
  match s.free with
  | some i => s.place i sock options
  | none =>
    match s.increaseSocksMax with
    | (s, true) =>
      match s.free with
      | some i => s.place i sock options
      | none => s
    | (s, false) => s

/-- The slot that `alloctclsock` takes: the one of the Tcl socket, or the first unused one. -/
def State.tclSlot (sock : ℤ) (s : State) : Option ℕ :=
  match s.slots.findIdx? fun x => x.kind == .tcl && x.sock == sock with
  | some i => some i
  | none => s.free

def Slot.toTcl (sock : ℤ) (x : Slot) : Slot :=
  { x with kind := .tcl, flags := Slot.empty.flags, sock := sock }

/-- `alloctclsock`. -/
def State.alloctclsock (sock : ℤ) (s : State) : State :=
  match s.tclSlot sock with
  | some i => s.modify i (Slot.toTcl sock)
  | none =>
    match s.increaseSocksMax with
    | (s, true) =>
      match s.tclSlot sock with
      | some i => s.modify i (Slot.toTcl sock)
      | none => s
    | (s, false) => s

/-- The first slot in use with the descriptor. -/
def State.findUsed (sock : ℤ) (s : State) : Option ℕ :=
  s.slots.findIdx? fun x => x.sock == sock && x.kind != .unused

/-- `killsock`. -/
def State.killsock (sock : ℤ) (s : State) : State :=
  if sock < 0 then s
  else
    match s.findUsed sock with
    | none => s
    | some i =>
      if (s.slots[i]?.any fun x => x.kind == .tcl) = true then
        s.modify i fun x => { x with kind := .unused }
      else
        { s.modify i fun x => { x with kind := .unused, ssl := .off, outbuf := false } with
          fdes := Function.update s.fdes sock none }

/-- `killtclsock`. -/
def State.killtclsock (sock : ℤ) (s : State) : State :=
  if sock < 0 then s
  else
    match s.slots.findIdx? fun x => x.kind == .tcl && x.sock == sock with
    | none => s
    | some i => s.modify i fun x => { x with kind := .unused }

/-- `ssl_handshake`; `outcome` is what becomes of the session, `none` if there is none at all. -/
def State.sslHandshake (sock : ℤ) (outcome : Option Ssl) (s : State) : State :=
  match s.findsock sock, outcome with
  | some i, some ssl =>
    if (s.slots[i]?.any fun x => x.ssl != .off) = true then s
    else
      { s.modify i fun x => { x with ssl := ssl } with
        fdes := Function.update s.fdes sock (some ((s.fdes sock).getD ⟨none, none⟩)) }
  | _, _ => s

/-! ### Events -/

/-- `commio_read_cb` and `commio_write_cb`. -/
def State.commioCb (d : Dir) (fd : ℤ) (data : Data) (s : State) : State :=
  if data.cast < 0 then s
  else
    let i := data.cast.toNat
    if (s.slots[i]?.any fun x => x.kind != .unused) = true then
      State.setselect fd d (some (.commio data)) (s.modify i fun x =>
        match d with
        | .read => { x with readReady := true }
        | .write => { x with writeReady := true })
    else s

/-- An event on a descriptor, in `op_select`: the registration is over when its callback is called. -/
def State.fire (fd : ℤ) (d : Dir) (s : State) : State :=
  match (s.fdes fd).bind (·.callback d) with
  | none => s
  | some (.commio data) => (s.setselect fd d none).commioCb d fd data
  | some .other => s.setselect fd d none

/-- What a handshake that is driven answers, or a read. -/
inductive Answer
  /-- `OPSSL_WANT_READ`; the slot's address is cast to `n` -/
  | wantRead (n : ℤ)
  | wantWrite
  | ok
  /-- the handshake or the connection is at an end -/
  | fatal
  deriving DecidableEq

/-- What `sockread` does with a slot. -/
inductive Turn
  | pass
  /-- it returns the slot -/
  | report
  | handshake
  | read
  deriving DecidableEq

def Slot.turn (x : Slot) : Turn :=
  if x.kind = .io ∧ x.recvInFlight = false ∧ x.readReady = true then
    if x.flags.listen = true ∨ x.flags.connect = true then
      if x.flags.proxywait = false ∧ x.flags.strongconn = false ∧ x.ssl ≠ .handshake then .report
      else if x.ssl = .handshake then .handshake
      else .read
    else if x.flags.pass = true then .report
    else if x.ssl = .handshake then .handshake
    else .read
  else .pass

/-- The dispatch loop of `sockread` at slot `i`. -/
def State.dispatch (i : ℕ) (answer : Answer) (s : State) : State :=
  match s.slots[i]? with
  | none => s
  | some x =>
    match x.turn with
    | .pass => s
    | .report => s.modify i fun x => { x with readReady := false }
    | .handshake =>
      let s := s.modify i fun x => { x with readReady := false }
      match answer with
      | .wantRead n => s.setselect x.sock .read (some (.commio (.address n)))
      | .wantWrite => s.modify i fun x => { x with writeReady := false }
      | .ok => s.modify i fun x => { x with readReady := true, ssl := .complete }
      | .fatal => s.modify i fun x => { x with flags := { x.flags with connect := false } }
    | .read =>
      let s := s.modify i fun x => { x with readReady := false }
      if answer = .fatal then
        s.modify i fun x => { x with flags := { x.flags with connect := false } }
      else s

/-- There is something to write, or a handshake goes on. -/
def Slot.needsWrite (x : Slot) : Bool := x.kind == .io && (x.outbuf || x.ssl == .handshake)

/-- The first loop of `dequeue_sockets` at slot `j`. -/
def State.arm (j : ℕ) (s : State) : State :=
  match s.slots[j]? with
  | some x =>
    if (x.needsWrite && (s.fdes x.sock).isSome) = true then
      State.setselect x.sock .write (some (.commio (.index j)))
        (s.modify j fun x => { x with writeReady := false })
    else s
  | none => s

/-- The second loop of `dequeue_sockets`. -/
def State.disarm (j : ℕ) (s : State) : State :=
  match s.slots[j]? with
  | some x =>
    if (x.needsWrite && !x.flags.connect) = true then s.setselect x.sock .write none else s
  | none => s

/-- The third loop of `dequeue_sockets`; `emptied` says that all that was queued could be written. -/
def State.drain (i : ℕ) (answer : Answer) (emptied : Bool) (s : State) : State :=
  match s.slots[i]? with
  | none => s
  | some x =>
    if x.kind = .io ∧ x.ssl = .handshake ∧ x.writeReady = true then
      let s := s.modify i fun x => { x with writeReady := false }
      match answer with
      | .ok => s.modify i fun x => { x with readReady := true, ssl := .complete }
      | .fatal => s.modify i fun x => { x with flags := { x.flags with connect := false } }
      | .wantRead _ | .wantWrite => s
    else if x.kind = .io ∧ x.outbuf = true ∧ x.writeReady = true then
      s.modify i fun x => { x with writeReady := false, outbuf := !emptied }
    else s

/-- One step of anybody. -/
inductive Event
  | allocsock (sock : ℤ) (options : Flags)
  | alloctclsock (sock : ℤ)
  | killsock (sock : ℤ)
  | killtclsock (sock : ℤ)
  /-- `max-socks` is set -/
  | maxSocks (l : ℕ)
  | sslHandshake (sock : ℤ) (outcome : Option Ssl)
  /-- the flags of a slot are changed: `sockoptions`, `open_telnet_raw`, `sockgets` -/
  | flags (i : ℕ) (flags : Flags)
  /-- `tputs` queues something -/
  | queue (i : ℕ)
  | fire (fd : ℤ) (d : Dir)
  /-- another owner registers its callback, or takes it back -/
  | other (fd : ℤ) (d : Dir) (on : Bool)
  /-- `sockread` wakes a handshake that would wait -/
  | wake (i : ℕ)
  /-- `async_recv_submit_all`, and a read that is done -/
  | recvSubmit (i : ℕ)
  | recvDone (i : ℕ) (again : Bool)
  | dispatch (i : ℕ) (answer : Answer)
  | arm (j : ℕ)
  | disarm (j : ℕ)
  | drain (i : ℕ) (answer : Answer) (emptied : Bool)
  deriving DecidableEq

def State.next (s : State) : Event → State
  | .allocsock sock options => s.allocsock sock options
  | .alloctclsock sock => s.alloctclsock sock
  | .killsock sock => s.killsock sock
  | .killtclsock sock => s.killtclsock sock
  | .maxSocks l => if l < s.slots.length then s else { s with maxSocks := l }
  | .sslHandshake sock outcome => s.sslHandshake sock outcome
  | .flags i flags => s.modify i fun x => { x with flags := flags }
  | .queue i => s.modify i fun x => { x with outbuf := true }
  | .fire fd d => s.fire fd d
  | .other fd d on => s.setselect fd d (if on then some .other else none)
  | .wake i => s.modify i fun x =>
      { x with readReady := x.readReady || (x.ssl == .handshake && x.flags.connect) }
  | .recvSubmit i => s.modify i fun x => { x with readReady := false, recvInFlight := true }
  | .recvDone i again => s.modify i fun x =>
      { x with recvInFlight := false, readReady := x.readReady || again }
  | .dispatch i answer => s.dispatch i answer
  | .arm j => s.arm j
  | .disarm j => s.disarm j
  | .drain i answer emptied => s.drain i answer emptied

def State.step (s : State) (e : Event) : Except Empty State := .ok (s.next e)

/-- Before the first socket. -/
def start : State := ⟨[], fun _ => none, 100, 0⟩

/-- `dequeue_sockets` over a table of `n` slots: what fires in its `op_select`, and what becomes of
the slots. -/
def dequeueSockets (n : ℕ) (fired : List (ℤ × Dir)) (results : ℕ → Answer × Bool) : List Event :=
  (range n).map .arm ++ fired.map (fun f => .fire f.1 f.2) ++ (range n).map .disarm ++
    (range n).map fun i => .drain i (results i).1 (results i).2

/-! ### Whom an event is charged to -/

/-- The pointer says where a slot is that holds the descriptor. -/
def State.Names (s : State) (fd : ℤ) (data : Data) : Prop :=
  ∃ i x, data = .index i ∧ s.slots[i]? = some x ∧ x.kind = .io ∧ x.sock = fd

/-- Every callback that is registered for a live descriptor comes back with the index of the slot that
holds the descriptor. -/
def State.Good (s : State) : Prop :=
  ∀ fd F d data, s.fdes fd = some F → F.callback d = some (.commio data) → s.Names fd data

/-- A handshake that `sockread` drives on a live descriptor asks to read again. -/
def State.ReadAgain (s : State) : Event → Prop
  | .dispatch i (.wantRead _) =>
    ∃ x, s.slots[i]? = some x ∧ x.turn = .handshake ∧ (s.fdes x.sock).isSome = true
  | _ => False

variable {s : State} {fd : ℤ} {d : Dir} {data : Data} {c : Option Callback}

/-! ### What a registration and a slot may be changed to -/

theorem Fde.callback_register (F : Fde) (d d' : Dir) (c : Option Callback) :
    (F.register d c).callback d' = if d' = d then c else F.callback d' := by
  cases d <;> cases d' <;> rfl

theorem State.Good.setselect (h : s.Good) (hc : ∀ data, c = some (.commio data) → s.Names fd data) :
    (s.setselect fd d c).Good := by
  intro fd' F' d' data' hF' hcall
  have hupd : Function.update s.fdes fd ((s.fdes fd).map (·.register d c)) fd' = some F' := hF'
  by_cases hfd : fd' = fd
  · subst hfd
    rw [Function.update_self, Option.map_eq_some_iff] at hupd
    obtain ⟨F, hF, rfl⟩ := hupd
    rw [Fde.callback_register] at hcall
    split at hcall
    · exact hc data' hcall
    · exact h fd' F d' data' hF hcall
  · rw [Function.update_of_ne hfd] at hupd
    exact h fd' F' d' data' hupd hcall

theorem State.Good.clear (h : s.Good) : (s.setselect fd d none).Good :=
  h.setselect fun _ hc => nomatch hc

theorem State.Names.mono {t : State} (h : s.Names fd data)
    (hslots : ∀ (i : ℕ) (x : Slot), s.slots[i]? = some x → x.kind = .io → x.sock = fd →
      ∃ y, t.slots[i]? = some y ∧ y.kind = .io ∧ y.sock = fd) : t.Names fd data := by
  obtain ⟨i, x, rfl, hx, hkind, hsock⟩ := h
  obtain ⟨y, hy⟩ := hslots i x hx hkind hsock
  exact ⟨i, y, rfl, hy⟩

theorem State.Good.mono {t : State} (h : s.Good) (hfdes : t.fdes = s.fdes)
    (hslots : ∀ (i : ℕ) (x : Slot), s.slots[i]? = some x → x.kind = .io →
      ∃ y, t.slots[i]? = some y ∧ y.kind = .io ∧ y.sock = x.sock) : t.Good := by
  intro fd F d data hF hcall
  rw [hfdes] at hF
  refine (h fd F d data hF hcall).mono fun i x hx hkind hsock => ?_
  obtain ⟨y, hy, hykind, hysock⟩ := hslots i x hx hkind
  exact ⟨y, hy, hykind, hysock.trans hsock⟩

theorem getElem?_modify_some {i j : ℕ} {f : Slot → Slot} {x : Slot} (hx : s.slots[j]? = some x) :
    (s.modify i f).slots[j]? = some (if i = j then f x else x) := by
  rw [State.modify, getElem?_modify, hx]
  split
  · rfl
  · rfl

theorem State.Good.modify (h : s.Good) {i : ℕ} {f : Slot → Slot}
    (hf : ∀ x, (f x).kind = x.kind ∧ (f x).sock = x.sock) : (s.modify i f).Good := by
  refine h.mono rfl fun j x hx hkind => ⟨_, getElem?_modify_some hx, ?_⟩
  split
  · exact ⟨(hf x).1.trans hkind, (hf x).2⟩
  · exact ⟨hkind, rfl⟩

theorem State.Good.modify_other (h : s.Good) {i : ℕ} {f : Slot → Slot}
    (hi : ∀ x, s.slots[i]? = some x → x.kind ≠ .io) : (s.modify i f).Good := by
  refine h.mono rfl fun j x hx hkind => ⟨_, getElem?_modify_some hx, ?_⟩
  split
  · next hij =>
    subst hij
    exact absurd hkind (hi x hx)
  · exact ⟨hkind, rfl⟩

/-- What a search for a slot finds. -/
theorem findIdx?_spec {l : List Slot} {p : Slot → Bool} {i : ℕ} (h : l.findIdx? p = some i) :
    ∃ x, l[i]? = some x ∧ p x = true := by
  obtain ⟨hi, hp, -⟩ := findIdx?_eq_some_iff_getElem.1 h
  exact ⟨l[i], getElem?_eq_getElem hi, hp⟩

/-! ### The table -/

theorem State.Good.place (h : s.Good) {i : ℕ} (hfree : s.free = some i) (sock : ℤ) (options : Flags) :
    (s.place i sock options).Good := by
  obtain ⟨x, hx, hunused⟩ := findIdx?_spec hfree
  have hkind : x.kind = .unused := eq_of_beq hunused
  obtain ⟨hlt, -⟩ := List.getElem?_eq_some_iff.1 hx
  set new : Slot := ⟨.io, options, sock, .off, false, false, false, false⟩
  have hslots : State.Good { s with slots := s.slots.set i new } := by
    refine h.mono rfl fun j y hy hio => ⟨y, ?_, hio, rfl⟩
    have hij : i ≠ j := by
      rintro rfl
      rw [hx] at hy
      cases hy
      rw [hkind] at hio
      cases hio
    exact (getElem?_set_ne hij).trans hy
  rw [State.place]
  dsimp only
  split
  · split
    · exact hslots
    · have hopen : State.Good { s with
          slots := s.slots.set i new
          fdes := Function.update s.fdes sock (some ⟨none, none⟩) } := by
        intro fd F d data hF hcall
        have hF' : Function.update s.fdes sock (some ⟨none, none⟩) fd = some F := hF
        by_cases hfd : fd = sock
        · subst hfd
          rw [Function.update_self] at hF'
          cases hF'
          cases d <;> cases hcall
        · rw [Function.update_of_ne hfd] at hF'
          exact hslots fd F d data hF' hcall
      have hnames : State.Names { s with
          slots := s.slots.set i new
          fdes := Function.update s.fdes sock (some ⟨none, none⟩) } sock (.index i) :=
        ⟨i, new, rfl, getElem?_set_self hlt, rfl, rfl⟩
      have hread := hopen.setselect (d := .read) (c := some (.commio (.index i))) fun data hc => by
        cases hc
        exact hnames
      split
      · refine hread.setselect fun data hc => ?_
        cases hc
        exact hnames
      · exact hread
  · exact hslots

theorem State.Good.increaseSocksMax (h : s.Good) : s.increaseSocksMax.1.Good := by
  have happend : ∀ l : List Slot, ∀ m m' : ℕ,
      State.Good { s with slots := s.slots ++ l, maxSocks := m, maxDcc := m' } := by
    intro l m m'
    refine h.mono rfl fun i x hx hkind => ⟨x, ?_, hkind, rfl⟩
    obtain ⟨hlt, -⟩ := List.getElem?_eq_some_iff.1 hx
    exact (getElem?_append_left hlt).trans hx
  rw [State.increaseSocksMax]
  dsimp only
  split
  · exact h
  · split
    · exact happend _ _ _
    · split
      · exact happend _ _ _
      · exact happend _ _ _

theorem State.Good.allocsock (h : s.Good) (sock : ℤ) (options : Flags) :
    (s.allocsock sock options).Good := by
  rw [State.allocsock]
  split
  · next i hi => exact h.place hi sock options
  · have hgrown := h.increaseSocksMax
    split
    · next t ht =>
      rw [ht] at hgrown
      split
      · next i hi => exact State.Good.place hgrown hi sock options
      · exact hgrown
    · next t ht =>
      rw [ht] at hgrown
      exact hgrown

theorem tclSlot_spec {sock : ℤ} {i : ℕ} (h : s.tclSlot sock = some i) :
    ∀ x, s.slots[i]? = some x → x.kind ≠ .io := by
  intro x hx
  rw [State.tclSlot] at h
  split at h
  · next j hj =>
    cases h
    obtain ⟨y, hy, htcl⟩ := findIdx?_spec hj
    rw [hx] at hy
    cases hy
    rw [Bool.and_eq_true, beq_iff_eq, beq_iff_eq] at htcl
    rw [htcl.1]
    decide
  · obtain ⟨y, hy, hunused⟩ := findIdx?_spec h
    rw [hx] at hy
    cases hy
    rw [eq_of_beq hunused]
    decide

theorem State.Good.alloctclsock (h : s.Good) (sock : ℤ) : (s.alloctclsock sock).Good := by
  rw [State.alloctclsock]
  split
  · next i hi => exact h.modify_other (tclSlot_spec hi)
  · have hgrown := h.increaseSocksMax
    split
    · next t ht =>
      rw [ht] at hgrown
      split
      · next i hi => exact State.Good.modify_other hgrown (tclSlot_spec hi)
      · exact hgrown
    · next t ht =>
      rw [ht] at hgrown
      exact hgrown

theorem State.Good.killsock (h : s.Good) (sock : ℤ) : (s.killsock sock).Good := by
  rw [State.killsock]
  split
  · exact h
  split
  · exact h
  next i hi =>
  obtain ⟨x, hx, hused⟩ := findIdx?_spec hi
  rw [Bool.and_eq_true, beq_iff_eq] at hused
  split
  · next htcl =>
    refine h.modify_other fun y hy => ?_
    rw [hy] at htcl
    rw [eq_of_beq htcl]
    decide
  · intro fd F d data hF hcall
    by_cases hfd : fd = sock
    · subst hfd
      have hF' : Function.update s.fdes fd none fd = some F := hF
      rw [Function.update_self] at hF'
      cases hF'
    · have hF' : s.fdes fd = some F := (Function.update_of_ne hfd ..).symm.trans hF
      refine (h fd F d data hF' hcall).mono fun j y hy hkind hsock =>
        ⟨_, getElem?_modify_some hy, ?_⟩
      rw [if_neg]
      · exact ⟨hkind, hsock⟩
      · rintro rfl
        rw [hx] at hy
        cases hy
        exact hfd (hsock.symm.trans hused.1)

theorem State.Good.killtclsock (h : s.Good) (sock : ℤ) : (s.killtclsock sock).Good := by
  rw [State.killtclsock]
  split
  · exact h
  split
  · exact h
  next i hi =>
  obtain ⟨x, hx, htcl⟩ := findIdx?_spec hi
  rw [Bool.and_eq_true, beq_iff_eq] at htcl
  refine h.modify_other fun y hy => ?_
  rw [hx] at hy
  cases hy
  rw [htcl.1]
  decide

theorem State.Good.sslHandshake (h : s.Good) (sock : ℤ) (outcome : Option Ssl) :
    (s.sslHandshake sock outcome).Good := by
  unfold State.sslHandshake
  generalize s.findsock sock = found
  rcases found with _ | i
  · exact h
  rcases outcome with _ | ssl
  · exact h
  dsimp only
  split
  · exact h
  have hslot := h.modify (i := i) (f := fun x => { x with ssl := ssl }) fun x => ⟨rfl, rfl⟩
  intro fd F d data hF hcall
  have hF' : Function.update s.fdes sock (some ((s.fdes sock).getD ⟨none, none⟩)) fd = some F := hF
  by_cases hfd : fd = sock
  · subst hfd
    rw [Function.update_self] at hF'
    cases hfde : s.fdes fd with
    | none =>
      rw [hfde] at hF'
      cases hF'
      cases d <;> cases hcall
    | some F₀ =>
      rw [hfde] at hF'
      cases hF'
      exact hslot fd F₀ d data hfde hcall
  · rw [Function.update_of_ne hfd] at hF'
    exact hslot fd F d data hF' hcall

/-! ### Events -/

theorem State.Good.commioCb (h : s.Good) (hnames : s.Names fd data) : (s.commioCb d fd data).Good := by
  rw [State.commioCb]
  split
  · exact h
  dsimp only
  split
  · have hslot := h.modify (i := data.cast.toNat) (f := fun x =>
      match d with
      | .read => { x with readReady := true }
      | .write => { x with writeReady := true }) fun x => by cases d <;> exact ⟨rfl, rfl⟩
    refine hslot.setselect fun data' hdata => ?_
    cases hdata
    refine hnames.mono fun j x hx hkind hsock => ⟨_, getElem?_modify_some hx, ?_⟩
    split
    · cases d <;> exact ⟨hkind, hsock⟩
    · exact ⟨hkind, hsock⟩
  · exact h

theorem State.Good.fire (h : s.Good) (fd : ℤ) (d : Dir) : (s.fire fd d).Good := by
  rw [State.fire]
  split
  · exact h
  · next data hdata =>
    obtain ⟨F, hF, hcall⟩ := Option.bind_eq_some_iff.1 hdata
    exact State.Good.commioCb h.clear (h fd F d data hF hcall)
  · exact h.clear

theorem State.Good.arm (h : s.Good) (j : ℕ) : (s.arm j).Good := by
  rw [State.arm]
  split
  · next x hx =>
    split
    · next harm =>
      have hslot := h.modify (i := j) (f := fun x => { x with writeReady := false })
        fun x => ⟨rfl, rfl⟩
      refine hslot.setselect fun data hdata => ?_
      cases hdata
      rw [Bool.and_eq_true, Slot.needsWrite, Bool.and_eq_true, beq_iff_eq] at harm
      refine ⟨j, _, rfl, getElem?_modify_some hx, ?_⟩
      rw [if_pos rfl]
      exact ⟨harm.1.1, rfl⟩
    · exact h
  · exact h

theorem State.Good.disarm (h : s.Good) (j : ℕ) : (s.disarm j).Good := by
  rw [State.disarm]
  split
  · split
    · exact h.clear
    · exact h
  · exact h

theorem State.Good.drain (h : s.Good) (i : ℕ) (answer : Answer) (emptied : Bool) :
    (s.drain i answer emptied).Good := by
  have hflag := h.modify (i := i) (f := fun x => { x with writeReady := false }) fun _ => ⟨rfl, rfl⟩
  rw [State.drain]
  split
  · exact h
  split
  · dsimp only
    split
    · exact State.Good.modify hflag fun _ => ⟨rfl, rfl⟩
    · exact State.Good.modify hflag fun _ => ⟨rfl, rfl⟩
    · exact hflag
    · exact hflag
  split
  · exact h.modify fun _ => ⟨rfl, rfl⟩
  · exact h

/-- All that `sockread` does to a slot but for asking to read again. -/
theorem State.Good.dispatch (h : s.Good) {i : ℕ} {answer : Answer}
    (hagain : ¬ s.ReadAgain (.dispatch i answer)) : (s.dispatch i answer).Good := by
  have hflag := h.modify (i := i) (f := fun x => { x with readReady := false }) fun _ => ⟨rfl, rfl⟩
  rw [State.dispatch]
  split
  · exact h
  next x hx =>
  split
  · exact h
  · exact hflag
  · next hturn =>
    dsimp only
    split
    · next n =>
      have hnone : s.fdes x.sock = none := by
        rw [← Option.not_isSome_iff_eq_none]
        exact fun hsome => hagain ⟨x, hx, hturn, hsome⟩
      intro fd F d data hF hcall
      have hfdes : Function.update s.fdes x.sock none = s.fdes := by
        rw [← hnone]
        exact Function.update_eq_self ..
      have hF' : Function.update s.fdes x.sock
          ((s.fdes x.sock).map (·.register .read (some (.commio (.address n))))) fd = some F := hF
      rw [hnone, Option.map_none, hfdes] at hF'
      exact hflag fd F d data hF' hcall
    · exact State.Good.modify hflag fun _ => ⟨rfl, rfl⟩
    · exact State.Good.modify hflag fun _ => ⟨rfl, rfl⟩
    · exact State.Good.modify hflag fun _ => ⟨rfl, rfl⟩
  · dsimp only
    split
    · exact State.Good.modify hflag fun _ => ⟨rfl, rfl⟩
    · exact hflag

theorem not_good_dispatch {i : ℕ} {answer : Answer} (hagain : s.ReadAgain (.dispatch i answer)) :
    ¬ (s.dispatch i answer).Good := by
  cases answer with
  | wantRead n =>
    obtain ⟨x, hx, hturn, hsome⟩ := hagain
    obtain ⟨F, hF⟩ := Option.isSome_iff_exists.1 hsome
    intro h
    have hdispatch : s.dispatch i (.wantRead n) =
        State.setselect x.sock .read (some (.commio (.address n)))
          (s.modify i fun x => { x with readReady := false }) := by
      rw [State.dispatch]
      split
      · next hnone =>
        rw [hx] at hnone
        cases hnone
      · next y hy =>
        rw [hx] at hy
        cases hy
        rw [hturn]
    rw [hdispatch] at h
    have hfde : (State.setselect x.sock .read (some (.commio (.address n)))
        (s.modify i fun x => { x with readReady := false })).fdes x.sock =
          some (F.register .read (some (.commio (.address n)))) := by
      show Function.update s.fdes x.sock ((s.fdes x.sock).map _) x.sock = _
      rw [Function.update_self, hF]
      rfl
    obtain ⟨j, y, hdata, -⟩ := h _ _ .read _ hfde rfl
    cases hdata
  | wantWrite => exact absurd hagain id
  | ok => exact absurd hagain id
  | fatal => exact absurd hagain id

/-- One step keeps the pointers right exactly if it is no handshake that asks to read again. -/
theorem good_next_iff (h : s.Good) (e : Event) : (s.next e).Good ↔ ¬ s.ReadAgain e := by
  rcases e with ⟨sock, options⟩ | sock | sock | sock | l | ⟨sock, outcome⟩ | ⟨i, flags⟩ | i |
    ⟨fd, d⟩ | ⟨fd, d, on⟩ | i | i | ⟨i, again⟩ | ⟨i, answer⟩ | j | j | ⟨i, answer, emptied⟩
  case dispatch => exact ⟨fun hgood hagain => not_good_dispatch hagain hgood, h.dispatch⟩
  all_goals refine iff_of_true ?_ id
  · exact h.allocsock sock options
  · exact h.alloctclsock sock
  · exact h.killsock sock
  · exact h.killtclsock sock
  · show State.Good (if l < s.slots.length then s else { s with maxSocks := l })
    split
    · exact h
    · exact h
  · exact h.sslHandshake sock outcome
  · exact h.modify fun _ => ⟨rfl, rfl⟩
  · exact h.modify fun _ => ⟨rfl, rfl⟩
  · exact h.fire fd d
  · refine h.setselect fun data hc => ?_
    cases on <;> cases hc
  · exact h.modify fun _ => ⟨rfl, rfl⟩
  · exact h.modify fun _ => ⟨rfl, rfl⟩
  · exact h.modify fun _ => ⟨rfl, rfl⟩
  · exact h.arm j
  · exact h.disarm j
  · exact h.drain i answer emptied

/-- A pass of `dequeue_sockets` keeps the pointers right. -/
theorem dequeueSockets_good (h : s.Good) (n : ℕ) (fired : List (ℤ × Dir))
    (results : ℕ → Answer × Bool) :
    Machine.Throughout State.step State.Good s (dequeueSockets n fired results) := by
  have hes : ∀ e ∈ dequeueSockets n fired results, ∀ i answer, e ≠ .dispatch i answer := by
    intro e he i answer
    rw [dequeueSockets] at he
    simp only [mem_append, mem_map] at he
    rcases he with ((⟨_, -, rfl⟩ | ⟨_, -, rfl⟩) | ⟨_, -, rfl⟩) | ⟨_, -, rfl⟩ <;> simp
  generalize dequeueSockets n fired results = es at hes
  induction es generalizing s with
  | nil => exact h
  | cons e es ih =>
    refine ⟨h, fun t ht => ih ?_ fun e' he' => hes e' (mem_cons_of_mem e he')⟩
    cases ht
    refine (good_next_iff h e).2 fun hagain => ?_
    rcases e with _ | _ | _ | _ | _ | _ | _ | _ | _ | _ | _ | _ | _ | ⟨i, answer⟩ | _ | _ | _
    case dispatch => exact hes _ mem_cons_self i answer rfl
    all_goals exact hagain

theorem fire_charged (h : s.Good) (fd : ℤ) (d : Dir) (i : ℕ)
    (hi : (s.fire fd d).slots[i]? ≠ s.slots[i]?) :
    ∃ x, s.slots[i]? = some x ∧ x.kind = .io ∧ x.sock = fd := by
  rw [State.fire] at hi
  split at hi
  · exact absurd rfl hi
  · next data hdata =>
    obtain ⟨F, hF, hcall⟩ := Option.bind_eq_some_iff.1 hdata
    obtain ⟨j, x, rfl, hx, hheld⟩ := h fd F d data hF hcall
    have hij : j = i := by
      by_contra hne
      refine hi ?_
      have hcast : ¬ (Data.index j).cast < 0 := Int.not_lt.2 (Int.natCast_nonneg j)
      rw [State.commioCb, if_neg hcast]
      dsimp only
      split
      · exact getElem?_modify_ne _ _ hne
      · rfl
    rw [← hij]
    exact ⟨x, hx, hheld⟩
  · exact absurd rfl hi

theorem start_good : start.Good := fun _ _ _ _ hF => nomatch hF

/-- Over a run every callback comes back with the index of a slot that holds its descriptor, exactly
if no handshake that `sockread` drives on a live descriptor asks to read again. -/
theorem charged_throughout_iff (es : List Event) :
    Machine.Throughout State.step State.Good start es ↔
      Machine.Along State.step (fun s e => ¬ s.ReadAgain e) start es :=
  Machine.throughout_iff_along (fun s e _ => ⟨s.next e, rfl⟩)
    (fun s e s' h hs => by
      cases hs
      exact good_next_iff h e)
    start_good es

/-- A TLS session whose first flight comes in two parts. -/
def twoParts : List Event :=
  [.allocsock 5 Slot.empty.flags, .sslHandshake 5 (some .handshake), .fire 5 .read,
    .dispatch 0 (.wantRead 4096)]

theorem not_charged_throughout : ¬ ∀ es, Machine.Throughout State.step State.Good start es := by
  intro h
  have hlast := (h twoParts).last (Machine.run_total State.next _ _)
  obtain ⟨i, x, hdata, -⟩ := hlast 5 ⟨some (.commio (.address 4096)), none⟩ .read (.address 4096)
    (by decide) rfl
  cases hdata

end Eggdrop.Net.Commio
