import Eggdrop.Lib.Run
import Eggdrop.Lib.ListEdit
import Eggdrop.Net.Mbuf

/-!
# Tputs — writing to sockets

`tputs` writes at once where it can and queues the rest in the socket's message buffer;
`dequeue_sockets` drains the buffers.  The answers of the kernel (how much a write takes, whether
it would block, how a TLS handshake goes on) are parameters of every step.

* `Watched.Sound`: what the kernel took, followed by what is queued, is what the calls said.
* `Watched.sound_tputs_iff`: the one call that breaks it is a call on a websocket with a queue: its
  data goes to the queue as it came, without a frame.
* `sound_throughout_iff`: when it holds over any run on any number of sockets, with dequeue passes, partial,
  full and refused writes and handshakes in any order.
-/

namespace Eggdrop.Net

open ListEdit

abbrev Bytes := List UInt8

/-! ### Websocket frames -/

/-- Put `out` if there is room for it and go on, or stop. -/
def emit (dstSize : Nat) (out : Bytes) (next : Nat → Bytes) : Bytes :=
  if dstSize < out.length then [] else out ++ next (dstSize - out.length)

/-- `escape_html` of webui.c: what it writes into a buffer of `dstSize` bytes. -/
def escapeHtml : Nat → Bytes → Bytes
  | _, [] => []
  -- ESC "[0m" and ESC "[1m" end and start bold; other three-byte tails are dropped
  | n, 0x1b :: a :: b :: c :: rest =>
    if a = 0x5b ∧ b = 0x30 ∧ c = 0x6d then
      emit n [0x3c, 0x2f, 0x62, 0x3e] (escapeHtml · rest)
    else if a = 0x5b ∧ b = 0x31 ∧ c = 0x6d then emit n [0x3c, 0x62, 0x3e] (escapeHtml · rest)
    else escapeHtml n rest
  | n, 0x1b :: rest => escapeHtml n rest
  -- telnet IAC WILL/WONT ECHO
  | n, 0xff :: a :: b :: rest =>
    if n < 1 then []
    else if a = 251 ∧ b = 1 then emit n [0x02] (escapeHtml · rest)
    else if a = 252 ∧ b = 1 then emit n [0x01] (escapeHtml · rest)
    else escapeHtml n rest
  | n, 0xff :: rest => escapeHtml n rest
  | n, 0x22 :: rest => emit n [0x26, 0x71, 0x75, 0x6f, 0x74, 0x3b] (escapeHtml · rest)
  | n, 0x26 :: rest => emit n [0x26, 0x61, 0x6d, 0x70, 0x3b] (escapeHtml · rest)
  | n, 0x27 :: rest => emit n [0x26, 0x61, 0x70, 0x6f, 0x73, 0x3b] (escapeHtml · rest)
  | n, 0x3c :: rest => emit n [0x26, 0x6c, 0x74, 0x3b] (escapeHtml · rest)
  | n, 0x3e :: rest => emit n [0x26, 0x67, 0x74, 0x3b] (escapeHtml · rest)
  | n, c :: rest => emit n [c] (escapeHtml · rest)

def loglinelen : Nat := 9001

/-- `webui_frame`: one unmasked text frame. -/
def webuiFrame (src : Bytes) : Bytes :=
  let payload := escapeHtml (loglinelen - 4) src
  let len := payload.length
  if len < 0x7e then 0x81 :: UInt8.ofNat len :: payload
  else 0x81 :: 0x7e :: UInt8.ofNat (len / 256) :: UInt8.ofNat len :: payload

/-! ### Sockets -/

/-- `opssl_conn_get_state` of a TLS socket. -/
inductive Handshake where
  | inProgress
  | complete
deriving DecidableEq, Repr

/-- An entry of `socklist`: the flags and fields the write side uses. -/
structure Socket where
  sock : Int
  unused : Bool
  tcl : Bool
  connect : Bool
  eofd : Bool
  ws : Bool
  ssl : Option Handshake
  writeReady : Bool
  outbuf : Option (Mbuf UInt8)
deriving DecidableEq

/-- What a write call answers. -/
inductive WriteResult where
  | wrote (n : Nat)
  | wouldblock
  | failed
deriving DecidableEq, Repr

/-- How much of `len` bytes a write took; a failed one counts as none. -/
def WriteResult.taken (w : WriteResult) (len : Nat) : Nat :=
  match w with
  | .wrote n => min n len
  | .wouldblock | .failed => 0

/-- What `opssl_connect` or `opssl_accept` answers. -/
inductive HandshakeResult where
  | ok
  | wantIo
  | failed
deriving DecidableEq, Repr

namespace Socket

/-- A new queue of at least 512 bytes with `data` in it. -/
def startQueue (data : Bytes) (k : Socket) : Socket :=
  let initcap := if data.length < 512 then 512 else data.length
  { k with outbuf := (Mbuf.alloc initcap).map fun mb => (mb.append data).1 }

/-- The body of `tputs` on the socket it found, with `frame` for the hook `webui_frame`; also
the bytes the kernel takes. -/
def tputs (frame : Bytes → Bytes) (w : WriteResult) (s : Bytes) (k : Socket) :
    Socket × Bytes :=
  match k.outbuf with
  | some mb => ({ k with outbuf := some (mb.appendGrow s).1 }, [])
  | none =>
    let s2 := if k.ws then frame s else s
    if k.ssl = some .inProgress then (k.startQueue s2, [])
    else
      let x := w.taken s2.length
      if x < s2.length then (k.startQueue (s2.drop x), s2.take x) else (k, s2)

def live (k : Socket) : Bool := !k.unused && !k.tcl

/-- The zero-timeout poll of `dequeue_sockets`: who waits to write learns whether it may. -/
def poll (ready : Bool) (k : Socket) : Socket :=
  if k.live && (k.outbuf.isSome || k.ssl == some .inProgress) then { k with writeReady := ready }
  else k

/-- `dequeue_sockets` on one socket after the poll; also the bytes the kernel takes. -/
def drain (hr : HandshakeResult) (w : WriteResult) (k : Socket) : Socket × Bytes :=
  if k.live && k.writeReady && k.ssl == some .inProgress then
    let k := { k with writeReady := false }
    match hr with
    | .ok => ({ k with ssl := some .complete }, [])
    | .wantIo => (k, [])
    | .failed => ({ k with connect := false, eofd := true }, [])
  else
    match k.outbuf with
    | none => (k, [])
    | some mb =>
      if k.live && k.writeReady then
        let k := { k with writeReady := false }
        -- a TLS write takes the first segment only, a plain one both
        let data := if k.ssl.isSome then mb.peek2.1 else mb.peek2.1 ++ mb.peek2.2
        match w with
        | .failed => ({ k with eofd := true }, [])
        | .wouldblock => (k, [])
        | .wrote _ =>
          let x := w.taken data.length
          if 0 < x then
            let mb := mb.consume x
            ({ k with outbuf := if mb.len = 0 then none else some mb }, data.take x)
          else (k, [])
      else (k, [])

/-- The bytes that wait to be written. -/
def pending (k : Socket) : Bytes :=
  match k.outbuf with
  | none => []
  | some mb => mb.contents

end Socket

/-- A socket, what the kernel took for it so far and what the calls on it said so far: the data
of each, framed on a websocket. -/
structure Watched where
  k : Socket
  accepted : Bytes
  said : Bytes
deriving DecidableEq

/-- The environment's answers to one pass over one socket. -/
structure Answer where
  ready : Bool
  handshake : HandshakeResult
  write : WriteResult

namespace Watched

/-- A socket before anything was written to it. -/
def start (k : Socket) : Watched := ⟨{ k with outbuf := none }, [], []⟩

def tputs (frame : Bytes → Bytes) (w : WriteResult) (s : Bytes) (x : Watched) : Watched :=
  let r := x.k.tputs frame w s
  ⟨r.1, x.accepted ++ r.2, x.said ++ if x.k.ws then frame s else s⟩

def dequeue (a : Answer) (x : Watched) : Watched :=
  let r := (x.k.poll a.ready).drain a.handshake a.write
  { x with k := r.1, accepted := x.accepted ++ r.2 }

/-- What the kernel took is a prefix of what was said, and the rest of it is what is queued. -/
def Sound (x : Watched) : Prop := x.accepted ++ x.k.pending = x.said

instance (x : Watched) : Decidable x.Sound := inferInstanceAs (Decidable (_ = _))

end Watched

/-! ### The socket list -/

/-- What can happen to the write side of the socket list. -/
inductive Event where
  | tputs (z : Int) (s : Bytes) (w : WriteResult)
  | dequeueSockets (answers : Nat → Answer)
  /-- the webui turns connection `i` into a websocket -/
  | upgrade (i : Nat)
  /-- a read completes the TLS handshake of connection `i` -/
  | handshook (i : Nat)

/-- The socket `tputs` looks for. -/
def isSock (z : Int) (x : Watched) : Bool := !x.k.unused && x.k.sock == z

/-- Output to the terminal: no socket is looked for. -/
def toTerminal (console : Bool) (z : Int) : Bool := (z == 1 || z == 2) && console

section Net

variable (frame : Bytes → Bytes) (console : Bool)

/-- One event; `console` is `!backgrd || use_stderr`. -/
def next (socklist : List Watched) : Event → List Watched
  | .tputs z s w =>
    if z < 0 || toTerminal console z then socklist
    else modifyFirst (isSock z) (·.tputs frame w s) socklist
  | .dequeueSockets answers => socklist.mapIdx fun i x => x.dequeue (answers i)
  | .upgrade i => socklist.modify i fun x => { x with k := { x.k with ws := true } }
  | .handshook i => socklist.modify i fun x =>
    { x with k := { x.k with ssl := x.k.ssl.map fun _ => .complete } }

/-- The runs of `next`; no step faults. -/
def step (socklist : List Watched) (e : Event) : Except Empty (List Watched) :=
  .ok (next frame console socklist e)

/-- The condition on a step: a call on a websocket that has a queue leaves nothing to frame. -/
def Framed (socklist : List Watched) : Event → Prop
  | .tputs z s _ => 0 ≤ z → toTerminal console z = false →
    ∀ x, socklist.find? (isSock z) = some x → x.k.ws → x.k.outbuf ≠ none → frame s = s
  | _ => True

end Net

/-! ### One socket -/

namespace Socket

variable (k : Socket)

theorem pending_eq_nil {k : Socket} (h : k.outbuf = none) : k.pending = [] := by
  rw [pending, h]

theorem pending_startQueue (data : Bytes) : (k.startQueue data).pending = data := by
  have hcap : 0 < if data.length < 512 then 512 else data.length := by split <;> omega
  obtain ⟨mb, halloc, hnil, hmb⟩ := Mbuf.contents_alloc (α := UInt8) hcap
  have hlen : mb.len = 0 := by rw [← mb.length_contents, hnil, List.length_nil]
  have hfits : data.length ≤ mb.cap := by rw [hmb]; split <;> omega
  simp only [startQueue, halloc, Option.map_some, pending]
  rw [Mbuf.contents_append, hnil, List.nil_append, Mbuf.append_snd, hlen, Nat.sub_zero,
    Nat.min_eq_left hfits, List.take_length]

theorem WriteResult.taken_le (w : WriteResult) (n : Nat) : w.taken n ≤ n := by
  cases w with
  | wrote m => exact Nat.min_le_right m n
  | wouldblock => exact Nat.zero_le n
  | failed => exact Nat.zero_le n

/-- What a call adds to the bytes taken and the bytes queued. -/
theorem tputs_spec (frame : Bytes → Bytes) (w : WriteResult) (s : Bytes) :
    (k.tputs frame w s).2 ++ (k.tputs frame w s).1.pending =
      k.pending ++ if k.outbuf = none ∧ k.ws then frame s else s := by
  unfold tputs
  split
  · next mb h =>
    rw [if_neg (by simp [h]), List.nil_append, pending, pending, h]
    exact mb.contents_appendGrow s
  · next h =>
    rw [pending_eq_nil h, List.nil_append]
    simp only [h, true_and]
    generalize (if k.ws then frame s else s) = data
    split
    · exact pending_startQueue k data
    · split
      · rw [pending_startQueue, List.take_append_drop]
      · rw [pending_eq_nil h, List.append_nil]

theorem pending_poll (ready : Bool) : (k.poll ready).pending = k.pending := by
  unfold poll
  split <;> rfl

/-- A pass takes bytes off the front of the queue and nothing else. -/
theorem drain_spec (hr : HandshakeResult) (w : WriteResult) :
    (k.drain hr w).2 ++ (k.drain hr w).1.pending = k.pending := by
  unfold drain
  split
  · cases hr <;> rfl
  · split
    · rfl
    · next mb h =>
      split
      · have hk : k.pending = mb.contents := by rw [pending, h]
        rw [hk]
        cases w with
        | failed => simp only [pending, h, List.nil_append]
        | wouldblock => simp only [pending, h, List.nil_append]
        | wrote n =>
          dsimp only
          generalize hd : (if k.ssl.isSome then mb.peek2.1 else mb.peek2.1 ++ mb.peek2.2) = data
          have hpre : data <+: mb.contents := by
            rw [← Mbuf.peek2_eq_contents, ← hd]
            split
            · exact List.prefix_append _ _
            · exact List.prefix_refl _
          have hx := WriteResult.taken_le (.wrote n) data.length
          generalize (WriteResult.wrote n).taken data.length = x at hx
          have htake : data.take x = mb.contents.take x := by
            obtain ⟨rest, hrest⟩ := hpre
            rw [← hrest, List.take_append_of_le_length hx]
          split
          · rw [htake]
            have hrest : (mb.consume x).contents = mb.contents.drop x := mb.contents_consume x
            by_cases hempty : (mb.consume x).len = 0
            · rw [if_pos hempty, pending_eq_nil rfl]
              rw [Mbuf.len_consume] at hempty
              rw [List.append_nil, List.take_of_length_le (by rw [Mbuf.length_contents]; omega)]
            · rw [if_neg hempty]
              simp only [pending]
              rw [hrest, List.take_append_drop]
          · simp only [pending, h, List.nil_append]
      · simp only [pending, h, List.nil_append]

end Socket

namespace Watched

variable {x : Watched}

theorem sound_start (k : Socket) : (start k).Sound := rfl

/-- Only a call on a websocket with a queue can break the count. -/
theorem sound_tputs_iff (h : x.Sound) (frame : Bytes → Bytes) (w : WriteResult) (s : Bytes) :
    (x.tputs frame w s).Sound ↔ (x.k.ws → x.k.outbuf ≠ none → frame s = s) := by
  simp only [Sound, tputs]
  rw [List.append_assoc, Socket.tputs_spec, ← List.append_assoc, show _ ++ _ = _ from h,
    List.append_cancel_left_eq]
  cases x.k.ws <;> by_cases hq : x.k.outbuf = none <;> simp [hq, eq_comm]

theorem sound_dequeue (h : x.Sound) (a : Answer) : (x.dequeue a).Sound := by
  simp only [Sound, dequeue]
  rw [List.append_assoc, Socket.drain_spec, Socket.pending_poll]
  exact h

end Watched

/-! ### Runs -/

section Runs

variable (frame : Bytes → Bytes) (console : Bool)

/-- The step lemma. -/
theorem sound_next_iff {socklist : List Watched} (h : ∀ x ∈ socklist, x.Sound) (e : Event) :
    (∀ x ∈ next frame console socklist e, x.Sound) ↔ Framed frame console socklist e := by
  cases e with
  | tputs z s w =>
    simp only [next, Framed]
    by_cases hz : 0 ≤ z ∧ toTerminal console z = false
    · rw [if_neg (by simp [hz])]
      have hx (x : Watched) (hf : socklist.find? (isSock z) = some x) :=
        Watched.sound_tputs_iff (h x (List.mem_of_find?_eq_some hf)) frame w s
      rw [forall_mem_modifyFirst_iff h]
      constructor
      · intro hs _ _ x hf
        exact (hx x hf).1 (hs x hf)
      · intro hs x hf
        exact (hx x hf).2 (hs hz.1 hz.2 x hf)
    · rw [if_pos (by simpa [imp_iff_or_not, or_comm] using hz)]
      exact ⟨fun _ h1 h2 => absurd ⟨h1, h2⟩ hz, fun _ => h⟩
  | dequeueSockets answers =>
    simp only [next, Framed, iff_true]
    intro x hx
    obtain ⟨i, hi, rfl⟩ := List.mem_mapIdx.1 hx
    exact Watched.sound_dequeue (h _ (List.getElem_mem hi)) _
  | upgrade i =>
    simp only [next, Framed, iff_true]
    refine forall_mem_modify (fun x hx => ?_) h i
    exact hx
  | handshook i =>
    simp only [next, Framed, iff_true]
    refine forall_mem_modify (fun x hx => ?_) h i
    exact hx

/-- From sockets with nothing written to them: in every state that any run of calls, dequeue
passes, upgrades and handshakes reaches, the kernel has a prefix of what was said and the rest is
queued, exactly when every call on a websocket with a queue left nothing to frame. -/
theorem sound_throughout_iff (ks : List Socket) (es : List Event) :
    Machine.Throughout (step frame console) (fun socklist => ∀ x ∈ socklist, x.Sound)
        (ks.map Watched.start) es ↔
      Machine.Along (step frame console) (Framed frame console) (ks.map Watched.start) es := by
  refine Machine.throughout_iff_along (fun s e _ => ⟨_, rfl⟩) (fun s e s' hs h => ?_) ?_ es
  · obtain rfl : next frame console s e = s' := by simpa [step] using h
    exact sound_next_iff frame console hs e
  · intro x hx
    obtain ⟨k, -, rfl⟩ := List.mem_map.1 hx
    exact Watched.sound_start k

end Runs

/-- A websocket whose first write would block: the second call goes out without a frame. -/
theorem second_call_unframed :
    ¬ Machine.Throughout (step webuiFrame false) (fun socklist => ∀ x ∈ socklist, x.Sound)
        ([⟨5, false, false, false, false, true, none, false, none⟩].map Watched.start)
        [.tputs 5 [0x61] .wouldblock, .tputs 5 [0x62] .wouldblock] := by
  intro h
  have hlast := h.last (Machine.run_total (next webuiFrame false) _ _)
  revert hlast
  decide +kernel

end Eggdrop.Net
