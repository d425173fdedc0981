import Eggdrop.Lib.SwapRemove
import Eggdrop.Lib.Run
import Eggdrop.Lib.Ensures

/-!
# Receive — files that the bot receives, in transfer.c

What comes in is gathered in a buffer.  A buffer that is half full is handed to a thread, which
writes it to the file some time later; that it is done is told to the main thread, later again, by
the index that the connection had.  Entries move in the table of connections while others are
closed.

* `next`: the main thread, the threads and the completions, one step of any of them at a time.
* `Good`: what is to hold in every state.
* `Orderly`: the steps in which nothing is overtaken, forgotten or moved.
-/

namespace Eggdrop.Receive

open SwapRemove

inductive Fault where
  /-- A file that is closed is used. -/
  | closedFile
  /-- What belongs to another connection is written to. -/
  | wildWrite
deriving DecidableEq, Repr

/-- `XFER_WBUF_SIZE`. -/
def xferWbufSize : ℕ := 65536

/-- `READMAX`, with the character more that a read may take. -/
def readMax : ℕ := 16385

/-- What one read gives. -/
abbrev Chunk := {buf : List UInt8 // buf.length ≤ readMax}

/-- A `FILE`, with what was written to it. -/
structure File where
  content : List UInt8
  isOpen : Bool
deriving DecidableEq, Repr

/-- `struct xfer_info` and what else of the entry is used: `status` is how much has come, `closed`
that the socket is.  `received` is not kept by the bot: all that has come, in order. -/
structure Xfer where
  f : ℕ
  wbuf : List UInt8
  inFlight : Int
  length : ℕ
  status : ℕ
  closed : Bool
  received : List UInt8
deriving DecidableEq, Repr

/-- An entry: a file that is received, a connection of another type, with data of its own or none, or
`DCC_LOST`. -/
inductive Entry where
  | recv (x : Xfer)
  | other (data : Bool)
  | lost
deriving DecidableEq, Repr

/-- `struct dcc_t`. -/
structure Dcc where
  entry : Entry
  closeReq : Bool
deriving DecidableEq, Repr

/-- `xfer_flush_ctx_t`. -/
structure Flush where
  dccIdx : ℕ
  f : ℕ
  data : List UInt8
  closeAfter : Bool
deriving DecidableEq, Repr

/-- What a file held when it was copied, and all that had come for it. -/
structure Delivery where
  content : List UInt8
  received : List UInt8
deriving DecidableEq, Repr

/-- `submitted` are the buffers that no thread has written yet, `posted` those whose completion waits
for the main thread.  `killing` is the entry for which `kill_dcc_xfer` waits. -/
structure State where
  dcc : List Dcc
  files : List File
  submitted : List Flush
  posted : List Flush
  killing : Option ℕ
  delivered : List Delivery
deriving DecidableEq, Repr

def Dcc.recv? (d : Dcc) : Option Xfer :=
  match d.entry with
  | .recv x => some x
  | _ => none

def Dcc.isLost (d : Dcc) : Bool := d.entry = .lost

namespace State

variable (s : State)

def recvAt (idx : ℕ) : Option Xfer := (s.dcc[idx]?).bind Dcc.recv?

/-- `dcc[idx].u.xfer` is `x` now. -/
def setXfer (idx : ℕ) (x : Xfer) : State :=
  { s with dcc := s.dcc.modify idx fun d => { d with entry := .recv x } }

def setLost (idx : ℕ) : State := { s with dcc := s.dcc.modify idx fun _ => ⟨.lost, false⟩ }

/-! ### Files -/

/-- The file, if it is open. -/
def openFile (f : ℕ) : Except Fault File :=
  match s.files[f]? with
  | some file => if file.isOpen then .ok file else .error .closedFile
  | none => .error .closedFile

def fwrite (f : ℕ) (data : List UInt8) : Except Fault State := do
  let file ← s.openFile f
  .ok { s with files := s.files.set f { file with content := file.content ++ data } }

def fclose (f : ℕ) : Except Fault State := do
  let file ← s.openFile f
  .ok { s with files := s.files.set f { file with isOpen := false } }

/-! ### Receiving -/

/-- `xfer_wbuf_flush`. -/
def xferWbufFlush (idx : ℕ) (x : Xfer) (closeAfter : Bool) : State :=
  if x.wbuf = [] ∧ closeAfter = false then s
  else
    { s.setXfer idx { x with wbuf := [], inFlight := x.inFlight + 1 } with
      submitted := s.submitted ++ [⟨idx, x.f, x.wbuf, closeAfter⟩] }

/-- The buffer takes what has come, or the file does. -/
def gather (x : Xfer) (buf : List UInt8) : Except Fault (State × Xfer) :=
  if x.wbuf.length + buf.length ≤ xferWbufSize ∧ x.inFlight = 0 then
    .ok (s, { x with wbuf := x.wbuf ++ buf })
  else do
    let s ← s.fwrite x.f buf
    .ok (s, x)

/-- The buffer is handed on where it is half full. -/
def flushHalf (idx : ℕ) (x : Xfer) : State :=
  if xferWbufSize / 2 ≤ x.wbuf.length ∧ x.inFlight = 0 then s.xferWbufFlush idx x false else s

/-- More has come than there is in the file. -/
def refuseLonger (idx : ℕ) (x : Xfer) : State :=
  if x.length < x.status ∧ 0 < x.length then
    let s := s.xferWbufFlush idx x true
    match s.recvAt idx with
    | some x => s.setXfer idx { x with closed := true }
    | none => s
  else s

/-- `dcc_send`. -/
def dccSend (idx : ℕ) (x : Xfer) (buf : List UInt8) : Except Fault State := do
  let (s, x) ← s.gather x buf
  let x := { x with status := x.status + buf.length, received := x.received ++ buf }
  let s := (s.setXfer idx x).flushHalf idx x
  match s.recvAt idx with
  | some x => .ok (s.refuseLonger idx x)
  | none => .ok s

/-! ### Threads -/

/-- `xfer_flush_worker`, in any thread, for any buffer that waits for one. -/
def xferFlushWorker (i : ℕ) : Except Fault State :=
  match s.submitted[i]? with
  | none => .ok s
  | some c => do
    let s := { s with submitted := s.submitted.eraseIdx i, posted := s.posted ++ [c] }
    let s ← if c.data = [] then .ok s else s.fwrite c.f c.data
    if c.closeAfter then s.fclose c.f else .ok s

/-- The completion is credited to the entry that has the index now. -/
def credit (idx : ℕ) : Except Fault State :=
  match s.dcc[idx]? with
  | none => .ok s
  | some d =>
    match d.entry with
    | .recv x => .ok (s.setXfer idx { x with inFlight := x.inFlight - 1 })
    | .other true => .error .wildWrite
    | .other false | .lost => .ok s

/-- `dcc_request_close`. -/
def dccRequestClose (idx : ℕ) : State :=
  { s with dcc := s.dcc.modify idx fun d => { d with closeReq := true } }

/-- `xfer_flush_done`, which `op_async_drain` calls for the completion that was posted first. -/
def xferFlushDone : Except Fault State :=
  match s.posted with
  | [] => .ok s
  | c :: posted => do
    let s ← { s with posted := posted }.credit c.dccIdx
    .ok (if c.closeAfter then s.dccRequestClose c.dccIdx else s)

/-! ### Closing -/

/-- `lostdcc`; `kill_dcc_xfer` waits until nothing is in flight. -/
def lostdcc (idx : ℕ) : State :=
  match s.recvAt idx with
  | some x => if 0 < x.inFlight then { s with killing := some idx } else s.setLost idx
  | none => s.setLost idx

/-- The loop of `kill_dcc_xfer` looks whether anything is in flight. -/
def killDccXfer : State :=
  match s.killing with
  | none => s
  | some idx => { s with killing := none }.lostdcc idx

/-- `eof_dcc_send`, where `copied` tells that the name is not too long and the file was copied, or was
handed to the module share. -/
def eofDccSend (idx : ℕ) (x : Xfer) (copied : Bool) : Except Fault State := do
  let file ← s.openFile x.f
  let s := if x.length = x.status ∧ copied then
      { s with delivered := s.delivered ++ [⟨file.content, x.received⟩] }
    else s
  let s ← (s.setXfer idx { x with closed := true }).fclose x.f
  .ok (s.lostdcc idx)

/-- The timeout of a transfer. -/
def timeout (idx : ℕ) (x : Xfer) : Except Fault State := do
  let s ← (s.setXfer idx { x with closed := true }).fclose x.f
  .ok (s.lostdcc idx)

/-- `dcc_remove_lost`. -/
def dccRemoveLost : State := { s with dcc := compact Dcc.isLost s.dcc }

end State

/-- `accept` is a transfer that begins, `connect` another connection; `close` is the end of any of them,
`reap` stands for `dcc_drain_close_requests` at one entry. -/
inductive Event where
  | accept (length : ℕ)
  | connect (data : Bool)
  | chunk (idx : ℕ) (buf : Chunk)
  | eof (idx : ℕ) (copied : Bool)
  | timeout (idx : ℕ)
  | close (idx : ℕ)
  | reap (idx : ℕ)
  | removeLost
  | worker (i : ℕ)
  | done
  | killed
deriving DecidableEq

/-- What goes on while `kill_dcc_xfer` waits. -/
def Event.isBackground : Event → Bool
  | .worker _ | .done | .killed => true
  | _ => false

namespace State

variable (s : State)

/-- A transfer whose socket is open. -/
def openAt (idx : ℕ) : Option Xfer := (s.recvAt idx).filter fun x => !x.closed

/-- A step of the main thread, while it does not wait in `kill_dcc_xfer`. -/
def main : Event → Except Fault State
  | .accept length =>
    .ok { s with
      dcc := s.dcc ++ [⟨.recv ⟨s.files.length, [], 0, length, 0, false, []⟩, false⟩]
      files := s.files ++ [⟨[], true⟩] }
  | .connect data => .ok { s with dcc := s.dcc ++ [⟨.other data, false⟩] }
  | .chunk idx buf =>
    match s.openAt idx with
    | some x => s.dccSend idx x buf.1
    | none => .ok s
  | .eof idx copied =>
    match s.openAt idx with
    | some x => s.eofDccSend idx x copied
    | none => .ok s
  | .timeout idx =>
    match s.openAt idx with
    | some x => s.timeout idx x
    | none => .ok s
  | .close idx =>
    match s.recvAt idx with
    | some x => .ok ((s.setXfer idx { x with closed := true }).lostdcc idx)
    | none => .ok (s.lostdcc idx)
  | .reap idx => .ok (if (s.dcc[idx]?).any (·.closeReq) then s.lostdcc idx else s)
  | .removeLost => .ok s.dccRemoveLost
  | .worker _ | .done | .killed => .ok s

end State

/-- Any of the threads makes a step. -/
def next (s : State) (e : Event) : Except Fault State :=
  match e with
  | .worker i => s.xferFlushWorker i
  | .done => s.xferFlushDone
  | .killed => .ok s.killDccXfer
  | e => if s.killing.isSome then .ok s else s.main e

def init : State := ⟨[], [], [], [], none, []⟩

/-! ### What is to hold -/

/-- The buffers that are in flight, written or not. -/
def State.flushes (s : State) : List Flush := s.submitted ++ s.posted

/-- What was copied is what had come; every completion is to be credited to the transfer whose buffer
it is; and as many are in flight for a transfer as will be credited to it. -/
structure Good (s : State) : Prop where
  delivered : ∀ d ∈ s.delivered, d.content = d.received
  credited : ∀ c ∈ s.flushes, ∃ x, s.recvAt c.dccIdx = some x ∧ x.f = c.f
  counted : ∀ idx x, s.recvAt idx = some x →
    x.inFlight = (s.flushes.filter (·.dccIdx = idx)).length

/-- All buffers of the file are written. -/
def State.Written (s : State) (f : ℕ) : Prop := ∀ c ∈ s.submitted, c.f ≠ f

/-- No buffer that waits for a thread is overtaken by a chunk or by the end of the transfer; nothing is
left in the buffer where the file is copied; a buffer that is half full is not that of a transfer which
turns out too long at once; and no entry moves that a completion is for. -/
def Orderly (s : State) : Event → Prop
  | .chunk idx buf => ∀ x, s.openAt idx = some x → s.Written x.f ∧
      (x.length < x.status + buf.1.length → 0 < x.length → x.inFlight = 0 →
        x.wbuf.length + buf.1.length < xferWbufSize / 2)
  | .eof idx copied => ∀ x, s.openAt idx = some x → s.Written x.f ∧
      (x.length = x.status → copied = true → x.wbuf = [])
  | .timeout idx => ∀ x, s.openAt idx = some x → s.Written x.f
  | .removeLost => ∀ c ∈ s.flushes, c.dccIdx < (s.dcc.filter fun d => !d.isLost).length
  | _ => True

instance (s : State) (f : ℕ) : Decidable (s.Written f) :=
  inferInstanceAs (Decidable (∀ c ∈ s.submitted, c.f ≠ f))

instance (s : State) : ∀ e, Decidable (Orderly s e)
  | .chunk idx buf => inferInstanceAs (Decidable (∀ x, s.openAt idx = some x → s.Written x.f ∧
      (x.length < x.status + buf.1.length → 0 < x.length → x.inFlight = 0 →
        x.wbuf.length + buf.1.length < xferWbufSize / 2)))
  | .eof idx copied => inferInstanceAs (Decidable (∀ x, s.openAt idx = some x → s.Written x.f ∧
      (x.length = x.status → copied = true → x.wbuf = [])))
  | .timeout idx => inferInstanceAs (Decidable (∀ x, s.openAt idx = some x → s.Written x.f))
  | .removeLost => inferInstanceAs (Decidable (∀ c ∈ s.flushes,
      c.dccIdx < (s.dcc.filter fun d => !d.isLost).length))
  | .accept _ | .connect _ | .close _ | .reap _ | .worker _ | .done | .killed => isTrue trivial

end Eggdrop.Receive
