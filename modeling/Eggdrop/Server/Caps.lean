import Eggdrop.Lib.Htab
import Eggdrop.Lib.Run
import Eggdrop.Lib.SwapRemove
import Eggdrop.Server.Batch

/-!
# Caps — the capabilities of the server (servmsg.c)

`gotcap` and `got908` keep a record for each capability that the server has: in a vector, which the
scans go through, and in a table, which `find_capability` asks.  The keys of the table are the names
in the records.

Requests that wait in a queue while there is no table, and what is only logged, are left out.
-/

namespace Eggdrop.Server.Caps

open List

/-- `CAPMAX`. -/
def capmax : ℕ := 499

/-- `capability_t` at an address. -/
structure Capability where
  ptr : ℕ
  name : CStr
  values : List CStr
  enabled : Bool
  requested : Bool
deriving DecidableEq

/-- `cap_vec` and `cap_dict`, the next address, and the lines sent. -/
structure State where
  vec : List Capability
  dict : List (Htab.Slot UInt64 ℕ ℕ)
  next : ℕ
  multistatus : Bool
  sent : List CStr
deriving DecidableEq

inductive Fault
  /-- a record that is gone is read -/
  | freed
  /-- beyond the end of a string -/
  | outside
deriving DecidableEq

/-- What `sasl_authenticate_initial` does: the lines that it sends, and whether it gives up. -/
structure Auth where
  sent : List CStr
  refused : Bool

/-- The settings when a line comes, and what `sasl_authenticate_initial` makes of the values. -/
structure Settings where
  sasl : Bool
  account_notify : Bool
  account_tag : Bool
  extended_join : Bool
  invite_notify : Bool
  away_notify : Bool
  message_tags : Bool
  echo_message : Bool
  cap_request : CStr
  sasl_authenticate_initial : List CStr → Auth

/-- The tokens of `strtok_r(s, sep)`. -/
def strtok (sep : Char) (s : CStr) : List CStr := (s.splitOn sep).filter fun tok => tok ≠ []

/-! ### Records -/

/-- The name in the record at an address. -/
def State.nameAt (s : State) (p : ℕ) : Option CStr := (s.vec.find? (·.ptr == p)).map (·.name)

def orFreed {α : Type*} : Option α → Except Fault α
  | some a => .ok a
  | none => .error .freed

/-- `find_capability`. -/
def findCapability (capname : CStr) (s : State) : Except Fault (Option Capability) := do
  match ← orFreed (Htab.get istrHash istrFold s.nameAt s.dict capname) with
  | none => .ok none
  | some p =>
    let current ← orFreed (s.vec.find? (·.ptr == p))
    .ok (some current)

/-- A field of the record at an address is written. -/
def State.modify (p : ℕ) (f : Capability → Capability) (s : State) : State :=
  { s with vec := s.vec.map fun c => if c.ptr = p then f c else c }

/-- `add_req`. -/
def addReq (cape : CStr) (s : State) : Except Fault State := do
  match ← findCapability cape s with
  | some current => .ok (s.modify current.ptr fun c => { c with requested := true })
  | none => .ok s

/-- `del_capability`. -/
def delCapability (name : CStr) (s : State) : Except Fault State := do
  match s.vec.findIdx? fun curr => strcaseEq name curr.name with
  | none => .ok s
  | some i =>
    let dict ← orFreed (Htab.del istrHash istrFold s.nameAt s.dict name)
    .ok { s with vec := SwapRemove.removeFast s.vec i, dict := dict }

/-- `del_capabilities`. -/
def delCapabilities (msg : CStr) (s : State) : Except Fault State :=
  (strtok ' ' msg).foldlM (fun s capptr => delCapability capptr s) s

/-- What stands before the `=` of a token. -/
def capName (tok : CStr) : CStr := tok.takeWhile (· ≠ '=')

/-- The values after the `=`, cut to the size of `cap_values_t`. -/
def capValues (tok : CStr) : List CStr :=
  match tok.dropWhile (· ≠ '=') with
  | [] => []
  | _ :: valptr => (strtok ',' valptr).map (·.take (capmax - 1))

/-- One token of `add_capabilities`. -/
def addCapability (tok : CStr) (s : State) : Except Fault State := do
  match ← findCapability (capName tok) s with
  | some _ => .ok s
  | none =>
    let newcap : Capability := ⟨s.next, (capName tok).take capmax, capValues tok, false, false⟩
    let s := { s with vec := s.vec ++ [newcap], next := s.next + 1 }
    let dict ← orFreed
      (Htab.set istrHash istrFold s.nameAt s.dict newcap.ptr newcap.name newcap.ptr)
    .ok { s with dict := dict }

/-- `add_capabilities`. -/
def addCapabilities (msg : CStr) (s : State) : Except Fault State :=
  (strtok ' ' msg).foldlM (fun s capptr => addCapability capptr s) s

/-! ### CAP LS -/

/-- The capabilities that are asked for without a setting. -/
def alwaysWanted : List CStr :=
  ["multi-prefix", "userhost-in-names", "chghost", "setname", "batch", "labeled-response", "msgid",
    "standard-replies", "draft/chathistory", "chathistory", "ophion/prop-notify",
    "ophion/multi-prefix", "server-time", "draft/multiline", "multiline", "draft/read-marker",
    "cap-notify", "draft/typing", "typing", "draft/react", "react", "draft/message-redaction",
    "message-redaction", "draft/channel-rename", "channel-rename", "bot", "utf8-only"].map
    String.toList

/-- Whether a capability is asked for. -/
def Settings.wants (cfg : Settings) (name : CStr) : Bool :=
  (if name = "sasl".toList then cfg.sasl
  else if name = "account-notify".toList then cfg.account_notify
  else if name = "account-tag".toList then cfg.account_tag
  else if name = "extended-join".toList then cfg.extended_join
  else if name = "invite-notify".toList then cfg.invite_notify
  else if name = "away-notify".toList then cfg.away_notify
  else if name = "message-tags".toList then cfg.message_tags
  else if name = "echo-message".toList then cfg.echo_message
  else alwaysWanted.contains name) || (strtok ' ' cfg.cap_request).contains name

def State.send (line : CStr) (s : State) : State := { s with sent := s.sent ++ [line] }

/-- ` name` for each name. -/
def joinNames (names : List CStr) : CStr := names.flatMap fun name => ' ' :: name

def capReq (names : CStr) : CStr := "CAP REQ :".toList ++ names

def capEnd : CStr := "CAP END".toList

/-- The requests after the last line of `CAP LS`. -/
def requestWanted (cfg : Settings) (s : State) : Except Fault State := do
  let s ← s.vec.foldlM
    (fun s current => if cfg.wants current.name && !current.enabled then addReq current.name s
      else .ok s) s
  let cape_req := joinNames ((s.vec.filter fun c => c.requested && !c.enabled).map (·.name))
  .ok (s.send (if cape_req ≠ [] then capReq cape_req else capEnd))

/-! ### CAP LIST, ACK and NEW -/

/-- The loop of `CAP LIST`. -/
def listLoop (toks : List CStr) (s : State) : Except Fault State :=
  toks.foldlM
    (fun s splitstr => do
      match ← findCapability splitstr s with
      | some current => .ok (s.modify current.ptr fun c => { c with enabled := true })
      | none => .ok s) s

/-- The branch of `CAP LIST`. -/
def gotList (msg : CStr) (s : State) : Except Fault State :=
  let s := if s.multistatus then s
    else { s with multistatus := true, vec := s.vec.map fun c => { c with enabled := false } }
  match msg with
  | ['*'] => .error .outside
  | '*' :: _ :: msg => listLoop (strtok ' ' msg) s
  | msg => listLoop (strtok ' ' msg) { s with multistatus := false }

/-- A token of `CAP ACK`: whether it takes the capability away, and its name. -/
def ackToken (splitstr : CStr) : Bool × CStr :=
  match splitstr with
  | '-' :: name => (true, name)
  | name => (false, name)

/-- The loop of `CAP ACK`; `true` if it gives up in the middle. -/
def ackLoop (cfg : Settings) : List CStr → State → Except Fault (Bool × State)
  | [], s => .ok (false, s)
  | splitstr :: toks, s => do
    let (remove, name) := ackToken splitstr
    match ← findCapability name s with
    | none => ackLoop cfg toks s
    | some current =>
      if remove then
        ackLoop cfg toks (s.modify current.ptr fun c => { c with enabled := false })
      else
        let s := s.modify current.ptr fun c => { c with enabled := true }
        if cfg.sasl && strcaseEq current.name "sasl".toList then
          let auth := cfg.sasl_authenticate_initial current.values
          let s := { s with sent := s.sent ++ auth.sent }
          if auth.refused then .ok (true, s) else ackLoop cfg toks s
        else ackLoop cfg toks s

/-- The branch of `CAP ACK`. -/
def gotAck (cfg : Settings) (msg : CStr) (s : State) : Except Fault State := do
  let (refused, s) ← ackLoop cfg (strtok ' ' msg) s
  if refused then .ok s
  else
    match ← findCapability "sasl".toList s with
    | some current => .ok (if current.enabled then s else s.send capEnd)
    | none => .ok (s.send capEnd)

/-- The loop of `CAP NEW`, with the names to ask for so far. -/
def newLoop : List CStr → CStr → State → Except Fault (CStr × State)
  | [], newreq, s => .ok (newreq, s)
  | tok :: toks, newreq, s => do
    match ← findCapability (capName tok) s with
    | some current =>
      if current.enabled then newLoop toks newreq s
      else
        newLoop toks (newreq ++ ' ' :: capName tok)
          (s.modify current.ptr fun c => { c with requested := true })
    | none => newLoop toks newreq s

/-- The branch of `CAP NEW`. -/
def gotNew (msg : CStr) (s : State) : Except Fault State := do
  let s ← addCapabilities msg s
  let (newreq, s) ← newLoop (strtok ' ' msg) [] s
  .ok (if newreq ≠ [] then s.send (capReq newreq) else s)

/-! ### Lines -/

/-- A line: the sub-command, whether the reply goes on in another line, and the text. -/
structure Line where
  cmd : CStr
  multiline : Bool
  text : CStr
deriving DecidableEq

/-- How `gotcap` takes its line apart. -/
def capLine (msg : CStr) : Line :=
  let msg := (newsplit msg).2
  let (cmd, msg) := newsplit msg
  match msg with
  | '*' :: _ => ⟨cmd, true, Batch.fixcolon (newsplit msg).2⟩
  | msg => ⟨cmd, false, Batch.fixcolon msg⟩

/-- `gotcap`. -/
def gotcap (cfg : Settings) (msg : CStr) (s : State) : Except Fault State :=
  let line := capLine msg
  if line.cmd = "LS".toList then do
    let s ← addCapabilities line.text s
    if line.multiline then .ok s else requestWanted cfg s
  else if line.cmd = "LIST".toList then gotList line.text s
  else if line.cmd = "ACK".toList then gotAck cfg line.text s
  else if line.cmd = "NAK".toList then .ok (s.send capEnd)
  else if line.cmd = "NEW".toList then gotNew line.text s
  else if line.cmd = "DEL".toList then delCapabilities line.text s
  else .ok s

/-- What `got908` gives to `add_capabilities`. -/
def mechanisms (msg : CStr) : CStr := "sasl=".toList ++ Batch.fixcolon (newsplit msg).2

/-- `got908`. -/
def got908 (msg : CStr) (s : State) : Except Fault State := do
  let s ← delCapability "sasl".toList s
  addCapabilities (mechanisms msg) s

/-- A new connection: `disconnect_server` clears both, and the table is made again. -/
def State.init : State := ⟨[], [], 0, false, []⟩

/-- Lines of the server, and the loss of the connection; `sasl_authenticate_initial` may close it
when it gives up. -/
inductive Event
  | cap (cfg : Settings) (msg : CStr)
  | mechs (msg : CStr)
  | disconnect

def State.step (s : State) : Event → Except Fault State
  | .cap cfg msg => gotcap cfg msg s
  | .mechs msg => got908 msg s
  | .disconnect => .ok { State.init with next := s.next, multistatus := s.multistatus, sent := s.sent }

end Eggdrop.Server.Caps
