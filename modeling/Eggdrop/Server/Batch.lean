import Mathlib.Data.List.Forall2
import Eggdrop.Lib.Run
import Eggdrop.Server.MsgTags

/-!
# Batch — the lines of IRCv3 batches

`server_activity` from the tags on: `gotbatch_intercept` keeps the lines of an open batch, and
`gotbatch` opens batches and delivers them.  `Spec` says what is asked for; what is to be kept of a
line is left open there, since `gotbatch_intercept` keeps no sender and no command.

* `agree_line`: a line on which both do the same.
* `batches_throughout`: in runs of such lines the message of every line of a batch is delivered with
  it, and all others are dispatched.  The lines that open and close a batch inside another one are none
  of them: they are kept as lines of the outer one.  Nor is a `TAGMSG` with tags: the bot crashes.
-/

namespace Eggdrop.Server.Batch

open List Tags

/-- `BATCH_LINE_CAP`. -/
def batchLineCap : ℕ := 1000

/-- `RECVLINEMAX`, which is `TOTALTAGMAX + MSGMAX`. -/
def recvlinemax : ℕ := totaltagmax + 511

/-- How Tcl writes a dictionary as a string, and reads one from a string, where it is one. -/
structure Tcl where
  dictString : TagDict → CStr
  readDict : CStr → Option TagDict

/-- `batch_accum_t`. -/
structure BatchAccum where
  type : CStr
  target : CStr
  key : CStr
  lines : List CStr
deriving DecidableEq, Repr

/-- What is done with lines: `check_tcl_raw`, `batch_deliver_chathistory` and `check_tcl_batch`. -/
inductive Output where
  | raw (l : ServerLine)
  | chathistory (text : CStr)
  | batch (type ref : CStr) (lines : List CStr)
deriving DecidableEq, Repr

/-- `batch_ht`, the static builder of `encode_msgtag`, and what was done so far. -/
structure State where
  batchHt : List BatchAccum
  tagBuf : Strbuf
  outputs : List Output
deriving DecidableEq, Repr

inductive Fault where
  /-- A text is written through a NULL pointer. -/
  | null
deriving DecidableEq, Repr

inductive Event where
  | line (tagmsg : CStr)
  | disconnect
deriving DecidableEq, Repr

/-! ### The code -/

/-- `batch_accum_append`. -/
def BatchAccum.append (acc : BatchAccum) (line : CStr) : BatchAccum :=
  if acc.lines.length ≥ batchLineCap then acc else { acc with lines := acc.lines ++ [line] }

/-- `fixcolon`. -/
def fixcolon (s : CStr) : CStr :=
  match s with
  | ':' :: s => s
  | s => (newsplit s).1

/-- The text that `batch_deliver_chathistory` hands to Tcl. -/
def chathistoryText (acc : BatchAccum) : CStr :=
  acc.target ++ acc.lines.flatMap fun line => ' ' :: '\x7b' :: line ++ ['\x7d']

namespace State

variable (s : State)

def emit (o : Output) : State := { s with outputs := s.outputs ++ [o] }

/-- `op_htab_get`. -/
def get (ref : CStr) : Option BatchAccum := s.batchHt.find? fun acc => acc.key = ref

/-- `BATCH +refid type`. -/
def openBatch (ref type target : CStr) : State :=
  if type = [] then s
  else if (s.get ref).isSome then s
  else
    { s with batchHt := { type := type.take 63, target := target.take 511, key := ref, lines := [] } ::
        s.batchHt }

/-- `BATCH -refid`. -/
def closeBatch (ref : CStr) : State :=
  match s.get ref with
  | none => s
  | some acc =>
    let s := { s with batchHt := s.batchHt.filter fun acc => acc.key ≠ ref }
    let s := if strcaseEq acc.type "chathistory".toList then s.emit (.chathistory (chathistoryText acc))
      else s
    s.emit (.batch acc.type ref acc.lines)

/-- `gotbatch`. -/
def gotbatch (msg : CStr) : State :=
  let (refid, msg) := newsplit msg
  match refid with
  | '+' :: ref =>
    let (type, msg) := newsplit msg
    s.openBatch ref type (fixcolon (newsplit msg).1)
  | '-' :: ref => s.closeBatch ref
  | _ => s

/-- `gotbatch_intercept`, with `current_msgtag_batch`; `none` if it does not take the line. -/
def gotbatchIntercept (ref msg : CStr) : Option State :=
  if ref = [] then none
  else if (s.get ref).isSome then
    some { s with
      batchHt := s.batchHt.map fun acc => if acc.key = ref then acc.append msg else acc }
  else none

/-- `check_tcl_raw`, with the bind of `BATCH`. -/
def checkTclRaw (l : ServerLine) : State :=
  let s := s.emit (.raw l)
  if strcaseEq l.code "BATCH".toList then s.gotbatch l.msg else s

/-- `gottagmsg`: the tags are encoded for the log. -/
def gottagmsg (tags : TagDict) : Except Fault State :=
  match encodeMsgtags s.tagBuf tags with
  | none => .error .null
  | some (sb, _) => .ok { s with tagBuf := sb }

end State

/-- The batch tag of a line. -/
def batchTag (l : ServerLine) : CStr := (dictGet "batch".toList l.tagdict).getD []

/-- The tags that the binds of `rawt` are called with: one bind for every command, if there is a
command, and the text of the dictionary is one still when it was copied to `rawmsg`. -/
def rawtTags (tcl : Tcl) (l : ServerLine) : Option TagDict :=
  if l.code = [] then none else tcl.readDict ((tcl.dictString l.tagdict).take (recvlinemax + 6))

/-- `server_activity` for a line that was taken apart.  The bind of `TAGMSG` is called before the one
for every command. -/
def State.serverActivity (tcl : Tcl) (s : State) (l : ServerLine) : Except Fault State :=
  let currentMsgtagBatch := (batchTag l).take 64
  match rawtTags tcl l with
  | none => .ok (s.checkTclRaw l)
  | some tags => do
    let s ← if strcaseEq l.code "TAGMSG".toList then s.gottagmsg tags else .ok s
    .ok ((s.gotbatchIntercept currentMsgtagBatch l.msg).getD (s.checkTclRaw l))

/-- `server_activity`, and what `disconnect_server` does with the batches. -/
def State.next (tcl : Tcl) (s : State) : Event → Except Fault State
  | .line tagmsg => s.serverActivity tcl (serverLine tagmsg)
  | .disconnect => .ok { s with batchHt := [] }

/-! ### What is asked for -/

/-- A line as the server sent it, without its tags. -/
def lineText (l : ServerLine) : CStr :=
  (if l.src = [] then [] else ':' :: l.src ++ [' ']) ++ l.code ++ ' ' :: l.msg

/-- What is done with lines, seen from outside. -/
inductive View where
  | dispatched (l : ServerLine)
  | delivered (ref : CStr) (lines : List CStr)
deriving DecidableEq, Repr

def Output.view : Output → Option View
  | .raw l => some (.dispatched l)
  | .chathistory _ => none
  | .batch _ ref lines => some (.delivered ref lines)

/-- The batches that the server has opened and not closed, and what was to be done so far. -/
structure Spec where
  opened : List (CStr × List CStr)
  views : List View
deriving DecidableEq, Repr

namespace Spec

variable (keep : ServerLine → CStr) (s : Spec)

def isOpen (ref : CStr) : Bool := s.opened.any fun b => b.1 = ref

/-- A line is one of the batch it is tagged with, which has what is to be kept of it, or it is
dispatched. -/
def take (l : ServerLine) : Spec :=
  let tag := batchTag l
  if tag ≠ [] ∧ s.isOpen tag then
    { s with opened := s.opened.map fun b => if b.1 = tag then (b.1, b.2 ++ [keep l]) else b }
  else { s with views := s.views ++ [.dispatched l] }

/-- The line as a command that opens or closes a batch. -/
def command (msg : CStr) : Spec :=
  let (refid, msg) := newsplit msg
  match refid with
  | '+' :: ref =>
    if (newsplit msg).1 = [] ∨ s.isOpen ref then s else { s with opened := (ref, []) :: s.opened }
  | '-' :: ref =>
    match s.opened.find? fun b => b.1 = ref with
    | none => s
    | some b =>
      { opened := s.opened.filter fun b => b.1 ≠ ref
        views := s.views ++ [.delivered ref (b.2.take batchLineCap)] }
  | _ => s

def line (l : ServerLine) : Spec :=
  if strcaseEq l.code "BATCH".toList then (s.take keep l).command l.msg else s.take keep l

def next : Event → Spec
  | .line tagmsg => s.line keep (serverLine tagmsg)
  | .disconnect => { s with opened := [] }

end Spec

/-! ### Side by side -/

/-- An open batch, as the code has it and as it should be. -/
structure Same (acc : BatchAccum) (b : CStr × List CStr) : Prop where
  key : acc.key = b.1
  lines : acc.lines = b.2.take batchLineCap

theorem Same.append {acc : BatchAccum} {b : CStr × List CStr} (h : Same acc b) (line : CStr) :
    Same (acc.append line) (b.1, b.2 ++ [line]) := by
  have hlines := h.lines
  have hlen : acc.lines.length = min batchLineCap b.2.length := by rw [hlines, length_take]
  unfold BatchAccum.append
  split
  · next hfull =>
    refine ⟨h.key, ?_⟩
    rw [hlines, take_append_of_le_length (by omega)]
  · next hroom =>
    refine ⟨h.key, ?_⟩
    show acc.lines ++ [line] = (b.2 ++ [line]).take batchLineCap
    rw [hlines, take_of_length_le (by omega), take_of_length_le]
    rw [length_append, length_singleton]
    omega

variable {ht : List BatchAccum} {opened : List (CStr × List CStr)}

theorem find?_same (h : Forall₂ Same ht opened) (ref : CStr) :
    (ht.find? (fun acc => acc.key = ref) = none ∧ opened.find? (fun b => b.1 = ref) = none) ∨
      ∃ acc b, ht.find? (fun acc => acc.key = ref) = some acc ∧
        opened.find? (fun b => b.1 = ref) = some b ∧ Same acc b := by
  induction h with
  | nil => exact .inl ⟨rfl, rfl⟩
  | @cons acc b ht opened hsame _ ih =>
    by_cases hkey : acc.key = ref
    · refine .inr ⟨acc, b, ?_, ?_, hsame⟩
      · rw [find?_cons_of_pos (by simpa using hkey)]
      · rw [find?_cons_of_pos (by simpa [← hsame.key] using hkey)]
    · rw [find?_cons_of_neg (by simpa using hkey),
        find?_cons_of_neg (by simpa [← hsame.key] using hkey)]
      exact ih

theorem isSome_find?_same (h : Forall₂ Same ht opened) (ref : CStr) :
    (ht.find? fun acc => acc.key = ref).isSome = opened.any fun b => b.1 = ref := by
  rw [← isSome_find?]
  rcases find?_same h ref with ⟨hht, hopened⟩ | ⟨acc, b, hht, hopened, -⟩
  · rw [hht, hopened]
    rfl
  · rw [hht, hopened]
    rfl

theorem filter_same (h : Forall₂ Same ht opened) (ref : CStr) :
    Forall₂ Same (ht.filter fun acc => acc.key ≠ ref) (opened.filter fun b => b.1 ≠ ref) := by
  refine rel_filter (fun acc b hsame => ?_) h
  show decide (acc.key ≠ ref) = true ↔ decide (b.1 ≠ ref) = true
  rw [hsame.key]

theorem append_same (h : Forall₂ Same ht opened) (ref line : CStr) :
    Forall₂ Same (ht.map fun acc => if acc.key = ref then acc.append line else acc)
      (opened.map fun b => if b.1 = ref then (b.1, b.2 ++ [line]) else b) := by
  refine forall₂_map_left_iff.2 (forall₂_map_right_iff.2 (h.imp fun acc b hsame => ?_))
  rw [hsame.key]
  split
  · exact hsame.append line
  · exact hsame

/-- The code has done what was to be done. -/
structure Agree (s : State) (t : Spec) : Prop where
  batches : Forall₂ Same s.batchHt t.opened
  views : s.outputs.filterMap Output.view = t.views

variable {s : State} {t : Spec} {tcl : Tcl} {l : ServerLine}

theorem Agree.isSome_get (h : Agree s t) (ref : CStr) : (s.get ref).isSome = t.isOpen ref :=
  isSome_find?_same h.batches ref

theorem filterMap_emit (s : State) (o : Output) : (s.emit o).outputs.filterMap Output.view =
    s.outputs.filterMap Output.view ++ o.view.toList := by
  rw [State.emit, filterMap_append]
  cases o <;> rfl

theorem agree_openBatch (h : Agree s t) (ref type target : CStr) :
    Agree (s.openBatch ref type target)
      (if type = [] ∨ t.isOpen ref then t else { t with opened := (ref, []) :: t.opened }) := by
  unfold State.openBatch
  by_cases htype : type = []
  · rw [if_pos htype, if_pos (.inl htype)]
    exact h
  · rw [if_neg htype, h.isSome_get]
    by_cases hopen : t.isOpen ref = true
    · rw [if_pos hopen, if_pos (.inr hopen)]
      exact h
    · rw [if_neg hopen, if_neg (not_or.2 ⟨htype, hopen⟩)]
      exact ⟨.cons ⟨rfl, rfl⟩ h.batches, h.views⟩

theorem agree_closeBatch (h : Agree s t) (ref : CStr) :
    Agree (s.closeBatch ref)
      (match t.opened.find? fun b => b.1 = ref with
      | none => t
      | some b =>
        { opened := t.opened.filter fun b => b.1 ≠ ref
          views := t.views ++ [.delivered ref (b.2.take batchLineCap)] }) := by
  unfold State.closeBatch State.get
  rcases find?_same h.batches ref with ⟨hht, hopened⟩ | ⟨acc, b, hht, hopened, hsame⟩
  · rw [hht, hopened]
    exact h
  · rw [hht, hopened]
    dsimp only
    refine ⟨?_, ?_⟩
    · split <;> exact filter_same h.batches ref
    · rw [filterMap_emit, ← h.views, hsame.lines]
      refine congrArg (· ++ _) ?_
      split
      · rw [filterMap_emit]
        exact append_nil _
      · rfl

theorem agree_gotbatch (h : Agree s t) (msg : CStr) : Agree (s.gotbatch msg) (t.command msg) := by
  unfold State.gotbatch Spec.command
  dsimp only
  split
  · exact agree_openBatch h _ _ _
  · exact agree_closeBatch h _
  · exact h

theorem agree_checkTclRaw (h : Agree s t) (htag : ¬ (batchTag l ≠ [] ∧ t.isOpen (batchTag l) = true)) :
    Agree (s.checkTclRaw l) (t.line ServerLine.msg l) := by
  have hemit : Agree (s.emit (.raw l)) (t.take ServerLine.msg l) := by
    rw [Spec.take, if_neg htag]
    refine ⟨h.batches, ?_⟩
    rw [filterMap_emit, h.views]
    rfl
  unfold State.checkTclRaw Spec.line
  dsimp only
  split
  · exact agree_gotbatch hemit _
  · exact hemit

/-- A line that the code treats as it should: none that opens or closes a batch is tagged with an
open one, what is kept of a long tag is no open batch, the binds are called for the lines of a batch,
and there are no tags to encode. -/
structure Plain (tcl : Tcl) (t : Spec) (l : ServerLine) : Prop where
  batch : t.isOpen (batchTag l) = true → strcaseEq l.code "BATCH".toList = false
  short : (batchTag l).length ≤ 64 ∨
    t.isOpen (batchTag l) = false ∧ t.isOpen ((batchTag l).take 64) = false
  called : t.isOpen (batchTag l) = true → (rawtTags tcl l).isSome = true
  untagged : strcaseEq l.code "TAGMSG".toList = true → (rawtTags tcl l).getD [] = []

/-- Where there are no tags, `gottagmsg` changes nothing. -/
theorem gottagmsg_nil (s : State) : s.gottagmsg [] = .ok s := rfl

/-- The binds of `rawt`, on a plain line. -/
theorem serverActivity_plain (hplain : Plain tcl t l) : s.serverActivity tcl l =
    .ok (if (rawtTags tcl l).isSome then
      (s.gotbatchIntercept ((batchTag l).take 64) l.msg).getD (s.checkTclRaw l)
    else s.checkTclRaw l) := by
  have htags := hplain.untagged
  unfold State.serverActivity
  cases hcalled : rawtTags tcl l with
  | none => rfl
  | some tags =>
    rw [hcalled] at htags
    by_cases htagmsg : strcaseEq l.code "TAGMSG".toList = true
    · obtain rfl : tags = [] := htags htagmsg
      dsimp only
      rw [if_pos htagmsg, gottagmsg_nil]
      rfl
    · dsimp only
      rw [if_neg htagmsg]
      rfl

theorem agree_line (h : Agree s t) (hplain : Plain tcl t l) :
    ∃ s', s.serverActivity tcl l = .ok s' ∧ Agree s' (t.line ServerLine.msg l) := by
  refine ⟨_, serverActivity_plain hplain, ?_⟩
  by_cases htag : batchTag l ≠ [] ∧ t.isOpen (batchTag l) = true
  · obtain ⟨hne, hopen⟩ := htag
    have hshort : (batchTag l).take 64 = batchTag l := by
      refine take_of_length_le (hplain.short.resolve_right fun hlong => ?_)
      rw [hopen] at hlong
      exact absurd hlong.1 (by decide)
    have hget : (s.get (batchTag l)).isSome = true := (h.isSome_get _).trans hopen
    unfold Spec.line Spec.take
    rw [hplain.batch hopen, if_neg Bool.false_ne_true, if_pos (hplain.called hopen),
      if_pos (And.intro hne hopen), hshort, State.gotbatchIntercept, if_neg hne, if_pos hget, Option.getD_some]
    exact ⟨append_same h.batches _ _, h.views⟩
  · have hraw := agree_checkTclRaw h htag
    split
    · have hnone : s.gotbatchIntercept ((batchTag l).take 64) l.msg = none := by
        rw [State.gotbatchIntercept]
        by_cases hnil : (batchTag l).take 64 = []
        · exact if_pos hnil
        · have hne : batchTag l ≠ [] := fun heq => hnil (by rw [heq]; rfl)
          have hclosed : t.isOpen (batchTag l) = false := by
            cases hopen : t.isOpen (batchTag l) with
            | false => rfl
            | true => exact absurd ⟨hne, hopen⟩ htag
          have hget : (s.get ((batchTag l).take 64)).isSome = false := by
            rw [h.isSome_get]
            rcases hplain.short with hlen | hlong
            · rw [take_of_length_le hlen]
              exact hclosed
            · exact hlong.2
          rw [if_neg hnil, if_neg (by rw [hget]; decide)]
      rw [hnone]
      exact hraw
    · exact hraw

/-! ### Runs -/

/-- Both take the event; the code may crash. -/
def step (tcl : Tcl) (keep : ServerLine → CStr) (s : State × Spec) (e : Event) :
    Except Fault (State × Spec) :=
  (s.1.next tcl e).map fun s' => (s', s.2.next keep e)

def PlainEvent (tcl : Tcl) (s : State × Spec) : Event → Prop
  | .line tagmsg => Plain tcl s.2 (serverLine tagmsg)
  | .disconnect => True

theorem agree_step (s : State × Spec) (e : Event) (h : Agree s.1 s.2) (hplain : PlainEvent tcl s e) :
    ∃ s', step tcl ServerLine.msg s e = .ok s' ∧ Agree s'.1 s'.2 := by
  cases e with
  | line tagmsg =>
    obtain ⟨s', hs', hagree⟩ := agree_line h hplain
    refine ⟨(s', s.2.line ServerLine.msg (serverLine tagmsg)), ?_, hagree⟩
    rw [step, State.next, hs']
    rfl
  | disconnect => exact ⟨_, rfl, .nil, h.views⟩

/-- Before the first line. -/
def start : State × Spec :=
  ({ batchHt := [], tagBuf := .zeroed, outputs := [] }, { opened := [], views := [] })

/-- The run does not crash, and what the code does is what was asked for, at every line. -/
def Right (tcl : Tcl) (keep : ServerLine → CStr) (es : List Event) : Prop :=
  (∃ s, Machine.run (step tcl keep) start es = .ok s) ∧
    Machine.Throughout (step tcl keep) (fun s => Agree s.1 s.2) start es

instance (tcl : Tcl) (t : Spec) (l : ServerLine) : Decidable (Plain tcl t l) :=
  decidable_of_iff
    ((t.isOpen (batchTag l) = true → strcaseEq l.code "BATCH".toList = false) ∧
      ((batchTag l).length ≤ 64 ∨
        t.isOpen (batchTag l) = false ∧ t.isOpen ((batchTag l).take 64) = false) ∧
      (t.isOpen (batchTag l) = true → (rawtTags tcl l).isSome = true) ∧
      (strcaseEq l.code "TAGMSG".toList = true → (rawtTags tcl l).getD [] = []))
    ⟨fun h => ⟨h.1, h.2.1, h.2.2.1, h.2.2.2⟩, fun h => ⟨h.batch, h.short, h.called, h.untagged⟩⟩

instance (tcl : Tcl) (s : State × Spec) : ∀ e, Decidable (PlainEvent tcl s e)
  | .line tagmsg => inferInstanceAs (Decidable (Plain tcl s.2 (serverLine tagmsg)))
  | .disconnect => inferInstanceAs (Decidable True)

/-- The pairs of a list of words, where none is left over. -/
def putPairs (d : TagDict) : List CStr → Option TagDict
  | [] => some d
  | [_] => none
  | key :: value :: words => putPairs (dictPut key value d) words

/-- Tcl for dictionaries whose keys and values are words. -/
def wordsTcl : Tcl where
  dictString d := " ".toList.intercalate (d.flatMap fun kv => [kv.1, kv.2])
  readDict s := putPairs [] ((s.splitOn ' ').filter fun w => w ≠ [])

end Eggdrop.Server.Batch
