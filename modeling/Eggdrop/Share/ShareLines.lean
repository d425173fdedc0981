import Mathlib.Data.List.Forall2
import Eggdrop.Share.Resync

/-!
# ShareLines — what `shareout_mod` and `shareout_but` put on the wire

The text is formatted with its newline and then cut, so that a long one loses it and the next message
goes on in the same line.

* `bytes_eq`: a link that is selected gets the line, and once.
* `oneLine_shareLine`: whose text comes out as one line.
* `shareout_lines_iff`: when a link reads the messages as they were sent.
-/

namespace Eggdrop.Share

open List

/-! ### Lines on the wire -/

/-- A line is ended by its newline, and has no other. -/
def OneLine (line : CStr) : Prop := ∃ body, '\n' ∉ body ∧ line = body ++ ['\n']

theorem oneLine_iff (line : CStr) : OneLine line ↔ line.idxOf '\n' + 1 = line.length := by
  constructor
  · rintro ⟨body, hbody, rfl⟩
    rw [idxOf_append_of_notMem hbody, length_append, idxOf_cons_self, length_singleton]
  · intro h
    have hin : '\n' ∈ line := idxOf_lt_length_iff.1 (by omega)
    obtain ⟨body, rest, rfl, hbody⟩ := eq_append_cons_of_mem hin
    rw [idxOf_append_of_notMem hbody, length_append, idxOf_cons_self, length_cons] at h
    obtain rfl : rest = [] := length_eq_zero_iff.1 (by omega)
    exact ⟨body, hbody, rfl⟩

instance (line : CStr) : Decidable (OneLine line) := decidable_of_iff' _ (oneLine_iff line)

/-- The lines of what was put on a wire, each with its newline; the last one may be under way. -/
def wireLines : CStr → List CStr
  | [] => []
  | c :: w =>
    if c = '\n' then [c] :: wireLines w
    else
      match wireLines w with
      | [] => [[c]]
      | line :: lines => (c :: line) :: lines

theorem wireLines_append {line : CStr} (h : OneLine line) (w : CStr) :
    wireLines (line ++ w) = line :: wireLines w := by
  obtain ⟨body, hbody, rfl⟩ := h
  induction body with
  | nil => rw [nil_append, singleton_append, wireLines, if_pos rfl]
  | cons c body ih =>
    have hc : ¬ c = '\n' := fun heq => hbody (heq ▸ mem_cons_self)
    rw [cons_append, cons_append, wireLines, if_neg hc,
      ih fun hin => hbody (mem_cons_of_mem _ hin)]

theorem wireLines_flatten {lines : List CStr} (h : ∀ line ∈ lines, OneLine line) :
    wireLines lines.flatten = lines := by
  induction lines with
  | nil => rfl
  | cons line lines ih =>
    obtain ⟨hline, hlines⟩ := forall_mem_cons.1 h
    rw [flatten_cons, wireLines_append hline, ih hlines]

/-! ### The calls -/

/-- A call of `shareout_mod` or of `shareout_but`, with the formatted text. -/
inductive Shareout where
  | mod (chan : Option Chan) (text : CStr)
  | but (chan : Option Chan) (x : Nat) (text : CStr)

namespace Shareout

def text : Shareout → CStr
  | mod _ text => text
  | but _ _ text => text

def readers : Shareout → Option Audience
  | mod chan _ => chan.map (·.readers)
  | but chan _ _ => chan.map (·.readers)

def skipped : Shareout → Option Nat
  | mod _ _ => none
  | but _ x _ => some x

/-- `shareout_mod` looks whether the channel is shared. -/
def goes : Shareout → Bool
  | mod chan _ => chan.all (·.shared)
  | but _ _ _ => true

def apply (s : State) : Shareout → State
  | mod chan text => s.shareoutMod chan text
  | but chan x text => s.shareoutBut chan x text

variable (s : State) (c : Shareout)

/-- The links that the loop over `dcc` sends to. -/
def targets : List (Link × Nat) :=
  if c.goes then
    s.links.zipIdx.filter fun p =>
      p.1.live && some p.2 != c.skipped && (Audience.ofChan c.readers).gets p.1.nick
  else []

def selects (i : Nat) : Bool :=
  c.goes && s.links[i]?.any fun l =>
    l.live && some i != c.skipped && (Audience.ofChan c.readers).gets l.nick

/-- The calls of `tputs`. -/
def puts : List (Nat × CStr) := (c.targets s).map fun p => (p.2, State.shareLine c.text)

/-- What goes on the wire of a link. -/
def bytes (i : Nat) : CStr := ((c.puts s).filter fun p => p.1 == i).flatMap Prod.snd

/-- The buffer takes the line, and has room for it. -/
def buffers (t : Tandbuf) : Bool :=
  c.goes && (Audience.ofChan c.readers).gets t.bot && decide (t.q.length < maxQueue)

/-- Somebody gets the line. -/
def Reaches : Prop := (∃ i, c.selects s i = true) ∨ ∃ t ∈ s.bufs.tbufs, c.buffers t = true

/-- The first newline of the text is its last character, or the last one before the cut. -/
def Fits : Prop := c.text.idxOf '\n' + 1 = min c.text.length 509

instance : Decidable c.Fits := by unfold Fits; infer_instance

end Shareout

/-- What goes on the wire of a link in some calls, each with the links and buffers as they are then. -/
def wire (calls : List (State × Shareout)) (i : Nat) : CStr := calls.flatMap fun p => p.2.bytes p.1 i

/-- The messages that are for a link. -/
def messages (calls : List (State × Shareout)) (i : Nat) : List CStr :=
  (calls.filter fun p => p.2.selects p.1 i).map fun p => State.shareLine p.2.text

/-- A call adds to a buffer what is a line, or nothing. -/
def QueuesLines (s : State) (c : Shareout) : Prop :=
  Forall₂ (fun t t' : Tandbuf => ∃ new : List CStr, t'.q = t.q ++ new ∧ ∀ m ∈ new, OneLine m)
    s.bufs.tbufs (c.apply s).bufs.tbufs

/-- Every link reads the messages for it, one line each, and every buffer takes lines. -/
structure SentAsLines (calls : List (State × Shareout)) : Prop where
  read : ∀ i, wireLines (wire calls i) = messages calls i
  one : ∀ i, ∀ m ∈ messages calls i, OneLine m
  queued : ∀ p ∈ calls, QueuesLines p.1 p.2

/-! ### What a call does -/

variable {s : State} {c : Shareout}

theorem apply_bufs (s : State) (c : Shareout) :
    (c.apply s).bufs =
      if c.goes then
        (s.bufs.observe ((c.targets s).map fun p => .received p.1.nick (State.shareLine c.text))).qResync
          (State.shareLine c.text) c.readers
      else s.bufs := by
  cases c with
  | mod chan text =>
    show (s.shareoutMod chan text).bufs = _
    rw [State.shareoutMod]
    cases hall : chan.all (·.shared) with
    | false =>
      have hgoes : (Shareout.mod chan text).goes = false := hall
      rw [hgoes]
      rfl
    | true =>
      have hgoes : (Shareout.mod chan text).goes = true := hall
      rw [Shareout.targets, hgoes, if_pos rfl, if_pos rfl, if_pos rfl, State.shareout, map_map]
      rfl
  | but chan x text =>
    show (s.shareoutBut chan x text).bufs = _
    rw [State.shareoutBut, State.shareout, map_map]
    rfl

theorem filter_zipIdx {α : Type*} (l : List α) (k i : Nat) :
    ((l.zipIdx k).filter fun p => p.2 == i) =
      if k ≤ i then (l[i - k]?.map fun a => (a, i)).toList else [] := by
  induction l generalizing k with
  | nil => simp
  | cons a l ih =>
    rw [zipIdx_cons, filter_cons, ih]
    rcases Nat.lt_trichotomy i k with hlt | rfl | hgt
    · rw [if_neg (by simp; omega), if_neg (by omega), if_neg (by omega)]
    · simp
    · rw [if_neg (by simp; omega), if_pos (by omega), if_pos (by omega),
        show i - k = i - (k + 1) + 1 by omega, getElem?_cons_succ]

theorem bytes_eq (s : State) (c : Shareout) (i : Nat) :
    c.bytes s i = if c.selects s i = true then State.shareLine c.text else [] := by
  rw [Shareout.bytes, Shareout.puts, Shareout.targets, Shareout.selects]
  cases c.goes with
  | false => rfl
  | true =>
    rw [if_pos rfl, filter_map, Function.comp_def, filter_comm, filter_zipIdx,
      if_pos (Nat.zero_le i), Nat.sub_zero, Bool.true_and]
    cases s.links[i]? with
    | none => rfl
    | some l =>
      simp only [Option.map_some, Option.toList_some, Option.any_some, filter_cons, filter_nil]
      split
      · rw [map_singleton, flatMap_singleton]
      · rfl

theorem wire_eq (calls : List (State × Shareout)) (i : Nat) :
    wire calls i = (messages calls i).flatten := by
  induction calls with
  | nil => rfl
  | cons p calls ih =>
    rw [wire, flatMap_cons, ← wire, ih, bytes_eq, messages, messages, filter_cons]
    split
    · rw [map_cons, flatten_cons]
    · rfl

theorem oneLine_cons {c : Char} (hc : c ≠ '\n') (line : CStr) : OneLine (c :: line) ↔ OneLine line := by
  rw [oneLine_iff, oneLine_iff, idxOf_cons_ne _ hc, length_cons]
  exact Nat.succ_inj

theorem oneLine_take (n : Nat) (text : CStr) :
    OneLine (text.take n) ↔ text.idxOf '\n' + 1 = min text.length n := by
  rw [oneLine_iff, length_take, Nat.min_comm]
  have hsplit : (text.take n ++ text.drop n).idxOf '\n' = text.idxOf '\n' := by
    rw [take_append_drop]
  by_cases hin : '\n' ∈ text.take n
  · rw [idxOf_append_of_mem hin] at hsplit
    rw [hsplit]
  · have hlen := idxOf_eq_length_iff.2 hin
    rw [idxOf_append_of_notMem hin] at hsplit
    rw [length_take] at hlen hsplit
    omega

theorem oneLine_shareLine (c : Shareout) : OneLine (State.shareLine c.text) ↔ c.Fits := by
  have hline : State.shareLine c.text = 's' :: ' ' :: c.text.take 509 := rfl
  rw [hline, oneLine_cons (by decide), oneLine_cons (by decide), oneLine_take, Shareout.Fits]

theorem queuesLines_iff (s : State) (c : Shareout) :
    QueuesLines s c ↔ ∀ t ∈ s.bufs.tbufs, c.buffers t = true → c.Fits := by
  rw [QueuesLines, apply_bufs]
  cases hgoes : c.goes with
  | false =>
    constructor
    · intro _ t _ ht
      rw [Shareout.buffers, hgoes] at ht
      cases ht
    · intro _
      rw [if_neg Bool.false_ne_true, forall₂_same]
      exact fun t _ => ⟨[], (append_nil _).symm, fun m hm => absurd hm not_mem_nil⟩
  | true =>
    rw [if_pos rfl, Buffers.qResync, forall₂_map_right_iff]
    show Forall₂ _ s.bufs.tbufs s.bufs.tbufs ↔ _
    rw [forall₂_same]
    refine forall₂_congr fun t _ => ?_
    rw [Shareout.buffers, hgoes, Bool.true_and]
    cases (Audience.ofChan c.readers).gets t.bot with
    | false =>
      rw [if_neg Bool.false_ne_true]
      constructor
      · exact fun _ h => absurd h (by simp)
      · exact fun _ => ⟨[], (append_nil _).symm, fun m hm => absurd hm not_mem_nil⟩
    | true =>
      rw [if_pos rfl, Bool.true_and, decide_eq_true_iff, Tandbuf.qPushMsg]
      split
      · next hfull =>
        constructor
        · exact fun _ h => absurd h (Nat.not_lt.2 hfull)
        · exact fun _ => ⟨[], (append_nil _).symm, fun m hm => absurd hm not_mem_nil⟩
      · next hroom =>
        rw [← oneLine_shareLine]
        constructor
        · rintro ⟨new, hnew, hlines⟩ _
          rw [append_cancel_left hnew.symm] at hlines
          exact hlines _ mem_cons_self
        · intro h
          refine ⟨[State.shareLine c.text], rfl, fun m hm => ?_⟩
          rw [mem_singleton.1 hm]
          exact h (Nat.not_le.1 hroom)

/-- In every run of calls, whatever happens to the links between them: they read the messages as they
were sent if and only if the text of each call that reaches somebody fits. -/
theorem shareout_lines_iff (calls : List (State × Shareout)) :
    SentAsLines calls ↔ ∀ p ∈ calls, p.2.Reaches p.1 → p.2.Fits := by
  constructor
  · intro h p hp hreach
    rcases hreach with ⟨i, hi⟩ | ⟨t, ht, hbuf⟩
    · exact (oneLine_shareLine p.2).1 (h.one i _ (mem_map.2 ⟨p, mem_filter.2 ⟨hp, hi⟩, rfl⟩))
    · exact (queuesLines_iff p.1 p.2).1 (h.queued p hp) t ht hbuf
  · intro h
    have hone (i : Nat) : ∀ m ∈ messages calls i, OneLine m := by
      intro m hm
      obtain ⟨p, hp, rfl⟩ := mem_map.1 hm
      obtain ⟨hin, hsel⟩ := mem_filter.1 hp
      exact (oneLine_shareLine p.2).2 (h p hin (.inl ⟨i, hsel⟩))
    refine ⟨fun i => ?_, hone, fun p hp => ?_⟩
    · rw [wire_eq, wireLines_flatten (hone i)]
    · exact (queuesLines_iff p.1 p.2).2 fun t ht hbuf => h p hp (.inr ⟨t, ht, hbuf⟩)

/-- One link, over which changes go out at once. -/
def oneLink : State where
  bufs := ⟨[], []⟩
  links := [{ nick := "leaf".toList, numver := minShare, share := true }]
  now := 0
  resyncTime := 900
  allowResync := true

/-- A comment of 495 characters: the newline is the 510th and is cut off. -/
theorem not_sentAsLines_long :
    ¬ SentAsLines
      [(oneLink, .mod none ("c COMMENT joe ".toList ++ (replicate 495 'x' ++ ['\n'])))] := by
  intro h
  have hline := h.one 0 _ (mem_map.2 ⟨_, mem_filter.2 ⟨mem_singleton_self _, rfl⟩, rfl⟩)
  have hfits := (oneLine_shareLine _).1 hline
  have hname : '\n' ∉ "c COMMENT joe ".toList := by decide
  have hlong : '\n' ∉ replicate 495 'x' := fun hin => absurd (eq_of_mem_replicate hin) (by decide)
  rw [Shareout.Fits, Shareout.text, idxOf_append_of_notMem hname, idxOf_append_of_notMem hlong,
    length_append, length_append, length_replicate, idxOf_cons_self] at hfits
  exact absurd hfits (by decide)

end Eggdrop.Share
