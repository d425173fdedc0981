import Eggdrop.Lib.ListEdit
import Eggdrop.Base.CString

/-!
# Tbuf — the resync buffers of share.mod

While a share bot is away, or a userfile is on its way to it, the share lines for it wait in a
`tandbuf`.  A trace beside the buffers says which lines were emitted and which lines a bot was
sent; `Sound` is what a resync promises in terms of the trace alone.

* `Held`: one buffer for a bot, and in it the first `maxQueue` lines emitted since it was made.
* `Held.qResync`, `Held.qTbuf_eq`, `Held.newTbuf`, `Held.sublist`: what keeps it.
* `Held.dumpResync`: a dump sends what was emitted, if that fitted.
-/

namespace Eggdrop.Share

open ListEdit

/-- `q_push_msg` drops what would make the queue longer. -/
def maxQueue : Nat := 1000

/-- The resync buffer of one bot. -/
structure Tandbuf where
  bot : CStr
  timer : Int
  q : List CStr
  fits : q.length ≤ maxQueue
deriving DecidableEq

/-- The bots whose users have `bot_chan` or `bot_global` for a channel; a user is looked up
without regard to case. -/
structure Audience where
  gets : CStr → Bool
  fold : ∀ {a b}, strcaseEq a b → gets a = gets b

namespace Audience

/-- The readers of a line: without a channel it is for every bot. -/
def ofChan : Option Audience → Audience
  | none => ⟨fun _ => true, fun _ => rfl⟩
  | some a => a

@[simp] theorem ofChan_some (a : Audience) : ofChan (some a) = a := rfl

def only (bot : CStr) (a : Audience) : Audience where
  gets b := strcaseEq b bot && a.gets b
  fold h := by rw [strcaseEq_congr_left h, a.fold h]

end Audience

/-- What can be observed of the sharing. -/
inductive Trace where
  /-- a share line is handed to the buffers -/
  | emitted (line : CStr) (readers : Audience)
  /-- a share line is sent to a bot -/
  | received (nick line : CStr)
  /-- any other line is sent to a bot -/
  | said (nick line : CStr)
  | created (bot : CStr)
  | dumped (nick : CStr)

/-- The share lines for a bot since its buffer was made; the trace has the newest first. -/
def emitted (bot : CStr) : List Trace → List CStr
  | [] => []
  | .created b :: tr => if strcaseEq b bot then [] else emitted bot tr
  | .emitted line readers :: tr =>
    if readers.gets bot then emitted bot tr ++ [line] else emitted bot tr
  | _ :: tr => emitted bot tr

/-- The share lines sent to a bot since its buffer was made. -/
def received (bot : CStr) : List Trace → List CStr
  | [] => []
  | .created b :: tr => if strcaseEq b bot then [] else received bot tr
  | .received nick line :: tr =>
    if strcaseEq nick bot then received bot tr ++ [line] else received bot tr
  | _ :: tr => received bot tr

/-- A line that offers a resync: a request for one, or the answer that grants it. -/
def offers (line : CStr) : Bool := line == "s r?\n".toList || line == "s r!\n".toList

/-- Whenever a buffer was dumped, the bot had by then received every share line since the buffer
was made, once and in order; a resync was only offered from a buffer that held them all. -/
def Sound : List Trace → Prop
  | [] => True
  | .dumped nick :: tr => received nick tr = emitted nick tr ∧ Sound tr
  | .said nick line :: tr =>
    (offers line → (emitted nick tr).length ≤ maxQueue) ∧ Sound tr
  | _ :: tr => Sound tr

/-- The buffers and what was observed so far. -/
structure Buffers where
  tbufs : List Tandbuf
  trace : List Trace

namespace Tandbuf

/-- Silently drops the message when the queue is full. -/
def qPushMsg (s : CStr) (t : Tandbuf) : Tandbuf :=
  if h : maxQueue ≤ t.q.length then t
  else { t with q := t.q ++ [s], fits := by rw [List.length_append, List.length_singleton]; omega }

end Tandbuf

namespace Buffers

/-- Lines of the trace, the oldest first. -/
def observe (es : List Trace) (s : Buffers) : Buffers := { s with trace := es.reverse ++ s.trace }

def newTbuf (now : Int) (bot : CStr) (s : Buffers) : Buffers where
  tbufs := s.tbufs ++ [⟨bot, now, [], Nat.zero_le _⟩]
  trace := .created bot :: s.trace

/-- The scan runs from the end. -/
def flushTbuf (bot : CStr) (s : Buffers) : Buffers :=
  { s with tbufs := eraseLast (strcaseEq ·.bot bot) s.tbufs }

/-- The first half of `check_expired_tbufs`. -/
def dropExpired (now resyncTime : Int) (s : Buffers) : Buffers :=
  { s with tbufs := s.tbufs.filter fun t => !decide (now - t.timer > resyncTime) }

/-- Add a line to the first buffer of a bot. -/
def qTbuf (bot s : CStr) (chan : Option Audience) (b : Buffers) : Buffers where
  tbufs := modifyFirst (strcaseEq ·.bot bot)
    (fun t => if (Audience.ofChan chan).gets bot then t.qPushMsg s else t) b.tbufs
  trace := .emitted s ((Audience.ofChan chan).only bot) :: b.trace

/-- Add a line to all buffers whose bot may see it. -/
def qResync (s : CStr) (chan : Option Audience) (b : Buffers) : Buffers where
  tbufs := b.tbufs.map fun t =>
    if (Audience.ofChan chan).gets t.bot then t.qPushMsg s else t
  trace := .emitted s (Audience.ofChan chan) :: b.trace

def canResync (bot : CStr) (s : Buffers) : Bool := s.tbufs.any (strcaseEq bot ·.bot)

/-- Send the lines of the first buffer, then remove the last one. -/
def dumpResync (nick : CStr) (s : Buffers) : Buffers :=
  match s.tbufs.find? (strcaseEq nick ·.bot) with
  | none => s
  | some t => ((s.observe (t.q.map (.received nick))).flushTbuf nick).observe [.dumped nick]

end Buffers

/-! ### What the trace says about a bot -/

theorem emitted_congr {a b : CStr} (h : strcaseEq a b) (tr : List Trace) :
    emitted a tr = emitted b tr := by
  induction tr with
  | nil => rfl
  | cons e tr ih =>
    cases e with
    | emitted line readers => simp only [emitted, readers.fold h, ih]
    | created c => simp only [emitted, strcaseEq_comm c, strcaseEq_congr_left h, ih]
    | received nick line => exact ih
    | said nick line => exact ih
    | dumped nick => exact ih

theorem received_congr {a b : CStr} (h : strcaseEq a b) (tr : List Trace) :
    received a tr = received b tr := by
  induction tr with
  | nil => rfl
  | cons e tr ih =>
    cases e with
    | received nick line => simp only [received, strcaseEq_comm nick, strcaseEq_congr_left h, ih]
    | created c => simp only [received, strcaseEq_comm c, strcaseEq_congr_left h, ih]
    | emitted line readers => exact ih
    | said nick line => exact ih
    | dumped nick => exact ih

theorem emitted_sends (bot : CStr) (ls : List (CStr × CStr)) (tr : List Trace) :
    emitted bot ((ls.map fun x => Trace.received x.1 x.2).reverse ++ tr) = emitted bot tr := by
  induction ls generalizing tr with
  | nil => rfl
  | cons x ls ih =>
    rw [List.map_cons, List.reverse_cons, List.append_assoc, ih]
    rfl

theorem received_sends (bot : CStr) (ls : List (CStr × CStr)) (tr : List Trace) :
    received bot ((ls.map fun x => Trace.received x.1 x.2).reverse ++ tr) =
      received bot tr ++ (ls.filter (strcaseEq ·.1 bot)).map (·.2) := by
  induction ls generalizing tr with
  | nil => simp
  | cons x ls ih =>
    rw [List.map_cons, List.reverse_cons, List.append_assoc, ih, List.filter_cons]
    simp only [List.singleton_append, received]
    split <;> simp

theorem sound_sends (ls : List (CStr × CStr)) {tr : List Trace} (h : Sound tr) :
    Sound ((ls.map fun x => Trace.received x.1 x.2).reverse ++ tr) := by
  induction ls generalizing tr with
  | nil => exact h
  | cons x ls ih =>
    rw [List.map_cons, List.reverse_cons, List.append_assoc]
    refine ih ?_
    exact h

/-! ### The invariant of the buffers -/

theorem Tandbuf.q_qPushMsg (s : CStr) (t : Tandbuf) :
    (t.qPushMsg s).q = (t.q ++ [s]).take maxQueue := by
  have hfits := t.fits
  unfold qPushMsg
  split
  · next h => rw [List.take_append_of_le_length h, List.take_of_length_le hfits]
  · next h =>
    rw [List.take_of_length_le]
    rw [List.length_append, List.length_singleton]
    omega

theorem Tandbuf.bot_qPushMsg (s : CStr) (t : Tandbuf) : (t.qPushMsg s).bot = t.bot := by
  unfold qPushMsg
  split <;> rfl

namespace Buffers

/-- One buffer for a bot; it holds what was emitted since it was made, as far as that fits, and
nothing of it was sent. -/
structure Held (s : Buffers) : Prop where
  one : s.tbufs.Pairwise fun a b => strcaseEq a.bot b.bot = false
  held : ∀ t ∈ s.tbufs, t.q = (emitted t.bot s.trace).take maxQueue
  unsent : ∀ t ∈ s.tbufs, received t.bot s.trace = []
  sound : Sound s.trace

variable {s : Buffers}

theorem canResync_iff {bot : CStr} :
    s.canResync bot = true ↔ ∃ t ∈ s.tbufs, strcaseEq bot t.bot = true := by
  rw [canResync, List.any_eq_true]

theorem canResync_of_sublist {ts : List Tandbuf} (hsub : ts.Sublist s.tbufs) {bot : CStr}
    (h : canResync bot { s with tbufs := ts } = true) : s.canResync bot = true := by
  obtain ⟨t, ht, hb⟩ := canResync_iff.1 h
  exact canResync_iff.2 ⟨t, hsub.subset ht, hb⟩

theorem Held.sublist (h : Held s) {ts : List Tandbuf} (hsub : ts.Sublist s.tbufs) :
    Held { s with tbufs := ts } where
  one := h.one.sublist hsub
  held t ht := h.held t (hsub.subset ht)
  unsent t ht := h.unsent t (hsub.subset ht)
  sound := h.sound

theorem flushTbuf_sublist (bot : CStr) (s : Buffers) :
    (s.flushTbuf bot).tbufs.Sublist s.tbufs := eraseLast_sublist _ _

theorem Held.flushTbuf (h : Held s) (bot : CStr) : Held (s.flushTbuf bot) :=
  h.sublist (flushTbuf_sublist bot s)

theorem Held.dropExpired (h : Held s) (now resyncTime : Int) :
    Held (s.dropExpired now resyncTime) := h.sublist List.filter_sublist

theorem Held.canResync_flushTbuf (h : Held s) (bot : CStr) :
    (s.flushTbuf bot).canResync bot = false := by
  rw [← Bool.not_eq_true, canResync_iff]
  rintro ⟨t, ht, hb⟩
  refine not_of_mem_eraseLast (h.one.imp fun hab ⟨ha, hb⟩ => ?_) t ht (strcaseEq_comm bot _ ▸ hb)
  rw [strcaseEq_comm, strcaseEq_congr_left hb, strcaseEq_comm, ha] at hab
  cases hab

theorem Held.said (h : Held s) {nick line : CStr}
    (hfit : offers line → (emitted nick s.trace).length ≤ maxQueue) :
    Held (s.observe [.said nick line]) where
  one := h.one
  held t ht := h.held t ht
  unsent t ht := h.unsent t ht
  sound := ⟨hfit, h.sound⟩

theorem Held.sends (h : Held s) {ls : List (CStr × CStr)}
    (hls : ∀ x ∈ ls, s.canResync x.1 = false) :
    Held (s.observe (ls.map fun x => .received x.1 x.2)) where
  one := h.one
  held t ht := by
    rw [observe, emitted_sends]
    exact h.held t ht
  unsent t ht := by
    rw [observe, received_sends, h.unsent t ht, List.nil_append, List.map_eq_nil_iff,
      List.filter_eq_nil_iff]
    intro x hx hb
    have hno := hls x hx
    rw [← Bool.not_eq_true, canResync_iff] at hno
    exact hno ⟨t, ht, hb⟩
  sound := sound_sends ls h.sound

theorem canResync_newTbuf (now : Int) (bot b : CStr) (s : Buffers) :
    (s.newTbuf now bot).canResync b = (s.canResync b || strcaseEq b bot) := by
  simp [canResync, newTbuf]

theorem Held.newTbuf (h : Held s) (now : Int) {bot : CStr} (hno : s.canResync bot = false) :
    Held (s.newTbuf now bot) := by
  have hne (t) (ht : t ∈ s.tbufs) : strcaseEq bot t.bot = false := by
    rw [← Bool.not_eq_true] at hno ⊢
    exact fun hb => hno (canResync_iff.2 ⟨t, ht, hb⟩)
  refine ⟨?_, ?_, ?_, h.sound⟩
  · refine List.pairwise_append.2 ⟨h.one, List.pairwise_singleton _ _, fun a ha b hb => ?_⟩
    rw [List.mem_singleton.1 hb, strcaseEq_comm]
    exact hne a ha
  · intro t ht
    rcases List.mem_append.1 ht with ht | ht
    · simp only [Buffers.newTbuf, emitted, hne t ht]
      exact h.held t ht
    · rw [List.mem_singleton.1 ht]
      simp [Buffers.newTbuf, emitted]
  · intro t ht
    rcases List.mem_append.1 ht with ht | ht
    · simp only [Buffers.newTbuf, received, hne t ht]
      exact h.unsent t ht
    · rw [List.mem_singleton.1 ht]
      simp [Buffers.newTbuf, received]

theorem take_take_append {α : Type*} (n : Nat) (l m : List α) :
    (l.take n ++ m).take n = (l ++ m).take n := by
  rw [List.take_append, List.take_append, List.take_take, Nat.min_self, List.length_take]
  congr 2
  omega

theorem q_offered {t : Tandbuf} {tr : List Trace} (ht : t.q = (emitted t.bot tr).take maxQueue)
    (line : CStr) (readers : Audience) :
    (if readers.gets t.bot then t.qPushMsg line else t).q =
      (emitted t.bot (.emitted line readers :: tr)).take maxQueue := by
  rw [emitted]
  split
  · rw [Tandbuf.q_qPushMsg, ht, take_take_append]
  · exact ht

theorem bot_offered (t : Tandbuf) (line : CStr) (c : Bool) :
    (if c then t.qPushMsg line else t).bot = t.bot := by
  split
  · exact t.bot_qPushMsg line
  · rfl

theorem Held.qResync (h : Held s) (line : CStr) (chan : Option Audience) :
    Held (s.qResync line chan) := by
  refine ⟨?_, ?_, ?_, h.sound⟩
  · refine List.pairwise_map.2 (h.one.imp fun hab => ?_)
    rw [bot_offered, bot_offered]
    exact hab
  · intro t' ht'
    obtain ⟨t, ht, rfl⟩ := List.mem_map.1 ht'
    rw [bot_offered]
    exact q_offered (h.held t ht) line _
  · intro t' ht'
    obtain ⟨t, ht, rfl⟩ := List.mem_map.1 ht'
    rw [bot_offered]
    exact h.unsent t ht

theorem canResync_qResync (line : CStr) (chan : Option Audience) (s : Buffers) (b : CStr) :
    (s.qResync line chan).canResync b = s.canResync b := by
  simp only [canResync, Buffers.qResync, List.any_map, Function.comp_def, bot_offered]

theorem Held.one_of_matches (h : Held s) (bot : CStr) :
    s.tbufs.Pairwise fun a b => ¬ (strcaseEq a.bot bot ∧ strcaseEq b.bot bot) := by
  refine h.one.imp fun hab ⟨ha, hb⟩ => ?_
  rw [strcaseEq_congr_left ha, strcaseEq_comm, hb] at hab
  cases hab

theorem Held.qTbuf_eq (h : Held s) (bot line : CStr) (chan : Option Audience) :
    s.qTbuf bot line chan = s.qResync line (some ((Audience.ofChan chan).only bot)) := by
  simp only [Buffers.qTbuf, Buffers.qResync, Audience.ofChan_some,
    modifyFirst_eq_map (h.one_of_matches bot), Buffers.mk.injEq, and_true]
  refine List.map_congr_left fun t _ => ?_
  cases hb : strcaseEq t.bot bot with
  | false => simp [Audience.only, hb]
  | true => simp [Audience.only, hb, (Audience.ofChan chan).fold hb]

theorem dumpResync_of_not (nick : CStr) (h : s.canResync nick = false) :
    s.dumpResync nick = s := by
  have hnone : s.tbufs.find? (strcaseEq nick ·.bot) = none := by
    rw [List.find?_eq_none]
    intro t ht hb
    rw [← Bool.not_eq_true, canResync_iff] at h
    exact h ⟨t, ht, hb⟩
  rw [Buffers.dumpResync, hnone]

theorem dumpResync_sublist (nick : CStr) (s : Buffers) :
    (s.dumpResync nick).tbufs.Sublist s.tbufs := by
  unfold Buffers.dumpResync
  split
  · exact List.Sublist.refl _
  · exact flushTbuf_sublist nick s

theorem Held.canResync_dumpResync (h : Held s) (nick : CStr) :
    (s.dumpResync nick).canResync nick = false := by
  cases hno : s.canResync nick with
  | false => rw [dumpResync_of_not nick hno, hno]
  | true =>
    obtain ⟨t, ht, hb⟩ := canResync_iff.1 hno
    obtain ⟨t', ht'⟩ := Option.isSome_iff_exists.1
      ((List.find?_isSome (p := (strcaseEq nick ·.bot))).2 ⟨t, ht, hb⟩)
    rw [Buffers.dumpResync, ht']
    exact h.canResync_flushTbuf nick

theorem Held.dumpResync (h : Held s) {nick : CStr}
    (hfit : s.canResync nick → (emitted nick s.trace).length ≤ maxQueue) :
    Held (s.dumpResync nick) := by
  unfold Buffers.dumpResync
  split
  · exact h
  · next t hfind =>
    have ht := List.mem_of_find?_eq_some hfind
    have hb : strcaseEq nick t.bot = true := by simpa using List.find?_some hfind
    have hq : t.q = emitted nick s.trace := by
      rw [h.held t ht, ← emitted_congr hb,
        List.take_of_length_le (hfit (canResync_iff.2 ⟨t, ht, hb⟩))]
    have hsends : t.q.map (Trace.received nick) =
        (t.q.map (Prod.mk nick)).map fun x => .received x.1 x.2 := by
      rw [List.map_map]
      rfl
    simp only [observe, hsends]
    have hflush := h.flushTbuf nick
    refine ⟨hflush.one, fun t' ht' => ?_, fun t' ht' => ?_, ?_, sound_sends _ h.sound⟩
    · show t'.q = (emitted t'.bot ((List.map _ _).reverse ++ s.trace)).take maxQueue
      rw [emitted_sends]
      exact hflush.held t' ht'
    · have hne : strcaseEq nick t'.bot = false := by
        have hno := h.canResync_flushTbuf nick
        rw [← Bool.not_eq_true, canResync_iff] at hno
        rw [← Bool.not_eq_true]
        exact fun hb' => hno ⟨t', ht', hb'⟩
      show received t'.bot ((List.map _ _).reverse ++ s.trace) = []
      rw [received_sends, show received t'.bot s.trace = [] from hflush.unsent t' ht',
        List.nil_append, List.map_eq_nil_iff, List.filter_eq_nil_iff]
      intro x hx
      obtain ⟨line, -, rfl⟩ := List.mem_map.1 hx
      rw [hne]
      exact Bool.false_ne_true
    · show received nick ((List.map _ _).reverse ++ s.trace) =
        emitted nick ((List.map _ _).reverse ++ s.trace)
      rw [received_sends, emitted_sends, received_congr hb, h.unsent t ht, List.nil_append,
        List.filter_eq_self.2, List.map_map]
      · exact (List.map_id _).trans hq
      · intro x hx
        obtain ⟨line, -, rfl⟩ := List.mem_map.1 hx
        exact strcaseEq_refl nick

end Buffers
end Eggdrop.Share
