import Eggdrop.Net.Mbuf

/-!
# MbufRuns — the message buffer as a queue, over whole runs

The queue knows its bytes and its room.  An append that does not grow the buffer queues what there
is room for; a look at the buffer shows the bytes queued, in two segments.  Sizes are numbers: the
bytes queued and those to be queued are in memory at once, so that no `size_t` wraps.

* `Mbuf.call_spec`: one call, seen through the bytes queued.
* `Mbuf.calls_spec`: any sequence of calls on a new buffer.
-/

namespace Eggdrop.Net

variable {α : Type*}

/-! ### The queue -/

/-- A call of the buffer's interface. -/
inductive MbufCall (α : Type*) where
  | append (data : List α)
  | appendGrow (data : List α)
  | grow (newCap : ℕ)
  | peek2
  | consume (n : ℕ)

/-- What a call gives back. -/
inductive MbufReply (α : Type*) where
  | wrote (n : ℕ)
  | segments (first second : List α)
  | done

/-- A queue of bytes with so much room. -/
structure ByteQueue (α : Type*) where
  items : List α
  room : ℕ

/-- One call of a queue, its reply, and the queue behind it. -/
inductive ByteQueue.Step : ByteQueue α → MbufCall α → MbufReply α → ByteQueue α → Prop
  | append {q : ByteQueue α} {data : List α} {n : ℕ}
      (hn : n = min data.length (q.room - q.items.length)) :
    Step q (.append data) (.wrote n) ⟨q.items ++ data.take n, q.room⟩
  | appendGrow {q : ByteQueue α} {data : List α} {room : ℕ} (hroom : q.room ≤ room) :
    Step q (.appendGrow data) (.wrote data.length) ⟨q.items ++ data, room⟩
  | grow {q : ByteQueue α} {newCap : ℕ} : Step q (.grow newCap) .done ⟨q.items, max q.room newCap⟩
  | peek2 {q : ByteQueue α} {first second : List α} (h : first ++ second = q.items) :
    Step q .peek2 (.segments first second) q
  | consume {q : ByteQueue α} {n : ℕ} : Step q (.consume n) .done ⟨q.items.drop n, q.room⟩

/-- A sequence of calls of a queue with their replies. -/
inductive ByteQueue.Steps : ByteQueue α → List (MbufCall α × MbufReply α) → ByteQueue α → Prop
  | nil (q : ByteQueue α) : Steps q [] q
  | cons {q q' q'' : ByteQueue α} {c : MbufCall α} {r : MbufReply α}
      {log : List (MbufCall α × MbufReply α)} (h : Step q c r q') (hs : Steps q' log q'') :
    Steps q ((c, r) :: log) q''

namespace Mbuf

/-- The buffer as a queue. -/
def queue (mb : Mbuf α) : ByteQueue α := ⟨mb.contents, mb.cap⟩

theorem cap_append (mb : Mbuf α) (data : List α) : (mb.append data).1.cap = mb.cap := by
  refine length_ringWrite mb.wpos_lt ?_
  rw [List.length_take]
  simp only [cap]
  omega

theorem cap_consume (mb : Mbuf α) (n : ℕ) : (mb.consume n).cap = mb.cap := by
  unfold consume
  dsimp only
  split <;> rfl

variable [Inhabited α]

/-- One call of the buffer. -/
def call (mb : Mbuf α) : MbufCall α → Mbuf α × MbufReply α
  | .append data => ((mb.append data).1, .wrote (mb.append data).2)
  | .appendGrow data => ((mb.appendGrow data).1, .wrote (mb.appendGrow data).2)
  | .grow newCap => (mb.grow newCap, .done)
  | .peek2 => (mb, .segments mb.peek2.1 mb.peek2.2)
  | .consume n => (mb.consume n, .done)

/-- A sequence of calls, with the replies. -/
def calls : Mbuf α → List (MbufCall α) → Mbuf α × List (MbufCall α × MbufReply α)
  | mb, [] => (mb, [])
  | mb, c :: cs =>
    let (mb', r) := mb.call c
    let (mb'', log) := calls mb' cs
    (mb'', (c, r) :: log)

theorem cap_grow (mb : Mbuf α) (newCap : ℕ) : (mb.grow newCap).cap = max mb.cap newCap := by
  have hl : mb.len ≤ mb.cap := mb.len_le
  unfold grow
  split
  · next h => exact (Nat.max_eq_left h).symm
  · next h =>
    rw [Nat.max_eq_right (by omega)]
    dsimp only [cap] at h hl ⊢
    rw [peek2_eq_contents, List.length_append, length_contents, List.length_replicate]
    omega

theorem cap_le_appendGrow (mb : Mbuf α) (data : List α) :
    mb.cap ≤ (mb.appendGrow data).1.cap := by
  unfold appendGrow
  split
  · exact Nat.le_refl _
  · split
    · dsimp only
      rw [cap_append, cap_grow]
      exact Nat.le_max_left _ _
    · rw [cap_append]

theorem appendGrow_snd (mb : Mbuf α) (data : List α) : (mb.appendGrow data).2 = data.length := by
  unfold appendGrow
  split
  · next h => exact h.symm
  · split
    · have hcap : mb.len + data.length ≤
          (mb.grow (growCap (mb.len + data.length) (mb.len + data.length) mb.cap)).cap :=
        Nat.le_trans (le_growCap mb.cap_pos (Nat.le_add_left _ _)) (le_cap_grow _ _)
      dsimp only
      rw [append_snd, len_grow]
      omega
    · rw [append_snd]
      omega

/-- One call is one of a queue. -/
theorem call_spec (mb : Mbuf α) (c : MbufCall α) :
    mb.queue.Step c (mb.call c).2 (mb.call c).1.queue := by
  cases c with
  | append data =>
    rw [call, queue, queue, contents_append, cap_append]
    refine .append ?_
    rw [append_snd, length_contents]
  | appendGrow data =>
    rw [call, queue, queue, contents_appendGrow, appendGrow_snd]
    exact .appendGrow (mb.cap_le_appendGrow data)
  | grow newCap =>
    rw [call, queue, queue, contents_grow, cap_grow]
    exact .grow
  | peek2 => exact .peek2 mb.peek2_eq_contents
  | consume n =>
    rw [call, queue, queue, contents_consume, cap_consume]
    exact .consume

theorem calls_spec (mb : Mbuf α) (cs : List (MbufCall α)) :
    mb.queue.Steps (mb.calls cs).2 (mb.calls cs).1.queue := by
  induction cs generalizing mb with
  | nil => exact .nil _
  | cons c cs ih => exact .cons (mb.call_spec c) (ih _)

/-- A new buffer answers any sequence of calls as an empty queue does. -/
theorem calls_alloc (capacity : ℕ) (cs : List (MbufCall α)) :
    ∀ mb ∈ Mbuf.alloc (α := α) capacity,
      ByteQueue.Steps ⟨[], capacity⟩ (mb.calls cs).2 (mb.calls cs).1.queue := by
  intro mb hmb
  have hcap : 0 < capacity := by
    unfold alloc at hmb
    split at hmb
    · assumption
    · cases hmb
  obtain ⟨mb', halloc, hnil, hlen⟩ := contents_alloc (α := α) hcap
  cases hmb.symm.trans halloc
  rw [← hnil, ← hlen]
  exact mb.calls_spec cs

/-- A buffer of four bytes whose content wraps, and grows. -/
theorem calls_alloc_four :
    ∃ mb ∈ Mbuf.alloc (α := ℕ) 4,
      let cs := [.append [1, 2, 3], .consume 2, .append [4, 5, 6, 7], .peek2, .appendGrow [8, 9],
        .peek2]
      ByteQueue.Steps ⟨[], 4⟩ (mb.calls cs).2 (mb.calls cs).1.queue ∧
        (mb.calls cs).2.map Prod.snd = [.wrote 3, .done, .wrote 3, .segments [3, 4] [5, 6],
          .wrote 2, .segments [3, 4, 5, 6, 8, 9] []] :=
  ⟨_, rfl, calls_alloc 4 _ _ rfl, rfl⟩

end Mbuf

end Eggdrop.Net
