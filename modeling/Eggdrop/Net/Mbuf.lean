import Mathlib.Algebra.Ring.Int.Defs
import Mathlib.Algebra.Ring.Nat
import Mathlib.Data.List.Rotate
import Mathlib.Tactic.Common

/-!
# Mbuf — the message buffer of compat/mbuf.c

A ring buffer: a backing store, a read position and a count; the write position follows from
these.  That it does is a field of the structure, so every buffer below is a valid one.

* `Mbuf.contents`: the bytes queued, oldest first.
* `Mbuf.contents_append`, `Mbuf.contents_appendGrow`, `Mbuf.contents_consume`,
  `Mbuf.contents_grow`, `Mbuf.peek2_eq_contents`: every operation, seen through `contents`, is
  the operation of a FIFO queue.
-/

namespace Eggdrop.Net

variable {α : Type*}

/-! ### Backing store -/

/-- `memcpy(buf + off, data, len)` for data that fits. -/
def memcpy (buf : List α) (off : Nat) (data : List α) : List α :=
  buf.take off ++ data ++ buf.drop (off + data.length)

theorem length_memcpy {buf data : List α} {off : Nat} (h : off + data.length ≤ buf.length) :
    (memcpy buf off data).length = buf.length := by
  simp only [memcpy, List.length_append, List.length_take, List.length_drop]
  omega

theorem getElem?_memcpy {buf data : List α} {off : Nat} (h : off + data.length ≤ buf.length)
    (i : Nat) :
    (memcpy buf off data)[i]? =
      if off ≤ i ∧ i < off + data.length then data[i - off]? else buf[i]? := by
  have hoff : (buf.take off).length = off := by rw [List.length_take]; omega
  rw [memcpy, List.append_assoc]
  by_cases h1 : i < off
  · rw [List.getElem?_append_left (by omega), List.getElem?_take_of_lt h1, if_neg (by omega)]
  · rw [List.getElem?_append_right (by omega), hoff]
    by_cases h2 : i < off + data.length
    · rw [List.getElem?_append_left (by omega), if_pos (by omega)]
    · rw [List.getElem?_append_right (by omega), List.getElem?_drop, if_neg (by omega)]
      congr 1
      omega

/-- The one or two copies of an append: up to the end of the store, then from its start. -/
def ringWrite (buf : List α) (pos : Nat) (data : List α) : List α :=
  let first := min (buf.length - pos) data.length
  memcpy (memcpy buf pos (data.take first)) 0 (data.drop first)

section RingWrite

variable {buf data : List α} {pos : Nat}

theorem length_ringWrite (hpos : pos < buf.length) (hd : data.length ≤ buf.length) :
    (ringWrite buf pos data).length = buf.length := by
  have h1 : (memcpy buf pos (data.take (min (buf.length - pos) data.length))).length =
      buf.length := by
    apply length_memcpy
    rw [List.length_take]
    omega
  rw [ringWrite, length_memcpy, h1]
  rw [h1, List.length_drop]
  omega

/-- Position `k` steps round the ring from `pos` holds the `k`-th byte written, or what it held
before when fewer bytes were written. -/
theorem getElem?_ringWrite (hpos : pos < buf.length) (hd : data.length ≤ buf.length) {k : Nat}
    (hk : k < buf.length) :
    (ringWrite buf pos data)[(pos + k) % buf.length]? =
      if k < data.length then data[k]? else buf[(pos + k) % buf.length]? := by
  have h1 : pos + (data.take (min (buf.length - pos) data.length)).length ≤ buf.length := by
    rw [List.length_take]
    omega
  rw [ringWrite, getElem?_memcpy (by rw [length_memcpy h1, List.length_drop]; omega),
    getElem?_memcpy h1, List.length_take, List.length_drop]
  by_cases hwrap : pos + k < buf.length
  · rw [Nat.mod_eq_of_lt hwrap]
    by_cases hkd : k < data.length
    · rw [if_neg (by omega), if_pos (by omega), if_pos hkd, List.getElem?_take_of_lt (by omega)]
      congr 1
      omega
    · rw [if_neg (by omega), if_neg (by omega), if_neg hkd]
  · have hmod : (pos + k) % buf.length = pos + k - buf.length := by
      rw [Nat.mod_eq_sub_mod (by omega), Nat.mod_eq_of_lt (by omega)]
    rw [hmod]
    by_cases hkd : k < data.length
    · rw [if_pos (by omega), if_pos hkd, List.getElem?_drop]
      congr 1
      omega
    · rw [if_neg (by omega), if_neg (by omega), if_neg hkd]

end RingWrite

/-! ### The buffer -/

/-- `struct egg_mbuf`; the capacity is the length of the store. -/
structure Mbuf (α : Type*) where
  buf : List α
  len : Nat
  rpos : Nat
  wpos : Nat
  rpos_lt : rpos < buf.length
  len_le : len ≤ buf.length
  wpos_eq : wpos = (rpos + len) % buf.length
deriving DecidableEq

namespace Mbuf

variable (mb : Mbuf α)

def cap : Nat := mb.buf.length

theorem cap_pos : 0 < mb.cap := Nat.lt_of_le_of_lt (Nat.zero_le _) mb.rpos_lt

theorem wpos_lt : mb.wpos < mb.cap := by
  rw [mb.wpos_eq]
  exact Nat.mod_lt _ mb.cap_pos

/-- The bytes queued, oldest first. -/
def contents : List α := (mb.buf.rotate mb.rpos).take mb.len

@[simp] theorem length_contents : mb.contents.length = mb.len := by
  rw [contents, List.length_take, List.length_rotate]
  exact Nat.min_eq_left mb.len_le

theorem getElem?_contents {k : Nat} (hk : k < mb.len) :
    mb.contents[k]? = mb.buf[(mb.rpos + k) % mb.cap]? := by
  have := mb.len_le
  rw [contents, List.getElem?_take_of_lt hk, List.getElem?_rotate (by omega), Nat.add_comm k, cap]

/-- `egg_mbuf_alloc`; the store starts out uninitialised. -/
def alloc [Inhabited α] (capacity : Nat) : Option (Mbuf α) :=
  if h : 0 < capacity then
    some
      { buf := List.replicate capacity default
        len := 0
        rpos := 0
        wpos := 0
        rpos_lt := by rwa [List.length_replicate]
        len_le := Nat.zero_le _
        wpos_eq := (Nat.zero_mod _).symm }
  else none

/-- `egg_mbuf_append`: as much as fits, and how much that was. -/
def append (data : List α) : Mbuf α × Nat :=
  let toWrite := min data.length (mb.cap - mb.len)
  let firstChunk := min (mb.cap - mb.wpos) toWrite
  let secondChunk := toWrite - firstChunk
  have hlen : (ringWrite mb.buf mb.wpos (data.take toWrite)).length = mb.buf.length :=
    length_ringWrite mb.wpos_lt (by rw [List.length_take]; simp only [toWrite, cap]; omega)
  ({ buf := ringWrite mb.buf mb.wpos (data.take toWrite)
     len := mb.len + toWrite
     rpos := mb.rpos
     wpos := if 0 < secondChunk then secondChunk else (mb.wpos + firstChunk) % mb.cap
     rpos_lt := by rw [hlen]; exact mb.rpos_lt
     len_le := by
       have := mb.len_le
       rw [hlen]
       simp only [toWrite, cap]
       omega
     wpos_eq := by
       have hw := mb.wpos_lt
       have hl := mb.len_le
       have hstart : (mb.rpos + (mb.len + toWrite)) % mb.cap = (mb.wpos + toWrite) % mb.cap := by
         rw [mb.wpos_eq, cap, Nat.mod_add_mod, Nat.add_assoc]
       rw [hlen, ← cap, hstart]
       split
       · next h =>
         rw [Nat.mod_eq_sub_mod (by omega), Nat.mod_eq_of_lt] <;>
           simp only [cap, toWrite, secondChunk, firstChunk] at * <;> omega
       · next h =>
         have : firstChunk = toWrite := by omega
         rw [this] },
   toWrite)

/-- `egg_mbuf_peek2`: the bytes up to the end of the store, and those wrapped to its start. -/
def peek2 : List α × List α :=
  let c1 := min (mb.cap - mb.rpos) mb.len
  ((mb.buf.drop mb.rpos).take c1, mb.buf.take (mb.len - c1))

/-- `egg_mbuf_consume`: drop bytes from the front; an empty buffer starts over at position 0. -/
def consume (n : Nat) : Mbuf α :=
  let n := min n mb.len
  if mb.len - n = 0 then
    { buf := mb.buf
      len := 0
      rpos := 0
      wpos := 0
      rpos_lt := mb.cap_pos
      len_le := Nat.zero_le _
      wpos_eq := (Nat.zero_mod _).symm }
  else
    { buf := mb.buf
      len := mb.len - n
      rpos := (mb.rpos + n) % mb.cap
      wpos := mb.wpos
      rpos_lt := Nat.mod_lt _ mb.cap_pos
      len_le := Nat.le_trans (Nat.sub_le _ _) mb.len_le
      wpos_eq := by
        rw [cap, Nat.mod_add_mod, mb.wpos_eq]
        congr 1
        omega }

/-- `egg_mbuf_grow`: the queued bytes go to the start of a larger store. -/
def grow [Inhabited α] (newCap : Nat) : Mbuf α :=
  if h : newCap ≤ mb.cap then mb
  else
    have hle := mb.len_le
    have hlen : (mb.peek2.1 ++ mb.peek2.2 ++ List.replicate (newCap - mb.len) default).length =
        newCap := by
      have := mb.rpos_lt
      simp only [peek2, cap, List.length_append, List.length_take, List.length_drop,
        List.length_replicate] at h ⊢
      omega
    { buf := mb.peek2.1 ++ mb.peek2.2 ++ List.replicate (newCap - mb.len) default
      len := mb.len
      rpos := 0
      wpos := mb.len
      rpos_lt := by rw [hlen]; omega
      len_le := by rw [hlen]; simp only [cap] at h; omega
      wpos_eq := by
        rw [hlen, Nat.zero_add, Nat.mod_eq_of_lt]
        simp only [cap] at h
        omega }

/-- The doubling loop of `egg_mbuf_append_grow`, with `need` rounds as its bound. -/
def growCap (need : Nat) : Nat → Nat → Nat
  | 0, c => c
  | fuel + 1, c => if c < need then growCap need fuel (c * 2) else c

/-- `egg_mbuf_append_grow`: everything, after growing the store if it is too small. -/
def appendGrow [Inhabited α] (data : List α) : Mbuf α × Nat :=
  if data.length = 0 then (mb, 0)
  else if mb.cap - mb.len < data.length then
    let need := mb.len + data.length
    (mb.grow (growCap need need mb.cap)).append data
  else mb.append data

/-! ### The buffer as a queue -/

theorem peek2_eq_contents : mb.peek2.1 ++ mb.peek2.2 = mb.contents := by
  have hr := mb.rpos_lt
  have hl := mb.len_le
  rw [contents, List.rotate_eq_drop_append_take (by omega), List.take_append, List.length_drop,
    List.take_take]
  simp only [peek2, cap]
  by_cases h : mb.len ≤ mb.buf.length - mb.rpos
  · rw [Nat.min_eq_right h, Nat.sub_self, Nat.sub_eq_zero_of_le h, Nat.zero_min]
  · rw [Nat.min_eq_left (by omega), Nat.min_eq_left (by omega),
      List.take_of_length_le (l := mb.buf.drop mb.rpos) (by rw [List.length_drop]),
      List.take_of_length_le (l := mb.buf.drop mb.rpos) (by rw [List.length_drop]; omega)]

theorem contents_alloc [Inhabited α] {n : Nat} (h : 0 < n) :
    ∃ mb : Mbuf α, alloc n = some mb ∧ mb.contents = [] ∧ mb.cap = n :=
  ⟨_, dif_pos h, rfl, List.length_replicate⟩

theorem queued_index (k : Nat) :
    (mb.rpos + k) % mb.cap = (mb.wpos + (mb.cap - mb.len + k)) % mb.cap := by
  have hl : mb.len ≤ mb.cap := mb.len_le
  rw [mb.wpos_eq, ← cap, Nat.mod_add_mod,
    show mb.rpos + mb.len + (mb.cap - mb.len + k) = mb.rpos + k + mb.cap by omega,
    Nat.add_mod_right]

theorem free_index {k : Nat} (hk : mb.len ≤ k) :
    (mb.rpos + k) % mb.cap = (mb.wpos + (k - mb.len)) % mb.cap := by
  rw [mb.wpos_eq, ← cap, Nat.mod_add_mod,
    show mb.rpos + mb.len + (k - mb.len) = mb.rpos + k by omega]

theorem append_snd (data : List α) :
    (mb.append data).2 = min data.length (mb.cap - mb.len) := rfl

theorem contents_append (data : List α) :
    (mb.append data).1.contents = mb.contents ++ data.take (mb.append data).2 := by
  have hl : mb.len ≤ mb.cap := mb.len_le
  rw [append_snd]
  generalize hn : min data.length (mb.cap - mb.len) = n
  have hd : (data.take n).length = n := by rw [List.length_take]; omega
  have hring {k : Nat} (hk : k < mb.cap) :=
    @getElem?_ringWrite α mb.buf (data.take n) mb.wpos mb.wpos_lt
      (by rw [hd]; simp only [cap] at hn hl; omega) k hk
  have hlen : (mb.append data).1.len = mb.len + n := by simp only [append, hn]
  have hbuf : (mb.append data).1.buf = ringWrite mb.buf mb.wpos (data.take n) := by
    simp only [append, hn]
  have hcap : (mb.append data).1.cap = mb.cap := by
    rw [cap, hbuf]
    exact length_ringWrite mb.wpos_lt (by rw [hd]; simp only [cap] at hn hl; omega)
  apply List.ext_getElem?
  intro k
  by_cases hk : k < mb.len + n
  · rw [getElem?_contents _ (by rw [hlen]; exact hk), hcap]
    have hrpos : (mb.append data).1.rpos = mb.rpos := rfl
    rw [hbuf, hrpos]
    by_cases hkl : k < mb.len
    · rw [List.getElem?_append_left (by rw [length_contents]; exact hkl),
        getElem?_contents _ hkl, queued_index]
      simp only [cap] at hring ⊢ hl hkl hn
      rw [hring (by omega), if_neg (by rw [hd]; omega)]
    · rw [List.getElem?_append_right (by rw [length_contents]; omega), length_contents,
        free_index _ (by omega)]
      simp only [cap] at hring ⊢ hn
      rw [hring (by omega), if_pos (by rw [hd]; omega)]
  · rw [List.getElem?_eq_none (by rw [length_contents, hlen]; omega),
      List.getElem?_eq_none (by rw [List.length_append, length_contents, hd]; omega)]

theorem contents_consume (n : Nat) : (mb.consume n).contents = mb.contents.drop n := by
  unfold consume
  dsimp only
  split
  · next h =>
    rw [List.drop_of_length_le (by rw [length_contents]; omega)]
    rfl
  · next h =>
    have hn : min n mb.len = n := by omega
    apply List.ext_getElem?
    intro k
    rw [List.getElem?_drop]
    by_cases hk : k < mb.len - n
    · rw [getElem?_contents _ (by dsimp only; omega), getElem?_contents _ (by omega)]
      dsimp only [cap]
      rw [Nat.mod_add_mod, hn, Nat.add_assoc]
    · rw [List.getElem?_eq_none (by rw [length_contents]; dsimp only; omega),
        List.getElem?_eq_none (by rw [length_contents]; omega)]

theorem len_consume (n : Nat) : (mb.consume n).len = mb.len - n := by
  rw [← length_contents, contents_consume, List.length_drop, length_contents]

section Grow

variable [Inhabited α]

theorem contents_grow (newCap : Nat) : (mb.grow newCap).contents = mb.contents := by
  unfold grow
  split
  · rfl
  · rw [contents]
    dsimp only
    rw [List.rotate_zero, peek2_eq_contents, List.take_append_of_le_length (by simp),
      List.take_of_length_le (by simp)]

theorem len_grow (newCap : Nat) : (mb.grow newCap).len = mb.len := by
  rw [← length_contents, contents_grow, length_contents]

theorem le_cap_grow (newCap : Nat) : newCap ≤ (mb.grow newCap).cap := by
  unfold grow
  split
  · assumption
  · next h =>
    have hl := mb.len_le
    dsimp only [cap] at h ⊢
    rw [peek2_eq_contents, List.length_append, length_contents, List.length_replicate]
    omega

theorem le_growCap {need c fuel : Nat} (hc : 0 < c) (hfuel : need ≤ c + fuel) :
    need ≤ growCap need fuel c := by
  induction fuel generalizing c with
  | zero => simpa [growCap] using hfuel
  | succ fuel ih =>
    rw [growCap]
    split
    · exact ih (by omega) (by omega)
    · omega

theorem contents_appendGrow (data : List α) :
    (mb.appendGrow data).1.contents = mb.contents ++ data := by
  unfold appendGrow
  split
  · next h => rw [List.eq_nil_of_length_eq_zero h, List.append_nil]
  · split
    · have hcap : mb.len + data.length ≤
          (mb.grow (growCap (mb.len + data.length) (mb.len + data.length) mb.cap)).cap :=
        Nat.le_trans (le_growCap mb.cap_pos (Nat.le_add_left _ _)) (le_cap_grow _ _)
      dsimp only
      rw [contents_append, contents_grow, append_snd, len_grow, List.take_of_length_le (by omega)]
    · rw [contents_append, append_snd, List.take_of_length_le (by omega)]

end Grow

end Mbuf

end Eggdrop.Net
