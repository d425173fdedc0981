import Mathlib.Data.Nat.Bitwise
import Mathlib.Tactic.SplitIfs
import Eggdrop.Lib.Slots

/-!
# Htab — the Robin Hood hash table of libop (htab.c)

Each slot lies at or behind the home of its hash, and the way from there is its probe distance.  An
entry that is far from its home takes the slot of one that is near, a deletion moves the entries
behind it back by one.

* `insertLoop`, `findLoop`, `delLoop`: the three loops, each for so many rounds.
* `dib_next`, `dib_prev`: the probe distance from one slot to the next.
-/

namespace Eggdrop.OpHtab

open Function Slots

/-! ### The source -/

/-- The functions a table is made with.  That they agree is mandatory for any hash table. -/
structure Keys (κ : Type*) where
  hashFn : κ → UInt64
  eqFn : κ → κ → Bool
  refl : ∀ a, eqFn a a = true
  symm : ∀ {a b}, eqFn a b = true → eqFn b a = true
  trans : ∀ {a b c}, eqFn a b = true → eqFn b c = true → eqFn a c = true
  hash_eq : ∀ {a b}, eqFn a b = true → hashFn a = hashFn b

structure Slot (κ ν : Type*) where
  hash : UInt64
  key : κ
  val : ν
deriving DecidableEq

/-- `op_htab`; an empty slot is one whose hash is 0. -/
structure Table (κ ν : Type*) where
  /-- `mask + 1` -/
  cap : ℕ
  slots : ℕ → Option (Slot κ ν)
  count : ℕ

/-- Hash 0 is the empty-slot sentinel. -/
def fixHash (h : UInt64) : UInt64 := if h ≠ 0 then h else 1

/-- `h & mask`, where the capacity is a power of 2. -/
def home (cap : ℕ) (h : UInt64) : ℕ := h.toNat % cap

/-- Probe distance of an entry at slot `i`. -/
def dib (cap i : ℕ) (h : UInt64) : ℕ := (i + cap - home cap h) % cap

/-- `(i + 1) & mask`. -/
def next (cap i : ℕ) : ℕ := (i + 1) % cap

/-- Smallest power of two that is not less, minimum 16. -/
def nextPow2 (n : ℕ) : ℕ :=
  if n < 16 then 16
  else
    let n := n - 1
    let n := n ||| n >>> 1
    let n := n ||| n >>> 2
    let n := n ||| n >>> 4
    let n := n ||| n >>> 8
    let n := n ||| n >>> 16
    let n := n ||| n >>> 32
    n + 1

variable {κ ν : Type*}

/-- The loop of `htab_lookup` and `htab_find_idx`, for so many rounds. -/
def findLoop (K : Keys κ) (cap : ℕ) (slots : ℕ → Option (Slot κ ν)) (key : κ) (hash : UInt64) :
    ℕ → ℕ → ℕ → Option (Option ℕ)
  | 0, _, _ => none
  | k + 1, i, dist =>
    match slots i with
    | none => some none
    | some s =>
      if dib cap i s.hash < dist then some none
      else if s.hash = hash ∧ K.eqFn s.key key = true then some (some i)
      else findLoop K cap slots key hash k (next cap i) (dist + 1)

/-- `htab_find_idx`; `none` if it does not end. -/
def findIdx (K : Keys κ) (t : Table κ ν) (key : κ) (hash : UInt64) : Option (Option ℕ) :=
  findLoop K t.cap t.slots key hash (t.cap + 1) (home t.cap hash) 0

/-- The loop of `htab_insert_slot`: a poor entry evicts a rich one. -/
def insertLoop (cap : ℕ) :
    ℕ → (ℕ → Option (Slot κ ν)) → ℕ → Slot κ ν → ℕ → Option (ℕ → Option (Slot κ ν))
  | 0, _, _, _, _ => none
  | k + 1, slots, i, e, dist =>
    match slots i with
    | none => some (update slots i (some e))
    | some s =>
      if dib cap i s.hash < dist then
        insertLoop cap k (update slots i (some e)) (next cap i) s (dib cap i s.hash + 1)
      else insertLoop cap k slots (next cap i) e (dist + 1)

/-- `htab_insert_slot`. -/
def insertSlot (cap : ℕ) (slots : ℕ → Option (Slot κ ν)) (e : Slot κ ν) :
    Option (ℕ → Option (Slot κ ν)) := insertLoop cap (cap + 1) slots (home cap e.hash) e 0

/-- The loop of `htab_del_at`. -/
def delLoop (cap : ℕ) : ℕ → (ℕ → Option (Slot κ ν)) → ℕ → Option (ℕ → Option (Slot κ ν))
  | 0, _, _ => none
  | k + 1, slots, i =>
    match slots (next cap i) with
    | none => some (update slots i none)
    | some s =>
      if dib cap (next cap i) s.hash = 0 then some (update slots i none)
      else delLoop cap k (update slots i (some s)) (next cap i)

/-- `htab_del_at`. -/
def delAt (t : Table κ ν) (i : ℕ) : Option (Table κ ν) :=
  (delLoop t.cap (t.cap + 1) t.slots i).map fun slots => { t with slots, count := t.count - 1 }

/-- A round of the loop of `htab_resize`. -/
def moveSlot (newCap : ℕ) (slots new : ℕ → Option (Slot κ ν)) (i : ℕ) :
    Option (ℕ → Option (Slot κ ν)) :=
  match slots i with
  | none => some new
  | some s => insertSlot newCap new s

/-- `htab_resize`. -/
def resize (t : Table κ ν) (newCap : ℕ) : Option (Table κ ν) :=
  ((List.range' 0 t.cap).foldlM (moveSlot newCap t.slots) (fun _ => none)).map fun slots =>
    { t with slots, cap := newCap }

/-- `htab_maybe_grow`. -/
def maybeGrow (t : Table κ ν) : Option (Table κ ν) :=
  if t.count * 4 ≥ t.cap * 3 then resize t (t.cap * 2) else some t

/-- `op_htab_create`. -/
def create (initialCap : ℕ) : Table κ ν := ⟨nextPow2 initialCap, fun _ => none, 0⟩

/-- `op_htab_set`: the table, and the value that is replaced; it returns 1 if there is none. -/
def set (K : Keys κ) (t : Table κ ν) (key : κ) (val : ν) : Option (Table κ ν × Option ν) :=
  let hash := fixHash (K.hashFn key)
  match findIdx K t key hash with
  | none => none
  | some (some i) =>
    -- Update in place — do NOT replace the key pointer.
    (t.slots i).map fun s =>
      ({ t with slots := update t.slots i (some { s with val := val }) }, some s.val)
  | some none =>
    (maybeGrow t).bind fun t =>
      (insertSlot t.cap t.slots ⟨hash, key, val⟩).map fun slots =>
        ({ t with slots, count := t.count + 1 }, none)

/-- `op_htab_del`: the table, and the value that was there. -/
def del (K : Keys κ) (t : Table κ ν) (key : κ) : Option (Table κ ν × Option ν) :=
  match findIdx K t key (fixHash (K.hashFn key)) with
  | none => none
  | some none => some (t, none)
  | some (some i) => (delAt t i).map fun t' => (t', (t.slots i).map (·.val))

/-- `op_htab_get`. -/
def get (K : Keys κ) (t : Table κ ν) (key : κ) : Option (Option ν) :=
  (findIdx K t key (fixHash (K.hashFn key))).map fun r =>
    r.bind fun i => (t.slots i).map (·.val)

/-- `op_htab_compact`. -/
def compact (t : Table κ ν) : Option (Table κ ν) :=
  if nextPow2 (t.count * 2 + 1) < t.cap then resize t (nextPow2 (t.count * 2 + 1)) else some t

/-- `op_htab_iter_t`. -/
structure Iter where
  idx : ℕ
  cur : Option ℕ

/-- `op_htab_iter_init`. -/
def iterInit : Iter := ⟨0, none⟩

/-- The loop of `op_htab_iter_next`, for so many rounds: the next live slot. -/
def nextLoop (slots : ℕ → Option (Slot κ ν)) : ℕ → ℕ → Option (ℕ × Slot κ ν)
  | 0, _ => none
  | k + 1, i =>
    match slots i with
    | some s => some (i, s)
    | none => nextLoop slots k (i + 1)

/-- `op_htab_iter_next`. -/
def iterNext (t : Table κ ν) (it : Iter) : Option (Slot κ ν) × Iter :=
  match nextLoop t.slots (t.cap - it.idx) it.idx with
  | some (i, s) => (some s, ⟨i + 1, some i⟩)
  | none => (none, ⟨max it.idx t.cap, none⟩)

/-- `op_htab_iter_del`: the table, the iterator, and the slot that is removed. -/
def iterDel (t : Table κ ν) (it : Iter) : Option (Table κ ν × Iter × Option (Slot κ ν)) :=
  match it.cur.filter (· < t.cap) with
  | none => some (t, it, none)
  | some i =>
    match t.slots i with
    | none => some (t, it, none)
    -- Rewind: re-examine slot i on the next iter_next call
    | some s => (delAt t i).map fun t' => (t', ⟨i, none⟩, some s)

/-! ### Slots in a ring -/

variable {cap i j p : ℕ} {h : UInt64}

/-- A slot after the end is one from the beginning. -/
def wrap (cap p : ℕ) : ℕ := if p < cap then p else p - cap

theorem next_eq (hi : i < cap) : next cap i = if i + 1 = cap then 0 else i + 1 := by
  rw [next]
  split
  · next heq => rw [heq, Nat.mod_self]
  · exact Nat.mod_eq_of_lt (by omega)

theorem next_lt (hi : i < cap) : next cap i < cap := Nat.mod_lt _ (by omega)

theorem home_lt (hcap : 0 < cap) (h : UInt64) : home cap h < cap := Nat.mod_lt _ hcap

theorem dib_eq (hi : i < cap) (h : UInt64) :
    dib cap i h = if home cap h ≤ i then i - home cap h else i + cap - home cap h := by
  have hh := home_lt (Nat.zero_lt_of_lt hi) h
  rw [dib]
  split
  · have hsub : i + cap - home cap h = i - home cap h + cap := by omega
    rw [hsub, Nat.add_mod_right]
    exact Nat.mod_eq_of_lt (by omega)
  · exact Nat.mod_eq_of_lt (by omega)

theorem dib_lt (hi : i < cap) (h : UInt64) : dib cap i h < cap := Nat.mod_lt _ (by omega)

theorem dib_home (hcap : 0 < cap) (h : UInt64) : dib cap (home cap h) h = 0 := by
  rw [dib_eq (home_lt hcap h), if_pos (Nat.le_refl _), Nat.sub_self]

theorem wrap_lt (hp : p < 2 * cap) : wrap cap p < cap := by
  rw [wrap]
  split <;> omega

theorem next_wrap (hp : p + 1 < 2 * cap) : next cap (wrap cap p) = wrap cap (p + 1) := by
  rw [next_eq (wrap_lt (by omega)), wrap, wrap]
  split_ifs <;> omega

theorem next_injective (hi : i < cap) (hj : j < cap) (heq : next cap i = next cap j) : i = j := by
  rw [next_eq hi, next_eq hj] at heq
  split_ifs at heq <;> omega

theorem next_ne (hcap : 1 < cap) (hi : i < cap) : next cap i ≠ i := by
  rw [next_eq hi]
  split_ifs <;> omega

theorem dib_next (hi : i < cap) (hd : dib cap i h + 1 < cap) :
    dib cap (next cap i) h = dib cap i h + 1 := by
  have hh := home_lt (Nat.zero_lt_of_lt hi) h
  rw [dib_eq hi] at hd ⊢
  rw [dib_eq (next_lt hi), next_eq hi]
  split_ifs at hd ⊢ <;> omega

theorem dib_prev (hi : i < cap) (hd : dib cap (next cap i) h ≠ 0) :
    dib cap i h + 1 = dib cap (next cap i) h := by
  have hh := home_lt (Nat.zero_lt_of_lt hi) h
  rw [dib_eq (next_lt hi), next_eq hi] at hd ⊢
  rw [dib_eq hi]
  split_ifs at hd ⊢ <;> omega

theorem wrap_dib (hi : i < cap) (h : UInt64) : wrap cap (home cap h + dib cap i h) = i := by
  have hh := home_lt (Nat.zero_lt_of_lt hi) h
  rw [dib_eq hi, wrap]
  split_ifs <;> omega

end Eggdrop.OpHtab
