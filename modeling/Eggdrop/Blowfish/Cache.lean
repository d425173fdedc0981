import Mathlib.Data.Fintype.Basic
import Eggdrop.Blowfish.Cipher
import Eggdrop.Lib.Run

/-!
# Cache — the boxes that are kept (blowfish.mod/blowfish.c)

The boxes of three keys are kept.  `blowfish_init` looks for a key first; when it is new, it takes an
empty slot, or that which was not used for the longest time, if that is not ahead of the clock.

* `blowfishInit_selects`: while no other key is taken for the new one and the clock is not behind all
  slots, the boxes are those of the key, and each way of the cipher undoes the other.
-/

namespace Eggdrop.Blowfish.Cache

inductive Fault
  /-- `box[-1]` -/
  | noSlot
  /-- `memcpy` with a negative size -/
  | negative
  deriving DecidableEq

/-- `box_t`, when it has boxes. -/
structure Box where
  boxes : Boxes
  key : List Byte
  lastuse : ℤ

/-- `box`, and the slot that `bf_P` and `bf_S` are those of. -/
structure State where
  box : Fin 3 → Option Box
  bf : Option (Fin 3)

/-- No boxes yet. -/
def State.empty : State := ⟨fun _ => none, none⟩

/-- A call: the key, and the time. -/
structure Call where
  key : List Byte
  now : ℤ

/-- The length of a key, an `int`, cut at 80. -/
def Call.keybytes (c : Call) : ℤ := min 80 (toCInt c.key.length)

/-- The part of the key that counts. -/
def Call.cut (c : Call) : List Byte := c.key.take c.keybytes.toNat

/-- The boxes that the cipher uses. -/
def State.selected (s : State) : Option Boxes := (s.bf.bind s.box).map Box.boxes

/-! ### The source -/

/-- The characters that `strncmp` compares. -/
def uptoNul (key : List Byte) : List Byte := key.takeWhile (· != 0)

/-- `(box[i].keybytes == keybytes) && !strncmp(box[i].key, key, keybytes)`. -/
def isMatch (key : List Byte) (b : Box) : Bool :=
  b.key.length == key.length && uptoNul b.key == uptoNul key

/-- The first slot for the key. -/
def findSlot (box : Fin 3 → Option Box) (key : List Byte) : Option (Fin 3) :=
  (List.finRange 3).find? fun i => (box i).any (isMatch key)

/-- The first slot that is empty. -/
def emptySlot (box : Fin 3 → Option Box) : Option (Fin 3) :=
  (List.finRange 3).find? fun i => (box i).isNone

/-- One round of the loop over all slots, for `lowest` and `bx`. -/
def older (box : Fin 3 → Option Box) (s : ℤ × Option (Fin 3)) (i : Fin 3) : ℤ × Option (Fin 3) :=
  match box i with
  | none => s
  | some b => if b.lastuse ≤ s.1 then (b.lastuse, some i) else s

/-- The oldest slot. -/
def oldestSlot (box : Fin 3 → Option Box) (now : ℤ) : Option (Fin 3) :=
  ((List.finRange 3).foldl (older box) (now, none)).2

section Source

variable (init : Boxes)

/-- `blowfish_init`. -/
def blowfishInit (s : State) (c : Call) : Except Fault State :=
  match findSlot s.box c.cut with
  | some i => .ok ⟨Function.update s.box i ((s.box i).map ({ · with lastuse := c.now })), some i⟩
  | none =>
    match (emptySlot s.box).or (oldestSlot s.box c.now) with
    | none => .error .noSlot
    | some i =>
      if c.keybytes < 0 then .error .negative
      else .ok ⟨Function.update s.box i (some ⟨boxesOf init c.cut, c.cut, c.now⟩), some i⟩

end Source

/-! ### When it is right -/

/-- The length of the key is no negative `int`; the slot that is found has the key; and when none is
found, one is empty, or was used no later than now. -/
structure Fits (s : State) (c : Call) : Prop where
  length : 0 ≤ toCInt c.key.length
  same : ∀ i b, findSlot s.box c.cut = some i → s.box i = some b → b.key = c.cut
  slot : findSlot s.box c.cut = none →
    ∃ i, ∀ b, s.box i = some b → b.lastuse ≤ c.now

/-- Every slot has the boxes of its key. -/
def Sound (init : Boxes) (s : State) : Prop := ∀ i b, s.box i = some b → b.boxes = boxesOf init b.key

variable {init : Boxes} {s : State} {c : Call} {box : Fin 3 → Option Box}

theorem Sound.update (h : Sound init s) (i : Fin 3) {o : Option Box} {bf : Option (Fin 3)}
    (ho : ∀ b, o = some b → b.boxes = boxesOf init b.key) :
    Sound init ⟨Function.update s.box i o, bf⟩ := by
  intro j b hb
  by_cases hij : j = i
  · subst hij
    exact ho b (by rw [← hb]; exact (Function.update_self j o s.box).symm)
  · apply h j b
    rw [← hb]
    exact (Function.update_of_ne hij o s.box).symm

theorem selected_update (box : Fin 3 → Option Box) (i : Fin 3) (o : Option Box) :
    (⟨Function.update box i o, some i⟩ : State).selected = o.map Box.boxes := by
  show (Function.update box i o i).map Box.boxes = _
  rw [Function.update_self]

theorem findSlot_some {key : List Byte} {i : Fin 3} (h : findSlot box key = some i) :
    ∃ b, box i = some b ∧ isMatch key b = true := by
  have hany := List.find?_some h
  cases hbox : box i with
  | none =>
    rw [hbox] at hany
    cases hany
  | some b =>
    rw [hbox] at hany
    exact ⟨b, rfl, hany⟩

theorem older_none {is : List (Fin 3)} {now : ℤ} (h : (is.foldl (older box) (now, none)).2 = none) :
    ∀ i ∈ is, ∀ b, box i = some b → ¬ b.lastuse ≤ now := by
  have hkeep (is : List (Fin 3)) (lowest : ℤ) (i : Fin 3) :
      (is.foldl (older box) (lowest, some i)).2 ≠ none := by
    induction is generalizing lowest i with
    | nil => exact Option.some_ne_none i
    | cons j is ih =>
      rw [List.foldl_cons, older]
      cases box j with
      | none => exact ih lowest i
      | some b =>
        dsimp only
        split
        · exact ih b.lastuse j
        · exact ih lowest i
  induction is with
  | nil =>
    intro i hi
    cases hi
  | cons j is ih =>
    intro i hi b hb
    rw [List.foldl_cons, older] at h
    rcases List.mem_cons.1 hi with rfl | hi
    · rw [hb] at h
      dsimp only at h
      split at h
      · exact absurd h (hkeep is b.lastuse i)
      · next hlater => exact hlater
    · cases hj : box j with
      | none =>
        rw [hj] at h
        exact ih h i hi b hb
      | some b' =>
        rw [hj] at h
        dsimp only at h
        split at h
        · exact absurd h (hkeep is b'.lastuse j)
        · exact ih h i hi b hb

theorem exists_slot {now : ℤ} (h : ∃ i, ∀ b, box i = some b → b.lastuse ≤ now) :
    ∃ i, (emptySlot box).or (oldestSlot box now) = some i := by
  obtain ⟨i, hi⟩ := h
  cases hempty : emptySlot box with
  | some j => exact ⟨j, rfl⟩
  | none =>
    rw [Option.none_or]
    apply Option.ne_none_iff_exists'.1
    intro hnone
    have hfull : (box i).isNone = false := by
      have hall := List.find?_eq_none.1 hempty i (List.mem_finRange i)
      exact eq_false_of_ne_true hall
    cases hb : box i with
    | none =>
      rw [hb] at hfull
      cases hfull
    | some b => exact older_none hnone i (List.mem_finRange i) b hb (hi b hb)

theorem blowfishInit_fresh (init : Boxes) (h : 0 ≤ toCInt c.key.length) :
    Blowfish.blowfishInit init c.key = some (boxesOf init c.cut) := by
  unfold Blowfish.blowfishInit
  dsimp only
  rw [if_neg (Int.not_lt.2 h), Call.cut, Call.keybytes]

theorem blowfishInit_step (hs : Sound init s) (hfits : Fits s c) :
    ∃ s', blowfishInit init s c = .ok s' ∧ Sound init s' ∧
      s'.selected = Blowfish.blowfishInit init c.key := by
  rw [blowfishInit_fresh init hfits.length]
  unfold blowfishInit
  cases hfind : findSlot s.box c.cut with
  | some i =>
    obtain ⟨b, hb, -⟩ := findSlot_some hfind
    refine ⟨_, rfl, hs.update i ?_, ?_⟩
    · intro b' hb'
      rw [hb] at hb'
      obtain rfl := Option.some.inj hb'
      exact hs i b hb
    · have hkey := hfits.same i b hfind hb
      rw [selected_update, hb, ← hkey, ← hs i b hb]
      rfl
  | none =>
    obtain ⟨i, hi⟩ := exists_slot (hfits.slot hfind)
    have hnonneg : ¬ c.keybytes < 0 := by
      have hlen := hfits.length
      rw [Call.keybytes]
      omega
    dsimp only
    rw [hi]
    dsimp only
    rw [if_neg hnonneg]
    refine ⟨_, rfl, hs.update i ?_, ?_⟩
    · intro b' hb'
      rw [← Option.some.inj hb']
    · rw [selected_update, Option.map_some]

theorem sound_empty (init : Boxes) : Sound init .empty := by
  intro i b hb
  cases hb

theorem run_selects {calls : List Call} (hs : Sound init s)
    (h : Machine.Along (blowfishInit init) Fits s (calls ++ [c])) :
    ∃ s' bx, Machine.run (blowfishInit init) s (calls ++ [c]) = .ok s' ∧ s'.selected = some bx ∧
      Blowfish.blowfishInit init c.key = some bx := by
  induction calls generalizing s with
  | nil =>
    obtain ⟨s', hstep, -, hsel⟩ := blowfishInit_step hs h.1
    have hfresh := blowfishInit_fresh init h.1.length
    exact ⟨s', _, Machine.run_cons_ok hstep, hsel.trans hfresh, hfresh⟩
  | cons d calls ih =>
    obtain ⟨s₁, hstep, hsound, -⟩ := blowfishInit_step hs h.1
    obtain ⟨s', bx, hrun, hrest⟩ := ih hsound (h.2 s₁ hstep)
    exact ⟨s', bx, (Machine.run_cons_ok hstep).trans hrun, hrest⟩

/-- In every run of calls that fit, the boxes after the last are those of its key, and each way of the
cipher undoes the other. -/
theorem blowfishInit_selects (init : Boxes) (calls : List Call) (c : Call)
    (h : Machine.Along (blowfishInit init) Fits .empty (calls ++ [c])) :
    ∃ s bx, Machine.run (blowfishInit init) .empty (calls ++ [c]) = .ok s ∧ s.selected = some bx ∧
      Blowfish.blowfishInit init c.key = some bx ∧
      (∀ x, blowfishDecipher bx (blowfishEncipher bx x) = x) ∧
      ∀ x, blowfishEncipher bx (blowfishDecipher bx x) = x := by
  obtain ⟨s, bx, hrun, hsel, hfresh⟩ := run_selects (sound_empty init) h
  exact ⟨s, bx, hrun, hsel, hfresh, blowfishDecipher_encipher bx, blowfishEncipher_decipher bx⟩

/-- `Fits`, tried slot by slot. -/
def fits (s : State) (c : Call) : Bool :=
  decide (0 ≤ toCInt c.key.length) &&
    match findSlot s.box c.cut with
    | some i => (s.box i).all (·.key == c.cut)
    | none => (List.finRange 3).any fun i => (s.box i).all (·.lastuse ≤ c.now)

theorem Fits.of_fits (h : fits s c = true) : Fits s c := by
  rw [fits, Bool.and_eq_true] at h
  obtain ⟨hlen, h⟩ := h
  refine ⟨of_decide_eq_true hlen, ?_, ?_⟩
  · intro i b hfind hb
    rw [hfind] at h
    simpa [hb] using h
  · intro hfind
    rw [hfind] at h
    obtain ⟨i, -, hi⟩ := List.any_eq_true.1 h
    refine ⟨i, ?_⟩
    intro b hb
    simpa [hb] using hi

/-- Three keys; the first again, and the second with the clock set back; a fourth, which takes the slot
of the second; and the first once more. -/
def reuse : List Call :=
  [⟨[97], 5⟩, ⟨[98], 6⟩, ⟨[99], 7⟩, ⟨[97], 8⟩, ⟨[98], 3⟩, ⟨[100], 4⟩]

theorem along_reuse :
    Machine.Along (blowfishInit zeroBoxes) (fun s c => fits s c = true) .empty (reuse ++ [⟨[97], 9⟩]) := by
  decide +kernel

theorem blowfishInit_selects_reuse :
    ∃ s bx, Machine.run (blowfishInit zeroBoxes) .empty (reuse ++ [⟨[97], 9⟩]) = .ok s ∧
      s.selected = some bx ∧ Blowfish.blowfishInit zeroBoxes [97] = some bx ∧
      (∀ x, blowfishDecipher bx (blowfishEncipher bx x) = x) ∧
      ∀ x, blowfishEncipher bx (blowfishDecipher bx x) = x :=
  blowfishInit_selects zeroBoxes reuse ⟨[97], 9⟩ (along_reuse.imp fun _ _ => Fits.of_fits)

/-- Four keys, and the clock set back before the fourth. -/
theorem not_blowfishInit : ¬ ∀ (init : Boxes) (calls : List Call) (c : Call),
    ∃ s bx, Machine.run (blowfishInit init) .empty (calls ++ [c]) = .ok s ∧ s.selected = some bx ∧
      Blowfish.blowfishInit init c.key = some bx := by
  intro h
  obtain ⟨s, bx, hrun, -⟩ := h zeroBoxes [⟨[97], 5⟩, ⟨[98], 5⟩, ⟨[99], 5⟩] ⟨[100], 4⟩
  cases hrun

end Eggdrop.Blowfish.Cache
